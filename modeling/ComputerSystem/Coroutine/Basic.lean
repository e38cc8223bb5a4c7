import ComputerSystem.CTypes
/-!
# The coroutine scheduler (`Chapter12/12.3/experiments/cpp20_coroutine_scheduler.cpp`)

| here | there |
| --- | --- |
| `Scheduler`, `Timer`  | `class Scheduler` (`:84-86`), `struct Timer` (`:59`) |
| `spawn`, `scheduleAfter` | `:34`, `:36`; `tick_ + ticks` is an `int` sum and wraps |
| `wakeDueTimers`, `nextTimerTick` | `:64`, `:76` |
| `awaitReady`, `resume` | `SleepAwaiter` (`:17-21`) and a coroutine that awaits `sleep_for` of each of its delays in turn |
| `iterate`, `runLoop`, `run` | the body of `run` (`:42-54`), its `while`, and a whole program |

A coroutine handle is the index of its task, and a `Frame` is what the coroutine has still to do.
The log records each resumption, with the clock, and each call that suspends.
-/

namespace ComputerSystem.Coroutine

abbrev Handle := Nat

structure Timer where
  wakeTick : Int
  handle   : Handle
deriving DecidableEq, Repr

structure Scheduler where
  tick   : Int
  ready  : List Handle
  timers : List Timer
deriving DecidableEq, Repr

/-- A suspended coroutine: the delays it has not awaited yet, and how many it has. -/
structure Frame where
  rest : List Int
  step : Nat
  done : Bool
deriving DecidableEq, Repr

inductive Event
  /-- `task` is resumed after it has awaited `step` delays. -/
  | resume (now : Int) (task : Handle) (step : Nat)
  /-- `task` suspends in `sleep_for(ticks)`, its delay number `step`. -/
  | sleep (now : Int) (task : Handle) (step : Nat) (ticks : Int)
deriving DecidableEq, Repr

structure World where
  sched  : Scheduler
  frames : Handle → Frame
  log    : List Event

/-- `spawn` (`:34`). -/
def spawn (s : Scheduler) (handle : Handle) : Scheduler := { s with ready := s.ready ++ [handle] }

/-- `schedule_after` (`:36`). -/
def scheduleAfter (s : Scheduler) (handle : Handle) (ticks : Int) : Scheduler :=
  { s with timers := s.timers ++ [⟨toInt32 (s.tick + ticks), handle⟩] }

/-- The iterator loop of `wake_due_timers` (`:65-73`): what it appends to `ready_` and what it
leaves in `timers_`. -/
def wakeLoop (tick : Int) : List Timer → List Handle → List Handle × List Timer
  | [], ready => (ready, [])
  | it :: timers, ready =>
    if it.wakeTick ≤ tick then wakeLoop tick timers (ready ++ [it.handle])
    else ((wakeLoop tick timers ready).1, it :: (wakeLoop tick timers ready).2)

/-- `wake_due_timers` (`:64`). -/
def wakeDueTimers (s : Scheduler) : Scheduler :=
  { s with ready := (wakeLoop s.tick s.timers s.ready).1, timers := (wakeLoop s.tick s.timers s.ready).2 }

/-- `next_timer_tick` (`:76`). -/
def nextTimerTick (s : Scheduler) : Int :=
  s.timers.foldl (fun next timer => min next timer.wakeTick) INT_MAX

/-- `SleepAwaiter::await_ready` (`:17`). -/
def awaitReady (ticks : Int) : Bool := ticks ≤ 0

/-- Run a coroutine from one suspension point to the next: a delay that is ready is awaited
without suspending, any other goes to `await_suspend` (`:19`). -/
def resume (s : Scheduler) (handle : Handle) : Nat → List Int → Scheduler × Frame × List Event
  | step, [] => (s, ⟨[], step, true⟩, [])
  | step, ticks :: rest =>
    if awaitReady ticks then resume s handle (step + 1) rest
    else (scheduleAfter s handle ticks, ⟨rest, step + 1, false⟩, [.sleep s.tick handle step ticks])

/-- The clock jump of `run` (`:44-47`). -/
def advance (s : Scheduler) : Scheduler :=
  if s.ready = [] then wakeDueTimers { s with tick := nextTimerTick s } else s

/-- `ready_.front()`, `pop_front` and the resumption (`:49-54`); `none` is `front()` on an empty
deque. -/
def dispatch (w : World) : Option World :=
  match w.sched.ready with
  | [] => none
  | handle :: ready =>
    let s := { w.sched with ready := ready }
    let f := w.frames handle
    if f.done then some { w with sched := s }
    else
      let (s', f', log) := resume s handle f.step f.rest
      some { sched := s', frames := Function.update w.frames handle f',
             log := w.log ++ .resume s.tick handle f.step :: log }

/-- One round of the loop of `run` (`:42-54`). -/
def iterate (w : World) : Option World :=
  dispatch { w with sched := advance (wakeDueTimers w.sched) }

/-- The `while` of `run` (`:41`) for at most so many rounds. -/
def runLoop : Nat → World → Option World
  | rounds, w =>
    if w.sched.ready = [] ∧ w.sched.timers = [] then some w
    else match rounds with
    | 0 => none
    | rounds + 1 => match iterate w with
      | none => none
      | some w' => runLoop rounds w'

/-- Each task created, suspended at its start, and started once, in order (`main`, `:156-165`). -/
def start (tasks : List (List Int)) : World where
  sched  := (List.range tasks.length).foldl spawn ⟨0, [], []⟩
  frames := fun h => ⟨tasks.getD h [], 0, false⟩
  log    := []

/-- Every round ends a task or uses up one of its delays. -/
def rounds (tasks : List (List Int)) : Nat := (tasks.map fun delays => delays.length + 1).sum

/-- `scheduler.run()` on the tasks. -/
def run (tasks : List (List Int)) : Option World := runLoop (rounds tasks) (start tasks)

end ComputerSystem.Coroutine
