import ComputerSystem.Coroutine.Basic
import ComputerSystem.Lib.StableQueue
/-!
# An ideal discrete-event simulator

What the scheduler is for, stated without its two containers: one stable priority queue of
sleepers keyed by the tick they are due at. The simulator takes out the first sleeper with the
least tick, sets the clock to that tick, lets the task run until it sleeps again, and puts it back.

`ideal_order` says what its log looks like: the tasks resumed at tick `d` are exactly those that
called `sleep_for` to be due at `d`, in the order of their calls (at tick 0: all tasks, in spawn
order).
-/

namespace ComputerSystem.Coroutine

structure Sleeper where
  task : Handle
  step : Nat
  rest : List Int
deriving DecidableEq, Repr

/-- Run a task at tick `now`: skip the delays `t ≤ 0`, and sleep until `now + t` at the first
`t > 0`. The entry to queue, if any, and the call that made it. -/
def await (now : Int) (task : Handle) : Nat → List Int → List (Int × Sleeper) × List Event
  | _, [] => ([], [])
  | step, t :: rest =>
    if t ≤ 0 then await now task (step + 1) rest
    else ([(now + t, ⟨task, step + 1, rest⟩)], [.sleep now task step t])

/-- At most so many resumptions. -/
def simulate : Nat → List (Int × Sleeper) → List Event → Option (List Event)
  | n, q, log => match popMin q with
    | none => some log
    | some ((due, s), q') => match n with
      | 0 => none
      | n + 1 =>
        let r := await due s.task s.step s.rest
        simulate n (q' ++ r.1) (log ++ .resume due s.task s.step :: r.2)

/-- All tasks due at tick 0, in spawn order. -/
def spawned (tasks : List (List Int)) : List (Int × Sleeper) :=
  (List.range tasks.length).map fun h => (0, ⟨h, 0, tasks.getD h []⟩)

def ideal (tasks : List (List Int)) : Option (List Event) := simulate (rounds tasks) (spawned tasks) []

/-! ## The order of resumptions -/

/-- The resumptions at tick `d`, in order: task and number of delays awaited. -/
def resumedAt (d : Int) (log : List Event) : List (Handle × Nat) :=
  log.filterMap fun
    | .resume now task step => if now = d then some (task, step) else none
    | .sleep .. => none

/-- The calls of `sleep_for` that are due at tick `d`, in order. -/
def dueAt (d : Int) (log : List Event) : List (Handle × Nat) :=
  log.filterMap fun
    | .resume .. => none
    | .sleep now task step t => if now + t = d then some (task, step + 1) else none

/-- The first resumptions, in spawn order. -/
def firstAt (d : Int) (tasks : List (List Int)) : List (Handle × Nat) :=
  if d = 0 then (List.range tasks.length).map fun h => (h, 0) else []

def Sleeper.key (s : Sleeper) : Handle × Nat := (s.task, s.step)

/-- The queued sleepers due at tick `d`. -/
def queuedAt (d : Int) (q : List (Int × Sleeper)) : List (Handle × Nat) :=
  (q.filter fun e => e.1 = d).map fun e => e.2.key

theorem await_dueAt (d now : Int) (task : Handle) : ∀ (step : Nat) (rest : List Int),
    resumedAt d (await now task step rest).2 = [] ∧
    dueAt d (await now task step rest).2 = queuedAt d (await now task step rest).1
  | _, [] => ⟨rfl, rfl⟩
  | step, t :: rest => by
    simp only [await]
    split
    · exact await_dueAt d now task (step + 1) rest
    · refine ⟨rfl, ?_⟩
      by_cases hd : now + t = d
      · simp [dueAt, queuedAt, Sleeper.key, hd]
      · simp [dueAt, queuedAt, hd]

/-- What has been resumed at `d` and what is queued for `d` are together what is due at `d`. -/
theorem simulate_order (d : Int) (first : List (Handle × Nat)) : ∀ (n : Nat) (q : List (Int × Sleeper))
    (log log' : List Event), simulate n q log = some log' →
    resumedAt d log ++ queuedAt d q = first ++ dueAt d log → resumedAt d log' = first ++ dueAt d log'
  | n, q, log, log', h, hbal => by
    unfold simulate at h
    split at h
    · rename_i hnone
      simp only [Option.some.injEq] at h
      subst h
      simpa [popMin_eq_none.1 hnone, queuedAt] using hbal
    · rename_i due s q' hsome
      cases n with
      | zero => simp at h
      | succ n =>
        refine simulate_order d first n _ _ _ h ?_
        obtain ⟨hres, hdue⟩ := await_dueAt d due s.task s.step s.rest
        have hq : queuedAt d q = (if due = d then [s.key] else []) ++ queuedAt d q' := by
          simp only [queuedAt, popMin_filter hsome d]
          split <;> simp
        rw [hq] at hbal
        simp only [resumedAt, dueAt, queuedAt, List.filterMap_append, List.filterMap_cons, List.filter_append,
          List.map_append] at hres hdue hbal ⊢
        rw [hdue, hres, ← List.append_assoc first, ← hbal]
        by_cases hd : due = d <;> simp [hd, Sleeper.key]

theorem queuedAt_spawned (d : Int) (tasks : List (List Int)) :
    queuedAt d (spawned tasks) = firstAt d tasks := by
  unfold queuedAt spawned firstAt
  rw [List.filter_map]
  by_cases hd : d = 0
  · rw [List.filter_eq_self.2 (by simp [hd])]
    simp [hd, Sleeper.key, Function.comp_def]
  · simp [hd, Ne.symm hd, Function.comp_def]

/-- **Exact and stable**: at every tick the ideal simulator resumes the tasks whose sleep is due
then, in the order in which they went to sleep. -/
theorem ideal_order {tasks : List (List Int)} {log : List Event} (h : ideal tasks = some log) (d : Int) :
    resumedAt d log = firstAt d tasks ++ dueAt d log := by
  refine simulate_order d (firstAt d tasks) _ _ _ _ h ?_
  rw [queuedAt_spawned]
  simp [resumedAt, dueAt]

end ComputerSystem.Coroutine
