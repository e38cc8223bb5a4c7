import ComputerSystem.Lib.Machine
import ComputerSystem.Coroutine.Total
/-!
# No task is lost or doubled (`cpp20_coroutine_scheduler.cpp:40-74`)

A handle lives in `ready_`, in `timers_`, or nowhere while its coroutine is being resumed. The
iterator loop of `wake_due_timers` moves it from the second to the first, `pop_front` takes it
out of the first, and `schedule_after` puts it into the second. `Placed` says that at each of
these points every unfinished task has exactly one place and a finished one has none, and
`run_loses_no_task` carries it through every round of `run`. It needs nothing about the sums of
`schedule_after`.
-/

namespace ComputerSystem.Coroutine

/-- In how many places the handle is: entries of `ready_`, entries of `timers_`, and the
coroutine being resumed. -/
def places (s : Scheduler) (running : Option Handle) (h : Handle) : Nat :=
  s.ready.count h + (s.timers.map Timer.handle).count h + if running = some h then 1 else 0

/-- A task that has been started and has not run to completion. -/
def Unfinished (tasks : List (List Int)) (frames : Handle → Frame) (h : Handle) : Prop :=
  h < tasks.length ∧ (frames h).done = false

structure Placed (tasks : List (List Int)) (frames : Handle → Frame) (s : Scheduler)
    (running : Option Handle) : Prop where
  once  : ∀ h, Unfinished tasks frames h → places s running h = 1
  never : ∀ h, ¬ Unfinished tasks frames h → places s running h = 0

/-- One turn of the `while` of `run` (`:41-55`), guard included. -/
def round (w : World) (_ : Unit) : Option World :=
  if w.sched.ready = [] ∧ w.sched.timers = [] then none else iterate w

/-- The states at the head of the `while` (`:41`). -/
def AtHead (tasks : List (List Int)) : World → Prop := Reach round always (start tasks)

/-! ## The moves between the containers -/

/-- Every turn of the iterator loop of `wake_due_timers` leaves each handle as often as it was. -/
theorem wakeLoop_count (tick : Int) (h : Handle) : ∀ (timers : List Timer) (ready : List Handle),
    (wakeLoop tick timers ready).1.count h + ((wakeLoop tick timers ready).2.map Timer.handle).count h =
      ready.count h + (timers.map Timer.handle).count h := by
  intro timers
  induction timers with
  | nil =>
    intro ready
    rfl
  | cons it timers ih =>
    intro ready
    simp only [wakeLoop]
    by_cases hdue : it.wakeTick ≤ tick
    · have := ih (ready ++ [it.handle])
      simp only [hdue, ↓reduceIte, List.map_cons, List.count_cons, List.count_append, List.count_nil] at this ⊢
      omega
    · have := ih ready
      simp only [hdue, ↓reduceIte, List.map_cons, List.count_cons] at this ⊢
      omega

theorem places_wakeDueTimers (s : Scheduler) (running : Option Handle) (h : Handle) :
    places (wakeDueTimers s) running h = places s running h := by
  have := wakeLoop_count s.tick h s.timers s.ready
  simp only [places, wakeDueTimers]
  omega

theorem places_advance (s : Scheduler) (running : Option Handle) (h : Handle) :
    places (advance s) running h = places s running h := by
  unfold advance
  split
  · rw [places_wakeDueTimers]; rfl
  · rfl

/-- `pop_front` (`:50`): the handle leaves `ready_` and is the one that runs. -/
theorem places_pop {s : Scheduler} {handle : Handle} {ready : List Handle} (hs : s.ready = handle :: ready)
    (h : Handle) : places { s with ready := ready } (some handle) h = places s none h := by
  simp only [places, hs, List.count_cons, Option.some.injEq, reduceCtorEq, ↓reduceIte, beq_iff_eq]
  omega

/-- `schedule_after` (`:36`): the coroutine that runs suspends, and its handle is in `timers_`. -/
theorem places_scheduleAfter (s : Scheduler) (handle : Handle) (ticks : Int) (h : Handle) :
    places (scheduleAfter s handle ticks) none h = places s (some handle) h := by
  simp only [places, scheduleAfter, List.map_append, List.map_cons, List.map_nil, List.count_append,
    List.count_singleton, Option.some.injEq, reduceCtorEq, ↓reduceIte, beq_iff_eq]
  omega

theorem Placed.of_places {tasks : List (List Int)} {frames : Handle → Frame} {s s' : Scheduler}
    {running running' : Option Handle} (hp : Placed tasks frames s running)
    (heq : ∀ h, places s' running' h = places s running h) : Placed tasks frames s' running' := by
  constructor
  · intro h hh
    rw [heq, hp.once h hh]
  · intro h hh
    rw [heq, hp.never h hh]

/-! ## One round -/

/-- What a frame keeps: the delays it has awaited and those it has left are those of its task, and
a coroutine ends with none left. -/
def Frame.Ok (f : Frame) (delays : List Int) : Prop :=
  f.step + f.rest.length = delays.length ∧ (f.done = true → f.rest = [])

/-- What holds at the head of the loop. -/
structure HeadInv (tasks : List (List Int)) (w : World) : Prop where
  placed : Placed tasks w.frames w.sched none
  fits   : Fits w.sched
  frames : ∀ h, (ht : h < tasks.length) → (w.frames h).Ok tasks[h]

/-- The coroutine that ran has ended: its handle is in no container and is dropped. -/
theorem Placed.ended {tasks : List (List Int)} {frames : Handle → Frame} {s : Scheduler} {handle : Handle}
    (hp : Placed tasks frames s (some handle)) (hun : Unfinished tasks frames handle) {f : Frame}
    (hf : f.done = true) : Placed tasks (Function.update frames handle f) s none := by
  have hother : ∀ h, h ≠ handle → places s none h = places s (some handle) h := by
    intro h hh
    simp [places, Ne.symm hh]
  have hgone : places s none handle = 0 := by
    have := hp.once handle hun
    simp only [places, ↓reduceIte, reduceCtorEq] at this ⊢
    omega
  constructor
  · intro h hh
    by_cases heq : h = handle
    · subst heq
      rw [Unfinished, Function.update_self, hf] at hh
      exact absurd hh.2 (by decide)
    · rw [Unfinished, Function.update_of_ne heq] at hh
      rw [hother h heq, hp.once h hh]
  · intro h hh
    by_cases heq : h = handle
    · subst heq
      exact hgone
    · rw [Unfinished, Function.update_of_ne heq] at hh
      rw [hother h heq, hp.never h hh]

/-- The coroutine that ran has suspended in `schedule_after`. -/
theorem Placed.suspended {tasks : List (List Int)} {frames : Handle → Frame} {s : Scheduler} {handle : Handle}
    (hp : Placed tasks frames s (some handle)) (hun : Unfinished tasks frames handle) {f : Frame}
    (hf : f.done = false) (ticks : Int) :
    Placed tasks (Function.update frames handle f) (scheduleAfter s handle ticks) none := by
  have hsame : ∀ h, Unfinished tasks (Function.update frames handle f) h ↔ Unfinished tasks frames h := by
    intro h
    by_cases heq : h = handle
    · subst heq
      rw [Unfinished, Function.update_self, hf]
      exact ⟨fun _ => hun, fun _ => ⟨hun.1, rfl⟩⟩
    · rw [Unfinished, Unfinished, Function.update_of_ne heq]
  constructor
  · intro h hh
    rw [places_scheduleAfter, hp.once h ((hsame h).1 hh)]
  · intro h hh
    rw [places_scheduleAfter, hp.never h (mt (hsame h).2 hh)]

/-- At `front()` the deque holds a handle, and it belongs to an unfinished task. -/
theorem HeadInv.front {tasks : List (List Int)} {w : World} (hi : HeadInv tasks w)
    (hne : ¬ (w.sched.ready = [] ∧ w.sched.timers = [])) :
    ∃ handle ready, (advance (wakeDueTimers w.sched)).ready = handle :: ready ∧
      Placed tasks w.frames { advance (wakeDueTimers w.sched) with ready := ready } (some handle) ∧
      Unfinished tasks w.frames handle := by
  have hne' := wakeDueTimers_ne hne
  have hready := advance_ready (fits_wakeDueTimers hi.fits) hne'
  cases hs : (advance (wakeDueTimers w.sched)).ready with
  | nil => exact absurd hs hready
  | cons handle ready =>
    have hp : Placed tasks w.frames { advance (wakeDueTimers w.sched) with ready := ready } (some handle) := by
      refine hi.placed.of_places fun h => ?_
      rw [places_pop hs, places_advance, places_wakeDueTimers]
    refine ⟨handle, ready, rfl, hp, ?_⟩
    by_contra hfin
    have := hp.never handle hfin
    simp [places] at this

/-- A round resumes the coroutine at the front. -/
theorem HeadInv.resumes {tasks : List (List Int)} {w w' : World} (hi : HeadInv tasks w)
    (hne : ¬ (w.sched.ready = [] ∧ w.sched.timers = [])) (hit : Coroutine.iterate w = some w') :
    ∃ handle ready r, (advance (wakeDueTimers w.sched)).ready = handle :: ready ∧
      Placed tasks w.frames { advance (wakeDueTimers w.sched) with ready := ready } (some handle) ∧
      Unfinished tasks w.frames handle ∧
      resume { advance (wakeDueTimers w.sched) with ready := ready } handle (w.frames handle).step
        (w.frames handle).rest = r ∧
      w' = ⟨r.1, Function.update w.frames handle r.2.1,
        w.log ++ .resume (advance (wakeDueTimers w.sched)).tick handle (w.frames handle).step :: r.2.2⟩ := by
  obtain ⟨handle, ready, hs, hp, hun⟩ := hi.front hne
  simp only [Coroutine.iterate, dispatch, hs, hun.2, Bool.false_eq_true, ↓reduceIte, Option.some.injEq] at hit
  exact ⟨handle, ready, _, hs, hp, hun, rfl, hit.symm⟩

/-- A round resumes one coroutine, which ends or suspends. -/
theorem HeadInv.iterate {tasks : List (List Int)} {w w' : World} (hi : HeadInv tasks w)
    (hne : ¬ (w.sched.ready = [] ∧ w.sched.timers = [])) (hit : iterate w = some w') : HeadInv tasks w' := by
  obtain ⟨_, hit', hfits', _⟩ := iterate_total w hi.fits hne
  cases hit.symm.trans hit'
  obtain ⟨handle, ready, r, hs, hp, hun, hr, rfl⟩ := hi.resumes hne hit
  have hcases := resume_cases { advance (wakeDueTimers w.sched) with ready := ready } handle
    (w.frames handle).step (w.frames handle).rest
  rw [hr] at hcases
  obtain ⟨s', f', evs⟩ := r
  simp only at hcases
  have hlt : handle < tasks.length := hun.1
  obtain ⟨hsteps, -⟩ := hi.frames handle hlt
  have hf' : f'.Ok tasks[handle] := by
    rcases hcases with ⟨-, rfl⟩ | ⟨_, rest', step', -, rfl, hadd, -⟩
    · exact ⟨hsteps, fun _ => rfl⟩
    · refine ⟨hadd.trans hsteps, ?_⟩
      intro hd
      cases hd
  refine ⟨?_, hfits', fun h ht => ?_⟩
  · rcases hcases with ⟨rfl, rfl⟩ | ⟨ticks, _, _, rfl, rfl, -, -⟩
    · exact hp.ended hun rfl
    · exact hp.suspended hun rfl ticks
  · by_cases heq : h = handle
    · subst heq
      simpa only [Function.update_self] using hf'
    · simpa only [Function.update_of_ne heq] using hi.frames h ht

/-! ## Whole runs -/

theorem start_headInv (tasks : List (List Int)) : HeadInv tasks (start tasks) := by
  have hcount : ∀ h, (List.range tasks.length).count h = if h < tasks.length then 1 else 0 := by
    intro h
    rw [List.nodup_range.count]
    simp only [List.mem_range]
  have hplaces : ∀ h, places (start tasks).sched none h = if h < tasks.length then 1 else 0 := by
    intro h
    simp [places, start, foldl_spawn, hcount]
  refine ⟨⟨fun h hh => ?_, fun h hh => ?_⟩, ?_, fun h ht => ⟨?_, ?_⟩⟩
  · rw [hplaces, if_pos hh.1]
  · rw [hplaces, if_neg fun hc => hh ⟨hc, rfl⟩]
  · simp [Fits, start, foldl_spawn]
  · simp [start, ht]
  · intro hd
    cases hd

theorem AtHead.inv {tasks : List (List Int)} {w : World} (h : AtHead tasks w) : HeadInv tasks w := by
  refine Reach.invariant (start_headInv tasks) (fun w _ w' hi _ hr => ?_) h
  unfold round at hr
  split at hr
  · cases hr
  · rename_i hne
    exact hi.iterate hne hr

/-- The loop ends at its head, with both containers empty. -/
theorem runLoop_atHead {tasks : List (List Int)} : ∀ (n : Nat) {w w' : World}, AtHead tasks w →
    runLoop n w = some w' → AtHead tasks w' ∧ w'.sched.ready = [] ∧ w'.sched.timers = []
  | n, w, w', hw, h => by
    unfold runLoop at h
    split at h
    · rename_i hempty
      cases h
      exact ⟨hw, hempty⟩
    · rename_i hne
      cases n with
      | zero => cases h
      | succ n =>
        simp only at h
        split at h
        · cases h
        · rename_i w₁ hit
          have hround : round w () = some w₁ := by rw [round, if_neg hne, hit]
          exact runLoop_atHead n (hw.tail (l := ()) trivial hround) h

/-- `run` returns, with every task run through. -/
theorem run_ended (tasks : List (List Int)) :
    ∃ w, run tasks = some w ∧ AtHead tasks w ∧ w.sched.ready = [] ∧ w.sched.timers = [] ∧
      ∀ h, (ht : h < tasks.length) → w.frames h = ⟨[], tasks[h].length, true⟩ := by
  obtain ⟨w, hrun⟩ := run_total tasks
  obtain ⟨hw, hready, htimers⟩ := runLoop_atHead (rounds tasks) Reach.refl hrun
  refine ⟨w, hrun, hw, hready, htimers, fun h ht => ?_⟩
  have hi := hw.inv
  have hdone : (w.frames h).done = true := by
    by_contra hnot
    have := hi.placed.once h ⟨ht, by simpa using hnot⟩
    simp [places, hready, htimers] at this
  obtain ⟨hsteps, hrest⟩ := hi.frames h ht
  cases hf : w.frames h with
  | mk rest step done =>
    simp only [hf] at hdone hrest hsteps
    subst hdone
    obtain rfl := hrest rfl
    simp only [List.length_nil, Nat.add_zero] at hsteps
    rw [hsteps]

/-- **`Scheduler` loses and duplicates no task.** At each head of the loop, and inside the round
after `wake_due_timers`, after the clock jump and with the front handle popped, every unfinished
task has one place and no other handle has any; `front()` finds a handle; and `run` returns with
every task run through all of its delays. -/
theorem run_loses_no_task (tasks : List (List Int)) :
    (∀ w, AtHead tasks w → Placed tasks w.frames w.sched none ∧
      (¬ (w.sched.ready = [] ∧ w.sched.timers = []) →
        Placed tasks w.frames (wakeDueTimers w.sched) none ∧
        Placed tasks w.frames (advance (wakeDueTimers w.sched)) none ∧
        ∃ handle ready, (advance (wakeDueTimers w.sched)).ready = handle :: ready ∧
          Placed tasks w.frames { advance (wakeDueTimers w.sched) with ready := ready } (some handle) ∧
          Unfinished tasks w.frames handle)) ∧
    ∃ w, run tasks = some w ∧ AtHead tasks w ∧ w.sched.ready = [] ∧ w.sched.timers = [] ∧
      ∀ h, (ht : h < tasks.length) → w.frames h = ⟨[], tasks[h].length, true⟩ := by
  constructor
  · intro w hw
    have hi := hw.inv
    refine ⟨hi.placed, fun hne => ⟨?_, ?_, hi.front hne⟩⟩
    · exact hi.placed.of_places (places_wakeDueTimers w.sched none)
    · exact hi.placed.of_places fun h => by rw [places_advance, places_wakeDueTimers]
  · exact run_ended tasks

end ComputerSystem.Coroutine
