import Mathlib.Algebra.Order.BigOperators.Group.List
import ComputerSystem.Coroutine.Places
import ComputerSystem.Coroutine.Refine
/-!
# The clock (`cpp20_coroutine_scheduler.cpp:30-82`)

`tick_` is an `int`, and so is the sum `tick_ + ticks` that a timer is due at; here it is taken modulo
2^32. `tick_` itself never goes back. A sum above `INT_MAX` is a wake tick in the past, and its task is
resumed at once.

`clock_iff` says for which tasks nobody is woken too early: those that each have no more than
`INT_MAX` ticks to sleep in all. In such a run the log is that of the simulator, every event at the sum
of what its task has slept (`simulate_exact`). In the other direction a task that is never woken early
sleeps all its ticks on a clock that is an `int` (`Slept`).
-/

namespace ComputerSystem.Coroutine

/-! ## What a task has slept -/

/-- The ticks that a task sleeps in the first `step` of its delays. -/
def awaited (delays : List Int) (step : Nat) : Int := ((delays.take step).map (max 0 ·)).sum

def delaysOf (tasks : List (List Int)) (h : Handle) : List Int := tasks.getD h []

theorem drop_succ {delays : List Int} {step : Nat} {t : Int} {rest : List Int} (h : delays.drop step = t :: rest) :
    delays.drop (step + 1) = rest := by
  rw [← List.tail_drop, h, List.tail_cons]

theorem awaited_succ {delays : List Int} {step : Nat} {t : Int} {rest : List Int} (h : delays.drop step = t :: rest) :
    awaited delays (step + 1) = awaited delays step + max 0 t := by
  have hget : delays[step]? = some t := by rw [← List.head?_drop, h, List.head?_cons]
  simp [awaited, List.take_add_one, hget]

/-- A delay that does not suspend is none. -/
theorem awaited_skip {delays : List Int} {step : Nat} {t : Int} {rest : List Int} (h : delays.drop step = t :: rest)
    (ht : t ≤ 0) : awaited delays (step + 1) = awaited delays step := by
  rw [awaited_succ h, max_eq_left ht, Int.add_zero]

theorem awaited_le (delays : List Int) (step : Nat) : awaited delays step ≤ awaited delays delays.length := by
  have hsplit : awaited delays delays.length = awaited delays step + ((delays.drop step).map (max 0 ·)).sum := by
    rw [awaited, awaited, List.take_length, ← List.sum_append, ← List.map_append, List.take_append_drop]
  have hrest : 0 ≤ ((delays.drop step).map (max 0 ·)).sum := by
    apply List.sum_nonneg
    intro x hx
    obtain ⟨t, -, rfl⟩ := List.mem_map.1 hx
    exact le_max_left 0 t
  omega

/-! ## The simulator is exact -/

/-- At the tick up to which its task has slept. -/
def Event.Exact (tasks : List (List Int)) : Event → Prop
  | .resume now task step => now = awaited (delaysOf tasks task) step
  | .sleep now task step ticks => now + ticks = awaited (delaysOf tasks task) (step + 1)

def Sleeper.Exact (tasks : List (List Int)) (due : Int) (s : Sleeper) : Prop :=
  due = awaited (delaysOf tasks s.task) s.step ∧ s.rest = (delaysOf tasks s.task).drop s.step

theorem await_exact {tasks : List (List Int)} {now : Int} {task : Handle} : ∀ (step : Nat) (rest : List Int),
    (delaysOf tasks task).drop step = rest → now = awaited (delaysOf tasks task) step →
    (∀ e ∈ (await now task step rest).1, e.2.Exact tasks e.1) ∧ ∀ e ∈ (await now task step rest).2, e.Exact tasks
  | step, [], _, _ => by simp [await]
  | step, t :: rest, hrest, hnow => by
    simp only [await]
    split
    · rename_i ht
      exact await_exact (step + 1) rest (drop_succ hrest) (by rw [awaited_skip hrest ht]; exact hnow)
    · rename_i ht
      have hsum : now + t = awaited (delaysOf tasks task) (step + 1) := by
        rw [awaited_succ hrest, max_eq_right (by omega), hnow]
      refine ⟨?_, ?_⟩
      · intro e he
        rw [List.mem_singleton.1 he]
        exact ⟨hsum, (drop_succ hrest).symm⟩
      · intro e he
        rw [List.mem_singleton.1 he]
        exact hsum

/-- **Nothing is early or late** in the simulator. -/
theorem dispatch_exact {tasks : List (List Int)} {q q' : List (Int × Sleeper)} {due : Int} {s : Sleeper}
    (hpop : popMin q = some ((due, s), q')) (hq : ∀ e ∈ q, e.2.Exact tasks e.1) :
    (∀ e ∈ q' ++ (await due s.task s.step s.rest).1, e.2.Exact tasks e.1) ∧
      ∀ e ∈ Event.resume due s.task s.step :: (await due s.task s.step s.rest).2, e.Exact tasks := by
  obtain ⟨a, b, rfl, rfl, -, -⟩ := popMin_split hpop
  obtain ⟨hdue, hrest⟩ := hq (due, s) (by simp)
  obtain ⟨hqueued, hlogged⟩ := await_exact s.step s.rest hrest.symm hdue
  constructor
  · intro e he
    rcases List.mem_append.1 he with he | he
    · exact hq e (by rcases List.mem_append.1 he with he | he <;> simp [he])
    · exact hqueued e he
  · intro e he
    rcases List.mem_cons.1 he with rfl | he
    · exact hdue
    · exact hlogged e he

/-! ## The scheduler without an overflow -/

/-- Each task has at most `INT_MAX` ticks to sleep. -/
def Bounded (tasks : List (List Int)) : Prop := ∀ delays ∈ tasks, awaited delays delays.length ≤ INT_MAX

theorem awaited_bounded {tasks : List (List Int)} (h : Bounded tasks) (task : Handle) (step : Nat) :
    awaited (delaysOf tasks task) step ≤ INT_MAX := by
  have hle := awaited_le (delaysOf tasks task) step
  by_cases hlt : task < tasks.length
  · have hmem := h (delaysOf tasks task) (by simp [delaysOf, hlt])
    omega
  · have hnil : delaysOf tasks task = [] := by simp [delaysOf, Nat.not_lt.1 hlt]
    rw [hnil]
    simp [awaited, INT_MAX]

theorem Event.Exact.fits {tasks : List (List Int)} (h : Bounded tasks) {e : Event} (he : e.Exact tasks) : e.fits := by
  cases e with
  | resume now task step => trivial
  | sleep now task step ticks =>
    have hle := awaited_bounded h task (step + 1)
    rw [← show now + ticks = _ from he] at hle
    exact hle

/-- From related states the loop logs what the simulator does, and that is exact. -/
theorem runLoop_exact {tasks : List (List Int)} (hb : Bounded tasks) : ∀ (n : Nat) {w w' : World}
    {q : List (Int × Sleeper)}, Rel w q → (∀ e ∈ q, e.2.Exact tasks e.1) → (∀ e ∈ w.log, e.Exact tasks) →
    runLoop n w = some w' → ∀ e ∈ w'.log, e.Exact tasks
  | n, w, w', q, h, hq, hlog, hrun => by
    unfold runLoop at hrun
    split at hrun
    · cases hrun
      exact hlog
    · rename_i hsome
      cases n with
      | zero => cases hrun
      | succ n =>
        simp only at hrun
        split at hrun
        · cases hrun
        · rename_i w1 hit
          have hne : q ≠ [] := fun hnil => hsome (h.nil_iff.1 hnil)
          obtain ⟨hadv, hready⟩ := advance_rel h hne
          obtain ⟨due, s, q', hpop, hlog1, hrel⟩ := dispatch_refines hadv hready hit
          obtain ⟨hq', hevents⟩ := dispatch_exact hpop hq
          have hfit : ∀ e ∈ (await due s.task s.step s.rest).2, e.fits := fun e he =>
            (hevents e (List.mem_cons_of_mem _ he)).fits hb
          refine runLoop_exact hb n (hrel hfit) hq' ?_ hrun
          intro e he
          rw [hlog1] at he
          rcases List.mem_append.1 he with he | he
          · exact hlog e he
          · exact hevents e he

theorem run_exact {tasks : List (List Int)} (hb : Bounded tasks) {w : World} (h : run tasks = some w) :
    ∀ e ∈ w.log, e.Exact tasks := by
  refine runLoop_exact hb _ (start_rel tasks) ?_ ?_ h
  · intro e he
    obtain ⟨task, -, rfl⟩ := List.mem_map.1 he
    exact ⟨by simp [awaited], rfl⟩
  · simp [start]

/-! ## `now()` never goes back -/

def Event.now : Event → Int
  | .resume now _ _ | .sleep now _ _ _ => now

/-- `wake_due_timers` leaves the timers of the future. -/
theorem wakeDueTimers_future (s : Scheduler) : ∀ t ∈ (wakeDueTimers s).timers, (wakeDueTimers s).tick < t.wakeTick := by
  rw [wakeDueTimers_eq]
  intro t ht
  have hlate := (List.mem_filter.1 ht).2
  simp only [decide_not, Bool.not_eq_true', decide_eq_false_iff_not] at hlate
  exact Int.not_le.1 hlate

theorem nextTimerTick_le (s : Scheduler) : nextTimerTick s ≤ INT_MAX := (foldl_min_spec s.timers INT_MAX).2.1

/-- The jump goes to the future, whatever the timers hold. -/
theorem advance_tick {s : Scheduler} (hfits : Fits s) (hne : s.ready ≠ [] ∨ s.timers ≠ [])
    (hfuture : ∀ t ∈ s.timers, s.tick < t.wakeTick) (hmax : s.tick ≤ INT_MAX) :
    s.tick ≤ (advance s).tick ∧ (advance s).tick ≤ INT_MAX := by
  unfold advance
  split
  · rename_i hready
    have htimers : s.timers ≠ [] := hne.resolve_left fun h => h hready
    obtain ⟨t, ht, heq⟩ := (nextTimerTick_spec hfits htimers).2
    have hlt := hfuture t ht
    rw [wakeDueTimers_eq]
    exact ⟨by simp only; omega, nextTimerTick_le s⟩
  · exact ⟨Int.le_refl _, hmax⟩

/-- What a resumed coroutine does, as a whole: it ends, or it suspends in the first delay that is not
ready. -/
theorem resume_delays (s : Scheduler) (h : Handle) {delays : List Int} : ∀ (step : Nat) (rest : List Int),
    delays.drop step = rest →
    (∃ step', resume s h step rest = (s, ⟨[], step', true⟩, []) ∧
      awaited delays step = awaited delays delays.length) ∨
    ∃ k ticks rest', delays.drop k = ticks :: rest' ∧ 0 < ticks ∧ awaited delays k = awaited delays step ∧
      resume s h step rest = (scheduleAfter s h ticks, ⟨rest', k + 1, false⟩, [.sleep s.tick h k ticks])
  | step, [], hrest => by
    refine .inl ⟨step, rfl, ?_⟩
    rw [awaited, awaited, List.take_length, List.take_of_length_le (List.drop_eq_nil_iff.1 hrest)]
  | step, ticks :: rest, hrest => by
    simp only [resume, awaitReady, decide_eq_true_eq]
    split
    · rename_i ht
      have hskip := awaited_skip hrest ht
      rcases resume_delays s h (step + 1) rest (drop_succ hrest) with ⟨step', hr, hend⟩ | ⟨k, t, rest', hk, hpos, heq, hr⟩
      · exact .inl ⟨step', hr, by rw [← hskip]; exact hend⟩
      · exact .inr ⟨k, t, rest', hk, hpos, heq.trans hskip, hr⟩
    · rename_i ht
      exact .inr ⟨step, ticks, rest, hrest, by omega, rfl, rfl⟩

/-- What holds at the head of the loop, whether sums overflow or not. -/
structure ClockInv (tasks : List (List Int)) (w : World) : Prop where
  head   : HeadInv tasks w
  rest   : ∀ h, (w.frames h).done = false → (delaysOf tasks h).drop (w.frames h).step = (w.frames h).rest
  nonneg : 0 ≤ w.sched.tick
  max    : w.sched.tick ≤ INT_MAX
  past   : ∀ e ∈ w.log, e.now ≤ w.sched.tick
  sorted : (w.log.map Event.now).Pairwise (· ≤ ·)

/-- **One round**: the clock is set once, and everything that is logged is logged then. -/
theorem ClockInv.resumes {tasks : List (List Int)} {w w' : World} (hi : ClockInv tasks w) (hs : round w () = some w') :
    ∃ handle evs f, (w.frames handle).done = false ∧ w'.frames = Function.update w.frames handle f ∧
      w'.log = w.log ++ .resume w'.sched.tick handle (w.frames handle).step :: evs ∧
      w.sched.tick ≤ w'.sched.tick ∧ w'.sched.tick ≤ INT_MAX ∧
      ((∃ step', f = ⟨[], step', true⟩ ∧ evs = [] ∧
          awaited (delaysOf tasks handle) (w.frames handle).step =
            awaited (delaysOf tasks handle) (delaysOf tasks handle).length) ∨
        ∃ k ticks rest', f = ⟨rest', k + 1, false⟩ ∧ evs = [.sleep w'.sched.tick handle k ticks] ∧
          (delaysOf tasks handle).drop k = ticks :: rest' ∧ 0 < ticks ∧
          awaited (delaysOf tasks handle) k = awaited (delaysOf tasks handle) (w.frames handle).step) := by
  unfold round at hs
  split at hs
  · cases hs
  · rename_i hne
    have hne' : (wakeDueTimers w.sched).ready ≠ [] ∨ (wakeDueTimers w.sched).timers ≠ [] := wakeDueTimers_ne hne
    have htick := advance_tick (fits_wakeDueTimers hi.head.fits) hne' (wakeDueTimers_future w.sched)
      (by rw [wakeDueTimers_eq]; exact hi.max)
    have hsame : (wakeDueTimers w.sched).tick = w.sched.tick := by rw [wakeDueTimers_eq]
    rw [hsame] at htick
    obtain ⟨handle, ready, r, -, -, hun, hr, rfl⟩ := hi.head.resumes hne hs
    rcases resume_delays { advance (wakeDueTimers w.sched) with ready := ready } handle (w.frames handle).step
      (w.frames handle).rest (hi.rest handle hun.2) with ⟨step', heq, hend⟩ | ⟨k, ticks, rest', hk, hpos, hskip, heq⟩
    · rw [heq] at hr
      subst hr
      exact ⟨handle, [], _, hun.2, rfl, rfl, htick.1, htick.2, .inl ⟨step', rfl, rfl, hend⟩⟩
    · rw [heq] at hr
      subst hr
      exact ⟨handle, _, _, hun.2, rfl, rfl, htick.1, htick.2, .inr ⟨k, ticks, rest', rfl, rfl, hk, hpos, hskip⟩⟩

theorem HeadInv.round {tasks : List (List Int)} {w w' : World} (hi : HeadInv tasks w)
    (hs : Coroutine.round w () = some w') : HeadInv tasks w' := by
  unfold Coroutine.round at hs
  split at hs
  · cases hs
  · rename_i hne
    exact hi.iterate hne hs

theorem ClockInv.round {tasks : List (List Int)} {w w' : World} (hi : ClockInv tasks w)
    (hs : Coroutine.round w () = some w') : ClockInv tasks w' := by
  obtain ⟨handle, evs, f, -, hframes, hlog, hle, hmax, hcase⟩ := hi.resumes hs
  have hnow : ∀ e ∈ Event.resume w'.sched.tick handle (w.frames handle).step :: evs, e.now = w'.sched.tick := by
    intro e he
    rcases List.mem_cons.1 he with rfl | he
    · rfl
    · rcases hcase with ⟨_, -, rfl, -⟩ | ⟨k, ticks, _, -, rfl, -⟩
      · cases he
      · rw [List.mem_singleton.1 he]
        rfl
  refine ⟨hi.head.round hs, ?_, Int.le_trans hi.nonneg hle, hmax, ?_, ?_⟩
  · intro h hdone
    by_cases heq : h = handle
    · subst heq
      rw [hframes, Function.update_self] at hdone ⊢
      rcases hcase with ⟨_, rfl, -⟩ | ⟨k, ticks, rest', rfl, -, hk, -⟩
      · cases hdone
      · exact drop_succ hk
    · rw [hframes, Function.update_of_ne heq] at hdone ⊢
      exact hi.rest h hdone
  · intro e he
    rw [hlog] at he
    rcases List.mem_append.1 he with he | he
    · exact Int.le_trans (hi.past e he) hle
    · exact Int.le_of_eq (hnow e he)
  · rw [hlog, List.map_append, List.pairwise_append]
    refine ⟨hi.sorted, ?_, ?_⟩
    · refine List.pairwise_of_forall_mem_list fun a ha b hb => ?_
      obtain ⟨e, he, rfl⟩ := List.mem_map.1 ha
      obtain ⟨e', he', rfl⟩ := List.mem_map.1 hb
      rw [hnow e he, hnow e' he']
    · intro a ha b hb
      obtain ⟨e, he, rfl⟩ := List.mem_map.1 ha
      obtain ⟨e', he', rfl⟩ := List.mem_map.1 hb
      rw [hnow e' he']
      exact Int.le_trans (hi.past e he) hle

theorem start_clockInv (tasks : List (List Int)) : ClockInv tasks (start tasks) := by
  have htick : (start tasks).sched.tick = 0 := by simp [start, foldl_spawn]
  refine ⟨start_headInv tasks, fun h _ => rfl, ?_, ?_, ?_, ?_⟩
  · rw [htick]
  · rw [htick]
    decide
  · intro e he
    cases he
  · exact List.Pairwise.nil

theorem AtHead.clock {tasks : List (List Int)} {w : World} (h : AtHead tasks w) : ClockInv tasks w :=
  Reach.invariant (start_clockInv tasks) (fun _ _ _ hi _ hr => hi.round hr) h

/-- **The clock never goes back**, from one head of the loop to any later one. -/
theorem clock_mono {tasks : List (List Int)} {w w' : World} (h : AtHead tasks w) (hr : Reach round always w w') :
    w.sched.tick ≤ w'.sched.tick := by
  have hinv : ClockInv tasks w' ∧ w.sched.tick ≤ w'.sched.tick := by
    refine Reach.invariant (I := fun v => ClockInv tasks v ∧ w.sched.tick ≤ v.sched.tick) ⟨h.clock, Int.le_refl _⟩ ?_ hr
    intro v l v' hv _ hstep
    obtain ⟨-, -, -, -, -, -, hle, -⟩ := hv.1.resumes hstep
    exact ⟨hv.1.round hstep, Int.le_trans hv.2 hle⟩
  exact hinv.2

/-! ## A task that is never woken early -/

/-- A sleep of `ticks` ticks ends `ticks` ticks later at the earliest. -/
def Rested (log : List Event) : Prop := ∀ now task step ticks now', .sleep now task step ticks ∈ log →
  .resume now' task (step + 1) ∈ log → now + ticks ≤ now'

/-- A task that is suspended will have slept its ticks, and one that has ended has, by the clock. -/
structure Slept (tasks : List (List Int)) (w : World) : Prop where
  due   : ∀ h, (w.frames h).done = false → (w.frames h).step = 0 ∨ ∃ now step ticks, (w.frames h).step = step + 1 ∧
    .sleep now h step ticks ∈ w.log ∧ awaited (delaysOf tasks h) (step + 1) ≤ now + ticks
  ended : ∀ h, (w.frames h).done = true → awaited (delaysOf tasks h) (delaysOf tasks h).length ≤ INT_MAX

theorem Slept.round {tasks : List (List Int)} {w w' : World} (hi : ClockInv tasks w) (h : Slept tasks w)
    (hs : Coroutine.round w () = some w') (hrested : Rested w'.log) : Slept tasks w' := by
  obtain ⟨handle, evs, f, hrunning, hframes, hlog, hle, hmax, hcase⟩ := hi.resumes hs
  have hold : ∀ {e}, e ∈ w.log → e ∈ w'.log := fun he => by
    rw [hlog]
    exact List.mem_append_left _ he
  have hresumed : .resume w'.sched.tick handle (w.frames handle).step ∈ w'.log := by rw [hlog]; simp
  -- it is resumed no earlier than it has slept
  have hslept : awaited (delaysOf tasks handle) (w.frames handle).step ≤ w'.sched.tick := by
    rcases h.due handle hrunning with hzero | ⟨now, step, ticks, hstep, hsleep, hsum⟩
    · rw [hzero]
      exact Int.le_trans hi.nonneg hle
    · rw [hstep] at hresumed ⊢
      exact Int.le_trans hsum (hrested now handle step ticks _ (hold hsleep) hresumed)
  constructor
  · intro x hdone
    by_cases heq : x = handle
    · subst heq
      rw [hframes, Function.update_self] at hdone ⊢
      rcases hcase with ⟨_, rfl, -⟩ | ⟨k, ticks, rest', rfl, rfl, hk, hpos, hskip⟩
      · cases hdone
      · refine .inr ⟨w'.sched.tick, k, ticks, rfl, by rw [hlog]; simp, ?_⟩
        rw [awaited_succ hk, max_eq_right (by omega), hskip]
        omega
    · rw [hframes, Function.update_of_ne heq] at hdone ⊢
      exact (h.due x hdone).imp_right fun ⟨now, step, ticks, hstep, hsleep, hsum⟩ =>
        ⟨now, step, ticks, hstep, hold hsleep, hsum⟩
  · intro x hdone
    by_cases heq : x = handle
    · subst heq
      rw [hframes, Function.update_self] at hdone
      rcases hcase with ⟨_, rfl, -, hend⟩ | ⟨k, ticks, rest', rfl, -⟩
      · omega
      · cases hdone
    · rw [hframes, Function.update_of_ne heq] at hdone
      exact h.ended x hdone

theorem start_slept (tasks : List (List Int)) : Slept tasks (start tasks) :=
  ⟨fun _ _ => .inl rfl, fun _ hdone => by cases hdone⟩

/-- The invariant comes to the end with the loop. -/
theorem runLoop_slept {tasks : List (List Int)} : ∀ (n : Nat) {w w' : World}, ClockInv tasks w → Slept tasks w →
    runLoop n w = some w' → Rested w'.log → Slept tasks w'
  | n, w, w', hi, h, hrun, hrested => by
    unfold runLoop at hrun
    split at hrun
    · cases hrun
      exact h
    · rename_i hne
      cases n with
      | zero => cases hrun
      | succ n =>
        simp only at hrun
        split at hrun
        · cases hrun
        · rename_i w₁ hit
          have hround : Coroutine.round w () = some w₁ := by rw [Coroutine.round, if_neg hne, hit]
          have hlog := runLoop_log hrun
          have hrested₁ : Rested w₁.log := fun now task step ticks now' hsleep hresume =>
            hrested now task step ticks now' (hlog.subset hsleep) (hlog.subset hresume)
          exact runLoop_slept n (hi.round hround) (h.round hi hround hrested₁) hrun hrested

/-! ## Which tasks are never woken early -/

/-- What is asked of the clock: it does not go back from one head of the loop to a later one, nor between
two events of the log, and nobody who sleeps is resumed early. -/
structure ClockKept (tasks : List (List Int)) : Prop where
  heads  : ∀ w w', AtHead tasks w → Reach round always w w' → w.sched.tick ≤ w'.sched.tick
  events : ∀ w ∈ run tasks, (w.log.map Event.now).Pairwise (· ≤ ·)
  rested : ∀ w ∈ run tasks, Rested w.log

/-- **The clock survives** the tasks that each have at most `INT_MAX` ticks to sleep, and no others. -/
theorem clock_iff (tasks : List (List Int)) : ClockKept tasks ↔ Bounded tasks := by
  constructor
  · intro h delays hmem
    obtain ⟨w, hrun, -, -, -, hframes⟩ := run_ended tasks
    have hslept := runLoop_slept _ (start_clockInv tasks) (start_slept tasks) hrun (h.rested w hrun)
    obtain ⟨i, hi, rfl⟩ := List.mem_iff_getElem.1 hmem
    have hended := hslept.ended i (by rw [hframes i hi])
    have hdelays : delaysOf tasks i = tasks[i] := by simp [delaysOf, hi]
    rw [hdelays] at hended
    exact hended
  · intro hb
    refine ⟨fun w w' hw hr => clock_mono hw hr, fun w hw => ?_, fun w hw => ?_⟩
    · exact (runLoop_atHead _ Reach.refl hw).1.clock.sorted
    · intro now task step ticks now' hsleep hresume
      have hdue := run_exact hb hw _ hsleep
      have hnow := run_exact hb hw _ hresume
      exact Int.le_of_eq (hdue.trans hnow.symm)

/-- A delay of 1, and one of `INT_MAX` behind it: the wake tick is negative, and the task goes on at once. -/
theorem clock_overflow : ¬ ClockKept [[1, INT_MAX]] := by
  intro h
  have hlog : (run [[1, INT_MAX]]).map World.log = some [.resume 0 0 0, .sleep 0 0 0 1, .resume 1 0 1, .sleep 1 0 1 INT_MAX, .resume 1 0 2] := by
    decide
  obtain ⟨w, hw, hlog⟩ := Option.map_eq_some_iff.1 hlog
  have hearly := h.rested w hw 1 0 1 INT_MAX 1 (by rw [hlog]; simp) (by rw [hlog]; simp)
  revert hearly
  decide

end ComputerSystem.Coroutine
