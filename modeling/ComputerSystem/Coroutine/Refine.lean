import Mathlib.Data.List.Nodup
import ComputerSystem.Coroutine.Total
import ComputerSystem.Coroutine.Ideal
/-!
# The scheduler refines the ideal simulator

`Rel w q` ties the scheduler's two containers to the one queue of the simulator: no sleeper is
overdue, `ready_` is exactly the sleepers due at `tick_`, and `timers_` exactly those due later,
each in insertion order. It is the invariant at the top of the loop of `run` (`:41`): the due
timers drain into `ready_` only when the clock jumps, so every pending timer is strictly in the
future whenever a task runs. One dispatch is then one `popMin` (`dispatch_refines`): the entry popped leaves related states behind
(`Rel.pop`), and a sleep that is queued does (`Rel.push`).
-/

namespace ComputerSystem.Coroutine

/-- The timer that stands for a queued sleeper. -/
def toTimer (e : Int × Sleeper) : Timer := ⟨e.1, e.2.task⟩

structure Rel (w : World) (q : List (Int × Sleeper)) : Prop where
  nonneg  : 0 ≤ w.sched.tick
  notLate : ∀ e ∈ q, w.sched.tick ≤ e.1
  fits    : ∀ e ∈ q, e.1 ≤ INT_MAX
  ready   : (q.filter fun e => e.1 = w.sched.tick).map (fun e => e.2.task) = w.sched.ready
  timers  : (q.filter fun e => w.sched.tick < e.1).map toTimer = w.sched.timers
  frames  : ∀ e ∈ q, w.frames e.2.task = ⟨e.2.rest, e.2.step, false⟩
  nodup   : (q.map fun e => e.2.task).Nodup

/-- The sums a call puts into `timers_` do not exceed `INT_MAX`. -/
def Event.fits : Event → Prop
  | .resume .. => True
  | .sleep now _ _ ticks => now + ticks ≤ INT_MAX

instance : DecidablePred Event.fits := fun e => by
  cases e <;> unfold Event.fits <;> infer_instance

/-- No `tick_ + ticks` that the run computes exceeds `INT_MAX`. -/
def NoOverflow (tasks : List (List Int)) : Prop := ∀ w ∈ run tasks, ∀ e ∈ w.log, e.fits

/-! ## The clock jump -/

theorem wakeDueTimers_of_future {s : Scheduler} (h : ∀ t ∈ s.timers, s.tick < t.wakeTick) :
    wakeDueTimers s = s := by
  have h1 : (s.timers.filter fun t => t.wakeTick ≤ s.tick) = [] :=
    List.filter_eq_nil_iff.2 fun t ht => by have := h t ht; simp; omega
  have h2 : (s.timers.filter fun t => ¬ t.wakeTick ≤ s.tick) = s.timers :=
    List.filter_eq_self.2 fun t ht => by have := h t ht; simp; omega
  rw [wakeDueTimers_eq, h1, h2]
  simp

theorem Rel.future {w : World} {q : List (Int × Sleeper)} (h : Rel w q) :
    ∀ t ∈ w.sched.timers, w.sched.tick < t.wakeTick := by
  intro t ht
  rw [← h.timers, List.mem_map] at ht
  obtain ⟨e, he, rfl⟩ := ht
  simpa [toTimer] using (List.mem_filter.1 he).2

/-- Before the dispatch the clock stands at the least due tick, and `ready_` is not empty. -/
theorem advance_rel {w : World} {q : List (Int × Sleeper)} (h : Rel w q) (hne : q ≠ []) :
    Rel { w with sched := advance (wakeDueTimers w.sched) } q ∧
      (advance (wakeDueTimers w.sched)).ready ≠ [] := by
  rw [wakeDueTimers_of_future h.future]
  by_cases hready : w.sched.ready = []
  · -- nothing is due now, so all of the queue is in `timers_`
    have hall : ∀ e ∈ q, w.sched.tick < e.1 := by
      intro e he
      have h1 := h.notLate e he
      have h2 : (q.filter fun e => e.1 = w.sched.tick) = [] := List.map_eq_nil_iff.1 (h.ready.trans hready)
      have h3 : ¬ e.1 = w.sched.tick := by simpa using List.filter_eq_nil_iff.1 h2 e he
      omega
    have htimers : q.map toTimer = w.sched.timers := by
      rw [← h.timers, List.filter_eq_self.2 (by simpa using hall)]
    have hfits : Fits w.sched := by
      intro t ht
      rw [← htimers, List.mem_map] at ht
      obtain ⟨e, he, rfl⟩ := ht
      exact h.fits e he
    have hne' : w.sched.timers ≠ [] := by simpa [← htimers] using hne
    obtain ⟨hmin, -⟩ := nextTimerTick_spec hfits hne'
    have hnext : ∀ e ∈ q, nextTimerTick w.sched ≤ e.1 := by
      intro e he
      exact hmin (toTimer e) (by rw [← htimers]; exact List.mem_map_of_mem he)
    refine ⟨?_, advance_ready hfits (Or.inr hne')⟩
    unfold advance
    simp only [hready, ↓reduceIte]
    rw [wakeDueTimers_eq]
    obtain ⟨e0, he0⟩ := List.exists_mem_of_ne_nil _ hne
    obtain ⟨t, ht, hteq⟩ := (nextTimerTick_spec hfits hne').2
    have hlt := h.future t ht
    have hnn := h.nonneg
    constructor
    · simp only; omega
    · exact hnext
    · exact h.fits
    · simp only [List.nil_append, ← htimers, List.filter_map, List.map_map]
      refine congrArg _ (List.filter_congr fun e he => ?_)
      have := hnext e he
      show decide (e.1 = nextTimerTick w.sched) = decide (e.1 ≤ nextTimerTick w.sched)
      rw [decide_eq_decide]
      omega
    · simp only [← htimers, List.filter_map]
      refine congrArg _ (List.filter_congr fun e he => ?_)
      show decide (nextTimerTick w.sched < e.1) = decide (¬ e.1 ≤ nextTimerTick w.sched)
      rw [decide_eq_decide]
      omega
    · exact h.frames
    · exact h.nodup
  · have hadv : advance w.sched = w.sched := by simp [advance, hready]
    rw [hadv]
    exact ⟨h, hready⟩

/-! ## One resumption -/

/-- `resume` puts into `timers_` what `await` queues, and both log the same calls. -/
theorem resume_await (s : Scheduler) (h : Handle) : ∀ (step : Nat) (rest : List Int),
    (resume s h step rest).2.2 = (await s.tick h step rest).2 ∧
    ((await s.tick h step rest).1 = [] ∧ (resume s h step rest).1 = s ∨
      ∃ ticks step' rest', 0 < ticks ∧
        (await s.tick h step rest).1 = [(s.tick + ticks, ⟨h, step' + 1, rest'⟩)] ∧
        (await s.tick h step rest).2 = [.sleep s.tick h step' ticks] ∧
        (resume s h step rest).1 = scheduleAfter s h ticks ∧
        (resume s h step rest).2.1 = ⟨rest', step' + 1, false⟩)
  | _, [] => ⟨rfl, Or.inl ⟨rfl, rfl⟩⟩
  | step, ticks :: rest => by
    simp only [resume, await, awaitReady, decide_eq_true_eq]
    by_cases ht : ticks ≤ 0
    · simpa only [ht, ↓reduceIte] using resume_await s h (step + 1) rest
    · simp only [ht, ↓reduceIte]
      exact ⟨trivial, Or.inr ⟨ticks, step, rest, by omega, rfl, rfl, rfl, rfl⟩⟩

/-- The head of `ready_` is what is popped, and what is left is related, whatever becomes of the frame
of the task. -/
theorem Rel.pop {w : World} {q : List (Int × Sleeper)} (h : Rel w q) {handle : Handle} {ready : List Handle}
    (hready : w.sched.ready = handle :: ready) :
    ∃ s q', popMin q = some ((w.sched.tick, s), q') ∧ s.task = handle ∧
      w.frames handle = ⟨s.rest, s.step, false⟩ ∧ (∀ e ∈ q', e.2.task ≠ handle) ∧
      ∀ f log, Rel ⟨{ w.sched with ready := ready }, Function.update w.frames handle f, log⟩ q' := by
  obtain ⟨m, r, hf, rfl, hr⟩ : ∃ m r, (q.filter fun e => e.1 = w.sched.tick) = m :: r ∧ m.2.task = handle ∧
      r.map (fun e => e.2.task) = ready := by
    have := h.ready
    rw [hready, List.map_eq_cons_iff] at this
    exact this
  obtain ⟨q', hpop, hdue⟩ := popMin_of_filter h.notLate hf
  obtain ⟨due, s⟩ := m
  simp only at hdue
  subst hdue
  have hq' : (q'.filter fun e => e.1 = w.sched.tick) = r := by
    have := popMin_filter hpop w.sched.tick
    rw [hf] at this
    simpa using this.symm
  obtain ⟨a, b, hq, rfl, -, -⟩ := popMin_split hpop
  have hmem : (w.sched.tick, s) ∈ q := by simp [hq]
  have hsub : ∀ e ∈ a ++ b, e ∈ q := by
    intro e he
    rw [hq]
    rcases List.mem_append.1 he with he | he <;> simp [he]
  have hnd : ((a ++ b).map fun e => e.2.task).Nodup ∧ ∀ e ∈ a ++ b, e.2.task ≠ s.task := by
    have := h.nodup
    rw [hq, List.map_append, List.map_cons, List.nodup_middle, List.nodup_cons, ← List.map_append] at this
    refine ⟨this.2, fun e he heq => this.1 ?_⟩
    rw [← heq]
    exact List.mem_map_of_mem he
  refine ⟨s, a ++ b, hpop, rfl, h.frames _ hmem, hnd.2, fun f log => ?_⟩
  constructor
  · exact h.nonneg
  · exact fun e he => h.notLate e (hsub e he)
  · exact fun e he => h.fits e (hsub e he)
  · rw [hq', hr]
  · rw [← h.timers, hq]
    simp [List.filter_append]
  · intro e he
    have hother : Function.update w.frames s.task f e.2.task = w.frames e.2.task := Function.update_of_ne (hnd.2 e he) ..
    exact hother.trans (h.frames e (hsub e he))
  · exact hnd.1

/-- A task that sleeps: the same entry goes to the end of `timers_` and of the queue. -/
theorem Rel.push {w : World} {q : List (Int × Sleeper)} (h : Rel w q) {s : Sleeper} {ticks : Int}
    (hnew : ∀ e ∈ q, e.2.task ≠ s.task) (hframe : w.frames s.task = ⟨s.rest, s.step, false⟩) (hpos : 0 < ticks)
    (hsum : w.sched.tick + ticks ≤ INT_MAX) :
    Rel { w with sched := scheduleAfter w.sched s.task ticks } (q ++ [(w.sched.tick + ticks, s)]) := by
  have hnn := h.nonneg
  have hwrap : toInt32 (w.sched.tick + ticks) = w.sched.tick + ticks := toInt32_eq (by omega) hsum
  constructor
  · exact hnn
  · intro e he
    rcases List.mem_append.1 he with he | he
    · exact h.notLate e he
    · rw [List.mem_singleton.1 he]; simp only [scheduleAfter]; omega
  · intro e he
    rcases List.mem_append.1 he with he | he
    · exact h.fits e he
    · rw [List.mem_singleton.1 he]; exact hsum
  · have hno : ¬ ticks = 0 := by omega
    show ((q ++ [(w.sched.tick + ticks, s)]).filter fun e => e.1 = w.sched.tick).map (fun e => e.2.task) = w.sched.ready
    rw [List.filter_append, List.map_append, h.ready]
    simp [hno]
  · have htimers := h.timers
    rw [List.filter_append, List.map_append]
    simpa [scheduleAfter, hpos, toTimer, hwrap] using htimers
  · intro e he
    rcases List.mem_append.1 he with he | he
    · exact h.frames e he
    · rw [List.mem_singleton.1 he]; exact hframe
  · rw [List.map_append, List.nodup_append]
    refine ⟨h.nodup, by simp, ?_⟩
    intro x hx y hy
    obtain ⟨e, he, rfl⟩ := List.mem_map.1 hx
    simp only [List.map_cons, List.map_nil, List.mem_singleton] at hy
    rw [hy]
    exact hnew e he

/-- **One dispatch is one pop** of the simulator's queue, as long as its sum does not overflow. -/
theorem dispatch_refines {w w' : World} {q : List (Int × Sleeper)} (h : Rel w q) (hne : w.sched.ready ≠ [])
    (hd : dispatch w = some w') :
    ∃ due s q', popMin q = some ((due, s), q') ∧
      w'.log = w.log ++ .resume due s.task s.step :: (await due s.task s.step s.rest).2 ∧
      ((∀ e ∈ (await due s.task s.step s.rest).2, e.fits) → Rel w' (q' ++ (await due s.task s.step s.rest).1)) := by
  obtain ⟨handle, ready, hready⟩ := List.exists_cons_of_ne_nil hne
  obtain ⟨s, q', hpop, rfl, hframe, hnew, hrel⟩ := h.pop hready
  refine ⟨w.sched.tick, s, q', hpop, ?_⟩
  unfold dispatch at hd
  simp only [hready, hframe, Bool.false_eq_true, ↓reduceIte] at hd
  obtain ⟨hlog, hcases⟩ := resume_await { w.sched with ready := ready } s.task s.step s.rest
  generalize resume { w.sched with ready := ready } s.task s.step s.rest = res at hd hlog hcases
  obtain ⟨s', f', evs⟩ := res
  simp only [Option.some.injEq] at hd hlog hcases
  subst hd hlog
  refine ⟨rfl, fun hfit => ?_⟩
  rcases hcases with ⟨hq0, rfl⟩ | ⟨ticks, step', rest', hpos, hq1, hev, rfl, rfl⟩
  · -- the task ended
    rw [hq0, List.append_nil]
    exact hrel _ _
  · have hsum : w.sched.tick + ticks ≤ INT_MAX := by
      have := hfit (.sleep w.sched.tick s.task step' ticks) (by simp [hev])
      simpa [Event.fits] using this
    rw [hq1]
    exact (hrel _ _).push (s := ⟨s.task, step' + 1, rest'⟩) hnew (by simp) hpos hsum

/-! ## Whole runs -/

theorem Rel.nil_iff {w : World} {q : List (Int × Sleeper)} (h : Rel w q) :
    q = [] ↔ w.sched.ready = [] ∧ w.sched.timers = [] := by
  constructor
  · rintro rfl
    exact ⟨by simpa using h.ready.symm, by simpa using h.timers.symm⟩
  · rintro ⟨hr, ht⟩
    have h1 := h.ready
    have h2 := h.timers
    rw [hr, List.map_eq_nil_iff, List.filter_eq_nil_iff] at h1
    rw [ht, List.map_eq_nil_iff, List.filter_eq_nil_iff] at h2
    cases q with
    | nil => rfl
    | cons e q =>
      have := h.notLate e (by simp)
      have := h1 e (by simp)
      have := h2 e (by simp)
      simp at *
      omega

/-- The log of a run only grows. -/
theorem dispatch_log {w w' : World} (h : dispatch w = some w') : w.log <+: w'.log := by
  unfold dispatch at h
  split at h
  · cases h
  · simp only at h
    split at h
    · simp only [Option.some.injEq] at h
      subst h
      exact List.prefix_refl _
    · simp only [Option.some.injEq] at h
      subst h
      exact List.prefix_append _ _

theorem runLoop_log : ∀ {n : Nat} {w w' : World}, runLoop n w = some w' → w.log <+: w'.log
  | n, w, w', h => by
    unfold runLoop at h
    split at h
    · simp only [Option.some.injEq] at h
      subst h
      exact List.prefix_refl _
    · cases n with
      | zero => simp at h
      | succ n =>
        simp only at h
        split at h
        · cases h
        · rename_i w1 h1
          have h2 := dispatch_log (w := { w with sched := advance (wakeDueTimers w.sched) }) h1
          exact h2.trans (runLoop_log h)

/-- From related states the loop and the simulator write the same log. -/
theorem runLoop_refines : ∀ (n : Nat) {w w' : World} {q : List (Int × Sleeper)}, Rel w q →
    runLoop n w = some w' → (∀ e ∈ w'.log, e.fits) → simulate n q w.log = some w'.log
  | n, w, w', q, h, hrun, hfit => by
    unfold runLoop at hrun
    unfold simulate
    split at hrun
    · rename_i hempty
      simp only [Option.some.injEq] at hrun
      subst hrun
      rw [h.nil_iff.2 hempty]
      rfl
    · rename_i hsome
      cases n with
      | zero => simp at hrun
      | succ n =>
        simp only at hrun
        split at hrun
        · cases hrun
        · rename_i w1 hit
          have hq : q ≠ [] := fun hq => hsome (h.nil_iff.1 hq)
          obtain ⟨hadv, hready⟩ := advance_rel h hq
          have hlog := runLoop_log hrun
          obtain ⟨due, s, q', hpop, hlog1, hrel⟩ := dispatch_refines hadv hready hit
          have hrel := hrel fun e he => hfit e (hlog.subset (by rw [hlog1]; simp [he]))
          simp only [hpop]
          rw [← hlog1]
          exact runLoop_refines n hrel hrun hfit

theorem start_rel (tasks : List (List Int)) : Rel (start tasks) (spawned tasks) := by
  have htick : (start tasks).sched = ⟨0, List.range tasks.length, []⟩ := by simp [start, foldl_spawn]
  have hzero : ∀ e ∈ spawned tasks, e.1 = 0 := by
    intro e he
    obtain ⟨h, -, rfl⟩ := List.mem_map.1 he
    rfl
  constructor
  · simp [htick]
  · intro e he; simp [htick, hzero e he]
  · intro e he; rw [hzero e he]; decide
  · rw [htick, List.filter_eq_self.2 fun e he => by simp [hzero e he]]
    simp [spawned, Function.comp_def]
  · rw [htick, List.filter_eq_nil_iff.2 fun e he => by simp [hzero e he]]
    rfl
  · intro e he
    obtain ⟨h, -, rfl⟩ := List.mem_map.1 he
    rfl
  · simpa [spawned, Function.comp_def] using List.nodup_range

/-- **`Scheduler::run` is the ideal simulator.** When no wake tick overflows, `run` returns, its log
is the one of the simulator with a stable priority queue, and at every tick the tasks resumed are
those whose sleep is due exactly then, in the order of their calls. -/
theorem run_refines_ideal (tasks : List (List Int)) (hno : NoOverflow tasks) :
    ∃ w, run tasks = some w ∧ ideal tasks = some w.log ∧
      ∀ d, resumedAt d w.log = firstAt d tasks ++ dueAt d w.log := by
  obtain ⟨w, hw⟩ := run_total tasks
  have hsim : ideal tasks = some w.log := runLoop_refines _ (start_rel tasks) hw (hno w hw)
  exact ⟨w, hw, hsim, ideal_order hsim⟩

/-- The three requests of `main` (`:159-161`). -/
theorem run_refines_ideal_main : ∃ w, run [[3, 2], [1, 1], [2, 1]] = some w ∧
    ideal [[3, 2], [1, 1], [2, 1]] = some w.log ∧
    ∀ d, resumedAt d w.log = firstAt d [[3, 2], [1, 1], [2, 1]] ++ dueAt d w.log :=
  run_refines_ideal _ (by
    have h : (run [[3, 2], [1, 1], [2, 1]]).all (fun w => w.log.all fun e => e.fits) = true := by
      decide +kernel
    intro w hw e he
    rw [Option.mem_def] at hw
    rw [hw, Option.all_some, List.all_eq_true] at h
    simpa using h e he)

end ComputerSystem.Coroutine
