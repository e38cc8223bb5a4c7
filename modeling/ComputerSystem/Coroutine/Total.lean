import ComputerSystem.Coroutine.Basic
import Mathlib.Algebra.BigOperators.Group.List.Basic
/-!
# `Scheduler::run` returns

Each round of `run` pops one handle, and a handle comes back through `timers_` only when its task
has used up a delay, so `measure` goes down. `ready_.front()` is safe because the clock jump
(`:44-47`) makes at least one timer due: `nextTimerTick` is the wake tick of some timer.
Neither needs the sums of `schedule_after` to stay below `INT_MAX`.
-/

namespace ComputerSystem.Coroutine

/-- What a handle can still cost: one round for each delay left, and one to end. -/
def weight (frames : Handle → Frame) (h : Handle) : Nat := (frames h).rest.length + 1

def measure (s : Scheduler) (frames : Handle → Frame) : Nat :=
  (s.ready.map (weight frames)).sum + (s.timers.map fun t => weight frames t.handle).sum

/-- Wake ticks are C `int`s. -/
def Fits (s : Scheduler) : Prop := ∀ t ∈ s.timers, t.wakeTick ≤ INT_MAX

theorem toInt32_le (z : Int) : toInt32 z ≤ INT_MAX := by
  unfold toInt32 INT_MAX
  have := Int.bmod_lt (x := z) (m := 2 ^ 32) (by decide)
  omega

theorem measure_eq_zero (s : Scheduler) (frames : Handle → Frame) :
    measure s frames = 0 ↔ s.ready = [] ∧ s.timers = [] := by
  unfold measure
  constructor
  · intro h
    cases hr : s.ready with
    | cons x r => rw [hr, List.map_cons, List.sum_cons, weight] at h; omega
    | nil =>
      cases ht : s.timers with
      | cons t r => rw [ht, List.map_cons, List.sum_cons, weight] at h; omega
      | nil => exact ⟨rfl, rfl⟩
  · rintro ⟨hr, ht⟩
    simp [hr, ht]

/-! ## `wake_due_timers` and the clock jump -/

theorem wakeLoop_eq (tick : Int) : ∀ (timers : List Timer) (ready : List Handle),
    wakeLoop tick timers ready =
      (ready ++ (timers.filter fun t => t.wakeTick ≤ tick).map Timer.handle,
       timers.filter fun t => ¬ t.wakeTick ≤ tick) := by
  intro timers
  induction timers with
  | nil =>
    intro ready
    simp [wakeLoop]
  | cons it timers ih =>
    intro ready
    simp only [wakeLoop]
    by_cases h : it.wakeTick ≤ tick
    · simp [ih, h]
    · simp [ih, h, Int.not_le.1 h]

theorem wakeDueTimers_eq (s : Scheduler) :
    wakeDueTimers s = { s with
      ready := s.ready ++ (s.timers.filter fun t => t.wakeTick ≤ s.tick).map Timer.handle
      timers := s.timers.filter fun t => ¬ t.wakeTick ≤ s.tick } := by
  simp only [wakeDueTimers, wakeLoop_eq]

theorem measure_wakeDueTimers (s : Scheduler) (frames : Handle → Frame) :
    measure (wakeDueTimers s) frames = measure s frames := by
  have hsplit : ∀ (timers : List Timer),
      ((timers.filter fun t => t.wakeTick ≤ s.tick).map fun t => weight frames t.handle).sum +
        ((timers.filter fun t => ¬ t.wakeTick ≤ s.tick).map fun t => weight frames t.handle).sum =
      (timers.map fun t => weight frames t.handle).sum := by
    intro timers
    induction timers with
    | nil => rfl
    | cons t timers ih =>
      by_cases ht : t.wakeTick ≤ s.tick
      · simp only [List.filter_cons, ht, decide_true, not_true_eq_false, decide_false, ↓reduceIte,
          List.map_cons, List.sum_cons, Bool.false_eq_true] at ih ⊢
        omega
      · simp only [List.filter_cons, ht, decide_false, not_false_eq_true, decide_true, ↓reduceIte,
          List.map_cons, List.sum_cons, Bool.false_eq_true] at ih ⊢
        omega
  have := hsplit s.timers
  rw [wakeDueTimers_eq]
  simp only [measure, List.map_append, List.map_map, List.sum_append, Function.comp_def] at this ⊢
  omega

/-- `wake_due_timers` only moves handles. -/
theorem wakeDueTimers_ne {s : Scheduler} (hne : ¬ (s.ready = [] ∧ s.timers = [])) :
    (wakeDueTimers s).ready ≠ [] ∨ (wakeDueTimers s).timers ≠ [] := by
  by_contra hno
  simp only [ne_eq, not_or, Decidable.not_not] at hno
  rw [← measure_eq_zero _ fun _ => ⟨[], 0, true⟩, measure_wakeDueTimers, measure_eq_zero] at hno
  exact hne hno

theorem fits_wakeDueTimers {s : Scheduler} (h : Fits s) : Fits (wakeDueTimers s) := by
  rw [wakeDueTimers_eq]
  intro t ht
  exact h t (List.mem_of_mem_filter ht)

/-- The fold of `next_timer_tick` is a lower bound, and one of the ticks it has seen. -/
theorem foldl_min_spec : ∀ (timers : List Timer) (next : Int),
    (∀ t ∈ timers, timers.foldl (fun next timer => min next timer.wakeTick) next ≤ t.wakeTick) ∧
    timers.foldl (fun next timer => min next timer.wakeTick) next ≤ next ∧
    (timers.foldl (fun next timer => min next timer.wakeTick) next = next ∨
      ∃ t ∈ timers, timers.foldl (fun next timer => min next timer.wakeTick) next = t.wakeTick) := by
  intro timers
  induction timers with
  | nil =>
    intro next
    simp
  | cons t timers ih =>
    intro next
    obtain ⟨hle, hnext, heq⟩ := ih (min next t.wakeTick)
    simp only [List.foldl_cons]
    refine ⟨fun u hu => ?_, by omega, ?_⟩
    · rcases List.mem_cons.1 hu with rfl | hu
      · omega
      · exact hle u hu
    · rcases heq with heq | ⟨u, hu, heq⟩
      · rcases Int.le_total next t.wakeTick with h | h
        · left; omega
        · right; exact ⟨t, by simp, by omega⟩
      · right; exact ⟨u, by simp [hu], heq⟩

/-- **`next_timer_tick` (`:76`)** is the earliest wake tick. -/
theorem nextTimerTick_spec {s : Scheduler} (hfits : Fits s) (hne : s.timers ≠ []) :
    (∀ t ∈ s.timers, nextTimerTick s ≤ t.wakeTick) ∧ ∃ t ∈ s.timers, t.wakeTick = nextTimerTick s := by
  obtain ⟨hle, -, heq⟩ := foldl_min_spec s.timers INT_MAX
  refine ⟨hle, ?_⟩
  rcases heq with heq | ⟨t, ht, heq⟩
  · obtain ⟨t, ht⟩ := List.exists_mem_of_ne_nil _ hne
    have h1 := hle t ht
    have h2 := hfits t ht
    exact ⟨t, ht, by unfold nextTimerTick; omega⟩
  · exact ⟨t, ht, heq.symm⟩

theorem advance_ready {s : Scheduler} (hfits : Fits s) (hne : s.ready ≠ [] ∨ s.timers ≠ []) :
    (advance s).ready ≠ [] := by
  unfold advance
  split
  · rename_i hready
    obtain ⟨t, ht, heq⟩ := (nextTimerTick_spec hfits (by simpa [hready] using hne)).2
    rw [wakeDueTimers_eq]
    have hmem : t ∈ s.timers.filter fun t => t.wakeTick ≤ nextTimerTick s :=
      List.mem_filter.2 ⟨ht, by simp [heq]⟩
    simpa [hready] using List.ne_nil_of_mem hmem
  · assumption

theorem measure_advance (s : Scheduler) (frames : Handle → Frame) :
    measure (advance s) frames = measure s frames := by
  unfold advance
  split
  · rw [measure_wakeDueTimers]; rfl
  · rfl

theorem fits_advance {s : Scheduler} (h : Fits s) : Fits (advance s) := by
  unfold advance
  split
  · exact fits_wakeDueTimers h
  · exact h

/-! ## One round and the loop -/

/-- A resumed coroutine ends, or puts one timer in and has fewer delays left. -/
theorem resume_cases (s : Scheduler) (h : Handle) : ∀ (step : Nat) (rest : List Int),
    ((resume s h step rest).1 = s ∧ (resume s h step rest).2.1 = ⟨[], step + rest.length, true⟩) ∨
    (∃ ticks rest' step', (resume s h step rest).1 = scheduleAfter s h ticks ∧
      (resume s h step rest).2.1 = ⟨rest', step', false⟩ ∧
      step' + rest'.length = step + rest.length ∧ rest'.length < rest.length)
  | step, [] => Or.inl ⟨rfl, rfl⟩
  | step, ticks :: rest => by
    simp only [resume]
    split
    · rcases resume_cases s h (step + 1) rest with ⟨hs, hf⟩ | ⟨t, rest', step', hs, hf, hadd, hlt⟩
      · refine Or.inl ⟨hs, ?_⟩
        rw [hf, List.length_cons, Nat.add_assoc, Nat.add_comm 1]
      · refine Or.inr ⟨t, rest', step', hs, hf, ?_, ?_⟩
        · rw [List.length_cons]; omega
        · rw [List.length_cons]; omega
    · refine Or.inr ⟨ticks, rest, step + 1, rfl, rfl, ?_, ?_⟩
      · rw [List.length_cons]; omega
      · rw [List.length_cons]; omega

theorem sum_map_le {α : Type} {f g : α → Nat} (h : ∀ a, f a ≤ g a) : ∀ l : List α, (l.map f).sum ≤ (l.map g).sum := by
  intro l
  induction l with
  | nil => exact Nat.le_refl _
  | cons a l ih =>
    have h1 := h a
    simp only [List.map_cons, List.sum_cons]
    omega

theorem dispatch_total (w : World) (hfits : Fits w.sched) (hne : w.sched.ready ≠ []) :
    ∃ w', dispatch w = some w' ∧ Fits w'.sched ∧ measure w'.sched w'.frames < measure w.sched w.frames := by
  unfold dispatch
  cases hready : w.sched.ready with
  | nil => exact absurd hready hne
  | cons h ready =>
    simp only
    split
    · refine ⟨_, rfl, hfits, ?_⟩
      simp only [measure, hready, List.map_cons, List.sum_cons, weight]
      omega
    · refine ⟨_, rfl, ?_⟩
      have hcases := resume_cases { w.sched with ready := ready } h (w.frames h).step (w.frames h).rest
      generalize resume { w.sched with ready := ready } h (w.frames h).step (w.frames h).rest = r at hcases
      obtain ⟨s', f', evs⟩ := r
      simp only at hcases ⊢
      have hlen : f'.rest.length ≤ (w.frames h).rest.length := by
        rcases hcases with ⟨_, rfl⟩ | ⟨_, _, _, _, rfl, _, hlt⟩
        · exact Nat.zero_le _
        · exact Nat.le_of_lt hlt
      -- no other handle got heavier
      have hw : ∀ x, weight (Function.update w.frames h f') x ≤ weight w.frames x := by
        intro x
        by_cases hx : x = h
        · subst hx; simpa [weight] using hlen
        · simp [weight, hx]
      have hr := sum_map_le hw ready
      have ht := sum_map_le (fun t : Timer => hw t.handle) w.sched.timers
      rcases hcases with ⟨rfl, _⟩ | ⟨ticks, rest', step', rfl, rfl, _, hlt⟩
      · refine ⟨hfits, ?_⟩
        simp only [measure, hready, List.map_cons, List.sum_cons]
        have : 0 < weight w.frames h := by simp [weight]
        omega
      · constructor
        · intro t htm
          rcases List.mem_append.1 htm with htm | htm
          · exact hfits t htm
          · rw [List.mem_singleton.1 htm]
            exact toInt32_le _
        · have hself : weight (Function.update w.frames h ⟨rest', step', false⟩) h < weight w.frames h := by
            simpa [weight] using hlt
          simp only [measure, scheduleAfter, hready, List.map_cons, List.map_append, List.map_nil,
            List.sum_cons, List.sum_append, List.sum_nil]
          omega

/-- A round never finds `ready_` empty at `front()`, and brings the end nearer. -/
theorem iterate_total (w : World) (hfits : Fits w.sched) (hne : ¬ (w.sched.ready = [] ∧ w.sched.timers = [])) :
    ∃ w', iterate w = some w' ∧ Fits w'.sched ∧ measure w'.sched w'.frames < measure w.sched w.frames := by
  have hfits' := fits_wakeDueTimers hfits
  have hne' := wakeDueTimers_ne hne
  obtain ⟨w', h1, h2, h3⟩ := dispatch_total { w with sched := advance (wakeDueTimers w.sched) }
    (fits_advance hfits') (advance_ready hfits' hne')
  exact ⟨w', h1, h2, by simpa [measure_advance, measure_wakeDueTimers] using h3⟩

theorem runLoop_total : ∀ (n : Nat) (w : World), Fits w.sched → measure w.sched w.frames ≤ n →
    ∃ w', runLoop n w = some w'
  | n, w, hfits, hm => by
    unfold runLoop
    split
    · exact ⟨w, rfl⟩
    · rename_i hne
      obtain ⟨w', hit, hfits', hlt⟩ := iterate_total w hfits hne
      cases n with
      | zero => omega
      | succ n =>
        simp only [hit]
        exact runLoop_total n w' hfits' (by omega)

/-! ## Whole programs -/

theorem foldl_spawn : ∀ (hs : List Handle) (s : Scheduler),
    hs.foldl spawn s = { s with ready := s.ready ++ hs } := by
  intro hs
  induction hs with
  | nil =>
    intro s
    simp
  | cons h hs ih =>
    intro s
    rw [List.foldl_cons, ih]
    simp [spawn]

theorem measure_start (tasks : List (List Int)) :
    measure (start tasks).sched (start tasks).frames = rounds tasks := by
  have hmap : (List.range tasks.length).map (weight (start tasks).frames) =
      tasks.map fun delays => delays.length + 1 := by
    apply List.ext_getElem
    · simp
    · intro i h1 h2
      simp only [List.length_map, List.length_range] at h1
      simp [weight, start, List.getD_eq_getElem?_getD, List.getElem?_eq_getElem h1]
  simp only [measure, start, foldl_spawn, List.nil_append, List.map_nil, List.sum_nil, Nat.add_zero] at hmap ⊢
  rw [hmap, rounds]

/-- **`run` returns (`:40`)**, whatever the delays. -/
theorem run_total (tasks : List (List Int)) : ∃ w, run tasks = some w := by
  refine runLoop_total _ _ ?_ (Nat.le_of_eq (measure_start tasks))
  simp [Fits, start, foldl_spawn]

end ComputerSystem.Coroutine
