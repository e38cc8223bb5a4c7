import Mathlib.Order.Lattice
/-!
# Stable priority queues

A queue is the list of its entries in insertion order. `popMin` takes out the entry with the
least key that was inserted first, so entries with equal keys leave in the order they came.
-/

namespace ComputerSystem

section
variable {κ α : Type} [LinearOrder κ]

/-- The first entry among those with the least key, and the queue without it. -/
def popMin : List (κ × α) → Option ((κ × α) × List (κ × α))
  | [] => none
  | e :: q => match popMin q with
    | none => some (e, [])
    | some (m, q') => if e.1 ≤ m.1 then some (e, q) else some (m, e :: q')

theorem popMin_eq_none {q : List (κ × α)} : popMin q = none ↔ q = [] := by
  cases q with
  | nil => simp [popMin]
  | cons e q =>
    simp only [popMin]
    split
    · simp
    · split <;> simp

/-- What is popped has a smaller key than everything before it and no greater key than
everything after it. -/
theorem popMin_split : ∀ {q : List (κ × α)} {m : κ × α} {q' : List (κ × α)}, popMin q = some (m, q') →
    ∃ a b, q = a ++ m :: b ∧ q' = a ++ b ∧ (∀ x ∈ a, m.1 < x.1) ∧ ∀ x ∈ b, m.1 ≤ x.1 := by
  intro q
  induction q with
  | nil =>
    intro m q' h
    simp [popMin] at h
  | cons e q ih =>
    intro m q' h
    simp only [popMin] at h
    split at h
    · rename_i hnone
      simp only [Option.some.injEq, Prod.mk.injEq] at h
      obtain ⟨rfl, rfl⟩ := h
      exact ⟨[], [], by simp [popMin_eq_none.1 hnone], rfl, by simp, by simp⟩
    · rename_i n q'' hsome
      obtain ⟨a, b, rfl, rfl, ha, hb⟩ := ih hsome
      split at h
      · rename_i hle
        simp only [Option.some.injEq, Prod.mk.injEq] at h
        obtain ⟨rfl, rfl⟩ := h
        refine ⟨[], a ++ n :: b, rfl, rfl, by simp, fun x hx => ?_⟩
        rcases List.mem_append.1 hx with hx | hx
        · exact le_trans hle (le_of_lt (ha x hx))
        · rcases List.mem_cons.1 hx with rfl | hx
          · exact hle
          · exact le_trans hle (hb x hx)
      · rename_i hgt
        simp only [Option.some.injEq, Prod.mk.injEq] at h
        obtain ⟨rfl, rfl⟩ := h
        refine ⟨e :: a, b, rfl, rfl, fun x hx => ?_, hb⟩
        rcases List.mem_cons.1 hx with rfl | hx
        · exact not_le.1 hgt
        · exact ha x hx

/-- Popping takes the head off the entries of its own key and leaves the other keys alone. -/
theorem popMin_filter {q : List (κ × α)} {m : κ × α} {q' : List (κ × α)} (h : popMin q = some (m, q')) (t : κ) :
    q.filter (fun x => x.1 = t) =
      if m.1 = t then m :: q'.filter (fun x => x.1 = t) else q'.filter (fun x => x.1 = t) := by
  obtain ⟨a, b, rfl, rfl, ha, _⟩ := popMin_split h
  by_cases hm : m.1 = t
  · have hnil : a.filter (fun x => x.1 = t) = [] :=
      List.filter_eq_nil_iff.2 fun x hx => by simpa [← hm] using (ne_of_gt (ha x hx))
    simp [List.filter_append, hm, hnil]
  · simp [List.filter_append, hm]

/-- An entry is popped when everything before it has a greater key and nothing after it a
smaller one. -/
theorem popMin_append {m : κ × α} {b : List (κ × α)} (hb : ∀ x ∈ b, m.1 ≤ x.1) :
    ∀ {a : List (κ × α)}, (∀ x ∈ a, m.1 < x.1) → popMin (a ++ m :: b) = some (m, a ++ b) := by
  intro a
  induction a with
  | nil =>
    intro _
    simp only [List.nil_append, popMin]
    split
    · rename_i hnone
      rw [popMin_eq_none.1 hnone]
    · rename_i n q' hsome
      obtain ⟨c, d, rfl, _⟩ := popMin_split hsome
      simp [hb n (by simp)]
  | cons x a ih =>
    intro ha
    have hx : ¬ x.1 ≤ m.1 := not_le.2 (ha x (by simp))
    have hpop := ih fun y hy => ha y (List.mem_cons_of_mem x hy)
    simp only [List.cons_append, popMin, hpop, hx, ↓reduceIte]

/-- When `t` is a lower bound of the keys, the entries with key `t` leave first, in order. -/
theorem popMin_of_filter {t : κ} {q : List (κ × α)} {m : κ × α} {r : List (κ × α)}
    (hle : ∀ x ∈ q, t ≤ x.1) (hf : q.filter (fun x => x.1 = t) = m :: r) :
    ∃ q', popMin q = some (m, q') ∧ m.1 = t := by
  obtain ⟨a, b, rfl, ha, hm, _⟩ := List.filter_eq_cons_iff.1 hf
  have hm : m.1 = t := by simpa using hm
  refine ⟨a ++ b, popMin_append ?_ ?_, hm⟩
  · intro x hx
    rw [hm]
    exact hle x (by simp [hx])
  · intro x hx
    have hne : x.1 ≠ t := by simpa using ha x hx
    rw [hm]
    exact lt_of_le_of_ne (hle x (by simp [hx])) hne.symm

end

end ComputerSystem
