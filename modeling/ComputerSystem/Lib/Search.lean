/-!
# The first occurrence of a list in a list

`find needle hay` is the position that `strstr` and `memmem` return. `find_of_first` is the rule for
it: an occurrence with none before it. What can be before it is told by the first element of the
needle: where that element does not occur no occurrence starts (`find_skip`), and when the needle has
it only once, no occurrence starts in a list free of the needle and ends in the needle behind it
(`find_append`).
-/

namespace ComputerSystem

section
variable {α : Type} [DecidableEq α]

/-- The first position at which `needle` occurs in `hay`. -/
def find (needle : List α) : List α → Option Nat
  | [] => if needle = [] then some 0 else none
  | x :: xs => if needle <+: x :: xs then some 0 else (find needle xs).map (· + 1)

theorem find_of_prefix {needle hay : List α} (h : needle <+: hay) : find needle hay = some 0 := by
  cases hay with
  | nil => simp only [find, List.prefix_nil.1 h, if_true]
  | cons x xs => simp only [find, if_pos h]

/-- The needle stands where it was found. -/
theorem find_some {needle : List α} : ∀ {hay : List α} {k : Nat}, find needle hay = some k →
    ∃ pre post, hay = pre ++ (needle ++ post) ∧ pre.length = k := by
  intro hay
  induction hay with
  | nil =>
    intro k h
    simp only [find] at h
    split at h
    · rename_i hn
      cases h
      exact ⟨[], [], by simp [hn], rfl⟩
    · cases h
  | cons x xs ih =>
    intro k h
    simp only [find] at h
    split at h
    · rename_i hpre
      cases h
      obtain ⟨post, hpost⟩ := hpre
      exact ⟨[], post, hpost.symm, rfl⟩
    · obtain ⟨k', hk', rfl⟩ := Option.map_eq_some_iff.1 h
      obtain ⟨pre, post, rfl, rfl⟩ := ih hk'
      exact ⟨x :: pre, post, rfl, rfl⟩

/-- And nowhere before. -/
theorem find_first {needle : List α} : ∀ {hay : List α} {k : Nat}, find needle hay = some k →
    ∀ j < k, ¬ needle <+: hay.drop j := by
  intro hay
  induction hay with
  | nil =>
    intro k h j hj
    simp only [find] at h
    split at h
    · cases h
      exact absurd hj (Nat.not_lt_zero j)
    · cases h
  | cons x xs ih =>
    intro k h j hj
    simp only [find] at h
    split at h
    · cases h
      exact absurd hj (Nat.not_lt_zero j)
    · rename_i hpre
      obtain ⟨k', hk', rfl⟩ := Option.map_eq_some_iff.1 h
      cases j with
      | zero => exact hpre
      | succ j => exact ih hk' j (Nat.lt_of_succ_lt_succ hj)

theorem find_le {needle hay : List α} {k : Nat} (h : find needle hay = some k) : k + needle.length ≤ hay.length := by
  obtain ⟨pre, post, rfl, rfl⟩ := find_some h
  simp only [List.length_append]
  omega

/-- The needle does not occur in what is before it. -/
theorem find_take {needle hay : List α} {k : Nat} (hne : needle ≠ []) (h : find needle hay = some k) :
    ¬ needle <:+: hay.take k := by
  rintro ⟨a, b, hab⟩
  have hpos := List.length_pos_iff.2 hne
  have hlen := congrArg List.length hab
  simp only [List.length_append, List.length_take] at hlen
  refine find_first h a.length (by omega) ⟨b ++ hay.drop k, ?_⟩
  calc needle ++ (b ++ hay.drop k) = (a ++ (needle ++ (b ++ hay.drop k))).drop a.length := List.drop_left.symm
    _ = (a ++ needle ++ b ++ hay.drop k).drop a.length := by simp only [List.append_assoc]
    _ = hay.drop a.length := by rw [hab, List.take_append_drop]

/-- An element does not occur before the place where it is found. -/
theorem find_singleton {c : α} {pre post : List α} (h : find [c] (pre ++ post) = some pre.length) : c ∉ pre := by
  intro hmem
  obtain ⟨s, t, rfl⟩ := List.append_of_mem hmem
  have hfirst := find_first h s.length (by simp)
  apply hfirst
  rw [List.append_assoc, List.drop_left, List.cons_append]
  exact ⟨_, rfl⟩

/-- No occurrence starts in `pre`. -/
theorem find_skip_of {needle : List α} (pre : List α) {hay : List α}
    (h : ∀ j < pre.length, ¬ needle <+: pre.drop j ++ hay) :
    find needle (pre ++ hay) = (find needle hay).map (· + pre.length) := by
  induction pre with
  | nil => simp
  | cons x pre ih =>
    have hx : ¬ needle <+: x :: (pre ++ hay) := h 0 (Nat.succ_pos _)
    have htail : find needle (pre ++ hay) = (find needle hay).map (· + pre.length) := by
      apply ih
      intro j hj
      exact h (j + 1) (Nat.succ_lt_succ hj)
    rw [List.cons_append, find, if_neg hx, htail, Option.map_map]
    rfl

/-- **Search rule**: an occurrence with none before it. -/
theorem find_of_first {needle : List α} (pre post : List α)
    (h : ∀ j < pre.length, ¬ needle <+: pre.drop j ++ (needle ++ post)) :
    find needle (pre ++ (needle ++ post)) = some pre.length := by
  rw [find_skip_of pre h, find_of_prefix (List.prefix_append needle post)]
  simp

/-- Where the first element of the needle does not occur, no occurrence starts. -/
theorem find_skip {c : α} {r : List α} {pre : List α} (hay : List α) (h : c ∉ pre) :
    find (c :: r) (pre ++ hay) = (find (c :: r) hay).map (· + pre.length) := by
  apply find_skip_of
  rintro j hj ⟨post, hpost⟩
  obtain ⟨x, s, hs⟩ := List.exists_cons_of_ne_nil (List.length_pos_iff.1
    (show 0 < (pre.drop j).length by rw [List.length_drop]; omega))
  rw [hs] at hpost
  have hx : x ∈ pre := List.mem_of_mem_drop (hs ▸ List.mem_cons_self ..)
  exact h ((List.cons.inj hpost).1 ▸ hx)

/-- A needle that has its first element only once: in a list free of the needle none starts that would
end in the needle behind it. -/
theorem find_append {c : α} {r : List α} (hr : c ∉ r) {pre : List α} (post : List α) (h : ¬ c :: r <:+: pre) :
    find (c :: r) (pre ++ (c :: r ++ post)) = some pre.length := by
  apply find_of_first
  rintro j hj hpre
  have hlen : 0 < (pre.drop j).length := by rw [List.length_drop]; omega
  by_cases hfit : (c :: r).length ≤ (pre.drop j).length
  · -- it would lie inside `pre`
    have hin : c :: r <+: pre.drop j := List.prefix_of_prefix_length_le hpre (List.prefix_append _ _) hfit
    exact h (hin.isInfix.trans (List.drop_suffix j pre).isInfix)
  · -- it would run into the needle behind, whose first element it then has once more
    have hshort : pre.drop j <+: c :: r :=
      List.prefix_of_prefix_length_le (List.prefix_append _ _) hpre (by omega)
    obtain ⟨s, hs⟩ := hshort
    have hbehind : s <+: c :: r ++ post := by
      apply (List.prefix_append_right_inj (pre.drop j)).1
      rw [hs]
      exact hpre
    have hsne : s ≠ [] := by
      rintro rfl
      rw [List.append_nil] at hs
      rw [hs] at hfit
      exact hfit (Nat.le_refl _)
    obtain ⟨x, s', rfl⟩ := List.exists_cons_of_ne_nil hsne
    have hx : x = c := by
      obtain ⟨post', hpost⟩ := hbehind
      exact (List.cons.inj hpost).1
    obtain ⟨y, d, hd⟩ := List.exists_cons_of_ne_nil (List.length_pos_iff.1 hlen)
    rw [hd, List.cons_append] at hs
    apply hr
    rw [← (List.cons.inj hs).2, hx]
    simp

end

end ComputerSystem
