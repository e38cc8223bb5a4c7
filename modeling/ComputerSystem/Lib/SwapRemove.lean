import Mathlib.Data.List.Perm.Basic
/-!
# Removal that moves the last element

An array that keeps no order removes an element by writing the last one over it. What stands before
the place is untouched, and what stood after it stands from the place on, in another order: a loop
that stays at the place after a removal meets each of them once.
-/

namespace ComputerSystem

variable {α : Type}

/-- `a[i] = a[n - 1]; n -= 1`. -/
def swapRemove (l : List α) (i : Nat) : List α :=
  match l.getLast? with
  | some last => (l.set i last).dropLast
  | none => l

theorem swapRemove_append (front back : List α) (x : α) :
    ∃ moved, moved.Perm back ∧ swapRemove (front ++ x :: back) front.length = front ++ moved := by
  rcases List.eq_nil_or_concat back with rfl | ⟨init, last, hback⟩
  · exact ⟨[], .refl _, by simp [swapRemove]⟩
  · rw [List.concat_eq_append] at hback
    subst hback
    refine ⟨last :: init, (List.perm_append_singleton last init).symm, ?_⟩
    have hcons : front ++ x :: (init ++ [last]) = (front ++ x :: init) ++ [last] := by simp
    have hlast : (front ++ x :: (init ++ [last])).getLast? = some last := by
      rw [hcons, List.getLast?_concat]
    have hset : (front ++ x :: (init ++ [last])).set front.length last = (front ++ last :: init) ++ [last] := by
      rw [List.set_append_right _ _ (Nat.le_refl _), Nat.sub_self, List.set_cons_zero]
      simp
    simp only [swapRemove, hlast, hset, List.dropLast_concat]

theorem swapRemove_eq {l : List α} {i : Nat} (hi : i < l.length) :
    ∃ moved, moved.Perm (l.drop (i + 1)) ∧ swapRemove l i = l.take i ++ moved := by
  have h := swapRemove_append (l.take i) (l.drop (i + 1)) l[i]
  rw [← List.drop_eq_getElem_cons hi, List.take_append_drop, List.length_take, Nat.min_eq_left (Nat.le_of_lt hi)] at h
  exact h

theorem swapRemove_perm {l : List α} {i : Nat} (hi : i < l.length) : (swapRemove l i).Perm (l.eraseIdx i) := by
  obtain ⟨moved, hperm, heq⟩ := swapRemove_eq hi
  rw [heq, List.eraseIdx_eq_take_drop_succ]
  exact hperm.append_left _

theorem take_swapRemove {l : List α} {i : Nat} (hi : i < l.length) : (swapRemove l i).take i = l.take i := by
  obtain ⟨moved, -, heq⟩ := swapRemove_eq hi
  rw [heq, List.take_append_of_le_length (by simp [Nat.le_of_lt hi]), List.take_take, Nat.min_self]

theorem drop_swapRemove {l : List α} {i : Nat} (hi : i < l.length) :
    ((swapRemove l i).drop i).Perm (l.drop (i + 1)) := by
  obtain ⟨moved, hperm, heq⟩ := swapRemove_eq hi
  rw [heq, List.drop_append_of_le_length (by simp [Nat.le_of_lt hi]),
    List.drop_eq_nil_of_le (List.length_take_le ..), List.nil_append]
  exact hperm

theorem length_swapRemove {l : List α} {i : Nat} (hi : i < l.length) : (swapRemove l i).length = l.length - 1 := by
  rw [(swapRemove_perm hi).length_eq, List.length_eraseIdx_of_lt hi]

/-- The removed element and the others are the elements. -/
theorem cons_swapRemove_perm {l : List α} {i : Nat} (hi : i < l.length) : (l[i] :: swapRemove l i).Perm l :=
  ((swapRemove_perm hi).cons _).trans (List.getElem_cons_eraseIdx_perm hi)

end ComputerSystem
