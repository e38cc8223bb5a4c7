import Mathlib.GroupTheory.Perm.Cycle.Basic
/-!
# Cycles that grow

A permutation that moves the elements of `s` in one cycle and leaves `a` alone, followed by the exchange
of `a` with an element of `s`, moves `s` and `a` in one cycle (`isCycleOn_swap_mul`).
-/

namespace ComputerSystem

open Equiv

section
variable {α : Type*} [DecidableEq α] {σ : Perm α} {s : Finset α} {a b : α}

/-- `a` comes behind what went to `b`, and goes to `b`. -/
theorem swap_mul_apply_new (hfix : σ a = a) : (swap a b * σ) a = b := by
  rw [Perm.mul_apply, hfix, swap_apply_left]

theorem swap_mul_apply_last {x : α} (hx : σ x = b) : (swap a b * σ) x = a := by
  rw [Perm.mul_apply, hx, swap_apply_right]

theorem swap_mul_apply_other {x : α} (hfix : σ a = a) (hxa : x ≠ a) (hxb : σ x ≠ b) : (swap a b * σ) x = σ x := by
  have hne : σ x ≠ a := by
    intro h
    exact hxa (σ.injective (h.trans hfix.symm))
  rw [Perm.mul_apply, swap_apply_of_ne_of_ne hne hxb]

theorem swap_mul_mem_iff (hσ : σ.IsCycleOn s) (hfix : σ a = a) (hb : b ∈ s) (x : α) :
    (swap a b * σ) x ∈ insert a s ↔ x ∈ insert a s := by
  have hmem : σ x ∈ s ↔ x ∈ s := hσ.apply_mem_iff
  by_cases hxa : x = a
  · rw [hxa, swap_mul_apply_new hfix]
    simp [hb]
  · by_cases hxb : σ x = b
    · rw [swap_mul_apply_last hxb]
      have hx : x ∈ s := hmem.1 (hxb ▸ hb)
      simp [hx]
    · rw [swap_mul_apply_other hfix hxa hxb, Finset.mem_insert, Finset.mem_insert, hmem]
      have hne : σ x ≠ a := fun h => hxa (σ.injective (h.trans hfix.symm))
      simp [hxa, hne]

/-- From `b` the new permutation comes wherever the old one does. -/
theorem swap_mul_sameCycle (hfix : σ a = a) (hba : b ≠ a) (k : ℕ) : (swap a b * σ).SameCycle b ((σ ^ k) b) := by
  induction k with
  | zero => exact .refl _ _
  | succ k ih =>
    rw [pow_succ', Perm.mul_apply]
    by_cases hk : σ ((σ ^ k) b) = b
    · rw [hk]
    · have hne : (σ ^ k) b ≠ a := by
        intro h
        have hpow : (σ ^ k) a = a := Function.IsFixedPt.perm_pow hfix k
        exact hba ((σ ^ k).injective (h.trans hpow.symm))
      rw [← swap_mul_apply_other hfix hne hk]
      exact Perm.sameCycle_apply_right.2 ih

theorem isCycleOn_swap_mul (hσ : σ.IsCycleOn s) (hfix : σ a = a) (ha : a ∉ s) (hb : b ∈ s) :
    (swap a b * σ).IsCycleOn (insert a s : Finset α) := by
  have hba : b ≠ a := by
    rintro rfl
    exact ha hb
  refine ⟨Equiv.bijOn _ fun x => swap_mul_mem_iff hσ hfix hb x, fun x hx y hy => ?_⟩
  have hreach : ∀ z ∈ insert a s, (swap a b * σ).SameCycle b z := by
    intro z hz
    rcases Finset.mem_insert.1 hz with rfl | hz
    · have hnext := Perm.sameCycle_apply_right.2 (Perm.SameCycle.refl (swap z b * σ) z)
      rw [swap_mul_apply_new hfix] at hnext
      exact hnext.symm
    · obtain ⟨k, -, rfl⟩ := hσ.exists_pow_eq hb hz
      exact swap_mul_sameCycle hfix hba k
  exact (hreach x hx).symm.trans (hreach y hy)

end

end ComputerSystem
