import Mathlib.Algebra.BigOperators.Group.List.Basic
import ComputerSystem.CTypes
import ComputerSystem.Lib.Lanes
/-!
# A product with `K` accumulators (`Chapter5/5.11/expirements/reg_spill.c:18-30`)

The function that `MAKE_COMBINE(K)` makes multiplies `n` values of type `long`: element `i + j` of each
group of `K` goes to `acc[j]`, and the at most `K - 1` elements behind the last whole group go to
`acc[0]`. `K` is a constant of the preprocessor and `n` the number of elements of an array that exists, so
neither `i + K` nor `j` overflows; the products wrap.

| here        | there                                            |
|-------------|--------------------------------------------------|
| `group`     | the inner loop (`:25`)                           |
| `groupLoop` | the loop over the groups (`:24`)                 |
| `tailLoop`  | the loop over what is left (`:26`)               |
| `combine`   | `combine##K`                                     |
-/

namespace ComputerSystem.Unroll

/-- What a call returns, and the elements it read, in order. -/
structure Scanned where
  ret   : Long
  reads : List Nat
deriving DecidableEq, Repr

section
variable (d : Nat → Long)

/-- `acc[j] *= d[i]`. -/
def mulAcc (j i : Nat) (w : Lanes Long Nat) : Lanes Long Nat := w.absorb (· * ·) d j i

/-- `for (int j = 0; j < K; j++) acc[j] *= d[i + j]`. -/
def group (K i : Nat) (w : Lanes Long Nat) : Lanes Long Nat :=
  (List.range K).foldl (fun w j => mulAcc d j (i + j) w) w

/-- The loop over the groups, with so many tests of its condition left; `none` when these are used up. -/
def groupLoop (K n : Nat) : Nat → Nat → Lanes Long Nat → Option (Nat × Lanes Long Nat)
  | 0, _, _ => none
  | tests + 1, i, w => if i + K ≤ n then groupLoop K n tests (i + K) (group d K i w) else some (i, w)

/-- `for (; i < n; i++) acc[0] *= d[i]`. -/
def tailLoop (n : Nat) : Nat → Nat → Lanes Long Nat → Option (Lanes Long Nat)
  | 0, _, _ => none
  | tests + 1, i, w => if i < n then tailLoop n tests (i + 1) (mulAcc d 0 i w) else some w

/-- `combine##K` (`:20`). A round of either loop goes on by at least one element, so `n + 1` tests are enough. -/
def combine (K n : Nat) : Option Scanned := do
  let (i, w) ← groupLoop d K n (n + 1) 0 ⟨List.replicate K 1, []⟩
  let w ← tailLoop d n (n + 1) i w
  return ⟨w.acc.foldl (· * ·) 1, w.reads⟩

end

/-! ## The loops -/

/-- Before element `i`: the `K` accumulators hold the elements before it. -/
structure At (d : Nat → Long) (K i : Nat) (w : Lanes Long Nat) : Prop where
  sound : w.Sound (· * ·) 1 d
  lanes : w.acc.length = K
  reads : w.reads = List.range i

variable {d : Nat → Long} {K n : Nat}

theorem At.start : At d K 0 ⟨List.replicate K 1, []⟩ :=
  ⟨Lanes.Sound.start K BitVec.mul_one, List.length_replicate, rfl⟩

/-- One element, whichever accumulator it goes to. -/
theorem At.mulAcc {i j : Nat} {w : Lanes Long Nat} (h : At d K i w) (hj : j < K) : At d K (i + 1) (mulAcc d j i w) := by
  have hlt : j < w.acc.length := by
    rw [h.lanes]
    exact hj
  refine ⟨h.sound.absorb hlt i, ?_, ?_⟩
  · rw [Unroll.mulAcc, Lanes.absorb_acc_length, h.lanes]
  · rw [Unroll.mulAcc, Lanes.absorb_reads, h.reads, List.range_succ]

/-- A group, or the first elements of one. -/
theorem At.group {i : Nat} {w : Lanes Long Nat} (h : At d K i w) : ∀ m ≤ K,
    At d K (i + m) ((List.range m).foldl (fun w j => Unroll.mulAcc d j (i + j) w) w) := by
  intro m
  induction m with
  | zero =>
    intro _
    exact h
  | succ m ih =>
    intro hm
    rw [List.range_succ, List.foldl_append]
    exact (ih (Nat.le_of_succ_le hm)).mulAcc hm

theorem groupLoop_spec (hK : 0 < K) (tests : Nat) : ∀ {i : Nat} {w : Lanes Long Nat}, At d K i w → i ≤ n →
    n < i + tests → ∃ i' w', groupLoop d K n tests i w = some (i', w') ∧ At d K i' w' ∧ i' ≤ n := by
  induction tests with
  | zero =>
    intro i w _ hle hlt
    omega
  | succ tests ih =>
    intro i w h hle hlt
    simp only [groupLoop]
    by_cases hmore : i + K ≤ n
    · rw [if_pos hmore]
      exact ih (h.group K (Nat.le_refl K)) hmore (by omega)
    · rw [if_neg hmore]
      exact ⟨i, w, rfl, h, hle⟩

theorem tailLoop_spec (hK : 0 < K) (tests : Nat) : ∀ {i : Nat} {w : Lanes Long Nat}, At d K i w → i ≤ n →
    n < i + tests → ∃ w', tailLoop d n tests i w = some w' ∧ At d K n w' := by
  induction tests with
  | zero =>
    intro i w _ hle hlt
    omega
  | succ tests ih =>
    intro i w h hle hlt
    simp only [tailLoop]
    by_cases hmore : i < n
    · rw [if_pos hmore]
      exact ih (h.mulAcc hK) hmore (by omega)
    · rw [if_neg hmore]
      obtain rfl : i = n := by omega
      exact ⟨w, rfl, h⟩

/-- The elements are read in order, whatever `K` is. -/
theorem combine_spec (hK : 0 < K) :
    combine d K n = some ⟨((List.range n).map d).foldl (· * ·) 1, List.range n⟩ := by
  obtain ⟨i, w, hgroups, hat, hle⟩ := groupLoop_spec (n := n) hK (n + 1) (At.start (d := d)) (Nat.zero_le n) (by omega)
  obtain ⟨w', htail, hat'⟩ := tailLoop_spec hK (n + 1) hat hle (by omega)
  have hret : w'.acc.foldl (· * ·) 1 = ((List.range n).map d).foldl (· * ·) 1 := by
    rw [← hat'.reads]
    exact hat'.sound
  simp only [combine, hgroups, htail, Option.bind_eq_bind, Option.bind_some, hret, hat'.reads]
  rfl

/-! ## The product -/

/-- Products of bits are products of numbers modulo 2^64. -/
theorem toNat_foldl_mul (l : List Long) : ∀ a : Long,
    (l.foldl (· * ·) a).toNat = a.toNat * (l.map BitVec.toNat).prod % 2 ^ 64 := by
  induction l with
  | nil =>
    intro a
    simp [Nat.mod_eq_of_lt a.isLt]
  | cons x l ih =>
    intro a
    rw [List.foldl_cons, ih, BitVec.toNat_mul, Nat.mod_mul_mod, List.map_cons, List.prod_cons, Nat.mul_assoc]

/-- **`K` accumulators multiply like one**: for every `K`, every array and every number of elements, the
result is the product modulo 2^64, and each element is read once. -/
theorem combine_eq (K n : Nat) (hK : 1 ≤ K) (d : Nat → Long) :
    ∃ c, combine d K n = some c ∧ c.ret.toNat = ((List.range n).map fun i => (d i).toNat).prod % 2 ^ 64 ∧
      c.reads.Perm (List.range n) ∧ (combine d 1 n).map (·.ret) = some c.ret := by
  refine ⟨_, combine_spec hK, ?_, .refl _, ?_⟩
  · have hone : (1 : Long).toNat = 1 := rfl
    rw [toNat_foldl_mul, List.map_map, hone, Nat.one_mul]
    rfl
  · rw [combine_spec Nat.one_pos]
    rfl

/-- Seven elements in groups of three. -/
theorem combine_eq_seven : ∃ c, combine (fun i => BitVec.ofNat 64 (i + 1)) 3 7 = some c ∧ c.ret = 5040 ∧
    c.reads.Perm (List.range 7) := by
  obtain ⟨c, hc, hret, hreads, -⟩ := combine_eq 3 7 (by decide) fun i => BitVec.ofNat 64 (i + 1)
  refine ⟨c, hc, ?_, hreads⟩
  have hprod : ((List.range 7).map fun i => (BitVec.ofNat 64 (i + 1)).toNat).prod % 2 ^ 64 = 5040 := by decide
  rw [hprod] at hret
  exact BitVec.eq_of_toNat_eq hret

end ComputerSystem.Unroll
