import Mathlib.Data.List.Basic
import Mathlib.Algebra.BigOperators.Group.List.Basic
/-!
# Reductions with several accumulators

An unrolled loop folds the elements it reads into several accumulators and these into one result at the
end. For an operation that is commutative and associative only the elements count: `total_absorb` is the
step, and `Sound` what holds after any number of steps, whichever accumulator an element goes to. With
`Sound.of_perm` the result is the one of a plain loop over the same elements in any order.
-/

namespace ComputerSystem

/-- The accumulators, and the places read so far. -/
structure Lanes (M ι : Type) where
  acc   : List M
  reads : List ι
deriving DecidableEq, Repr

namespace Lanes

section
variable {M ι : Type} (op : M → M → M) (e : M) (d : ι → M)

/-- `acc[j] op= d[i]`. -/
def absorb (j : Nat) (i : ι) (w : Lanes M ι) : Lanes M ι := ⟨w.acc.modify j (op · (d i)), w.reads ++ [i]⟩

/-- The accumulators folded into one. -/
def total (w : Lanes M ι) : M := w.acc.foldl op e

/-- The accumulators hold what was read, and nothing else. -/
def Sound (w : Lanes M ι) : Prop := w.total op e = (w.reads.map d).foldl op e

@[simp] theorem absorb_acc_length (j : Nat) (i : ι) (w : Lanes M ι) :
    (absorb op d j i w).acc.length = w.acc.length := List.length_modify ..

@[simp] theorem absorb_reads (j : Nat) (i : ι) (w : Lanes M ι) : (absorb op d j i w).reads = w.reads ++ [i] := rfl

variable {op e d}

/-- Before the first step. -/
theorem Sound.start (n : Nat) (hid : ∀ a, op a e = a) : Sound op e d ⟨List.replicate n e, []⟩ := by
  have h : (List.replicate n e).foldl op e = e := by
    induction n with
    | zero => rfl
    | succ n ih => rw [List.replicate_succ, List.foldl_cons, hid, ih]
  exact h

variable [Std.Commutative op] [Std.Associative op]

/-- One factor of a fold can be taken last. -/
theorem foldl_op_right (l : List M) : ∀ a b : M, l.foldl op (op a b) = op (l.foldl op a) b := by
  induction l with
  | nil => intro a b; rfl
  | cons x l ih =>
    intro a b
    have hassoc : ∀ a b c : M, op (op a b) c = op a (op b c) := Std.Associative.assoc
    have hcomm : op b x = op x b := Std.Commutative.comm b x
    have hswap : op (op a b) x = op (op a x) b := by rw [hassoc, hcomm, ← hassoc]
    rw [List.foldl_cons, List.foldl_cons, hswap, ih]

/-- **One step**: any accumulator that is there will do. -/
theorem total_absorb {j : Nat} {w : Lanes M ι} (hj : j < w.acc.length) (i : ι) :
    (absorb op d j i w).total op e = op (w.total op e) (d i) := by
  obtain ⟨acc, reads⟩ := w
  simp only [total, absorb]
  induction acc generalizing e j with
  | nil => simp at hj
  | cons a acc ih =>
    cases j with
    | zero =>
      have hassoc : op (op e a) (d i) = op e (op a (d i)) := Std.Associative.assoc e a (d i)
      rw [List.modify_zero_cons, List.foldl_cons, List.foldl_cons, ← hassoc, foldl_op_right]
    | succ j =>
      rw [List.modify_succ_cons, List.foldl_cons, List.foldl_cons]
      exact ih (Nat.lt_of_succ_lt_succ hj)

theorem Sound.absorb {w : Lanes M ι} (h : w.Sound op e d) {j : Nat} (hj : j < w.acc.length) (i : ι) :
    (absorb op d j i w).Sound op e d := by
  rw [Sound, total_absorb hj, h, absorb_reads, List.map_append, List.foldl_append]
  rfl

/-- The order does not count. -/
theorem Sound.of_perm {w : Lanes M ι} (h : w.Sound op e d) {l : List ι} (hl : w.reads.Perm l) :
    w.total op e = (l.map d).foldl op e := by
  rw [h]
  exact (hl.map d).foldl_op_eq

end

end Lanes

end ComputerSystem
