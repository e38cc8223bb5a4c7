import Mathlib.Data.Int.ModEq
import Mathlib.Data.List.TakeWhile
/-!
# C bytes, strings and integer types

Bytes and strings, and the conversions the sources rely on: `int` is 32 bits and `size_t` is 64
bits, as on the x86-64 Linux the repository builds for.
-/

namespace ComputerSystem

abbrev Bytes := List UInt8

/-- The bytes of a string literal. -/
def ascii (s : String) : Bytes := s.toList.map fun c => UInt8.ofNat c.toNat

/-- What the `str*` functions see of a buffer. -/
def cstring (buf : Bytes) : Bytes := buf.takeWhile (· ≠ 0)

theorem cstring_eq {buf : Bytes} (h : (0 : UInt8) ∉ buf) : cstring buf = buf := by
  induction buf with
  | nil => rfl
  | cons b buf ih =>
    have hb : b ≠ 0 := fun hb => h (hb ▸ List.mem_cons_self ..)
    have ih : cstring buf = buf := ih fun hmem => h (List.mem_cons_of_mem _ hmem)
    simp only [cstring] at ih ⊢
    rw [List.takeWhile_cons_of_pos (by simpa using hb), ih]

/-- Nothing behind a NUL is seen. -/
theorem cstring_append_nul (a c : Bytes) : cstring (a ++ 0 :: c) = cstring a := by
  induction a with
  | nil => rfl
  | cons b a ih =>
    simp only [cstring, List.cons_append] at ih ⊢
    by_cases hb : b = 0
    · rw [List.takeWhile_cons_of_neg (by simpa using hb), List.takeWhile_cons_of_neg (by simpa using hb)]
    · rw [List.takeWhile_cons_of_pos (by simpa using hb), List.takeWhile_cons_of_pos (by simpa using hb), ih]

theorem cstring_nul (buf : Bytes) : (0 : UInt8) ∉ cstring buf := by
  intro hmem
  have hne := List.mem_takeWhile_imp hmem
  simp at hne

def INT_MAX : Int := 2 ^ 31 - 1

/-- Conversion to `int`. -/
def toInt32 (z : Int) : Int := z.bmod (2 ^ 32)

/-- Conversion to `size_t`. -/
def toSize (z : Int) : Nat := (z % 2 ^ 64).toNat

theorem toInt32_eq {z : Int} (h1 : -2 ^ 31 ≤ z) (h2 : z ≤ INT_MAX) : toInt32 z = z := by
  unfold toInt32
  unfold INT_MAX at h2
  exact Int.bmod_eq_of_le (by omega) (by omega)

theorem toSize_eq {z : Int} (h1 : 0 ≤ z) (h2 : z ≤ INT_MAX) : toSize z = z.toNat := by
  unfold toSize
  unfold INT_MAX at h2
  rw [Int.emod_eq_of_lt h1 (by omega)]

/-- The value of an expression of type `int`; an overflow is undefined. -/
def checkedInt (z : Int) : Option Int := if -2 ^ 31 ≤ z ∧ z ≤ INT_MAX then some z else none

theorem checkedInt_eq {z : Int} (h1 : -2 ^ 31 ≤ z) (h2 : z ≤ INT_MAX) : checkedInt z = some z := if_pos ⟨h1, h2⟩

theorem checkedInt_none {z : Int} (h : INT_MAX < z) : checkedInt z = none :=
  if_neg fun hz => absurd hz.2 (Int.not_le.2 h)

/-- Without an overflow nothing is cut. -/
theorem toInt32_checked {z c : Int} (h : checkedInt z = some c) : toInt32 z = c := by
  unfold checkedInt at h
  split at h
  · rename_i hz
    cases h
    exact toInt32_eq hz.1 hz.2
  · cases h

/-- A `long`, as bits. -/
abbrev Long := BitVec 64

/-- The value of an expression of type `long`; an overflow is undefined. -/
def checkedLong (z : Int) : Option Int := if -2 ^ 63 ≤ z ∧ z < 2 ^ 63 then some z else none

theorem checkedLong_eq {z : Int} (h1 : -2 ^ 63 ≤ z) (h2 : z < 2 ^ 63) : checkedLong z = some z := if_pos ⟨h1, h2⟩

/-- `a - b` on `size_t`. -/
def sizeSub (a b : Nat) : Nat := toSize (a - b)

theorem sizeSub_eq {a b : Nat} (h : b ≤ a) (ha : a < 2 ^ 64) : sizeSub a b = a - b := by
  unfold sizeSub toSize
  rw [Int.emod_eq_of_lt (by omega) (by omega)]
  omega

end ComputerSystem
