import Mathlib.Data.Nat.Digits.Lemmas
import ComputerSystem.CTypes
/-!
# Decimal numerals

A numeral is an optional `-` and digits, the most significant one first. `Canonical` ones have no leading
zero, and `0` no sign. `numeral z` is the canonical one of `z`: `numeral_canonical`, `value_numeral`. The
digits come from `leastFirst`, in the order in which a division by ten finds them.
-/

namespace ComputerSystem.Decimal

/-! ## Numerals -/

/-- What a digit counts. -/
def digitValue (c : UInt8) : Nat := c.toNat - 48

def isDecimal (c : UInt8) : Bool := 48 ≤ c ∧ c ≤ 57

/-- Without the sign. -/
def unsigned (t : Bytes) : Bytes := if t.head? = some 45 then t.tail else t

def Canonical (t : Bytes) : Prop :=
  unsigned t ≠ [] ∧ (∀ c ∈ unsigned t, isDecimal c) ∧ ((unsigned t).head? = some 48 → t = [48])

instance (t : Bytes) : Decidable (Canonical t) := inferInstanceAs (Decidable (_ ∧ _ ∧ _))

/-- The number that digits stand for. -/
def magnitude (ds : Bytes) : Nat := ds.foldl (fun n c => 10 * n + digitValue c) 0

def value (t : Bytes) : Int := if t.head? = some 45 then -magnitude (unsigned t) else magnitude (unsigned t)

/-! ## Printing -/

def digitByte (d : Nat) : UInt8 := UInt8.ofNat (48 + d)

/-- The digits of `n`, the last one first; `0` has one digit. -/
def leastFirst (n : Nat) : List Nat := if n = 0 then [0] else Nat.digits 10 n

/-- The digits of `n` as they are written. -/
def shown (n : Nat) : Bytes := ((leastFirst n).map digitByte).reverse

def numeral (z : Int) : Bytes := (if z < 0 then [45] else []) ++ shown z.natAbs

theorem leastFirst_cons (n : Nat) : leastFirst n = n % 10 :: if 0 < n / 10 then leastFirst (n / 10) else [] := by
  unfold leastFirst
  by_cases hn : n = 0
  · subst hn
    rfl
  · rw [if_neg hn, Nat.digits_def' (by decide) (Nat.pos_of_ne_zero hn)]
    by_cases hq : n / 10 = 0
    · simp [hq]
    · rw [if_pos (Nat.pos_of_ne_zero hq), if_neg hq]

theorem leastFirst_lt {n d : Nat} (h : d ∈ leastFirst n) : d < 10 := by
  unfold leastFirst at h
  split at h
  · rw [List.mem_singleton.1 h]
    decide
  · exact Nat.digits_lt_base (by decide) h

theorem leastFirst_ne_nil (n : Nat) : leastFirst n ≠ [] := by
  rw [leastFirst_cons]
  exact List.cons_ne_nil _ _

theorem leastFirst_length {n k : Nat} (hk : 0 < k) (h : n < 10 ^ k) : (leastFirst n).length ≤ k := by
  unfold leastFirst
  split
  · exact hk
  · exact (Nat.digits_length_le_iff (by decide) n).2 h

theorem ofDigits_leastFirst (n : Nat) : Nat.ofDigits 10 (leastFirst n) = n := by
  unfold leastFirst
  split
  · rename_i h
    simp [h]
  · exact Nat.ofDigits_digits 10 n

/-- Only `0` ends in a zero. -/
theorem getLast?_leastFirst {n : Nat} (h : (leastFirst n).getLast? = some 0) : n = 0 := by
  by_contra hn
  rw [leastFirst, if_neg hn, List.getLast?_eq_getLast_of_ne_nil (Nat.digits_ne_nil_iff_ne_zero.2 hn)] at h
  exact Nat.getLast_digit_ne_zero 10 hn (Option.some.inj h)

/-! ## The round trip -/

theorem digitByte_toNat {d : Nat} (h : d < 10) : (digitByte d).toNat = 48 + d := by
  rw [digitByte, UInt8.toNat_ofNat', Nat.mod_eq_of_lt (by omega)]

theorem isDecimal_shown {n : Nat} {c : UInt8} (h : c ∈ shown n) : isDecimal c := by
  obtain ⟨d, hd, rfl⟩ := List.mem_map.1 (List.mem_reverse.1 h)
  have hlt := leastFirst_lt hd
  simp only [isDecimal, decide_eq_true_eq, UInt8.le_iff_toNat_le, digitByte_toNat hlt]
  exact ⟨Nat.le_add_right _ _, show 48 + d ≤ 57 by omega⟩

theorem shown_ne_nil (n : Nat) : shown n ≠ [] := by
  simpa [shown] using leastFirst_ne_nil n

theorem shown_length {n k : Nat} (hk : 0 < k) (h : n < 10 ^ k) : (shown n).length ≤ k := by
  rw [shown, List.length_reverse, List.length_map]
  exact leastFirst_length hk h

theorem magnitude_shown (n : Nat) : magnitude (shown n) = n := by
  have hfold : ∀ ds : List Nat, (∀ d ∈ ds, d < 10) →
      (ds.map digitByte).foldr (fun c n => 10 * n + digitValue c) 0 = Nat.ofDigits 10 ds := by
    intro ds
    induction ds with
    | nil =>
      intro _
      rfl
    | cons d ds ih =>
      intro hds
      have hd := hds d (List.mem_cons_self ..)
      rw [List.map_cons, List.foldr_cons, ih fun x hx => hds x (List.mem_cons_of_mem _ hx), Nat.ofDigits_cons,
        digitValue, digitByte_toNat hd]
      omega
  rw [magnitude, shown, List.foldl_reverse, hfold _ fun d hd => leastFirst_lt hd, ofDigits_leastFirst]

/-- The first digit is no sign. -/
theorem head?_shown (n : Nat) : (shown n).head? ≠ some 45 := by
  intro h
  have hdigit := isDecimal_shown (List.mem_of_mem_head? h)
  revert hdigit
  decide

theorem unsigned_numeral (z : Int) : unsigned (numeral z) = shown z.natAbs := by
  unfold numeral unsigned
  split
  · simp
  · simp [head?_shown]

theorem value_numeral (z : Int) : value (numeral z) = z := by
  rw [value, unsigned_numeral, magnitude_shown]
  unfold numeral
  split
  · rename_i hneg
    rw [List.singleton_append, List.head?_cons, if_pos rfl]
    omega
  · rename_i hpos
    rw [List.nil_append, if_neg (head?_shown _)]
    omega

theorem numeral_canonical (z : Int) : Canonical (numeral z) := by
  rw [Canonical, unsigned_numeral]
  refine ⟨shown_ne_nil _, fun c hc => isDecimal_shown hc, fun hzero => ?_⟩
  -- a leading zero is the whole number
  have hlast : (leastFirst z.natAbs).getLast? = some 0 := by
    rw [shown, List.head?_reverse, List.getLast?_map, Option.map_eq_some_iff] at hzero
    obtain ⟨d, hd, hbyte⟩ := hzero
    have hlt := leastFirst_lt (List.mem_of_getLast? hd)
    have htoNat := congrArg UInt8.toNat hbyte
    rw [digitByte_toNat hlt] at htoNat
    have hd0 : d = 0 := by
      have h48 : (48 : UInt8).toNat = 48 := rfl
      omega
    rw [hd, hd0]
  have hz : z = 0 := Int.natAbs_eq_zero.1 (getLast?_leastFirst hlast)
  subst hz
  decide

end ComputerSystem.Decimal
