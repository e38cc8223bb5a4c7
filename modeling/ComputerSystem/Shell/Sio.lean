import ComputerSystem.Lib.Decimal
/-!
# Printing a `long` from a handler (`Chapter8/8.5-8.6/shell/csapp.c:20-65`)

A `long` is an `Int64`, so `-v` of the least one is that one again; C leaves it undefined. An array is the
list of its elements, whatever they are, and an access outside of it makes the function `none`. The loops
run for at most `turns` turns each, and are `none` when that is not enough.

| here               | there                                               |
|--------------------|-----------------------------------------------------|
| `sioStrlen`        | `sio_strlen` (`:23`)                                 |
| `reverseLoop`, `sioReverse` | `sio_reverse` (`:32`)                       |
| `digitsLoop`, `sioLtoa` | the `do` loop (`:47-49`), `sio_ltoa` (`:41`)     |
| `sioPutl`          | `sio_putl` (`:63`): what it hands to `write`          |

`sio_iff` says that every `long` but the least one is printed as its decimal numeral, in 21 bytes at most.
-/

namespace ComputerSystem.Shell

open Decimal

/-! ## The functions -/

/-- `s[i] = b` -/
def poke (s : Bytes) (i : UInt64) (b : UInt8) : Option Bytes :=
  if i.toNat < s.length then some (s.set i.toNat b) else none

def sioStrlen : Bytes → Option Nat
  | [] => none
  | b :: s => if b ≠ 0 then (sioStrlen s).map (· + 1) else some 0

def reverseLoop : Nat → UInt64 → UInt64 → Bytes → Option Bytes
  | 0, _, _, _ => none
  | turns + 1, i, j, s =>
    if i < j then
      match s[i.toNat]?, s[j.toNat]? with
      | some c, some d =>
        match (poke s i d).bind (poke · j c) with
        | none => none
        | some s => reverseLoop turns (i + 1) (j - 1) s
      | _, _ => none
    else some s

def sioReverse (turns : Nat) (s : Bytes) (len : UInt64) : Option Bytes := reverseLoop turns 0 (len - 1) s

/-- `i` and the array behind the loop. -/
def digitsLoop : Nat → Int64 → UInt64 → Bytes → Option (UInt64 × Bytes)
  | 0, _, _, _ => none
  | turns + 1, v, i, s =>
    match poke s i (48 + v % 10).toInt8.toUInt8 with
    | none => none
    | some s =>
      if 0 < v / 10 then digitsLoop turns (v / 10) (i + 1) s
      else some (i + 1, s)

def sioLtoa (turns : Nat) (v : Int64) (s : Bytes) : Option Bytes :=
  let neg := decide (v < 0)
  (digitsLoop turns (if neg then -v else v) 0 s).bind fun (i, s) =>
  (if neg then (poke s i 45).map fun s => (i + 1, s) else some (i, s)).bind fun (i, s) =>
  (poke s i 0).bind fun s => sioReverse turns s i

/-- `s` is what the array holds before. -/
def sioPutl (turns : Nat) (v : Int64) (s : Bytes) : Option Bytes :=
  match sioLtoa turns v s with
  | none => none
  | some s => (sioStrlen s).map s.take

/-! ## The array -/

theorem poke_append {pre post : Bytes} {a : UInt8} {i : UInt64} (hi : i.toNat = pre.length) (b : UInt8) :
    poke (pre ++ a :: post) i b = some (pre ++ b :: post) := by
  rw [poke, if_pos (by rw [hi]; simp), hi, List.set_append_right _ _ (Nat.le_refl _), Nat.sub_self, List.set_cons_zero]

theorem getElem?_middle {pre post : Bytes} {a : UInt8} {i : UInt64} (hi : i.toNat = pre.length) :
    (pre ++ a :: post)[i.toNat]? = some a := by
  rw [hi, List.getElem?_append_right (Nat.le_refl _), Nat.sub_self, List.getElem?_cons_zero]

theorem sioStrlen_append {t : Bytes} (h : (0 : UInt8) ∉ t) (post : Bytes) : sioStrlen (t ++ 0 :: post) = some t.length := by
  induction t with
  | nil => rfl
  | cons b t ih =>
    rw [List.mem_cons, not_or] at h
    rw [List.cons_append, sioStrlen, if_pos (Ne.symm h.1), ih h.2]
    rfl

/-! ## `sio_reverse` -/

/-- The loop turns the bytes from `i` to `j` around, two of them each time. -/
theorem reverseLoop_spec : ∀ (turns : Nat) (i j : UInt64) (pre mid post : Bytes), mid.length < turns →
    i.toNat = pre.length → j.toNat + 1 = pre.length + mid.length →
    reverseLoop turns i j (pre ++ (mid ++ post)) = some (pre ++ (mid.reverse ++ post)) := by
  intro turns
  induction turns with
  | zero =>
    intro i j pre mid post hturns
    omega
  | succ turns ih =>
    intro i j pre mid post hturns hi hj
    have hle : i < j ↔ i.toNat < j.toNat := UInt64.lt_iff_toNat_lt
    by_cases hshort : mid.length ≤ 1
    · -- the indices have met
      have hrev : mid.reverse = mid := by
        cases mid with
        | nil => rfl
        | cons a mid =>
          have hnil : mid = [] := List.eq_nil_of_length_eq_zero (by rw [List.length_cons] at hshort; omega)
          rw [hnil]
          rfl
      rw [reverseLoop, if_neg (by rw [hle]; omega), hrev]
    · obtain ⟨a, mid, b, rfl⟩ : ∃ a mid' b, mid = a :: (mid' ++ [b]) := by
        cases mid with
        | nil => simp at hshort
        | cons a mid =>
          rcases List.eq_nil_or_concat mid with rfl | ⟨mid', b, rfl⟩
          · simp at hshort
          · exact ⟨a, mid', b, by rw [List.concat_eq_append]⟩
      simp only [List.length_cons, List.length_append, List.length_nil] at hturns hj
      have hsplit : ∀ c d : UInt8, pre ++ (c :: (mid ++ [d]) ++ post) = (pre ++ c :: mid) ++ d :: post := by simp
      have hj' : ∀ c : UInt8, j.toNat = (pre ++ c :: mid).length := by
        intro c
        rw [List.length_append, List.length_cons]
        omega
      have hgeti : (pre ++ (a :: (mid ++ [b]) ++ post))[i.toNat]? = some a := by
        rw [List.cons_append]
        exact getElem?_middle hi
      have hgetj : (pre ++ (a :: (mid ++ [b]) ++ post))[j.toNat]? = some b := by
        rw [hsplit]
        exact getElem?_middle (hj' a)
      have hpoke : (poke (pre ++ (a :: (mid ++ [b]) ++ post)) i b).bind (poke · j a) =
          some ((pre ++ [b]) ++ (mid ++ a :: post)) := by
        rw [List.cons_append, poke_append hi, Option.bind_some, ← List.cons_append, hsplit, poke_append (hj' b)]
        simp
      have hi1 : (i + 1).toNat = (pre ++ [b]).length := by
        have hlt := j.toNat_lt
        rw [UInt64.toNat_add, List.length_append, List.length_singleton, hi]
        exact Nat.mod_eq_of_lt (show pre.length + 1 < 2 ^ 64 by omega)
      have hj1 : (j - 1).toNat + 1 = (pre ++ [b]).length + mid.length := by
        have hone : (1 : UInt64).toNat = 1 := rfl
        rw [UInt64.toNat_sub_of_le j 1 (by rw [UInt64.le_iff_toNat_le, hone]; omega), hone, List.length_append,
          List.length_singleton]
        omega
      rw [reverseLoop, if_pos (by rw [hle]; omega)]
      simp only [hgeti, hgetj, hpoke]
      rw [ih (i + 1) (j - 1) (pre ++ [b]) mid (a :: post) (by omega) hi1 hj1]
      simp

/-- **`sio_reverse`** reverses the `len` bytes it is given and leaves the others. -/
theorem sioReverse_spec {turns : Nat} {mid post : Bytes} {len : UInt64} (hlen : len.toNat = mid.length) (hpos : 1 ≤ len.toNat)
    (hturns : mid.length < turns) : sioReverse turns (mid ++ post) len = some (mid.reverse ++ post) := by
  have hone : (1 : UInt64).toNat = 1 := rfl
  refine reverseLoop_spec turns 0 (len - 1) [] mid post hturns rfl ?_
  rw [UInt64.toNat_sub_of_le len 1 (by rw [UInt64.le_iff_toNat_le, hone]; omega), hone, List.length_nil]
  omega

/-! ## `sio_ltoa` -/

/-- What is stored for a remainder by ten. -/
theorem digit_stored {v : Int64} {n : Nat} (hv : v.toInt = n) : (48 + v % 10).toInt8.toUInt8 = digitByte (n % 10) := by
  have hdigits : ∀ d < 10, (48 + Int64.ofNat d).toInt8.toUInt8 = digitByte d := by decide
  have hlt : n % 10 < 10 := Nat.mod_lt n (by decide)
  have hmod : v % 10 = Int64.ofNat (n % 10) := by
    rw [← Int64.toInt_inj, Int64.toInt_mod, Int64.toInt_ofNat_of_lt (by omega), hv]
    rfl
  rw [hmod, hdigits _ hlt]

theorem quotient {v : Int64} {n : Nat} (hv : v.toInt = n) : (v / 10).toInt = ((n / 10 : Nat) : Int) := by
  rw [Int64.toInt_div_of_ne_right _ _ (by decide), hv]
  rfl

/-- The loop stores the digits, the last one first. -/
theorem digitsLoop_spec : ∀ (turns n : Nat) (v : Int64) (i : UInt64) (pre post : Bytes), v.toInt = n → i.toNat = pre.length →
    (leastFirst n).length ≤ turns → (leastFirst n).length ≤ post.length → pre.length + (leastFirst n).length < 2 ^ 64 →
    ∃ i', i'.toNat = pre.length + (leastFirst n).length ∧ digitsLoop turns v i (pre ++ post) =
      some (i', pre ++ ((leastFirst n).map digitByte ++ post.drop (leastFirst n).length)) := by
  intro turns
  induction turns with
  | zero =>
    intro n v i pre post _ _ hturns
    have hne := List.length_pos_iff.2 (leastFirst_ne_nil n)
    omega
  | succ turns ih =>
    intro n v i pre post hv hi hturns hroom hsize
    have hcons := leastFirst_cons n
    cases post with
    | nil =>
      have hne := List.length_pos_iff.2 (leastFirst_ne_nil n)
      rw [List.length_nil] at hroom
      omega
    | cons a post =>
      have hq := quotient hv
      have hpos : 0 < v / 10 ↔ 0 < n / 10 := by
        rw [Int64.lt_iff_toInt_lt, hq]
        exact Int.natCast_pos
      have hi1 : (i + 1).toNat = (pre ++ [digitByte (n % 10)]).length := by
        have hne := List.length_pos_iff.2 (leastFirst_ne_nil n)
        rw [UInt64.toNat_add, List.length_append, List.length_singleton, hi]
        exact Nat.mod_eq_of_lt (show pre.length + 1 < 2 ^ 64 by omega)
      simp only [digitsLoop, digit_stored hv, poke_append hi]
      by_cases hmore : 0 < n / 10
      · rw [if_pos hmore] at hcons
        rw [hcons, List.length_cons] at hturns hroom hsize
        rw [List.length_cons] at hroom
        obtain ⟨i', hi', hloop⟩ := ih (n / 10) (v / 10) (i + 1) (pre ++ [digitByte (n % 10)]) post hq hi1 (by omega) (by omega)
          (by rw [List.length_append, List.length_singleton]; omega)
        rw [List.length_append, List.length_singleton] at hi'
        refine ⟨i', by rw [hi', hcons, List.length_cons]; omega, ?_⟩
        rw [if_pos (hpos.2 hmore), hcons, List.append_cons, hloop]
        simp
      · rw [if_neg hmore] at hcons
        rw [List.length_append, List.length_singleton] at hi1
        refine ⟨i + 1, by rw [hi1, hcons]; rfl, ?_⟩
        rw [if_neg fun h => hmore (hpos.1 h), hcons]
        simp

/-- The magnitude of a `long` has at most 19 digits. -/
theorem magnitude_digits (v : Int64) : (leastFirst v.toInt.natAbs).length ≤ 19 := by
  refine leastFirst_length (by decide) ?_
  have hlt := v.toInt_lt
  have hle := v.le_toInt
  omega

theorem numeral_length (v : Int64) : (numeral v.toInt).length + 1 ≤ 21 := by
  have hdigits := magnitude_digits v
  unfold numeral shown
  rw [List.length_append, List.length_reverse, List.length_map]
  split <;> simp only [List.length_singleton, List.length_nil] <;> omega

/-- The number that the loop is run on. -/
theorem negated {v : Int64} (hv : v ≠ Int64.minValue) :
    (if decide (v < 0) then -v else v).toInt = (v.toInt.natAbs : Int) := by
  have hlt := v.toInt_lt
  have hle := v.le_toInt
  have hzero : (0 : Int64).toInt = 0 := rfl
  have hmin : v.toInt ≠ -2 ^ 63 := fun h => hv (Int64.toInt_inj.1 (h.trans Int64.toInt_minValue.symm))
  by_cases hneg : v < 0
  · have hneg' : v.toInt < 0 := by
      rw [Int64.lt_iff_toInt_lt, hzero] at hneg
      exact hneg
    rw [decide_eq_true hneg, if_pos rfl, Int64.toInt_neg, Int.bmod_eq_of_le (by omega) (by omega)]
    omega
  · have hpos : 0 ≤ v.toInt := by
      rw [Int64.lt_iff_toInt_lt, hzero] at hneg
      omega
    rw [decide_eq_false hneg, if_neg Bool.false_ne_true]
    omega

/-- The end of `sio_ltoa`: the NUL behind what has been stored, and that turned around. -/
theorem terminated {ds post : Bytes} {a : UInt8} {i : UInt64} {turns : Nat} (hi : i.toNat = ds.length) (hne : ds ≠ [])
    (hturns : ds.length < turns) :
    ((poke (ds ++ a :: post) i 0).bind fun s => sioReverse turns s i) = some (ds.reverse ++ 0 :: post) := by
  rw [poke_append hi, Option.bind_some]
  exact sioReverse_spec hi (by rw [hi]; exact List.length_pos_iff.2 hne) hturns

/-- **`sio_ltoa`** leaves the numeral, and the bytes behind its NUL as they were. -/
theorem sioLtoa_spec {v : Int64} (hv : v ≠ Int64.minValue) {s : Bytes} (hs : 21 ≤ s.length) {turns : Nat}
    (hturns : 21 ≤ turns) :
    sioLtoa turns v s = some (numeral v.toInt ++ 0 :: s.drop ((numeral v.toInt).length + 1)) := by
  have hdigits := magnitude_digits v
  obtain ⟨i, hi, hloop⟩ := digitsLoop_spec turns v.toInt.natAbs _ 0 [] s (negated hv) rfl (by omega) (by omega)
    (by rw [List.length_nil]; omega)
  have hshown : shown v.toInt.natAbs = ((leastFirst v.toInt.natAbs).map digitByte).reverse := rfl
  have hne : (leastFirst v.toInt.natAbs).map digitByte ≠ [] := List.map_eq_nil_iff.not.2 (leastFirst_ne_nil _)
  rw [← List.length_map digitByte] at hdigits
  rw [List.length_nil, Nat.zero_add, ← List.length_map digitByte] at hi
  rw [List.nil_append, List.nil_append, ← List.length_map digitByte] at hloop
  simp only [sioLtoa, hloop, Option.bind_some, numeral, hshown]
  generalize (leastFirst v.toInt.natAbs).map digitByte = ds at hi hdigits hne
  rw [List.drop_eq_getElem_cons (show ds.length < s.length by omega)]
  have hsign : v < 0 ↔ v.toInt < 0 := Int64.lt_iff_toInt_lt
  by_cases hneg : v < 0
  · have hi1 : (i + 1).toNat = (ds ++ [45]).length := by
      rw [UInt64.toNat_add, List.length_append, List.length_singleton, hi]
      exact Nat.mod_eq_of_lt (show ds.length + 1 < 2 ^ 64 by omega)
    rw [decide_eq_true hneg, if_pos rfl, if_pos (hsign.1 hneg), poke_append hi]
    simp only [Option.map_some, Option.bind_some]
    rw [List.append_cons, List.drop_eq_getElem_cons (show ds.length + 1 < s.length by omega),
      terminated hi1 (by simp) (by rw [List.length_append, List.length_singleton]; omega)]
    simp
  · rw [decide_eq_false hneg, if_neg Bool.false_ne_true, if_neg fun h => hneg (hsign.2 h), Option.bind_some,
      terminated hi hne (by omega)]
    simp

/-! ## Which numbers are printed -/

/-- What is asked of the two for a number: in any array of at least 21 bytes a canonical numeral of it is left
with its NUL, all else being as before, and it is this numeral that is written. -/
def Printed (v : Int64) : Prop := ∃ t, Canonical t ∧ value t = v.toInt ∧ t.length + 1 ≤ 21 ∧
  ∀ s : Bytes, 21 ≤ s.length → ∃ enough, ∀ turns ≥ enough,
    sioLtoa turns v s = some (t ++ 0 :: s.drop (t.length + 1)) ∧ sioPutl turns v s = some t

theorem numeral_nul (z : Int) : (0 : UInt8) ∉ numeral z := by
  unfold numeral
  rw [List.mem_append, not_or]
  refine ⟨by split <;> decide, fun h => ?_⟩
  have hdigit := isDecimal_shown h
  revert hdigit
  decide

theorem printed {v : Int64} (hv : v ≠ Int64.minValue) : Printed v := by
  refine ⟨numeral v.toInt, numeral_canonical _, value_numeral _, numeral_length v, fun s hs => ⟨21, fun turns hturns => ?_⟩⟩
  have hltoa := sioLtoa_spec hv hs hturns
  refine ⟨hltoa, ?_⟩
  rw [sioPutl, hltoa]
  simp only
  rw [sioStrlen_append (numeral_nul _), Option.map_some, List.take_left]

/-- Of the least number the last digit is a `(`, and the loop ends there. -/
theorem sioPutl_least (turns : Nat) : sioPutl (turns + 2) Int64.minValue (List.replicate 21 0) = some (ascii "-(") := by
  rfl

theorem Printed.ne_least {v : Int64} (h : Printed v) : v ≠ Int64.minValue := by
  rintro rfl
  obtain ⟨t, hcanonical, -, -, h⟩ := h
  obtain ⟨enough, h⟩ := h (List.replicate 21 0) (by simp)
  have ht := (h (enough + 2) (by omega)).2
  rw [sioPutl_least, Option.some.injEq] at ht
  subst ht
  revert hcanonical
  decide

/-- **Integers are printed right**: `sio_reverse` reverses what it is given, and a number is printed as its
numeral if and only if it is not the least one. -/
theorem sio_iff (v : Int64) :
    (∀ (mid post : Bytes) (len : UInt64), len.toNat = mid.length → 1 ≤ len.toNat → ∃ enough, ∀ turns ≥ enough,
      sioReverse turns (mid ++ post) len = some (mid.reverse ++ post)) ∧
    (Printed v ↔ v ≠ Int64.minValue) := by
  constructor
  · intro mid post len hlen hpos
    exact ⟨mid.length + 1, fun turns hturns => sioReverse_spec hlen hpos (by omega)⟩
  · exact ⟨Printed.ne_least, printed⟩

theorem sio_iff_small : (∃ enough, ∀ turns ≥ enough, sioReverse turns (ascii "-34" ++ [0]) 3 = some (ascii "43-" ++ [0])) ∧
    (Printed (-43) ↔ (-43 : Int64) ≠ Int64.minValue) :=
  ⟨(sio_iff (-43)).1 (ascii "-34") [0] 3 (by decide) (by decide), (sio_iff (-43)).2⟩

/-- It is printed as `-(`. -/
theorem least_not_printed : sioPutl 2 Int64.minValue (List.replicate 21 0) = some (ascii "-(") ∧ ¬ Printed Int64.minValue :=
  ⟨sioPutl_least 0, fun h => h.ne_least rfl⟩

end ComputerSystem.Shell
