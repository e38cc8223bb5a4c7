import ComputerSystem.Dedup.Hash
/-!
# The capacity of the table (`Chapter5/5.12-5.14/expirements/dedup.c:70-78`)

`cap` and `g_n * 2` are both `int`, and `main` takes `g_n` from the command line as it is. `capacity_iff`
says for which `g_n` the loop ends without an overflow, with a power of two of which the table fills no
more than half: up to 2^29. Above it the loop shifts 2^30 to the left, or `g_n * 2` itself overflows.

`tableLoop` is the loop over the words once more, for the table that it leaves.
-/

namespace ComputerSystem.Dedup

section
variable (str : Ptr → CString)

/-- The loop over the words (`:80-97`) with `tab`, which `hashLoop` does not return. -/
def tableLoop (rounds : Nat) (mask : UInt64) : List Ptr → List Int → List Ptr → Option (List Int × List Ptr)
  | [], tab, uniq => some (tab, uniq)
  | w :: words, tab, uniq =>
    match probeLoop str tab uniq mask w rounds (hash (str w).bytes &&& mask) with
    | none => none
    | some (dup, k) =>
      if !dup then tableLoop rounds mask words (tab.set k.toNat uniq.length) (uniq ++ [w])
      else tableLoop rounds mask words tab uniq

theorem hashLoop_table (rounds : Nat) (mask : UInt64) : ∀ (words : List Ptr) (tab : List Int) (uniq : List Ptr),
    hashLoop str rounds mask words tab uniq = (tableLoop str rounds mask words tab uniq).map (·.2) := by
  intro words
  induction words with
  | nil =>
    intro tab uniq
    rfl
  | cons w words ih =>
    intro tab uniq
    rw [hashLoop, tableLoop]
    cases probeLoop str tab uniq mask w rounds (hash (str w).bytes &&& mask) with
    | none => rfl
    | some p =>
      cases hdup : p.1 with
      | true => simpa only [hdup, Bool.not_true, Bool.false_eq_true, if_false] using ih tab uniq
      | false =>
        simpa only [hdup, Bool.not_false, if_true] using ih (tab.set p.2.toNat uniq.length) (uniq ++ [w])

end

/-- The elements of `tab` that are taken. -/
def used (tab : List Int) : Nat := tab.countP (· ≠ -1)

/-- What the rest of `dedup_hash` relies on: `cap` is a power of two and an `int`, it is no less than
`2 * g_n`, `&` with `cap - 1` is the remainder, and behind every word the probing has come to an end and
the table is at most half full. -/
structure Capacity (gN cap : Int) : Prop where
  power : ∃ e : Nat, cap = 2 ^ e
  twice : 2 * gN ≤ cap
  fits  : cap ≤ INT_MAX
  mask  : ∀ h : UInt64, (h &&& (UInt64.ofNat (toSize cap) - 1)).toNat = h.toNat % cap.toNat
  half  : ∀ (str : Ptr → CString) (words : List Ptr), (words.length : Int) = gN → ∃ enough, ∀ rounds ≥ enough, ∀ i,
    ∃ tab uniq, tableLoop str rounds (UInt64.ofNat (toSize cap) - 1) (words.take i) (List.replicate cap.toNat (-1)) [] =
      some (tab, uniq) ∧ 2 * (used tab : Int) ≤ cap

/-- The loop ends, in enough rounds, without an overflow and with such a `cap`. -/
def Sized (gN : Int) : Prop := ∃ cap, Capacity gN cap ∧ ∃ enough, ∀ rounds ≥ enough, capChecked gN rounds 1 = some cap

/-! ## The load -/

theorem used_eq {tab : List Int} {uniq : List Ptr} (h : Inside tab uniq) : used tab = load (slots tab uniq) := by
  rw [used, load, slots, List.countP_map]
  refine List.countP_congr fun i hi => ?_
  have hentry : (entry uniq i).isSome = true ↔ i ≠ -1 := by
    rcases h i hi with rfl | ⟨x, hx⟩
    · simp [entry]
    · by_cases hneg : i = -1
      · simp [entry, hneg]
      · simp [entry, hneg, hx]
  rw [Function.comp_apply, hentry, decide_eq_true_eq]

/-- The words leave a filled table, with an entry for one word each at most. -/
theorem tableLoop_filled {str : Ptr → CString} {e : Nat} (he : e ≤ 30) {rounds : Nat} (hrounds : 2 ^ e ≤ rounds) :
    ∀ (words : List Ptr) {tab : List Int} {uniq : List Ptr}, Filled str (2 ^ e) tab uniq →
      uniq.length + words.length ≤ 2 ^ e →
      ∃ tab' uniq', tableLoop str rounds (UInt64.ofNat (toSize ((2 ^ e : Nat) : Int)) - 1) words tab uniq =
        some (tab', uniq') ∧ Filled str (2 ^ e) tab' uniq' ∧ uniq'.length ≤ uniq.length + words.length := by
  intro words
  induction words with
  | nil =>
    intro tab uniq h _
    exact ⟨tab, uniq, rfl, h, Nat.le_refl _⟩
  | cons w words ih =>
    intro tab uniq h hroom
    rw [List.length_cons] at hroom
    obtain ⟨k, hloop, hnew⟩ := h.word he (by omega) w hrounds
    cases hfound : found str w uniq with
    | true =>
      obtain ⟨tab', uniq', htable, hfilled, hle⟩ := ih h (by omega)
      refine ⟨tab', uniq', ?_, hfilled, by rw [List.length_cons]; omega⟩
      simp only [tableLoop, hloop, hfound, Bool.not_true, Bool.false_eq_true, if_false]
      exact htable
    | false =>
      have hsnoc : (uniq ++ [w]).length = uniq.length + 1 := by rw [List.length_append, List.length_singleton]
      obtain ⟨tab', uniq', htable, hfilled, hle⟩ := ih (hnew hfound) (by omega)
      refine ⟨tab', uniq', ?_, hfilled, by rw [List.length_cons]; omega⟩
      simp only [tableLoop, hloop, hfound, Bool.not_false, if_true]
      exact htable

/-! ## Which counts are served -/

theorem capacity_of_power {n e : Nat} (he : e ≤ 30) (hcap : 2 * n ≤ 2 ^ e) : Capacity n ((2 ^ e : Nat) : Int) := by
  have hle : 2 ^ e ≤ 2 ^ 30 := Nat.pow_le_pow_right (by decide) he
  refine ⟨⟨e, by rw [Nat.cast_pow]; rfl⟩, by omega, by unfold INT_MAX; omega, ?_, ?_⟩
  · intro h
    rw [and_mask he, Int.toNat_natCast]
  · intro str words hlen
    refine ⟨2 ^ e, fun rounds hrounds i => ?_⟩
    have htake : (words.take i).length ≤ n := by
      rw [List.length_take]
      omega
    obtain ⟨tab, uniq, htable, hfilled, hwords⟩ := tableLoop_filled he hrounds (words.take i) (filled_empty str (2 ^ e))
      (by rw [List.length_nil]; omega)
    refine ⟨tab, uniq, htable, ?_⟩
    rw [List.length_nil] at hwords
    rw [used_eq hfilled.inside, hfilled.loaded]
    omega

/-- A count above 2^29 ends in an overflow, however far the loop has come. -/
theorem capChecked_overflow {gN : Int} (h : 2 ^ 29 < gN) : ∀ (rounds e : Nat), e ≤ 30 →
    capChecked gN rounds ((2 ^ e : Nat) : Int) = none := by
  intro rounds
  induction rounds with
  | zero =>
    intro e _
    rfl
  | succ rounds ih =>
    intro e he
    rw [capChecked]
    by_cases hbound : gN * 2 ≤ INT_MAX
    · have hle : 2 ^ e ≤ 2 ^ 30 := Nat.pow_le_pow_right (by decide) he
      have hnonneg := Int.natCast_nonneg (2 ^ e)
      rw [checkedInt_eq (by omega) hbound]
      simp only
      rw [if_pos (by omega)]
      by_cases hlast : e = 30
      · -- 2^30 is shifted to the left
        subst hlast
        rw [checkedInt_none (by unfold INT_MAX; omega)]
      · have hstep : 2 ^ (e + 1) ≤ 2 ^ 30 := Nat.pow_le_pow_right (by decide) (by omega)
        have hdouble : ((2 ^ e : Nat) : Int) * 2 = ((2 ^ (e + 1) : Nat) : Int) := by
          rw [Nat.pow_succ, Nat.cast_mul]
          rfl
        rw [hdouble, checkedInt_eq (by omega) (by unfold INT_MAX; omega)]
        exact ih (e + 1) (by omega)
    · rw [checkedInt_none (by omega)]

theorem overflow_not_sized {gN : Int} (h : 2 ^ 29 < gN) : ¬ Sized gN := by
  rintro ⟨cap, -, enough, hloop⟩
  have hnone := capChecked_overflow h enough 0 (by omega)
  rw [Nat.pow_zero, Nat.cast_one, hloop enough (Nat.le_refl _)] at hnone
  cases hnone

/-- **The capacity** is computed for exactly the counts up to 2^29. -/
theorem capacity_iff (gN : Int) (h0 : 0 ≤ gN) (hmax : gN ≤ INT_MAX) : Sized gN ↔ gN ≤ 2 ^ 29 := by
  constructor
  · intro h
    by_contra hlarge
    exact overflow_not_sized (by omega) h
  · intro hle
    obtain ⟨n, rfl⟩ := Int.eq_ofNat_of_zero_le h0
    have hn : n ≤ 2 ^ 29 := by omega
    obtain ⟨e, he, hcap, hloop⟩ := capChecked_spec hn 30 0 rfl
    exact ⟨((2 ^ e : Nat) : Int), capacity_of_power he hcap, 31, fun rounds hrounds => hloop rounds (by omega)⟩

theorem capacity_iff_three : Sized 3 ↔ (3 : Int) ≤ 2 ^ 29 := capacity_iff 3 (by decide) (by decide)

/-- `./dedup hash 536870913 1`: 2^30 is too small, and shifted to the left. -/
theorem capacity_overflow : (0 : Int) ≤ 536870913 ∧ 536870913 ≤ INT_MAX ∧ ¬ Sized 536870913 :=
  ⟨by decide, by decide, overflow_not_sized (by decide)⟩

end ComputerSystem.Dedup
