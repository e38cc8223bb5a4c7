import ComputerSystem.Lib.Probe
import ComputerSystem.Dedup.Basic
/-!
# The hash table of `dedup_hash` (`Chapter5/5.12-5.14/expirements/dedup.c:70-100`)

`tab` holds indices into `uniq`; `slots` reads it as a table of the words themselves, and `Filled` is the
invariant of the loop over the words: the table is probed from the hashes, it has exactly the words of
`uniq`, and as many entries as there are. A table has twice as many slots as there are words, so there
is an empty slot for every walk. `probeLoop_stop` says that the loop is the walk of the library,
`hashLoop_eq` that every word is kept by the one function if and only if it is kept by the other.
-/

namespace ComputerSystem.Dedup

/-! ## `cap` and `mask` -/

/-- A run without an overflow is a run. -/
theorem capChecked_eq {gN c : Int} : ∀ (rounds : Nat) (cap : Int), capChecked gN rounds cap = some c →
    capLoop gN rounds cap = some c := by
  intro rounds
  induction rounds with
  | zero =>
    intro cap h
    cases h
  | succ rounds ih =>
    intro cap h
    rw [capChecked] at h
    split at h
    · cases h
    · rename_i bound hbound
      rw [capLoop, toInt32_checked hbound]
      split at h
      · rename_i hlt
        split at h
        · cases h
        · rename_i cap' hcap
          rw [if_pos hlt, toInt32_checked hcap]
          exact ih cap' h
      · rename_i hge
        rw [if_neg hge]
        exact h

/-- The loop doubles until it has enough, and that is before the `int` overflows. -/
theorem capChecked_spec {n : Nat} (hn : n ≤ 2 ^ 29) : ∀ (left e : Nat), e + left = 30 →
    ∃ e', e' ≤ 30 ∧ 2 * n ≤ 2 ^ e' ∧
      ∀ rounds > left, capChecked n rounds ((2 ^ e : Nat) : Int) = some ((2 ^ e' : Nat) : Int) := by
  have htwice : checkedInt ((n : Int) * 2) = some ((n : Int) * 2) := checkedInt_eq (by omega) (by unfold INT_MAX; omega)
  intro left
  induction left with
  | zero =>
    intro e he
    obtain rfl : e = 30 := by omega
    refine ⟨30, Nat.le_refl _, by omega, fun rounds hrounds => ?_⟩
    obtain ⟨rounds, rfl⟩ : ∃ r, rounds = r + 1 := ⟨rounds - 1, by omega⟩
    simp only [capChecked, htwice]
    rw [if_neg (by omega)]
  | succ left ih =>
    intro e he
    by_cases hlt : 2 ^ e < 2 * n
    · have hnonneg := Int.natCast_nonneg (2 ^ e)
      have hdouble : checkedInt (((2 ^ e : Nat) : Int) * 2) = some ((2 ^ (e + 1) : Nat) : Int) := by
        rw [checkedInt_eq (by omega) (by unfold INT_MAX; omega), Nat.pow_succ, Nat.cast_mul]
        rfl
      obtain ⟨e', he', hcap, hloop⟩ := ih (e + 1) (by omega)
      refine ⟨e', he', hcap, fun rounds hrounds => ?_⟩
      obtain ⟨rounds, rfl⟩ : ∃ r, rounds = r + 1 := ⟨rounds - 1, by omega⟩
      simp only [capChecked, htwice, hdouble]
      rw [if_pos (by omega)]
      exact hloop rounds (by omega)
    · refine ⟨e, by omega, by omega, fun rounds hrounds => ?_⟩
      obtain ⟨rounds, rfl⟩ : ∃ r, rounds = r + 1 := ⟨rounds - 1, by omega⟩
      simp only [capChecked, htwice]
      rw [if_neg (by omega)]

section
variable {e : Nat} (he : e ≤ 30)
include he

theorem two_pow_lt : 2 ^ e < 2 ^ 64 := Nat.pow_lt_pow_right (by decide) (by omega)

theorem mask_toNat : (UInt64.ofNat (toSize ((2 ^ e : Nat) : Int)) - 1).toNat = 2 ^ e - 1 := by
  have hlt := two_pow_lt he
  have hpos : 0 < 2 ^ e := Nat.two_pow_pos e
  have hsize : toSize ((2 ^ e : Nat) : Int) = 2 ^ e := by
    unfold toSize
    rw [Int.emod_eq_of_lt (by omega) (by omega)]
    exact Int.toNat_natCast _
  rw [hsize, UInt64.toNat_sub_of_le, UInt64.toNat_ofNat_of_lt' hlt]
  · rfl
  · rw [UInt64.le_iff_toNat_le, UInt64.toNat_ofNat_of_lt' hlt]
    exact hpos

/-- `&` with the mask is the remainder. -/
theorem and_mask (h : UInt64) :
    (h &&& (UInt64.ofNat (toSize ((2 ^ e : Nat) : Int)) - 1)).toNat = h.toNat % 2 ^ e := by
  rw [UInt64.toNat_and, mask_toNat he, Nat.and_two_pow_sub_one_eq_mod]

/-- The next slot, from the last one on to the first. -/
theorem next_slot {k : UInt64} (hk : k.toNat < 2 ^ e) :
    ((k + 1) &&& (UInt64.ofNat (toSize ((2 ^ e : Nat) : Int)) - 1)).toNat = (k.toNat + 1) % 2 ^ e := by
  have hlt : 2 ^ e ≤ 2 ^ 30 := Nat.pow_le_pow_right (by decide) he
  have hone : (k + 1).toNat = k.toNat + 1 := by
    rw [UInt64.toNat_add]
    exact Nat.mod_eq_of_lt (show k.toNat + 1 < 2 ^ 64 by omega)
  rw [and_mask he, hone]

end

/-! ## The table -/

/-- What an element of `tab` stands for. -/
def entry (uniq : List Ptr) (i : Int) : Option Ptr := if i = -1 then none else index uniq i

def slots (tab : List Int) (uniq : List Ptr) : List (Option Ptr) := tab.map (entry uniq)

section
variable {str : Ptr → CString} {tab : List Int} {uniq : List Ptr}

/-- Where the walk of a word starts, without the remainder by `cap`. -/
def home (str : Ptr → CString) (w : Ptr) : Nat := (hash (str w).bytes).toNat

/-- Every element of `tab` is -1 or an index into `uniq`. -/
def Inside (tab : List Int) (uniq : List Ptr) : Prop := ∀ i ∈ tab, i = -1 ∨ ∃ x, index uniq i = some x

theorem slots_empty (h : Inside tab uniq) {k : Nat} (hk : (slots tab uniq)[k]? = some none) : tab[k]? = some (-1) := by
  rw [slots, List.getElem?_map] at hk
  obtain ⟨i, hi, hentry⟩ := Option.map_eq_some_iff.1 hk
  rcases h i (List.mem_of_getElem? hi) with rfl | ⟨x, hx⟩
  · exact hi
  · rw [entry] at hentry
    split at hentry
    · rename_i hneg
      rw [hi, hneg]
    · rw [hx] at hentry
      cases hentry

theorem slots_entry {k : Nat} {x : Ptr} (hk : (slots tab uniq)[k]? = some (some x)) :
    ∃ i, tab[k]? = some i ∧ i ≠ -1 ∧ index uniq i = some x := by
  rw [slots, List.getElem?_map] at hk
  obtain ⟨i, hi, hentry⟩ := Option.map_eq_some_iff.1 hk
  rw [entry] at hentry
  split at hentry
  · cases hentry
  · rename_i hneg
    exact ⟨i, hi, hneg, hentry⟩

theorem index_concat (uniq : List Ptr) (w : Ptr) : index (uniq ++ [w]) uniq.length = some w := by
  unfold index
  rw [if_neg (by omega)]
  simp

theorem index_append {i : Int} {x : Ptr} (h : index uniq i = some x) (w : Ptr) : index (uniq ++ [w]) i = some x := by
  unfold index at h ⊢
  split at h
  · cases h
  · rename_i hneg
    rw [if_neg hneg, List.getElem?_append_left (List.getElem?_eq_some_iff.1 h).1]
    exact h

/-- A new word at a free place (`:96-97`). -/
theorem slots_set (h : Inside tab uniq) (k : Nat) (w : Ptr) :
    slots (tab.set k uniq.length) (uniq ++ [w]) = (slots tab uniq).set k (some w) := by
  have hnew : entry (uniq ++ [w]) uniq.length = some w := by
    rw [entry, if_neg (by omega), index_concat]
  have hold : tab.map (entry (uniq ++ [w])) = slots tab uniq := by
    apply List.map_congr_left
    intro i hi
    unfold entry
    rcases h i hi with rfl | ⟨x, hx⟩
    · rfl
    · rw [hx, index_append hx w]
  rw [slots, List.map_set, hnew, hold]

theorem Inside.set (h : Inside tab uniq) (k : Nat) (w : Ptr) : Inside (tab.set k uniq.length) (uniq ++ [w]) := by
  intro i hi
  rcases List.mem_or_eq_of_mem_set hi with hi | rfl
  · exact (h i hi).imp_right fun ⟨x, hx⟩ => ⟨x, index_append hx w⟩
  · exact .inr ⟨w, index_concat uniq w⟩

/-- The invariant of the loop over the words. -/
structure Filled (str : Ptr → CString) (cap : Nat) (tab : List Int) (uniq : List Ptr) : Prop where
  length : tab.length = cap
  inside : Inside tab uniq
  probed : Probed (home str) (slots tab uniq)
  words  : ∀ w, some w ∈ slots tab uniq ↔ w ∈ uniq
  loaded : load (slots tab uniq) = uniq.length

theorem filled_empty (str : Ptr → CString) (cap : Nat) : Filled str cap (List.replicate cap (-1)) [] := by
  have hslots : slots (List.replicate cap (-1)) [] = List.replicate cap none := by
    rw [slots, List.map_replicate]
    rfl
  refine ⟨List.length_replicate, ?_, ?_, ?_, ?_⟩
  · intro i hi
    exact .inl (List.eq_of_mem_replicate hi)
  · rw [hslots]
    exact probed_replicate _ _
  · intro w
    rw [hslots]
    constructor
    · intro hw
      cases List.eq_of_mem_replicate hw
    · intro hw
      cases hw
  · rw [hslots]
    exact load_replicate cap

/-! ## One word -/

section
variable {e : Nat} (he : e ≤ 30) (hlen : tab.length = 2 ^ e) (hin : Inside tab uniq)
include he hlen hin

/-- **The loop over `tab` is the walk**: from its `i`-th slot on it passes the slots before the `j`-th
and stops there. -/
theorem probeLoop_stop {w : Ptr} {start j : Nat} {dup : Bool}
    (hstop : if dup then ∃ x, probeAt (slots tab uniq) start j = some (some x) ∧ str x = str w
      else probeAt (slots tab uniq) start j = some none) :
    ∀ (left i rounds : Nat) (k : UInt64), i + left = j → left < rounds → k.toNat = slotAt (2 ^ e) start i →
      (∀ i' < j, i ≤ i' → Passes (fun x => str x = str w) (probeAt (slots tab uniq) start i')) →
      ∃ k', k'.toNat = slotAt (2 ^ e) start j ∧
        probeLoop str tab uniq (UInt64.ofNat (toSize ((2 ^ e : Nat) : Int)) - 1) w rounds k = some (dup, k') := by
  have hslots : (slots tab uniq).length = 2 ^ e := by rw [slots, List.length_map, hlen]
  have hat : ∀ i, probeAt (slots tab uniq) start i = (slots tab uniq)[slotAt (2 ^ e) start i]? := by
    intro i
    rw [probeAt, hslots]
  intro left
  induction left with
  | zero =>
    intro i rounds k hi hrounds hk hpass
    obtain ⟨rounds, rfl⟩ : ∃ r, rounds = r + 1 := ⟨rounds - 1, by omega⟩
    obtain rfl : i = j := by omega
    refine ⟨k, hk, ?_⟩
    rw [hat, ← hk] at hstop
    cases dup with
    | false =>
      have hempty := slots_empty hin hstop
      simp only [probeLoop, hempty, ne_eq, not_true, if_false]
    | true =>
      obtain ⟨x, hx, heq⟩ := hstop
      obtain ⟨v, hv, hneg, hindex⟩ := slots_entry hx
      simp only [probeLoop, hv, if_pos hneg, hindex, CString.strcmp_iff, if_pos heq]
  | succ left ih =>
    intro i rounds k hi hrounds hk hpass
    obtain ⟨rounds, rfl⟩ : ∃ r, rounds = r + 1 := ⟨rounds - 1, by omega⟩
    obtain ⟨x, hx, hne⟩ := hpass i (by omega) (Nat.le_refl i)
    rw [hat, ← hk] at hx
    obtain ⟨v, hv, hneg, hindex⟩ := slots_entry hx
    have hklt : k.toNat < 2 ^ e := hk ▸ slotAt_lt (Nat.two_pow_pos e) start i
    have hnext : ((k + 1) &&& (UInt64.ofNat (toSize ((2 ^ e : Nat) : Int)) - 1)).toNat = slotAt (2 ^ e) start (i + 1) := by
      rw [next_slot he hklt, hk, slotAt_succ]
    obtain ⟨k', hk', hloop⟩ := ih (i + 1) rounds _ (by omega) (by omega) hnext
      fun i' hi' hle => hpass i' hi' (by omega)
    refine ⟨k', hk', ?_⟩
    simp only [probeLoop, hv, if_pos hneg, hindex, CString.strcmp_iff, if_neg hne]
    exact hloop

end

/-- **One word**: it is a duplicate for the table if and only if it is one for the list, and the table
keeps its invariant. -/
theorem Filled.word {e : Nat} (he : e ≤ 30) (h : Filled str (2 ^ e) tab uniq) (hroom : uniq.length < 2 ^ e) (w : Ptr)
    {rounds : Nat} (hrounds : 2 ^ e ≤ rounds) :
    ∃ k, probeLoop str tab uniq (UInt64.ofNat (toSize ((2 ^ e : Nat) : Int)) - 1) w rounds
        (hash (str w).bytes &&& (UInt64.ofNat (toSize ((2 ^ e : Nat) : Int)) - 1)) = some (found str w uniq, k) ∧
      (found str w uniq = false → Filled str (2 ^ e) (tab.set k.toNat uniq.length) (uniq ++ [w])) := by
  have hslots : (slots tab uniq).length = 2 ^ e := by rw [slots, List.length_map, h.length]
  have hfree : none ∈ slots tab uniq := exists_empty (by rw [h.loaded, hslots]; exact hroom)
  obtain ⟨j, hj, hpass, hstop⟩ := exists_stop (fun x => str x = str w) hfree (home str w)
  have hstart : (hash (str w).bytes &&& (UInt64.ofNat (toSize ((2 ^ e : Nat) : Int)) - 1)).toNat =
      slotAt (2 ^ e) (home str w) 0 := and_mask he _
  have hdup : (if found str w uniq then ∃ x, probeAt (slots tab uniq) (home str w) j = some (some x) ∧ str x = str w
      else probeAt (slots tab uniq) (home str w) j = some none) := by
    rcases hstop with hempty | ⟨x, hx, heq⟩
    · have hfound : found str w uniq = false := by
        rw [← Bool.not_eq_true, found_iff]
        rintro ⟨x, hx, heq⟩
        refine h.probed.absent (p := fun x => str x = str w) (fun y hy => ?_) hpass hempty ((h.words x).2 hx) heq
        rw [home, home, hy]
      rw [hfound]
      exact hempty
    · have hfound : found str w uniq = true := found_iff.2 ⟨x, (h.words x).1 (List.mem_of_getElem? hx), heq⟩
      rw [hfound]
      exact ⟨x, hx, heq⟩
  obtain ⟨k, hk, hloop⟩ := probeLoop_stop he h.length h.inside hdup j 0 rounds _ (Nat.zero_add j) (by omega) hstart
    fun i hi _ => hpass i hi
  refine ⟨k, hloop, fun hno => ?_⟩
  rw [hno] at hdup
  have hempty : probeAt (slots tab uniq) (home str w) j = some none := hdup
  have hslot : (slots tab uniq)[k.toNat]? = some none := by
    rw [probeAt, hslots, ← hk] at hempty
    exact hempty
  rw [← hslots] at hk
  refine ⟨by rw [List.length_set, h.length], h.inside.set k.toNat w, ?_, ?_, ?_⟩
  · rw [slots_set h.inside, hk]
    exact h.probed.set hj hpass hempty
  · intro x
    rw [slots_set h.inside, mem_set_slot hslot, h.words, List.mem_append, List.mem_singleton]
  · rw [slots_set h.inside, load_set hslot, h.loaded, List.length_append, List.length_singleton]

/-! ## All words -/

theorem hashLoop_eq {e : Nat} (he : e ≤ 30) {rounds : Nat} (hrounds : 2 ^ e ≤ rounds) : ∀ (words : List Ptr)
    {tab : List Int} {uniq : List Ptr}, Filled str (2 ^ e) tab uniq → uniq.length + words.length ≤ 2 ^ e →
    hashLoop str rounds (UInt64.ofNat (toSize ((2 ^ e : Nat) : Int)) - 1) words tab uniq =
      some (words.foldl (quadraticStep str) uniq) := by
  intro words
  induction words with
  | nil =>
    intro tab uniq _ _
    rfl
  | cons w words ih =>
    intro tab uniq h hroom
    rw [List.length_cons] at hroom
    obtain ⟨k, hloop, hnew⟩ := h.word he (by omega) w hrounds
    rw [List.foldl_cons, quadraticStep]
    cases hfound : found str w uniq with
    | true =>
      simp only [hashLoop, hloop, hfound, Bool.not_true, Bool.false_eq_true, if_false]
      exact ih h (by omega)
    | false =>
      simp only [hashLoop, hloop, hfound, Bool.not_false, if_true]
      exact ih (hnew hfound) (by rw [List.length_append, List.length_singleton]; omega)

/-- **`dedup_hash` terminates and returns what `dedup_quadratic` returns**: the first occurrences of the
distinct strings, in the order of the words. -/
theorem dedupHash_eq (str : Ptr → CString) (words : List Ptr) (hn : words.length ≤ 2 ^ 29) :
    (∃ enough, ∀ rounds ≥ enough, dedupHash str rounds words = some (dedupQuadratic str words)) ∧
    dedupQuadratic str words = ⟨(firstOccurrences str words).length, firstOccurrences str words⟩ := by
  constructor
  · refine ⟨2 ^ 30, fun rounds hrounds => ?_⟩
    obtain ⟨e, he, hcap, hchecked⟩ := capChecked_spec hn 30 0 rfl
    have hloop := capChecked_eq rounds _ (hchecked rounds (by omega))
    have hle : 2 ^ e ≤ 2 ^ 30 := Nat.pow_le_pow_right (by decide) he
    have hrounds' : 2 ^ e ≤ rounds := by omega
    have hwords := hashLoop_eq he hrounds' words (filled_empty str (2 ^ e))
      (by rw [List.length_nil]; omega)
    rw [Nat.pow_zero, Nat.cast_one] at hloop
    simp only [dedupHash, hloop, Int.toNat_natCast, hwords]
    rfl
  · rw [← quadratic_first]
    rfl

end

/-- Even pointers to one string and odd ones to the empty one. -/
def twoStrings : Ptr → CString := fun p => if p % 2 = 0 then ⟨ascii "a", by decide⟩ else ⟨[], by decide⟩

theorem dedupHash_eq_twoStrings : ∃ enough, ∀ rounds ≥ enough,
    dedupHash twoStrings rounds [4, 1, 2, 3] = some ⟨2, [4, 1]⟩ := by
  have hquadratic : dedupQuadratic twoStrings [4, 1, 2, 3] = ⟨2, [4, 1]⟩ := by decide
  rw [← hquadratic]
  exact (dedupHash_eq twoStrings [4, 1, 2, 3] (by decide)).1

end ComputerSystem.Dedup
