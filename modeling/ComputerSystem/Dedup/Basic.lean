import Mathlib.Data.List.Basic
import Mathlib.Data.List.Induction
import ComputerSystem.CTypes
/-!
# Two ways to drop duplicates (`Chapter5/5.12-5.14/expirements/dedup.c`)

`dedup_quadratic` looks for every word among those it has kept; `dedup_hash` keeps an open-addressing
table of their indices. `quadratic_first` says what the first one keeps.

| here               | there                                                                  |
|--------------------|------------------------------------------------------------------------|
| `Ptr`, `CString`   | a `char *`, and the string it points to; `str` is the memory            |
| `words`            | `g_words[0 .. g_n)`                                                      |
| `uniq`             | `uniq[0 .. u)`, the part that is written                                |
| `found`, `dedupQuadratic` | `dedup_quadratic` (`:53`): the inner loop, the whole function     |
| `hash`             | the hash of a word (`:83-85`)                                            |
| `capLoop`          | the loop that sets `cap` (`:71-73`), the sums taken modulo 2^32           |
| `capChecked`       | the same loop, `none` where one of them overflows                        |
| `probeLoop`        | the loop over `tab` (`:88-94`); `true` for `dup`, and the last `k`       |
| `hashLoop`, `dedupHash` | `dedup_hash` (`:70`): the loop over the words, the whole function    |

The loops of `dedup_hash` run for at most `rounds` rounds each. They are `none` when that is not
enough, and when an index is not in its array.
-/

namespace ComputerSystem.Dedup

abbrev Ptr := Nat

/-- A string without its terminating NUL. -/
structure CString where
  bytes : Bytes
  nul   : (0 : UInt8) ∉ bytes
deriving DecidableEq

def strcmp : Bytes → Bytes → Int
  | [], [] => 0
  | [], b :: _ => -b.toNat
  | a :: _, [] => a.toNat
  | a :: as, b :: bs => if a = b then strcmp as bs else a.toNat - b.toNat

/-- What a function returns, and what it has written. -/
structure Deduped where
  u    : Int
  uniq : List Ptr
deriving DecidableEq, Repr

/-- `a[i]` for an `int i`. -/
def index {α : Type} (a : List α) (i : Int) : Option α := if i < 0 then none else a[i.toNat]?

section
variable (str : Ptr → CString)

/-! ## `dedup_quadratic` -/

def found (w : Ptr) : List Ptr → Bool
  | [] => false
  | x :: uniq => if strcmp (str w).bytes (str x).bytes = 0 then true else found w uniq

def quadraticStep (uniq : List Ptr) (w : Ptr) : List Ptr := if !found str w uniq then uniq ++ [w] else uniq

def dedupQuadratic (words : List Ptr) : Deduped :=
  let uniq := words.foldl (quadraticStep str) []
  ⟨uniq.length, uniq⟩

/-! ## `dedup_hash` -/

def hash (s : Bytes) : UInt64 := s.foldl (fun h c => h * 33 + c.toUInt64) 5381

def capLoop (gN : Int) : Nat → Int → Option Int
  | 0, _ => none
  | rounds + 1, cap => if cap < toInt32 (gN * 2) then capLoop gN rounds (toInt32 (cap * 2)) else some cap

def capChecked (gN : Int) : Nat → Int → Option Int
  | 0, _ => none
  | rounds + 1, cap =>
    match checkedInt (gN * 2) with
    | none => none
    | some bound =>
      if cap < bound then
        match checkedInt (cap * 2) with
        | none => none
        | some cap => capChecked gN rounds cap
      else some cap

def probeLoop (tab : List Int) (uniq : List Ptr) (mask : UInt64) (w : Ptr) : Nat → UInt64 → Option (Bool × UInt64)
  | 0, _ => none
  | rounds + 1, k =>
    match tab[k.toNat]? with
    | none => none
    | some i =>
      if i ≠ -1 then
        match index uniq i with
        | none => none
        | some x =>
          if strcmp (str x).bytes (str w).bytes = 0 then some (true, k)
          else probeLoop tab uniq mask w rounds ((k + 1) &&& mask)
      else some (false, k)

def hashLoop (rounds : Nat) (mask : UInt64) : List Ptr → List Int → List Ptr → Option (List Ptr)
  | [], _, uniq => some uniq
  | w :: words, tab, uniq =>
    match probeLoop str tab uniq mask w rounds (hash (str w).bytes &&& mask) with
    | none => none
    | some (dup, k) =>
      if !dup then hashLoop rounds mask words (tab.set k.toNat uniq.length) (uniq ++ [w])
      else hashLoop rounds mask words tab uniq

def dedupHash (rounds : Nat) (words : List Ptr) : Option Deduped :=
  match capLoop words.length rounds 1 with
  | none => none
  | some cap =>
    let mask := UInt64.ofNat (toSize cap) - 1
    match hashLoop str rounds mask words (List.replicate cap.toNat (-1)) [] with
    | none => none
    | some uniq => some ⟨uniq.length, uniq⟩

/-! ## What they are for -/

/-- The places at which a string stands for the first time. -/
def FirstAt (words : List Ptr) (i : Nat) : Prop := ∀ j < i, words[j]?.map str ≠ words[i]?.map str

instance (words : List Ptr) (i : Nat) : Decidable (FirstAt str words i) :=
  inferInstanceAs (Decidable (∀ j < i, _))

/-- The first occurrences of the distinct strings, in the order of the words. -/
def firstOccurrences (words : List Ptr) : List Ptr :=
  ((List.range words.length).filter (FirstAt str words ·)).filterMap (words[·]?)

end

theorem strcmp_eq_zero : ∀ {a b : Bytes}, (0 : UInt8) ∉ a → (0 : UInt8) ∉ b → (strcmp a b = 0 ↔ a = b) := by
  have hpos : ∀ {c : UInt8} {s : Bytes}, (0 : UInt8) ∉ c :: s → ¬ (c.toNat : Int) = 0 := by
    intro c s h h0
    have hc : c = 0 := UInt8.toNat_inj.1 (by simpa using h0)
    exact h (hc ▸ List.mem_cons_self ..)
  intro a
  induction a with
  | nil =>
    intro b _ hb
    cases b with
    | nil => simp [strcmp]
    | cons c b =>
      have := hpos hb
      simp only [strcmp, List.nil_eq, reduceCtorEq, iff_false]
      omega
  | cons d a ih =>
    intro b ha hb
    cases b with
    | nil => simpa [strcmp] using hpos ha
    | cons c b =>
      have ha' := (not_or.1 (List.mem_cons.not.1 ha)).2
      have hb' := (not_or.1 (List.mem_cons.not.1 hb)).2
      simp only [strcmp, List.cons.injEq]
      by_cases hdc : d = c
      · rw [if_pos hdc, ih ha' hb']
        exact (and_iff_right hdc).symm
      · rw [if_neg hdc]
        have hne : ¬ d.toNat = c.toNat := fun h => hdc (UInt8.toNat_inj.1 h)
        constructor
        · intro h
          omega
        · rintro ⟨h, -⟩
          exact absurd h hdc

theorem CString.strcmp_iff (a b : CString) : strcmp a.bytes b.bytes = 0 ↔ a = b := by
  rw [strcmp_eq_zero a.nul b.nul]
  cases a
  cases b
  simp

section
variable {str : Ptr → CString}

theorem found_iff {w : Ptr} {uniq : List Ptr} : found str w uniq = true ↔ ∃ x ∈ uniq, str x = str w := by
  induction uniq with
  | nil => simp [found]
  | cons x uniq ih =>
    simp only [found, CString.strcmp_iff]
    by_cases h : str w = str x
    · rw [if_pos h]
      simp [h]
    · rw [if_neg h, ih]
      simp [Ne.symm h]

/-- One more word. -/
theorem dedupQuadratic_concat (words : List Ptr) (w : Ptr) :
    (dedupQuadratic str (words ++ [w])).uniq = quadraticStep str (dedupQuadratic str words).uniq w := by
  simp [dedupQuadratic, List.foldl_append]

theorem firstAt_append {words : List Ptr} {i : Nat} (hi : i < words.length) (w : Ptr) :
    FirstAt str (words ++ [w]) i ↔ FirstAt str words i := by
  unfold FirstAt
  refine forall₂_congr fun j hj => ?_
  rw [List.getElem?_append_left hi, List.getElem?_append_left (by omega)]

theorem firstAt_last {words : List Ptr} {w : Ptr} :
    FirstAt str (words ++ [w]) words.length ↔ ¬ ∃ x ∈ words, str x = str w := by
  have hlast : (words ++ [w])[words.length]? = some w := by simp
  constructor
  · rintro h ⟨x, hx, heq⟩
    obtain ⟨j, hj, rfl⟩ := List.mem_iff_getElem.1 hx
    apply h j hj
    rw [hlast, List.getElem?_append_left hj, List.getElem?_eq_getElem hj, Option.map_some, Option.map_some, heq]
  · intro h j hj heq
    rw [hlast, List.getElem?_append_left hj, List.getElem?_eq_getElem hj, Option.map_some, Option.map_some,
      Option.some.injEq] at heq
    exact h ⟨_, List.getElem_mem hj, heq⟩

theorem firstOccurrences_concat (words : List Ptr) (w : Ptr) :
    firstOccurrences str (words ++ [w]) =
      firstOccurrences str words ++ (if ∃ x ∈ words, str x = str w then [] else [w]) := by
  have hold : ((List.range words.length).filter (FirstAt str (words ++ [w]) ·)).filterMap ((words ++ [w])[·]?) =
      firstOccurrences str words := by
    unfold firstOccurrences
    have hfilter : (List.range words.length).filter (FirstAt str (words ++ [w]) ·) =
        (List.range words.length).filter (FirstAt str words ·) := by
      apply List.filter_congr
      intro i hi
      simp only [firstAt_append (List.mem_range.1 hi) w]
    rw [hfilter]
    apply List.filterMap_congr
    intro i hi
    exact List.getElem?_append_left (List.mem_range.1 (List.mem_filter.1 hi).1)
  unfold firstOccurrences
  rw [List.length_append, List.length_singleton, List.range_succ, List.filter_append, List.filterMap_append, hold]
  congr 1
  by_cases h : ∃ x ∈ words, str x = str w
  · rw [if_pos h]
    simp [firstAt_last, h]
  · rw [if_neg h]
    simp [firstAt_last, h]

/-- Every string of the words has a first occurrence. -/
theorem mem_firstOccurrences (words : List Ptr) (s : CString) :
    (∃ x ∈ firstOccurrences str words, str x = s) ↔ ∃ x ∈ words, str x = s := by
  induction words using List.reverseRecOn with
  | nil => simp [firstOccurrences]
  | append_singleton words w ih =>
    rw [firstOccurrences_concat]
    by_cases h : ∃ x ∈ words, str x = str w
    · rw [if_pos h, List.append_nil, ih]
      constructor
      · rintro ⟨x, hx, rfl⟩
        exact ⟨x, List.mem_append_left _ hx, rfl⟩
      · rintro ⟨x, hx, rfl⟩
        rcases List.mem_append.1 hx with hx | hx
        · exact ⟨x, hx, rfl⟩
        · rw [List.mem_singleton.1 hx]
          exact h
    · rw [if_neg h]
      simp only [List.mem_append, List.mem_singleton, or_and_right, exists_or, exists_eq_left, ih]

/-- **`dedup_quadratic` keeps the first occurrences.** -/
theorem quadratic_first (words : List Ptr) : (dedupQuadratic str words).uniq = firstOccurrences str words := by
  induction words using List.reverseRecOn with
  | nil => rfl
  | append_singleton words w ih =>
    rw [dedupQuadratic_concat, firstOccurrences_concat, ih, quadraticStep]
    by_cases h : ∃ x ∈ words, str x = str w
    · have hfound : found str w (firstOccurrences str words) = true := by
        rw [found_iff, mem_firstOccurrences]
        exact h
      simp [hfound, h]
    · have hfound : found str w (firstOccurrences str words) = false := by
        rw [← Bool.not_eq_true, found_iff, mem_firstOccurrences]
        exact h
      simp [hfound, h]

end

end ComputerSystem.Dedup
