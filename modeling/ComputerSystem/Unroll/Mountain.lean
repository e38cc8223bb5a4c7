import Mathlib.Data.List.Nodup
import ComputerSystem.Unroll.Combine
/-!
# A sum over every `stride`-th element (`Chapter6/6.6/expirements/mountain.c:27-40`)

`test` takes four elements in a round as long as a fifth one follows (`i < limit`), so up to four are left
for the loop behind it. Indices are computed with a check for overflow, and elements are read with a
check of the index: `test_eq` says that neither ever fails. The sums wrap.

| here        | there                                                   |
|-------------|---------------------------------------------------------|
| `LongArray` | `data`, or what there is of it                          |
| `addAcc`    | `acc0 += data[i]`, and the same for the other three     |
| `round`     | the body of the first loop (`:32-35`)                   |
| `roundLoop`, `restLoop` | the two loops (`:31`, `:37`)                |
-/

namespace ComputerSystem.Unroll

/-- No object has more than `PTRDIFF_MAX` bytes. -/
structure LongArray where
  elems : List Long
  fits  : 8 * elems.length < 2 ^ 63

section
variable (data : LongArray)

def addAcc (j : Nat) (i : Int) (w : Lanes Long Nat) : Option (Lanes Long Nat) :=
  if 0 ≤ i ∧ i < data.elems.length then some (w.absorb (· + ·) (data.elems.getD · 0) j i.toNat) else none

def round (stride sx2 sx3 i : Int) (w : Lanes Long Nat) : Option (Lanes Long Nat) := do
  let w ← addAcc data 0 i w
  let w ← addAcc data 1 (← checkedLong (i + stride)) w
  let w ← addAcc data 2 (← checkedLong (i + sx2)) w
  addAcc data 3 (← checkedLong (i + sx3)) w

/-- With so many tests of the condition left; `none` when these are used up. -/
def roundLoop (stride sx2 sx3 sx4 limit : Int) : Nat → Int → Lanes Long Nat → Option (Int × Lanes Long Nat)
  | 0, _, _ => none
  | tests + 1, i, w =>
    if i < limit then do
      let w ← round data stride sx2 sx3 i w
      roundLoop stride sx2 sx3 sx4 limit tests (← checkedLong (i + sx4)) w
    else some (i, w)

def restLoop (elems stride : Int) : Nat → Int → Lanes Long Nat → Option (Lanes Long Nat)
  | 0, _, _ => none
  | tests + 1, i, w =>
    if i < elems then do
      let w ← addAcc data 0 i w
      restLoop elems stride tests (← checkedLong (i + stride)) w
    else some w

/-- `test` (`:27`). Each round goes on by at least one element, so `elems + 1` tests are enough. -/
def test (elems stride : Int) : Option Scanned := do
  let sx2 ← checkedLong (stride * 2)
  let sx3 ← checkedLong (stride * 3)
  let sx4 ← checkedLong (stride * 4)
  let limit ← checkedLong (elems - sx4)
  let (i, w) ← roundLoop data stride sx2 sx3 sx4 limit (elems.toNat + 1) 0 ⟨[0, 0, 0, 0], []⟩
  let w ← restLoop data elems stride (elems.toNat + 1) i w
  let acc j := w.acc.getD j 0
  return ⟨acc 0 + acc 1 + (acc 2 + acc 3), w.reads⟩

end

/-! ## The loops -/

/-- The first `m` of the elements are added up, and all of these are below `elems`. -/
structure Upto (data : LongArray) (elems s m : Nat) (w : Lanes Long Nat) : Prop where
  sound  : w.Sound (· + ·) 0 (data.elems.getD · 0)
  lanes  : w.acc.length = 4
  reads  : w.reads = (List.range m).map (· * s)
  inside : ∀ k < m, k * s < elems

section
variable {data : LongArray} {elems s m : Nat}

theorem Upto.start (data : LongArray) (elems s : Nat) : Upto data elems s 0 ⟨[0, 0, 0, 0], []⟩ :=
  ⟨Lanes.Sound.start 4 BitVec.add_zero, rfl, rfl, fun _ hk => absurd hk (Nat.not_lt_zero _)⟩

/-- The next element, whichever accumulator it goes to. -/
theorem Upto.addAcc {w : Lanes Long Nat} (h : Upto data elems s m w) (hlen : elems ≤ data.elems.length) {j : Nat}
    (hj : j < 4) {i : Int} (hi : i = ((m * s : Nat) : Int)) (hlt : i < elems) :
    ∃ w', addAcc data j i w = some w' ∧ Upto data elems s (m + 1) w' := by
  subst hi
  have hlt : m * s < elems := by exact_mod_cast hlt
  have hin : 0 ≤ ((m * s : Nat) : Int) ∧ ((m * s : Nat) : Int) < data.elems.length :=
    ⟨Int.natCast_nonneg _, by exact_mod_cast Nat.lt_of_lt_of_le hlt hlen⟩
  refine ⟨_, if_pos hin, h.sound.absorb (by rw [h.lanes]; exact hj) _, ?_, ?_, ?_⟩
  · rw [Lanes.absorb_acc_length, h.lanes]
  · rw [Lanes.absorb_reads, h.reads, Int.toNat_natCast, List.range_succ, List.map_append]
    rfl
  · intro k hk
    rcases Nat.lt_succ_iff_lt_or_eq.1 hk with hk | rfl
    · exact h.inside k hk
    · exact hlt

/-- Four elements, when a fifth one follows. -/
theorem Upto.round {w : Lanes Long Nat} (h : Upto data elems s m w) (hlen : elems ≤ data.elems.length) {i : Int}
    (hi : i = ((m * s : Nat) : Int)) (hlt : i + 4 * s < elems) :
    ∃ w', round data s (s * 2) (s * 3) i w = some w' ∧ Upto data elems s (m + 4) w' := by
  have hfits := data.fits
  have hpos : 0 ≤ i := by
    rw [hi]
    exact Int.natCast_nonneg _
  have hmul : ∀ k : Nat, ((m + k) * s : Nat) = ((m * s : Nat) : Int) + (k : Int) * s := by
    intro k
    rw [Nat.add_mul]
    push_cast
    rfl
  obtain ⟨w0, h0, hup0⟩ := h.addAcc hlen (j := 0) (by decide) hi (by omega)
  obtain ⟨w1, h1, hup1⟩ := hup0.addAcc hlen (j := 1) (by decide) (i := i + s) (by rw [hmul 1]; omega) (by omega)
  obtain ⟨w2, h2, hup2⟩ := hup1.addAcc hlen (j := 2) (by decide) (i := i + s * 2) (by rw [hmul 2]; omega) (by omega)
  obtain ⟨w3, h3, hup3⟩ := hup2.addAcc hlen (j := 3) (by decide) (i := i + s * 3) (by rw [hmul 3]; omega) (by omega)
  refine ⟨w3, ?_, hup3⟩
  simp only [Unroll.round, h0, h1, h2, h3, checkedLong_eq (z := i + s) (by omega) (by omega),
    checkedLong_eq (z := i + s * 2) (by omega) (by omega), checkedLong_eq (z := i + s * 3) (by omega) (by omega),
    Option.bind_eq_bind, Option.bind_some]

theorem roundLoop_spec (hs : 0 < s) (hlen : elems ≤ data.elems.length) (tests : Nat) : ∀ {m : Nat} {i : Int}
    {w : Lanes Long Nat}, Upto data elems s m w → i = ((m * s : Nat) : Int) → 0 < tests → elems < i + tests →
    ∃ m' w', roundLoop data s (s * 2) (s * 3) (s * 4) (elems - s * 4) tests i w = some (((m' * s : Nat) : Int), w') ∧
      Upto data elems s m' w' := by
  have hfits := data.fits
  induction tests with
  | zero =>
    intro m i w _ _ hpos _
    exact absurd hpos (Nat.lt_irrefl 0)
  | succ tests ih =>
    intro m i w h hi _ hlt
    have hnat : 0 ≤ i := by
      rw [hi]
      exact Int.natCast_nonneg _
    simp only [roundLoop]
    by_cases hmore : i < elems - s * 4
    · obtain ⟨w', hround, hup⟩ := h.round hlen hi (by omega)
      have hnext : i + s * 4 = (((m + 4) * s : Nat) : Int) := by
        rw [hi, Nat.add_mul]
        push_cast
        omega
      rw [if_pos hmore, hround]
      simp only [Option.bind_eq_bind, Option.bind_some, checkedLong_eq (z := i + s * 4) (by omega) (by omega)]
      exact ih hup hnext (by omega) (by omega)
    · rw [if_neg hmore]
      exact ⟨m, w, by rw [hi], h⟩

/-- The second loop stops at the first multiple of `s` that is not below `elems`. -/
theorem restLoop_spec (hs : 0 < s) (hs4 : s * 4 < 2 ^ 63) (hlen : elems ≤ data.elems.length) (tests : Nat) :
    ∀ {m : Nat} {i : Int} {w : Lanes Long Nat}, Upto data elems s m w → i = ((m * s : Nat) : Int) → 0 < tests →
    elems < i + tests → ∃ m' w', restLoop data elems s tests i w = some w' ∧ Upto data elems s m' w' ∧ elems ≤ m' * s := by
  have hfits := data.fits
  induction tests with
  | zero =>
    intro m i w _ _ hpos _
    exact absurd hpos (Nat.lt_irrefl 0)
  | succ tests ih =>
    intro m i w h hi _ hlt
    have hnat : 0 ≤ i := by
      rw [hi]
      exact Int.natCast_nonneg _
    simp only [restLoop]
    by_cases hmore : i < elems
    · obtain ⟨w', hadd, hup⟩ := h.addAcc hlen (j := 0) (by decide) hi hmore
      have hnext : i + s = (((m + 1) * s : Nat) : Int) := by
        rw [hi, Nat.succ_mul]
        push_cast
        rfl
      rw [if_pos hmore, hadd]
      simp only [Option.bind_eq_bind, Option.bind_some, checkedLong_eq (z := i + s) (by omega) (by omega)]
      exact ih hup hnext (by omega) (by omega)
    · rw [if_neg hmore]
      exact ⟨m, w, rfl, h, by omega⟩

end

/-! ## The sum -/

/-- The multiples of `stride` below `elems`. -/
def strided (elems stride : Nat) : List Nat := (List.range elems).filter (stride ∣ ·)

theorem mem_strided {elems stride i : Nat} : i ∈ strided elems stride ↔ ∃ k, i = k * stride ∧ k * stride < elems := by
  simp only [strided, List.mem_filter, List.mem_range, decide_eq_true_eq]
  constructor
  · rintro ⟨hlt, k, rfl⟩
    exact ⟨k, Nat.mul_comm .., by rwa [Nat.mul_comm]⟩
  · rintro ⟨k, rfl, hlt⟩
    exact ⟨hlt, Nat.dvd_mul_left ..⟩

/-- A scan that has stopped has read them all. -/
theorem Upto.strided {data : LongArray} {elems s m : Nat} {w : Lanes Long Nat} (h : Upto data elems s m w)
    (hs : 0 < s) (hend : elems ≤ m * s) : w.reads.Perm (strided elems s) := by
  have hinj : Function.Injective (· * s) := fun a b heq => Nat.eq_of_mul_eq_mul_right hs heq
  rw [h.reads]
  apply (List.perm_ext_iff_of_nodup (List.nodup_range.map hinj) (List.nodup_range.filter _)).2
  intro i
  rw [← Unroll.strided, mem_strided, List.mem_map]
  constructor
  · rintro ⟨k, hk, rfl⟩
    exact ⟨k, rfl, h.inside k (List.mem_range.1 hk)⟩
  · rintro ⟨k, rfl, hlt⟩
    exact ⟨k, List.mem_range.2 (Nat.lt_of_mul_lt_mul_right (Nat.lt_of_lt_of_le hlt hend)), rfl⟩

/-- Sums of bits are sums of numbers modulo 2^64. -/
theorem toNat_foldl_add (l : List Long) : ∀ a : Long,
    (l.foldl (· + ·) a).toNat = (a.toNat + (l.map BitVec.toNat).sum) % 2 ^ 64 := by
  induction l with
  | nil =>
    intro a
    simp [Nat.mod_eq_of_lt a.isLt]
  | cons x l ih =>
    intro a
    rw [List.foldl_cons, ih, BitVec.toNat_add, Nat.mod_add_mod, List.map_cons, List.sum_cons, Nat.add_assoc]

/-- The four accumulators are added up in pairs. -/
theorem Upto.ret {data : LongArray} {elems s m : Nat} {w : Lanes Long Nat} (h : Upto data elems s m w) :
    w.acc.getD 0 0 + w.acc.getD 1 0 + (w.acc.getD 2 0 + w.acc.getD 3 0) = w.total (· + ·) 0 := by
  have hlanes := h.lanes
  unfold Lanes.total
  match w.acc, hlanes with
  | [a, b, c, e], _ =>
    show a + b + (c + e) = 0#64 + a + b + c + e
    rw [BitVec.zero_add, BitVec.add_assoc (a + b)]

/-- **The unrolled scan is the plain one**: every multiple of `stride` below `elems` is read once and nothing
else, and the result is the sum modulo 2^64. -/
theorem test_eq (data : LongArray) (elems stride : Nat) (hstride : 1 ≤ stride) (hs4 : stride * 4 < 2 ^ 63)
    (hlen : elems ≤ data.elems.length) :
    ∃ c, test data elems stride = some c ∧ c.reads.Perm (strided elems stride) ∧
      c.ret.toNat = ((strided elems stride).map fun i => (data.elems.getD i 0).toNat).sum % 2 ^ 64 := by
  have hfits := data.fits
  have hzero : (0 : Int) = ((0 * stride : Nat) : Int) := by simp
  obtain ⟨m, w, hround, hup⟩ := roundLoop_spec hstride hlen (elems + 1) (Upto.start data _ _) hzero
    (Nat.succ_pos _) (by omega)
  obtain ⟨m', w', hrest, hup', hend⟩ := restLoop_spec hstride hs4 hlen (elems + 1) hup rfl (Nat.succ_pos _)
    (by have := Int.natCast_nonneg (m * stride); omega)
  have hreads := hup'.strided hstride hend
  refine ⟨⟨w'.total (· + ·) 0, w'.reads⟩, ?_, hreads, ?_⟩
  · have hret := hup'.ret
    simp only [test, checkedLong_eq (z := (stride : Int) * 2) (by omega) (by omega),
      checkedLong_eq (z := (stride : Int) * 3) (by omega) (by omega),
      checkedLong_eq (z := (stride : Int) * 4) (by omega) (by omega),
      checkedLong_eq (z := (elems : Int) - stride * 4) (by omega) (by omega), Int.toNat_natCast, hround, hrest,
      Option.bind_eq_bind, Option.bind_some, hret]
    rfl
  · rw [hup'.sound.of_perm hreads, toNat_foldl_add, List.map_map]
    have hzero : (0 : Long).toNat = 0 := rfl
    rw [hzero, Nat.zero_add]
    rfl

/-- Nine elements with a stride of two: a round of four, and one left over. -/
theorem test_eq_nine : ∃ c, test ⟨(List.range 9).map (BitVec.ofNat 64), by decide⟩ 9 2 = some c ∧ c.ret = 20 ∧
    c.reads.Perm [0, 2, 4, 6, 8] := by
  obtain ⟨c, hc, hreads, hret⟩ := test_eq ⟨(List.range 9).map (BitVec.ofNat 64), by decide⟩ 9 2 (by decide) (by decide)
    (by decide)
  exact ⟨c, hc, BitVec.eq_of_toNat_eq hret, hreads⟩

end ComputerSystem.Unroll
