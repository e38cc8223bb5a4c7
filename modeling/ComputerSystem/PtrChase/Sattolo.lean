import Mathlib.Data.List.Dedup
import ComputerSystem.Lib.Cycle
/-!
# The chain of `ptr_chase.c`

The loop of `:25` exchanges `idx[i]` with an `idx[j]` below it, from the last `i` down to 1. What all
exchanges from `i` on do together is `exchanges i`, and this is one cycle of `0 … i`: the exchange at `i`
puts `i` into the cycle of those below.

| here          | there                                                                     |
|---------------|---------------------------------------------------------------------------|
| `store`       | an assignment to `idx[i]`                                                  |
| `fillLoop`    | the loop of `:22` with so many turns to come                                |
| `exchange`    | `:27-29`                                                                    |
| `sattoloLoop` | the loop of `:25` at `i`; `rand k` is what the `k`th call from now returns   |
| `build`       | `:22-30`, on what `malloc` returned                                          |
| `chase`       | the loop of `:33`                                                            |

An access outside of `idx` is `none`.
-/

namespace ComputerSystem.PtrChase

open Equiv

def store (idx : List Nat) (i v : Nat) : Option (List Nat) := if i < idx.length then some (idx.set i v) else none

def fillLoop : Nat → Nat → List Nat → Option (List Nat)
  | 0, _, idx => some idx
  | left + 1, i, idx => (store idx i i).bind (fillLoop left (i + 1))

def exchange (idx : List Nat) (i j : Nat) : Option (List Nat) := do
  let t ← idx[i]?
  let u ← idx[j]?
  let idx ← store idx i u
  store idx j t

def sattoloLoop : Nat → (Nat → Nat) → List Nat → Option (List Nat)
  | 0, _, idx => some idx
  | i + 1, rand, idx => (exchange idx (i + 1) (rand 0 % (i + 1))).bind (sattoloLoop i fun k => rand (k + 1))

def build (n : Nat) (rand : Nat → Nat) (idx : List Nat) : Option (List Nat) :=
  (fillLoop n 0 idx).bind (sattoloLoop (n - 1) rand)

def chase (idx : List Nat) : Nat → Nat → Option Nat
  | 0, p => some p
  | iters + 1, p => idx[p]?.bind (chase idx iters)

/-! ## The array as a permutation -/

/-- `idx` has the values of `σ`. -/
structure Holds (n : Nat) (σ : Perm Nat) (idx : List Nat) : Prop where
  length : idx.length = n
  get    : ∀ k < n, idx[k]? = some (σ k)

theorem store_some {idx : List Nat} {i : Nat} (h : i < idx.length) (v : Nat) : store idx i v = some (idx.set i v) :=
  if_pos h

theorem fillLoop_spec {n : Nat} : ∀ (left i : Nat) (idx : List Nat), i + left = n → idx.length = n →
    (∀ k < i, idx[k]? = some k) → ∃ idx', fillLoop left i idx = some idx' ∧ Holds n 1 idx' := by
  intro left
  induction left with
  | zero =>
    intro i idx hi hlen hdone
    exact ⟨idx, rfl, hlen, fun k hk => hdone k (by omega)⟩
  | succ left ih =>
    intro i idx hi hlen hdone
    rw [fillLoop, store_some (by omega), Option.bind_some]
    refine ih (i + 1) (idx.set i i) (by omega) (by rw [List.length_set, hlen]) fun k hk => ?_
    by_cases heq : i = k
    · rw [heq, List.getElem?_set_self (by omega)]
    · rw [List.getElem?_set_ne heq]
      exact hdone k (by omega)

theorem exchange_spec {n : Nat} {σ : Perm Nat} {idx : List Nat} (h : Holds n σ idx) {i j : Nat} (hi : i < n)
    (hj : j < n) : ∃ idx', exchange idx i j = some idx' ∧ Holds n (σ * swap i j) idx' := by
  have hlen := h.length
  refine ⟨(idx.set i (σ j)).set j (σ i), ?_, ?_, fun k hk => ?_⟩
  · simp only [exchange, h.get i hi, h.get j hj, Option.bind_eq_bind, Option.bind_some]
    rw [store_some (by omega), Option.bind_some, store_some (by rw [List.length_set]; omega)]
  · rw [List.length_set, List.length_set, hlen]
  · rw [Perm.mul_apply]
    by_cases hkj : j = k
    · rw [← hkj, swap_apply_right, List.getElem?_set_self]
      rw [List.length_set]
      omega
    · rw [List.getElem?_set_ne hkj]
      by_cases hki : i = k
      · rw [← hki, swap_apply_left, List.getElem?_set_self (by omega)]
      · rw [List.getElem?_set_ne hki, swap_apply_of_ne_of_ne (Ne.symm hki) (Ne.symm hkj)]
        exact h.get k hk

/-! ## The exchanges from `i` down -/

def exchanges : Nat → (Nat → Nat) → Perm Nat
  | 0, _ => 1
  | i + 1, rand => swap (i + 1) (rand 0 % (i + 1)) * exchanges i fun k => rand (k + 1)

theorem sattoloLoop_spec {n : Nat} : ∀ (i : Nat) (rand : Nat → Nat) (σ : Perm Nat) (idx : List Nat), i < n →
    Holds n σ idx → ∃ idx', sattoloLoop i rand idx = some idx' ∧ Holds n (σ * exchanges i rand) idx' := by
  intro i
  induction i with
  | zero =>
    intro rand σ idx hi h
    exact ⟨idx, rfl, by rwa [exchanges, mul_one]⟩
  | succ i ih =>
    intro rand σ idx hi h
    have hj : rand 0 % (i + 1) < i + 1 := Nat.mod_lt _ (Nat.succ_pos i)
    obtain ⟨idx₁, hexchange, h₁⟩ := exchange_spec h hi (j := rand 0 % (i + 1)) (by omega)
    obtain ⟨idx', hloop, h'⟩ := ih (fun k => rand (k + 1)) _ idx₁ (by omega) h₁
    refine ⟨idx', ?_, ?_⟩
    · rw [sattoloLoop, hexchange, Option.bind_some, hloop]
    · rwa [exchanges, ← mul_assoc]

/-- The exchanges leave alone what is above. -/
theorem exchanges_above : ∀ {i : Nat} {rand : Nat → Nat} {k : Nat}, i < k → exchanges i rand k = k := by
  intro i
  induction i with
  | zero =>
    intro rand k _
    rfl
  | succ i ih =>
    intro rand k hk
    have hj : rand 0 % (i + 1) < i + 1 := Nat.mod_lt _ (Nat.succ_pos i)
    rw [exchanges, Perm.mul_apply, ih (by omega), swap_apply_of_ne_of_ne (by omega) (by omega)]

/-- **They are one cycle.** -/
theorem exchanges_isCycleOn : ∀ (i : Nat) (rand : Nat → Nat), (exchanges i rand).IsCycleOn (Finset.range (i + 1)) := by
  intro i
  induction i with
  | zero =>
    intro rand
    rw [Finset.range_one, Finset.coe_singleton, Perm.isCycleOn_singleton]
    rfl
  | succ i ih =>
    intro rand
    have hj : rand 0 % (i + 1) ∈ Finset.range (i + 1) := Finset.mem_range.2 (Nat.mod_lt _ (Nat.succ_pos i))
    rw [Finset.range_add_one]
    exact isCycleOn_swap_mul (ih _) (exchanges_above (Nat.lt_succ_self i)) Finset.notMem_range_self hj

/-! ## The walk -/

section
variable {n : Nat} {σ : Perm Nat} {idx : List Nat}

theorem Holds.perm_range (h : Holds n σ idx) (hσ : σ.IsCycleOn (Finset.range n)) : idx.Perm (List.range n) := by
  have hidx : idx = (List.range n).map σ := by
    apply List.ext_getElem?
    intro k
    rw [List.getElem?_map]
    by_cases hk : k < n
    · rw [h.get k hk, List.getElem?_range hk, Option.map_some]
    · rw [List.getElem?_eq_none (by rw [h.length]; omega), List.getElem?_eq_none (by simpa using hk), Option.map_none]
  have hnodup : ((List.range n).map σ).Nodup := List.nodup_range.map σ.injective
  rw [hidx, List.perm_ext_iff_of_nodup hnodup List.nodup_range]
  intro p
  have himage := hσ.1.image_eq
  rw [List.mem_map, List.mem_range]
  constructor
  · rintro ⟨k, hk, rfl⟩
    have hin : σ k ∈ (Finset.range n : Set Nat) := hσ.1.mapsTo (by simpa using hk)
    simpa using hin
  · intro hp
    have hin : p ∈ σ '' (Finset.range n : Set Nat) := by
      rw [himage]
      simpa using hp
    obtain ⟨k, hk, rfl⟩ := hin
    exact ⟨k, by simpa using hk, rfl⟩

/-- The walk follows `σ`. -/
theorem Holds.chase_eq (h : Holds n σ idx) (hσ : σ.IsCycleOn (Finset.range n)) :
    ∀ (iters p : Nat), p < n → chase idx iters p = some ((σ ^ iters) p) ∧ (σ ^ iters) p < n := by
  intro iters
  induction iters with
  | zero =>
    intro p hp
    exact ⟨rfl, hp⟩
  | succ iters ih =>
    intro p hp
    have hnext : σ p < n := by
      have hin : σ p ∈ Finset.range n := hσ.apply_mem_iff.2 (by simpa using hp)
      simpa using hin
    rw [chase, h.get p hp, Option.bind_some, pow_succ, Perm.mul_apply]
    exact ih (σ p) hnext

/-- It is back at the start after every `n` steps. -/
theorem Holds.chase_zero_iff (h : Holds n σ idx) (hσ : σ.IsCycleOn (Finset.range n)) (hn : 1 ≤ n) (iters : Nat) :
    chase idx iters 0 = some 0 ↔ n ∣ iters := by
  have hzero : 0 ∈ Finset.range n := Finset.mem_range.2 hn
  rw [(h.chase_eq hσ iters 0 hn).1, Option.some.injEq, hσ.pow_apply_eq hzero, Finset.card_range]

end

/-- **The array is one cycle of all its slots**, whatever `rand` returns. -/
theorem sattolo_one_cycle (n : Nat) (hn : 1 ≤ n) (rand : Nat → Nat) (malloced : List Nat) (hlen : malloced.length = n) :
    ∃ idx, build n rand malloced = some idx ∧ idx.Perm (List.range n) ∧
      (∃ σ : Perm Nat, σ.IsCycleOn (Finset.range n) ∧ ∀ k < n, idx[k]? = some (σ k)) ∧
      (∀ iters, ∃ p < n, chase idx iters 0 = some p) ∧
      (∀ p < n, ∃ iters < n, chase idx iters 0 = some p) ∧
      chase idx n 0 = some 0 ∧ ∀ iters, 0 < iters → iters < n → chase idx iters 0 ≠ some 0 := by
  obtain ⟨idx₀, hfill, h₀⟩ := fillLoop_spec n 0 malloced (by omega) hlen (fun k hk => absurd hk (Nat.not_lt_zero k))
  obtain ⟨idx, hloop, h⟩ := sattoloLoop_spec (n - 1) rand 1 idx₀ (by omega) h₀
  rw [one_mul] at h
  have hσ := exchanges_isCycleOn (n - 1) rand
  rw [Nat.sub_add_cancel hn] at hσ
  refine ⟨idx, ?_, h.perm_range hσ, ⟨_, hσ, h.get⟩, fun iters => ?_, fun p hp => ?_, ?_, fun iters hpos hlt hback => ?_⟩
  · rw [build, hfill, Option.bind_some, hloop]
  · obtain ⟨hchase, hlt⟩ := h.chase_eq hσ iters 0 hn
    exact ⟨_, hlt, hchase⟩
  · obtain ⟨iters, hlt, heq⟩ := hσ.exists_pow_eq (Finset.mem_range.2 hn) (Finset.mem_range.2 hp)
    rw [Finset.card_range] at hlt
    refine ⟨iters, hlt, ?_⟩
    rw [(h.chase_eq hσ iters 0 hn).1, heq]
  · exact (h.chase_zero_iff hσ hn n).2 (Nat.dvd_refl n)
  · have hdvd := (h.chase_zero_iff hσ hn iters).1 hback
    have hle := Nat.le_of_dvd hpos hdvd
    omega

/-- Five slots, with garbage in them, and `rand` returning 7, 3, 8, 1. -/
theorem sattolo_one_cycle_five : ∃ idx, build 5 (fun k => [7, 3, 8, 1].getD k 0) [9, 9, 9, 9, 9] = some idx ∧
    idx.Perm (List.range 5) ∧ chase idx 5 0 = some 0 ∧ chase idx 4 0 ≠ some 0 := by
  obtain ⟨idx, hbuild, hperm, -, -, -, hback, hfirst⟩ :=
    sattolo_one_cycle 5 (by decide) (fun k => [7, 3, 8, 1].getD k 0) [9, 9, 9, 9, 9] rfl
  exact ⟨idx, hbuild, hperm, hback, hfirst 4 (by decide) (by decide)⟩

end ComputerSystem.PtrChase
