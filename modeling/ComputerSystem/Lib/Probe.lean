import Mathlib.Data.Nat.Find
/-!
# Open addressing with linear probing

A table is a list of slots, each empty or with an entry. A walk starts at a home slot, takes the next
slot each time, from the last one on to the first, and stops at an empty slot or at an entry that
matches. `Probed` is the invariant: between the home slot of an entry and its own no slot is empty. So
a walk that stops at an empty slot has missed nothing (`Probed.absent`), and filling that slot keeps the
invariant (`Probed.set`). With an empty slot somewhere every walk stops (`exists_stop`).
-/

namespace ComputerSystem

section
variable {α : Type}

/-- The slot that a walk from `home` meets after `j` steps. -/
def slotAt (cap home j : Nat) : Nat := (home + j) % cap

theorem slotAt_lt {cap : Nat} (h : 0 < cap) (home j : Nat) : slotAt cap home j < cap := Nat.mod_lt _ h

theorem slotAt_succ (cap home j : Nat) : (slotAt cap home j + 1) % cap = slotAt cap home (j + 1) := by
  rw [slotAt, slotAt, Nat.mod_add_mod, Nat.add_assoc]

/-- A walk meets every slot. -/
theorem exists_slotAt {cap k : Nat} (hk : k < cap) (home : Nat) : ∃ j < cap, slotAt cap home j = k := by
  have hhome := Nat.mod_lt home (show 0 < cap by omega)
  refine ⟨(k + (cap - home % cap)) % cap, Nat.mod_lt _ (by omega), ?_⟩
  rw [slotAt, Nat.add_mod_mod, ← Nat.mod_add_mod]
  have hsum : home % cap + (k + (cap - home % cap)) = k + cap := by omega
  rw [hsum, Nat.add_mod_right, Nat.mod_eq_of_lt hk]

/-- What the slot holds that a walk meets after `j` steps. -/
def probeAt (slots : List (Option α)) (home j : Nat) : Option (Option α) := slots[slotAt slots.length home j]?

/-- A walk for `p` goes on from here. -/
def Passes (p : α → Prop) (slot : Option (Option α)) : Prop := ∃ a, slot = some (some a) ∧ ¬ p a

/-- **Every walk stops**, at an empty slot or at an entry that matches, before it is back home. -/
theorem exists_stop (p : α → Prop) {slots : List (Option α)} (hfree : none ∈ slots) (home : Nat) :
    ∃ j < slots.length, (∀ i < j, Passes p (probeAt slots home i)) ∧
      (probeAt slots home j = some none ∨ ∃ a, probeAt slots home j = some (some a) ∧ p a) := by
  classical
  obtain ⟨k, hk, hnone⟩ := List.mem_iff_getElem.1 hfree
  obtain ⟨j, hj, hslot⟩ := exists_slotAt hk home
  have hstop : ∃ j, ¬ Passes p (probeAt slots home j) := by
    refine ⟨j, ?_⟩
    rintro ⟨a, ha, -⟩
    rw [probeAt, hslot, List.getElem?_eq_getElem hk, hnone] at ha
    cases ha
  have hle : Nat.find hstop ≤ j := by
    apply Nat.find_min'
    rintro ⟨a, ha, -⟩
    rw [probeAt, hslot, List.getElem?_eq_getElem hk, hnone] at ha
    cases ha
  refine ⟨Nat.find hstop, by omega, fun i hi => not_not.1 (Nat.find_min hstop hi), ?_⟩
  have hspec := Nat.find_spec hstop
  generalize Nat.find hstop = i at hspec
  have hin : slotAt slots.length home i < slots.length := slotAt_lt (by omega) home i
  cases hat : probeAt slots home i with
  | none =>
    rw [probeAt, List.getElem?_eq_getElem hin] at hat
    cases hat
  | some slot =>
    cases slot with
    | none => exact .inl rfl
    | some a =>
      right
      refine ⟨a, rfl, ?_⟩
      by_contra hp
      exact hspec ⟨a, hat, hp⟩

/-- Between the home slot of an entry and its own no slot is empty. -/
def Probed (home : α → Nat) (slots : List (Option α)) : Prop :=
  ∀ a, some a ∈ slots → ∃ j < slots.length, probeAt slots (home a) j = some (some a) ∧
    ∀ i < j, probeAt slots (home a) i ≠ some none

theorem probed_replicate (home : α → Nat) (cap : Nat) : Probed home (List.replicate cap none) := by
  intro a ha
  cases List.eq_of_mem_replicate ha

/-- **A walk that stops at an empty slot has missed nothing.** -/
theorem Probed.absent {home : α → Nat} {slots : List (Option α)} (h : Probed home slots) {p : α → Prop} {start j : Nat}
    (hhome : ∀ a, p a → home a = start) (hpass : ∀ i < j, Passes p (probeAt slots start i))
    (hempty : probeAt slots start j = some none) {a : α} (ha : some a ∈ slots) : ¬ p a := by
  intro hp
  obtain ⟨j', -, hat, hbefore⟩ := h a ha
  rw [hhome a hp] at hat hbefore
  rcases Nat.lt_trichotomy j' j with hlt | rfl | hgt
  · obtain ⟨b, hb, hnp⟩ := hpass j' hlt
    rw [hat] at hb
    cases hb
    exact hnp hp
  · rw [hat] at hempty
    cases hempty
  · exact hbefore j hgt hempty

theorem probeAt_set {slots : List (Option α)} {k : Nat} {x : Option α} (home j : Nat) :
    probeAt (slots.set k x) home j =
      if k = slotAt slots.length home j ∧ k < slots.length then some x else probeAt slots home j := by
  rw [probeAt, probeAt, List.length_set, List.getElem?_set]
  by_cases hk : k = slotAt slots.length home j
  · rw [if_pos hk]
    by_cases hlt : k < slots.length
    · rw [if_pos hlt, if_pos ⟨hk, hlt⟩]
    · rw [if_neg hlt, if_neg (fun h => hlt h.2), List.getElem?_eq_none (by omega)]
  · rw [if_neg hk, if_neg (fun h => hk h.1)]

/-- **Filling the empty slot at which a walk stopped** keeps the invariant. -/
theorem Probed.set {home : α → Nat} {slots : List (Option α)} (h : Probed home slots) {a : α} {j : Nat} {p : α → Prop}
    (hj : j < slots.length) (hpass : ∀ i < j, Passes p (probeAt slots (home a) i))
    (hempty : probeAt slots (home a) j = some none) :
    Probed home (slots.set (slotAt slots.length (home a) j) (some a)) := by
  have hk : slotAt slots.length (home a) j < slots.length := slotAt_lt (by omega) _ _
  intro b hb
  rw [List.length_set]
  by_cases hab : b = a
  · subst hab
    refine ⟨j, hj, ?_, fun i hi hnone => ?_⟩
    · rw [probeAt_set, if_pos ⟨rfl, hk⟩]
    · rw [probeAt_set] at hnone
      split at hnone
      · cases hnone
      · obtain ⟨c, hc, -⟩ := hpass i hi
        rw [hc] at hnone
        cases hnone
  · have hold : some b ∈ slots := by
      rcases List.mem_or_eq_of_mem_set hb with hold | heq
      · exact hold
      · exact absurd (Option.some.inj heq) hab
    obtain ⟨j', hj', hat, hbefore⟩ := h b hold
    refine ⟨j', hj', ?_, fun i hi hnone => ?_⟩
    · rw [probeAt_set, if_neg]
      · exact hat
      · rintro ⟨heq, -⟩
        -- the slot would be empty and hold `b`
        rw [probeAt, ← heq] at hat
        rw [probeAt, hat] at hempty
        cases hempty
    · rw [probeAt_set] at hnone
      split at hnone
      · cases hnone
      · exact hbefore i hi hnone

/-- The entries of the table after a slot is filled. -/
theorem mem_set_slot {slots : List (Option α)} {k : Nat} (hk : slots[k]? = some none) (a b : α) :
    some b ∈ slots.set k (some a) ↔ some b ∈ slots ∨ b = a := by
  obtain ⟨hlt, hget⟩ := List.getElem?_eq_some_iff.1 hk
  constructor
  · intro h
    rcases List.mem_or_eq_of_mem_set h with h | h
    · exact .inl h
    · exact .inr (Option.some.inj h)
  · rintro (h | rfl)
    · obtain ⟨i, hi, hb⟩ := List.mem_iff_getElem.1 h
      have hne : k ≠ i := by
        rintro rfl
        rw [hget] at hb
        cases hb
      refine List.mem_iff_getElem.2 ⟨i, by rwa [List.length_set], ?_⟩
      rw [List.getElem_set_ne hne, hb]
    · exact List.mem_set hlt _

/-- The number of entries. -/
def load (slots : List (Option α)) : Nat := slots.countP Option.isSome

theorem load_replicate (cap : Nat) : load (List.replicate cap (none : Option α)) = 0 := by
  unfold load
  rw [List.countP_replicate]
  rfl

theorem load_set {slots : List (Option α)} {k : Nat} (hk : slots[k]? = some none) (a : α) :
    load (slots.set k (some a)) = load slots + 1 := by
  obtain ⟨hlt, hget⟩ := List.getElem?_eq_some_iff.1 hk
  unfold load
  rw [List.countP_set hlt, hget]
  simp

/-- A table with fewer entries than slots has an empty slot. -/
theorem exists_empty {slots : List (Option α)} (h : load slots < slots.length) : none ∈ slots := by
  by_contra hno
  have hall : load slots = slots.length := by
    apply List.countP_eq_length.2
    intro slot hslot
    cases slot with
    | none => exact absurd hslot hno
    | some a => rfl
  omega

end

end ComputerSystem
