import Mathlib.Logic.Function.Basic
/-!
# Custody of resources

Resources `K` are acquired, and each acquisition is ended by a release or by a close; both can happen
to the same resource again and again. A log of these events is *disciplined* when a resource is
acquired only while nobody has it, and ended only while somebody does. Then each acquisition is ended
at most once (`Disciplined.ended_le`), and exactly once as soon as it is not held (`Disciplined.ended_eq`).

`Linear` ties such a log to slots `O` that can keep one resource each: what is held is in exactly one
slot. Its rules are one for each way to change a slot: `Linear.take`, `Linear.drop`, `Linear.pass`.
-/

namespace ComputerSystem.Custody

inductive Event (K : Type)
  | acquired (k : K)
  | released (k : K)
  | closed (k : K)
deriving DecidableEq, Repr

section
variable {K O : Type}

def Event.key : Event K → K
  | .acquired k | .released k | .closed k => k

def Event.isAcquired : Event K → Bool
  | .acquired _ => true
  | _ => false

variable [DecidableEq K]

/-- The last event of `k` decides. -/
def held (k : K) (log : List (Event K)) : Bool :=
  log.foldl (fun h e => if e.key = k then e.isAcquired else h) false

/-- The releases and closes of `k` until it is acquired again. -/
def ended (k : K) : List (Event K) → Nat
  | [] => 0
  | .acquired j :: es => if j = k then 0 else ended k es
  | .released j :: es | .closed j :: es => if j = k then ended k es + 1 else ended k es

/-- Acquired only while it is not held, released or closed only while it is. -/
def Fits (log : List (Event K)) (e : Event K) : Prop := held e.key log = !e.isAcquired

inductive Disciplined : List (Event K) → Prop
  | nil : Disciplined []
  | snoc {log : List (Event K)} {e : Event K} : Disciplined log → Fits log e → Disciplined (log ++ [e])

/-! ## What a log says -/

theorem held_snoc (k : K) (log : List (Event K)) (e : Event K) :
    held k (log ++ [e]) = if e.key = k then e.isAcquired else held k log := by
  rw [held, List.foldl_append]
  rfl

/-- An event behind an acquisition of `k` counts if `k` was not acquired again in between. -/
theorem ended_snoc (k : K) (es : List (Event K)) (e : Event K) : ended k (es ++ [e]) =
    ended k es + if e.key = k ∧ e.isAcquired = false ∧ .acquired k ∉ es then 1 else 0 := by
  induction es with
  | nil =>
    cases e with
    | acquired j => simp [ended, Event.isAcquired]
    | released j | closed j => simp [ended, Event.isAcquired, Event.key]
  | cons a es ih =>
    cases a with
    | acquired j =>
      by_cases hj : j = k
      · subst hj
        simp [ended]
      · have hj' : ¬ k = j := fun h => hj h.symm
        simp only [List.cons_append, ended, if_neg hj, ih, List.mem_cons, Event.acquired.injEq, hj', false_or]
    | released j | closed j =>
      by_cases hj : j = k
      · simp only [List.cons_append, ended, if_pos hj, ih, List.mem_cons, reduceCtorEq, false_or]
        omega
      · simp only [List.cons_append, ended, if_neg hj, ih, List.mem_cons, reduceCtorEq, false_or]

/-- **Each acquisition.** Once the resource was acquired again it has been ended exactly once; the last
one has been, if the resource is not held. -/
theorem Disciplined.ended_cases {log : List (Event K)} (h : Disciplined log) {k : K} : ∀ {a b : List (Event K)},
    log = a ++ .acquired k :: b →
      ended k b = if .acquired k ∉ b ∧ held k log = true then 0 else 1 := by
  induction h with
  | nil =>
    intro a b hab
    simp at hab
  | snoc hlog hfit ih =>
    rename_i log e
    intro a b hab
    rcases List.eq_nil_or_concat b with rfl | ⟨b, e', rfl⟩
    · -- it is the event just added
      obtain ⟨rfl, he⟩ := List.append_inj' hab rfl
      obtain rfl : e = .acquired k := (List.cons.inj he).1
      rw [held_snoc, if_pos (show Event.key (.acquired k) = k from rfl)]
      simp [ended, Event.isAcquired]
    · rw [List.concat_eq_append, ← List.cons_append, ← List.append_assoc] at hab
      obtain ⟨hlog', he⟩ := List.append_inj' hab rfl
      obtain rfl : e = e' := (List.cons.inj he).1
      have ih := ih hlog'
      rw [List.concat_eq_append, ended_snoc, held_snoc, ih]
      unfold Fits at hfit
      by_cases hkey : e.key = k
      · rw [hkey] at hfit
        cases hacq : e.isAcquired with
        | true =>
          -- acquired again: it was not held, so the one before was ended
          have hmem : .acquired k ∈ b ++ [e] := by
            cases e with
            | acquired j =>
              obtain rfl : j = k := hkey
              simp
            | released j | closed j => cases hacq
          rw [hacq] at hfit
          simp [hfit, hmem]
        | false =>
          have hmem : (.acquired k ∈ b ++ [e]) ↔ .acquired k ∈ b := by
            cases e with
            | acquired j => cases hacq
            | released j | closed j => simp
          rw [hacq] at hfit
          by_cases hb : .acquired k ∈ b
          · simp [hmem, hb]
          · simp [hkey, hb, hfit]
      · have hmem : (.acquired k ∈ b ++ [e]) ↔ .acquired k ∈ b := by
          rw [List.mem_append, List.mem_singleton]
          constructor
          · rintro (h | rfl)
            · exact h
            · exact absurd rfl hkey
          · exact .inl
        simp only [hmem, hkey, false_and, if_false, Nat.add_zero]

theorem Disciplined.ended_le {log : List (Event K)} (h : Disciplined log) {k : K} {a b : List (Event K)}
    (hab : log = a ++ .acquired k :: b) : ended k b ≤ 1 := by
  rw [h.ended_cases hab]
  split <;> omega

theorem Disciplined.ended_eq {log : List (Event K)} (h : Disciplined log) {k : K} (hheld : held k log = false)
    {a b : List (Event K)} (hab : log = a ++ .acquired k :: b) : ended k b = 1 := by
  rw [h.ended_cases hab, if_neg]
  rintro ⟨-, hk⟩
  rw [hheld] at hk
  cases hk

/-- Nothing is ended that was not acquired. -/
theorem Disciplined.ended_zero {log : List (Event K)} (h : Disciplined log) (k : K) : ended k log = 0 ∧
    (held k log = true → .acquired k ∈ log) := by
  induction h with
  | nil => exact ⟨rfl, by simp [held]⟩
  | snoc hlog hfit ih =>
    rename_i log e
    obtain ⟨ih1, ih2⟩ := ih
    unfold Fits at hfit
    rw [ended_snoc, held_snoc, ih1]
    by_cases hkey : e.key = k
    · rw [hkey] at hfit
      cases e with
      | acquired j =>
        obtain rfl : j = k := hkey
        exact ⟨by simp [Event.isAcquired], fun _ => by simp⟩
      | released j =>
        have hmem := ih2 hfit
        exact ⟨by simp [hmem], fun h => by simp [hkey, Event.isAcquired] at h⟩
      | closed j =>
        have hmem := ih2 hfit
        exact ⟨by simp [hmem], fun h => by simp [hkey, Event.isAcquired] at h⟩
    · rw [if_neg hkey, if_neg fun h => hkey h.1]
      exact ⟨rfl, fun h => List.mem_append_left _ (ih2 h)⟩

/-! ## Slots -/

/-- What is held is in exactly one slot. -/
structure Linear (slot : O → Option K) (log : List (Event K)) : Prop where
  disciplined : Disciplined log
  held_iff    : ∀ k, held k log = true ↔ ∃ o, slot o = some k
  one         : ∀ {o o' k}, slot o = some k → slot o' = some k → o = o'

theorem Linear.init : Linear (fun _ : O => none) ([] : List (Event K)) :=
  ⟨.nil, fun k => by simp [held], fun h => by cases h⟩

variable [DecidableEq O] {slot : O → Option K} {log : List (Event K)}

/-- A resource that nobody has is acquired into an empty slot. -/
theorem Linear.take (h : Linear slot log) {o : O} {k : K} (ho : slot o = none) (hk : ∀ p, slot p ≠ some k) :
    Linear (Function.update slot o (some k)) (log ++ [.acquired k]) := by
  have hfree : held k log = false := by
    rw [Bool.eq_false_iff]
    intro hheld
    obtain ⟨p, hp⟩ := (h.held_iff k).1 hheld
    exact hk p hp
  constructor
  · exact .snoc h.disciplined hfree
  · intro j
    rw [held_snoc]
    by_cases hj : k = j
    · subst hj
      rw [if_pos (show Event.key (.acquired k) = k from rfl)]
      exact ⟨fun _ => ⟨o, Function.update_self ..⟩, fun _ => rfl⟩
    · rw [if_neg (show ¬ Event.key (.acquired k) = j from hj), h.held_iff]
      constructor
      · rintro ⟨p, hp⟩
        have hpo : p ≠ o := by
          rintro rfl
          rw [ho] at hp
          cases hp
        exact ⟨p, by rw [Function.update_of_ne hpo, hp]⟩
      · rintro ⟨p, hp⟩
        by_cases hpo : p = o
        · subst hpo
          rw [Function.update_self] at hp
          exact absurd (Option.some.inj hp) hj
        · exact ⟨p, by rw [Function.update_of_ne hpo] at hp; exact hp⟩
  · intro p q j hp hq
    by_cases hpo : p = o
    · subst hpo
      rw [Function.update_self] at hp
      by_cases hqo : q = p
      · exact hqo.symm
      · rw [Function.update_of_ne hqo, ← hp] at hq
        exact absurd hq (hk q)
    · rw [Function.update_of_ne hpo] at hp
      by_cases hqo : q = o
      · subst hqo
        rw [Function.update_self] at hq
        rw [← hq] at hp
        exact absurd hp (hk p)
      · rw [Function.update_of_ne hqo] at hq
        exact h.one hp hq

/-- The resource of a slot is released or closed, and the slot emptied. -/
theorem Linear.drop (h : Linear slot log) {o : O} {e : Event K} (ho : slot o = some e.key) (he : e.isAcquired = false) :
    Linear (Function.update slot o none) (log ++ [e]) := by
  constructor
  · refine .snoc h.disciplined ?_
    rw [Fits, he]
    exact (h.held_iff _).2 ⟨o, ho⟩
  · intro j
    rw [held_snoc]
    by_cases hj : e.key = j
    · rw [if_pos hj, he]
      constructor
      · intro hfalse
        cases hfalse
      · rintro ⟨p, hp⟩
        by_cases hpo : p = o
        · subst hpo
          rw [Function.update_self] at hp
          cases hp
        · rw [Function.update_of_ne hpo, ← hj] at hp
          exact absurd (h.one hp ho) hpo
    · rw [if_neg hj, h.held_iff]
      constructor
      · rintro ⟨p, hp⟩
        have hpo : p ≠ o := by
          rintro rfl
          rw [ho] at hp
          exact hj (Option.some.inj hp)
        exact ⟨p, by rw [Function.update_of_ne hpo, hp]⟩
      · rintro ⟨p, hp⟩
        by_cases hpo : p = o
        · subst hpo
          rw [Function.update_self] at hp
          cases hp
        · exact ⟨p, by rw [Function.update_of_ne hpo] at hp; exact hp⟩
  · intro p q j hp hq
    have hother : ∀ {r}, Function.update slot o none r = some j → slot r = some j := by
      intro r hr
      by_cases hro : r = o
      · subst hro
        rw [Function.update_self] at hr
        cases hr
      · rw [Function.update_of_ne hro] at hr
        exact hr
    exact h.one (hother hp) (hother hq)

/-- What is in slot `p` goes to an empty slot `o`. -/
theorem Linear.pass (h : Linear slot log) {o p : O} (hop : o ≠ p) (ho : slot o = none) :
    Linear (Function.update (Function.update slot o (slot p)) p none) log := by
  -- the slots are renamed, nothing else
  have hmove : ∀ {q k}, Function.update (Function.update slot o (slot p)) p none q = some k ↔
      (q = o ∧ slot p = some k ∨ q ≠ o ∧ q ≠ p ∧ slot q = some k) := by
    intro q k
    by_cases hqp : q = p
    · subst hqp
      rw [Function.update_self]
      constructor
      · intro hnone
        cases hnone
      · rintro (⟨rfl, -⟩ | ⟨-, hne, -⟩)
        · exact absurd rfl hop
        · exact absurd rfl hne
    · rw [Function.update_of_ne hqp]
      by_cases hqo : q = o
      · subst hqo
        rw [Function.update_self]
        simp
      · rw [Function.update_of_ne hqo]
        simp [hqo, hqp]
  constructor
  · exact h.disciplined
  · intro k
    rw [h.held_iff]
    constructor
    · rintro ⟨q, hq⟩
      by_cases hqp : q = p
      · exact ⟨o, hmove.2 (.inl ⟨rfl, hqp ▸ hq⟩)⟩
      · have hqo : q ≠ o := by
          rintro rfl
          rw [ho] at hq
          cases hq
        exact ⟨q, hmove.2 (.inr ⟨hqo, hqp, hq⟩)⟩
    · rintro ⟨q, hq⟩
      rcases hmove.1 hq with ⟨-, hk⟩ | ⟨-, -, hk⟩
      · exact ⟨p, hk⟩
      · exact ⟨q, hk⟩
  · intro q r k hq hr
    rcases hmove.1 hq with ⟨hqo, hk⟩ | ⟨-, hqp, hk⟩
    · rcases hmove.1 hr with ⟨hro, -⟩ | ⟨-, hrp, hk'⟩
      · rw [hqo, hro]
      · exact absurd (h.one hk' hk) hrp
    · rcases hmove.1 hr with ⟨-, hk'⟩ | ⟨-, -, hk'⟩
      · exact absurd (h.one hk hk') hqp
      · exact h.one hk hk'

/-! ## Stores -/

/-- A store has what is held. -/
def Tracks {V : Type} (store : K → Option V) (log : List (Event K)) : Prop :=
  ∀ k, store k ≠ none ↔ held k log = true

variable {V : Type} {store : K → Option V}

theorem Tracks.acquire (h : Tracks store log) (k : K) (v : V) :
    Tracks (Function.update store k (some v)) (log ++ [.acquired k]) := by
  intro j
  rw [held_snoc]
  by_cases hj : k = j
  · subst hj
    rw [Function.update_self, if_pos (show Event.key (.acquired k) = k from rfl)]
    exact ⟨fun _ => rfl, fun _ => by simp⟩
  · rw [Function.update_of_ne fun h => hj h.symm, if_neg (show ¬ Event.key (.acquired k) = j from hj)]
    exact h j

theorem Tracks.close (h : Tracks store log) (k : K) : Tracks (Function.update store k none) (log ++ [.closed k]) := by
  intro j
  rw [held_snoc]
  by_cases hj : k = j
  · subst hj
    rw [Function.update_self, if_pos (show Event.key (.closed k) = k from rfl)]
    exact ⟨fun hne => absurd rfl hne, fun hfalse => by cases hfalse⟩
  · rw [Function.update_of_ne fun h => hj h.symm, if_neg (show ¬ Event.key (.closed k) = j from hj)]
    exact h j

/-- What is there gets another value. -/
theorem Tracks.write (h : Tracks store log) {k : K} (hk : store k ≠ none) (v : V) :
    Tracks (Function.update store k (some v)) log := by
  intro j
  by_cases hj : k = j
  · subst hj
    rw [Function.update_self]
    exact ⟨fun _ => (h k).1 hk, fun _ => by simp⟩
  · rw [Function.update_of_ne fun h => hj h.symm]
    exact h j

end

end ComputerSystem.Custody
