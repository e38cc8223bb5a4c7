import ComputerSystem.Lib.Machine
/-!
# A signal that does not queue

Events of some kind set one bit, however many they are. The bit starts an activation, which takes
waiting events one by one and ends when it has found none. `Sweep` is what matters of such a system:
whether an event is waiting, the bit, and whether an activation runs that has not yet found none
waiting. `Sweep.Move` lists what may happen, and `Reach.sweep` is the rule: a machine whose steps are
such moves never leaves an event waiting that neither the bit nor an activation will see.
-/

namespace ComputerSystem

structure Sweep where
  waiting  : Bool
  bit      : Bool
  sweeping : Bool
deriving DecidableEq, Repr

namespace Sweep

inductive Move (m : Sweep) : Sweep → Prop
  /-- nothing of this happens -/
  | idle : Move m m
  /-- the bit is set; events may have come with it, and may have been coalesced into it -/
  | raise (w : Bool) : Move m ⟨w, true, m.sweeping⟩
  /-- the bit starts an activation -/
  | start : m.bit = true → Move m ⟨m.waiting, false, true⟩
  /-- an activation takes an event and will look again -/
  | take (w : Bool) : m.sweeping = true → (w = true → m.waiting = true) → Move m ⟨w, m.bit, true⟩
  /-- an activation finds none waiting -/
  | finish (sw : Bool) : m.waiting = false → Move m ⟨false, m.bit, sw⟩

section
variable {E : Type} {waits : E → Bool} {es es' : List E} {bit : Bool}

/-- An activation takes events out of a list. -/
theorem Move.takeFrom (hsub : ∀ e ∈ es', e ∈ es) : Move ⟨es.any waits, bit, true⟩ ⟨es'.any waits, bit, true⟩ := by
  refine .take _ rfl fun hw => ?_
  obtain ⟨e, he, hwaits⟩ := List.any_eq_true.1 hw
  exact List.any_eq_true.2 ⟨e, hsub e he, hwaits⟩

/-- It finds none in the list that waits. -/
theorem Move.findNone (sw : Bool) (hnone : ∀ e ∈ es, ¬ waits e = true) :
    Move ⟨es.any waits, bit, true⟩ ⟨es.any waits, bit, sw⟩ := by
  have hw : es.any waits = false := List.any_eq_false.2 hnone
  rw [hw]
  exact .finish sw rfl

end

/-- Whatever waits will be seen. -/
def Seen (m : Sweep) : Prop := m.waiting = true → m.bit = true ∨ m.sweeping = true

theorem Seen.move {m m' : Sweep} (h : m.Seen) (hm : Move m m') : m'.Seen := by
  intro hw
  cases hm with
  | idle => exact h hw
  | raise w => exact .inl rfl
  | start hbit => exact .inr rfl
  | take w hs _ => exact .inr rfl
  | finish sw hnone => cases hw

/-- With the bit clear and no activation left to look, nothing waits. -/
theorem Seen.quiet {m : Sweep} (h : m.Seen) (hbit : m.bit = false) (hs : m.sweeping = false) :
    m.waiting = false := by
  cases hw : m.waiting with
  | false => rfl
  | true => rcases h hw with hb | hb <;> simp_all

end Sweep

section
variable {S L : Type} {step : S → L → Option S} {ok : S → L → Prop} {s₀ : S}

/-- **Simulation rule.** -/
theorem Reach.sweep (view : S → Sweep) (h0 : (view s₀).Seen)
    (hsim : ∀ s l s', ok s l → step s l = some s' → (view s).Move (view s')) {s : S}
    (h : Reach step ok s₀ s) : (view s).Seen :=
  h.invariant (I := fun s => (view s).Seen) h0 fun s l s' hi hok hs => hi.move (hsim s l s' hok hs)

end

end ComputerSystem
