import ComputerSystem.Lib.Machine
import Mathlib.Algebra.GroupWithZero.Nat
/-!
# Runs that come to an end

A measure `μ` that every step lowers by one, up to the `credit` of its label, bounds the length of all
runs (`runFrom_bound`; `runFrom_bound_of`, where it does so under an invariant): what a run may do for ever
is then only what has credit. Where some step without credit is always possible until a state is `done`, a
state that is done can be reached from everywhere (`Reach.reaches`).
-/

namespace ComputerSystem

section
variable {S L : Type} {step : S → L → Option S} {ok : S → L → Prop}

/-- Each step lowers the measure, or has credit. -/
def Lowers (step : S → L → Option S) (μ : S → Nat) (credit : L → Nat) : Prop :=
  ∀ s l s', step s l = some s' → μ s' + 1 ≤ μ s + credit l

theorem runFrom_bound_of {I : S → Prop} {μ : S → Nat} {credit : L → Nat} (hkeep : ∀ s l s', I s → step s l = some s' → I s')
    (h : ∀ s l s', I s → step s l = some s' → μ s' + 1 ≤ μ s + credit l) : ∀ (ls : List L) {s s' : S}, I s →
    runFrom step s ls = some s' → ls.length + μ s' ≤ μ s + (ls.map credit).sum
  | [], s, s', _, hrun => by
    cases hrun
    simp
  | l :: ls, s, s', hs, hrun => by
    obtain ⟨t, hstep, hrun⟩ := runFrom_cons hrun
    have hone := h s l t hs hstep
    have hrest := runFrom_bound_of hkeep h ls (hkeep s l t hs hstep) hrun
    rw [List.length_cons, List.map_cons, List.sum_cons]
    omega

theorem runFrom_bound {μ : S → Nat} {credit : L → Nat} (h : Lowers step μ credit) (ls : List L) {s s' : S}
    (hrun : runFrom step s ls = some s') : ls.length + μ s' ≤ μ s + (ls.map credit).sum :=
  runFrom_bound_of (I := fun _ => True) (fun _ _ _ _ _ => trivial) (fun s l s' _ => h s l s') ls trivial hrun

/-- **Progress rule.** -/
theorem Reach.reaches {I done : S → Prop} {μ : S → Nat} {credit : L → Nat} (h : Lowers step μ credit)
    (hkeep : ∀ s l s', I s → ok s l → step s l = some s' → I s')
    (hnext : ∀ s, I s → done s ∨ ∃ l, ok s l ∧ credit l = 0 ∧ (step s l).isSome = true) {s : S} (hs : I s) :
    ∃ s', Reach step ok s s' ∧ done s' := by
  induction hn : μ s using Nat.strongRecOn generalizing s with
  | ind n ih =>
    rcases hnext s hs with hdone | ⟨l, hok, hfree, hsome⟩
    · exact ⟨s, .refl, hdone⟩
    · obtain ⟨t, hstep⟩ := Option.isSome_iff_exists.1 hsome
      have hlow := h s l t hstep
      obtain ⟨s', hr, hdone⟩ := ih (μ t) (by omega) (hkeep s l t hs hok hstep) rfl
      exact ⟨s', (Reach.single hok hstep).trans hr, hdone⟩

end

end ComputerSystem
