import Mathlib.Data.List.Induction
/-!
# Guarded transition systems

A model is a guarded, executable step function: `step s l` is `some s'` when the step labelled
`l` is enabled in `s`. The labels carry every choice the program does not make itself (the
outcome of a system call, an interrupt, a move of another party), so one run is one list of
labels and `runFrom` replays it.

`Reach step ok s₀` is the set of states that runs from `s₀` reach when every step taken meets
`ok`; with `ok` always true these are all reachable states. Safety is `Reach.invariant`: what
holds at `s₀` and is kept by every step holds everywhere.
-/

namespace ComputerSystem

section
variable {S L : Type} (step : S → L → Option S) (ok : S → L → Prop)

/-- Replay a list of labels; `none` when one of them is not enabled. -/
def runFrom : S → List L → Option S
  | s, [] => some s
  | s, l :: ls => match step s l with
    | some s' => runFrom s' ls
    | none => none

/-- Replay a list of labels whose steps all meet `ok`. -/
def runWhile [∀ s l, Decidable (ok s l)] : S → List L → Option S
  | s, [] => some s
  | s, l :: ls =>
    if ok s l then match step s l with
      | some s' => runWhile s' ls
      | none => none
    else none

/-- The states that runs from `s₀` reach by steps that all meet `ok`. -/
inductive Reach (s₀ : S) : S → Prop
  | refl : Reach s₀ s₀
  | tail {s s' : S} {l : L} : Reach s₀ s → ok s l → step s l = some s' → Reach s₀ s'

/-- The run `ls` from `s₀` comes to `s`. -/
def Visited (s₀ : S) (ls : List L) (s : S) : Prop := ∃ done, done <+: ls ∧ runFrom step s₀ done = some s

/-- The next step of the run `ls` in `s` is `l`. -/
def Taken (s₀ : S) (ls : List L) (s : S) (l : L) : Prop := ∃ done, done ++ [l] <+: ls ∧ runFrom step s₀ done = some s

/-- No condition on the steps. -/
def always : S → L → Prop := fun _ _ => True

end

section
variable {S L : Type} {step : S → L → Option S} {ok : S → L → Prop} {s₀ : S}

/-- **Invariant rule.** -/
theorem Reach.invariant {I : S → Prop} (h0 : I s₀)
    (hstep : ∀ s l s', I s → ok s l → step s l = some s' → I s') {s : S} (h : Reach step ok s₀ s) :
    I s := by
  induction h with
  | refl => exact h0
  | tail _ hok hs ih => exact hstep _ _ _ ih hok hs

theorem Reach.trans {s s' : S} (h : Reach step ok s₀ s) (h' : Reach step ok s s') :
    Reach step ok s₀ s' := by
  induction h' with
  | refl => exact h
  | tail _ hok hs ih => exact ih.tail hok hs

theorem Reach.single {s s' : S} {l : L} (hok : ok s l) (h : step s l = some s') :
    Reach step ok s s' :=
  Reach.refl.tail hok h

theorem runFrom_cons {s s' : S} {l : L} {ls : List L} (h : runFrom step s (l :: ls) = some s') :
    ∃ t, step s l = some t ∧ runFrom step t ls = some s' := by
  simp only [runFrom] at h
  split at h
  · rename_i t ht
    exact ⟨t, ht, h⟩
  · cases h

theorem runFrom_append (ls ls' : List L) : ∀ s : S,
    runFrom step s (ls ++ ls') = (runFrom step s ls).bind fun t => runFrom step t ls' := by
  induction ls with
  | nil => intro s; rfl
  | cons l ls ih =>
    intro s
    rw [List.cons_append, runFrom, runFrom]
    split
    · exact ih _
    · rfl

/-- A replayed run ends in a reachable state. -/
theorem runFrom_reach : ∀ {ls : List L} {s s' : S}, runFrom step s ls = some s' →
    Reach step always s s'
  | [], s, s', h => by
    simp only [runFrom, Option.some.injEq] at h
    exact h ▸ .refl
  | l :: ls, s, s', h => by
    simp only [runFrom] at h
    split at h
    · rename_i t ht
      exact (Reach.single trivial ht).trans (runFrom_reach h)
    · cases h

/-- What a run comes to is reached by the steps it takes. -/
theorem Visited.reach {ls : List L} {s : S} (h : Visited step s₀ ls s)
    (hok : ∀ t l, Taken step s₀ ls t l → ok t l) : Reach step ok s₀ s := by
  obtain ⟨done, hpre, hrun⟩ := h
  induction done using List.reverseRecOn generalizing s with
  | nil =>
    cases hrun
    exact .refl
  | append_singleton done l ih =>
    rw [runFrom_append] at hrun
    obtain ⟨t, ht, hrun⟩ := Option.bind_eq_some_iff.1 hrun
    obtain ⟨t', hstep, hrun⟩ := runFrom_cons hrun
    cases hrun
    exact (ih ((List.prefix_append done [l]).trans hpre) ht).tail (hok t l ⟨done, hpre, ht⟩) hstep

/-- A step that is taken and enabled is made. -/
theorem Taken.visited {ls : List L} {s s' : S} {l : L} (h : Taken step s₀ ls s l) (hs : step s l = some s') :
    Visited step s₀ ls s' := by
  obtain ⟨done, hpre, hrun⟩ := h
  refine ⟨done ++ [l], hpre, ?_⟩
  rw [runFrom_append, hrun, Option.bind_some, runFrom, hs]
  rfl

/-- Before a step stands what the run comes to. -/
theorem Taken.before {ls : List L} {s : S} {l : L} (h : Taken step s₀ ls s l) : Visited step s₀ ls s := by
  obtain ⟨done, hpre, hrun⟩ := h
  exact ⟨done, (List.prefix_append done [l]).trans hpre, hrun⟩

theorem runWhile_reach [∀ s l, Decidable (ok s l)] : ∀ {ls : List L} {s s' : S},
    runWhile step ok s ls = some s' → Reach step ok s s'
  | [], s, s', h => by
    simp only [runWhile, Option.some.injEq] at h
    exact h ▸ .refl
  | l :: ls, s, s', h => by
    simp only [runWhile] at h
    split at h
    · rename_i hok
      split at h
      · rename_i t ht
        exact (Reach.single hok ht).trans (runWhile_reach h)
      · cases h
    · cases h

end

end ComputerSystem
