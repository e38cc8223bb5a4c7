import Mathlib.Data.List.Perm.Basic
import Mathlib.Data.List.Nodup
/-!
# A roster of limited size

What a table of names is for: a name is added while there is room, and deleted when it is there. `next`
says so of a list that stands for the set of the names; the order of the list means nothing
(`next_perm`), and no name is twice in it (`next_nodup`).
-/

namespace ComputerSystem.Roster

section
variable {α : Type} [DecidableEq α] {l l' : List α}

inductive Op (α : Type)
  | add (a : α)
  | delete (a : α)
deriving DecidableEq, Repr

def next (cap : Nat) (l : List α) : Op α → List α
  | .add a => if l.length < cap then a :: l else l
  | .delete a => l.erase a

/-- The operation is not the addition of a name that is there. -/
def Fresh (l : List α) : Op α → Prop
  | .add a => a ∉ l
  | .delete _ => True

instance : (op : Op α) → Decidable (Fresh l op)
  | .add a => inferInstanceAs (Decidable (a ∉ l))
  | .delete _ => isTrue trivial

theorem next_perm (cap : Nat) (h : l.Perm l') (op : Op α) : (next cap l op).Perm (next cap l' op) := by
  cases op with
  | add a =>
    simp only [next, h.length_eq]
    split
    · exact h.cons a
    · exact h
  | delete a => exact h.erase a

theorem next_nodup (cap : Nat) (h : l.Nodup) {op : Op α} (hfresh : Fresh l op) : (next cap l op).Nodup := by
  cases op with
  | add a =>
    simp only [next]
    split
    · exact List.nodup_cons.2 ⟨hfresh, h⟩
    · exact h
  | delete a => exact h.erase a

end

end ComputerSystem.Roster
