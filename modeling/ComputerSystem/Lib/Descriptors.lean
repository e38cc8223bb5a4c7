import Mathlib.Logic.Function.Basic
/-!
# Tables of descriptors

Processes `P` refer to open files `O` by the numbers in their tables. A table is copied when the process
forks and given up when it ends, so one open file can stand in many tables; it is closed when it stands in
none (`Held` fails). Each operation changes the table of one process (`_self`, `_other`), and
`refers_update` says what a changed entry means for what a table refers to.
-/

namespace ComputerSystem.Descriptors

abbrev Table (O : Type) := Nat → Option O

abbrev Tables (P O : Type) := P → Table O

section
variable {P O : Type}

def Table.Refers (t : Table O) (o : O) : Prop := ∃ n, t n = some o

/-- The number that a new descriptor gets. -/
def Table.Lowest (t : Table O) (n : Nat) : Prop := t n = none ∧ ∀ m < n, t m ≠ none

instance [DecidableEq O] (t : Table O) (n : Nat) : Decidable (t.Lowest n) := inferInstanceAs (Decidable (_ ∧ _))

/-- Some process refers to it. -/
def Tables.Held (T : Tables P O) (o : O) : Prop := ∃ p, (T p).Refers o

variable [DecidableEq P]

def Tables.install (T : Tables P O) (p : P) (n : Nat) (o : O) : Tables P O :=
  Function.update T p (Function.update (T p) n (some o))

def Tables.close (T : Tables P O) (p : P) (n : Nat) : Tables P O := Function.update T p (Function.update (T p) n none)

def Tables.fork (T : Tables P O) (p q : P) : Tables P O := Function.update T q (T p)

def Tables.exit (T : Tables P O) (p : P) : Tables P O := Function.update T p fun _ => none

end

section
variable {P O : Type} {t : Table O} {n m : Nat} {o : O}

theorem Table.Lowest.unique (h : t.Lowest n) (h' : t.Lowest m) : n = m := by
  rcases Nat.lt_trichotomy n m with hlt | heq | hgt
  · exact absurd h.1 (h'.2 n hlt)
  · exact heq
  · exact absurd h'.1 (h.2 m hgt)

theorem refers_none : ¬ Table.Refers (fun _ => none) o := by
  rintro ⟨n, hn⟩
  cases hn

/-- A changed entry, and those that are as before. -/
theorem refers_update {v : Option O} : Table.Refers (Function.update t n v) o ↔ v = some o ∨ ∃ m, m ≠ n ∧ t m = some o := by
  constructor
  · rintro ⟨m, hm⟩
    by_cases hmn : m = n
    · subst hmn
      rw [Function.update_self] at hm
      exact .inl hm
    · rw [Function.update_of_ne hmn] at hm
      exact .inr ⟨m, hmn, hm⟩
  · rintro (hv | ⟨m, hmn, hm⟩)
    · exact ⟨n, by rw [Function.update_self, hv]⟩
    · exact ⟨m, by rw [Function.update_of_ne hmn, hm]⟩

theorem refers_of_none (h : Table.Refers (Function.update t n none) o) : t.Refers o := by
  rcases refers_update.1 h with hnone | ⟨m, -, hm⟩
  · cases hnone
  · exact ⟨m, hm⟩

/-- A new descriptor. -/
theorem refers_install (hfree : t n = none) {o' : O} : Table.Refers (Function.update t n (some o')) o ↔ o' = o ∨ t.Refers o := by
  rw [refers_update, Option.some.injEq]
  refine or_congr Iff.rfl ⟨fun ⟨m, _, hm⟩ => ⟨m, hm⟩, fun ⟨m, hm⟩ => ⟨m, ?_, hm⟩⟩
  rintro rfl
  rw [hfree] at hm
  cases hm

/-- The only descriptor is closed. -/
theorem refers_close (hone : ∀ m, t m = some o → m = n) : ¬ Table.Refers (Function.update t n none) o := by
  rw [refers_update]
  rintro (h | ⟨m, hmn, hm⟩)
  · cases h
  · exact hmn (hone m hm)

variable [DecidableEq P] {T : Tables P O} {p q : P}

@[simp] theorem install_self : T.install p n o p = Function.update (T p) n (some o) := Function.update_self ..

@[simp] theorem close_self : T.close p n p = Function.update (T p) n none := Function.update_self ..

@[simp] theorem fork_self : T.fork p q q = T p := Function.update_self ..

@[simp] theorem exit_self : T.exit p p = fun _ => none := Function.update_self ..

theorem install_other (h : q ≠ p) : T.install p n o q = T q := Function.update_of_ne h ..

theorem close_other (h : q ≠ p) : T.close p n q = T q := Function.update_of_ne h ..

theorem fork_other {r : P} (h : r ≠ q) : T.fork p q r = T r := Function.update_of_ne h ..

theorem exit_other (h : q ≠ p) : T.exit p q = T q := Function.update_of_ne h ..

end

end ComputerSystem.Descriptors
