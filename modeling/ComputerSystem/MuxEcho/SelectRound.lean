import ComputerSystem.MuxEcho.Select
/-!
# The books of `select_echo_server.c`, and one round of it (`:52-140`)

`Books` is what holds in every state that the server reaches, whatever its system calls return:
`all_reads` has `listenfd` and the descriptors that were accepted and are not closed, and `maxfd` is the
greatest of them. `scanLoop_spec` is about the loop of `:126`, whose upper bound moves while it runs: the
descriptors that are ready and still to come are below the bound, because they are in `all_reads`.

| here          | there                                                                     |
|---------------|---------------------------------------------------------------------------|
| `fails fd`    | `echo_once(fd) < 0`                                                        |
| `Echoed`      | a call of `echo_once`, and `maxfd` at the end of that turn of the loop      |
| `State.drop`  | `:134-138`, without the `close`                                            |
| `letIn`       | what the outcome of `accept` does to the sets (`:98-119`)                  |
| `scanLoop`    | the loop of `:126`, for at most so many turns                              |
| `round`       | `:97-140`; `nready` is what `select` returned                              |

`round_turns` connects the round to the step machine of the server.
-/

namespace ComputerSystem.MuxEcho.Select

open Relation (ReflTransGen)
open Rio (ReadOutcome WriteOutcome)

/-! ## Every state that is reached -/

structure Books (listenfd : Nat) (x : World × State) : Prop where
  socket   : x.1.listenfd = listenfd
  taken    : listenfd ∈ x.1.taken
  own      : Own listenfd x.2
  table    : ∀ fd, x.2.allReads fd = true ↔ fd = listenfd ∨ x.1.table fd ≠ none
  apart    : x.1.table listenfd = none
  target   : ∀ fd, x.2.pc.echoing = some fd → fd ≠ listenfd

section
variable {listenfd : Nat} {w w' : World} {s s' : State}

theorem Books.world (h : Books listenfd (w, s)) (hl : w'.listenfd = w.listenfd) (htaken : w'.taken = w.taken)
    (htable : w'.table = w.table) : Books listenfd (w', s) := by
  refine ⟨hl.trans h.socket, ?_, h.own, ?_, ?_, h.target⟩
  · simp only [htaken]
    exact h.taken
  · simp only [htable]
    exact h.table
  · simp only [htable]
    exact h.apart

theorem Books.state (h : Books listenfd (w, s)) (hreads : s'.allReads = s.allReads) (hmaxfd : s'.maxfd = s.maxfd)
    (htarget : ∀ fd, s'.pc.echoing = some fd → fd ≠ listenfd) : Books listenfd (w, s') := by
  refine ⟨h.socket, h.taken, h.own.pc hreads hmaxfd, ?_, h.apart, htarget⟩
  simp only [hreads]
  exact h.table

theorem Books.listened (h : Books listenfd (w, s)) (readyReads : FdSet) (nready : Nat) :
    Books listenfd (w, s.listened readyReads nready) := by
  obtain ⟨hreads, hmaxfd, hout, -⟩ := listened_cases s readyReads nready
  refine h.state hreads hmaxfd fun fd hfd => ?_
  rw [hout] at hfd
  cases hfd

/-- `accept` returned a descriptor. -/
theorem Books.accepted (h : Books listenfd (w, s)) {fd : Nat} (haccept : w.accept fd = some w') :
    Books listenfd (w'.close fd, s) ∧
      (fd < FD_SETSIZE → s.pc.echoing = none → Books listenfd (w', s.accepted fd)) := by
  obtain ⟨c, rest, -, htaken, hfree, rfl⟩ := World.accept_some haccept
  have hne : listenfd ≠ fd := by
    rintro rfl
    exact htaken h.taken
  constructor
  · refine h.world ?_ ?_ ?_
    · simp
    · simp
    · simp only [World.close_table, Function.update_idem, ← hfree, Function.update_eq_self]
  · intro hfd hout
    refine ⟨h.socket, h.taken, h.own.accepted hfd, fun fd' => ?_, ?_, fun fd' hfd' => ?_⟩
    · simp only [State.accepted]
      by_cases heq : fd' = fd
      · simp [heq]
      · simp only [Function.update_of_ne heq]
        exact h.table fd'
    · simp only [Function.update_of_ne hne]
      exact h.apart
    · have hpc : (s.accepted fd).pc.echoing = s.pc.echoing := rfl
      rw [hpc, hout] at hfd'
      cases hfd'

/-- `echo_once` returned. -/
theorem Books.returned (h : Books listenfd (w, s)) (ok : Bool) : Books listenfd (Select.returned s w ok) := by
  unfold Select.returned
  split
  · rename_i fd readyReads nready hpc
    have hne : fd ≠ listenfd := h.target fd (by simp only [hpc, Pc.echoing])
    cases ok with
    | true => exact h.state rfl rfl fun fd' hfd' => (by cases hfd')
    | false =>
      rw [if_neg Bool.false_ne_true]
      refine ⟨?_, ?_, h.own.closed hne _, fun fd' => ?_, ?_, fun fd' hfd' => (by cases hfd')⟩
      · simpa using h.socket
      · simpa using h.taken
      · simp only [World.close_table]
        by_cases heq : fd' = fd
        · simp [heq, hne]
        · simp only [Function.update_of_ne heq]
          exact h.table fd'
      · simp only [World.close_table, Function.update_of_ne hne.symm]
        exact h.apart
  · exact h

theorem Books.main (h : Books listenfd (w, s)) {l : Label} {x : World × State} (hs : server.main s w l = some x) :
    Books listenfd x := by
  have hs : Select.main s w l = some x := hs
  cases l with
  | client _ | read _ | write _ => cases hs
  | interrupted =>
    simp only [Select.main] at hs
    split at hs <;> cases hs
    exact h
  | waitError =>
    simp only [Select.main] at hs
    split at hs <;> cases hs
    exact h.state rfl rfl fun fd hfd => (by cases hfd)
  | ready hup err batch =>
    simp only [Select.main] at hs
    split at hs
    · obtain ⟨s₁, hselect, rfl⟩ := Option.map_eq_some_iff.1 hs
      simp only [State.select] at hselect
      split at hselect
      · cases hselect
        exact h.state rfl rfl fun fd hfd => (by cases hfd)
      · split at hselect
        · cases hselect
        · cases hselect
          exact h.state rfl rfl fun fd hfd => (by cases hfd)
    · cases hs
  | accept connfd added =>
    simp only [Select.main] at hs
    split at hs
    · rename_i readyReads nready hpc
      have hout : s.pc.echoing = none := by rw [hpc]; rfl
      split at hs
      · split at hs
        · cases hs
          exact h.listened readyReads nready
        · rename_i fd
          obtain ⟨w₁, haccept, hpair⟩ := Option.map_eq_some_iff.1 hs
          obtain ⟨hreject, hlet⟩ := h.accepted haccept
          split at hpair
          · cases hpair
            exact hreject.listened readyReads nready
          · cases hpair
            exact (hlet (by omega) hout).listened readyReads nready
      · cases hs
    · cases hs
  | go =>
    simp only [Select.main] at hs
    split at hs
    · split at hs
      · cases hs
      · cases hs
        exact h.state rfl rfl fun fd hfd => (by cases hfd)
    · rename_i i readyReads nready hpc
      split at hs
      · split at hs
        · cases hs
          exact h.state rfl rfl fun fd hfd => (by cases hfd)
        · rename_i hready
          cases hs
          refine h.state rfl rfl fun fd hfd => ?_
          obtain rfl : i = fd := Option.some.inj hfd
          have hl := h.socket
          simp only at hl
          exact fun heq => hready (.inl (heq.trans hl.symm))
      · cases hs
        exact h.state rfl rfl fun fd hfd => (by cases hfd)
    · cases hs

theorem client_frame {m : ClientMove} (hs : w.client m = some w') :
    w'.listenfd = w.listenfd ∧ w'.taken = w.taken ∧ w'.table = w.table := by
  cases m with
  | connect =>
    cases hs
    exact ⟨rfl, rfl, rfl⟩
  | send c bs =>
    simp only [World.client] at hs
    split at hs <;> cases hs
    exact ⟨rfl, rfl, rfl⟩
  | shutdown c =>
    simp only [World.client] at hs
    split at hs <;> cases hs
    exact ⟨rfl, rfl, rfl⟩

theorem read_frame {fd : Nat} {o : ReadOutcome} {e : Echo} (hs : w.read fd o = some (w', e)) :
    w'.listenfd = w.listenfd ∧ w'.taken = w.taken ∧ w'.table = w.table := by
  cases o with
  | eintr | error =>
    cases hs
    exact ⟨rfl, rfl, rfl⟩
  | count k =>
    simp only [World.read] at hs
    split at hs
    · cases hs
      exact ⟨rfl, rfl, rfl⟩
    · split at hs
      · split at hs <;> cases hs
        exact ⟨rfl, rfl, rfl⟩
      · split at hs <;> cases hs
        exact ⟨rfl, rfl, rfl⟩

theorem write_frame {o : WriteOutcome} {e : Echo} (hs : w.write o = some (w', e)) :
    w'.listenfd = w.listenfd ∧ w'.taken = w.taken ∧ w'.table = w.table := by
  simp only [World.write] at hs
  split at hs
  · cases hs
  · split at hs
    · cases hs
      exact ⟨rfl, rfl, rfl⟩
    · cases hs
      exact ⟨rfl, rfl, rfl⟩
    · cases hs
      exact ⟨rfl, rfl, rfl⟩
    · split at hs
      · cases hs
        exact ⟨rfl, rfl, rfl⟩
      · split at hs <;> cases hs <;> exact ⟨rfl, rfl, rfl⟩

theorem Books.resume (h : Books listenfd (w, s)) (e : Echo) : Books listenfd (server.resume s (w, e)) := by
  cases e with
  | writing => exact h
  | returned ok => exact h.returned ok

/-- **One step.** -/
theorem Books.step (h : Books listenfd (w, s)) {l : Label} {x : World × State} (hs : server.step (w, s) l = some x) :
    Books listenfd x := by
  cases l with
  | client m =>
    obtain ⟨w₁, hclient, rfl⟩ := Option.map_eq_some_iff.1 hs
    obtain ⟨hl, htaken, htable⟩ := client_frame hclient
    exact h.world hl htaken htable
  | read o =>
    simp only [Program.step] at hs
    split at hs
    · obtain ⟨⟨w₁, e⟩, hread, rfl⟩ := Option.map_eq_some_iff.1 hs
      obtain ⟨hl, htaken, htable⟩ := read_frame hread
      exact (h.world hl htaken htable).resume e
    · cases hs
  | write o =>
    simp only [Program.step] at hs
    split at hs
    · obtain ⟨⟨w₁, e⟩, hwrite, rfl⟩ := Option.map_eq_some_iff.1 hs
      obtain ⟨hl, htaken, htable⟩ := write_frame hwrite
      exact (h.world hl htaken htable).resume e
    · cases hs
  | interrupted | waitError | ready _ _ _ | accept _ _ | go =>
    simp only [Program.step] at hs
    split at hs
    · exact h.main hs
    · cases hs

end

theorem Books.start {listenfd : Nat} (others : List Nat) {s : State} (hs : Select.start listenfd = some s) :
    Books listenfd (World.start listenfd others, s) := by
  obtain ⟨hinv, -⟩ := start_inv others hs
  refine ⟨rfl, List.mem_cons_self .., hinv.own, hinv.watched, rfl, fun fd hfd => ?_⟩
  exact (hinv.target fd hfd).1

theorem Books.reach {listenfd : Nat} {others : List Nat} {s : State} (hs : Select.start listenfd = some s)
    {x : World × State} (h : Reach server.step always (World.start listenfd others, s) x) : Books listenfd x :=
  h.invariant (Books.start others hs) fun _ _ _ hbooks _ hstep => hbooks.step hstep

/-! ## The scan -/

structure Echoed where
  fd     : Nat
  closed : Bool
  maxfd  : Int
deriving DecidableEq

def State.drop (s : State) (fd : Nat) : State :=
  let allReads := Function.update s.allReads fd false
  ⟨allReads, if (fd : Int) = s.maxfd then recomputeMaxfd allReads (s.maxfd + 1).toNat else s.maxfd, s.pc⟩

def scanLoop (listenfd : Nat) (fails : Nat → Bool) (readyReads : FdSet) :
    Nat → Nat → Nat → State → Option (List Echoed × State)
  | 0, _, _, _ => none
  | turns + 1, fd, nready, s =>
    if (fd : Int) ≤ s.maxfd ∧ 0 < nready then
      if fd = listenfd ∨ readyReads fd = false then scanLoop listenfd fails readyReads turns (fd + 1) nready s
      else
        let s := if fails fd then s.drop fd else s
        (scanLoop listenfd fails readyReads turns (fd + 1) (nready - 1) s).map fun r =>
          (⟨fd, fails fd, s.maxfd⟩ :: r.1, r.2)
    else some ([], s)

/-- A descriptor that is too great is rejected. -/
def letIn (accepted : Option Nat) (s : State) : State :=
  match accepted with
  | none => s
  | some connfd => if FD_SETSIZE ≤ connfd then s else s.accepted connfd

def round (listenfd : Nat) (accepted : Option Nat) (fails : Nat → Bool) (readyReads : FdSet) (turns : Nat) (s : State)
    (nready : Nat) : Option (List Echoed × State) :=
  if readyReads listenfd = true then
    let s := letIn accepted s
    if nready - 1 = 0 then some ([], s) else scanLoop listenfd fails readyReads turns 0 (nready - 1) s
  else scanLoop listenfd fails readyReads turns 0 nready s

/-- The connections among `fd … fd + n - 1` that are ready. -/
def readyFrom (listenfd : Nat) (readyReads : FdSet) (fd n : Nat) : List Nat :=
  (List.range' fd n).filter fun f => decide (f ≠ listenfd) && readyReads f

section
variable {listenfd : Nat} {fails : Nat → Bool} {readyReads : FdSet}

theorem Own.drop {s : State} (h : Own listenfd s) {fd : Nat} (hne : fd ≠ listenfd) : Own listenfd (s.drop fd) :=
  h.closed hne s.pc

theorem Own.maxfd_nonneg {s : State} (h : Own listenfd s) : 0 ≤ s.maxfd := by
  obtain ⟨top, htop, -⟩ := h.top
  omega

theorem Own.letIn {s : State} (h : Own listenfd s) (accepted : Option Nat) : Own listenfd (letIn accepted s) := by
  unfold Select.letIn
  cases accepted with
  | none => exact h
  | some connfd =>
    simp only
    split
    · exact h
    · exact h.accepted (by omega)

theorem letIn_keeps (accepted : Option Nat) {s : State} {fd : Nat} (h : s.allReads fd = true) :
    (letIn accepted s).allReads fd = true := by
  unfold letIn
  cases accepted with
  | none => exact h
  | some connfd =>
    simp only
    split
    · exact h
    · simp only [State.accepted]
      by_cases heq : fd = connfd
      · rw [heq, Function.update_self]
      · rw [Function.update_of_ne heq, h]

theorem readyFrom_succ (fd n : Nat) :
    readyFrom listenfd readyReads fd (n + 1) =
      if fd = listenfd ∨ readyReads fd = false then readyFrom listenfd readyReads (fd + 1) n
      else fd :: readyFrom listenfd readyReads (fd + 1) n := by
  unfold readyFrom
  rw [List.range'_succ, List.filter_cons]
  by_cases h : fd = listenfd ∨ readyReads fd = false
  · rw [if_pos h, if_neg]
    rcases h with h | h
    · simp [h]
    · simp [h]
  · rw [if_neg h, if_pos]
    simpa using h

/-- What is ready from `fd` on can be reached by the scan. -/
def Ahead (listenfd : Nat) (readyReads : FdSet) (fd n : Nat) (s : State) : Prop :=
  ∀ f, fd ≤ f → f ≠ listenfd → readyReads f = true → s.allReads f = true ∧ f < fd + n

theorem Ahead.next {fd n : Nat} {s : State} (h : Ahead listenfd readyReads fd (n + 1) s) :
    Ahead listenfd readyReads (fd + 1) n s := by
  intro f hle hne hready
  obtain ⟨hin, hlt⟩ := h f (by omega) hne hready
  exact ⟨hin, by omega⟩

/-- A turn clears only the bit that it is behind. -/
theorem Ahead.drop {fd n : Nat} {s : State} (h : Ahead listenfd readyReads (fd + 1) n s) :
    Ahead listenfd readyReads (fd + 1) n (s.drop fd) := by
  intro f hle hne hready
  obtain ⟨hin, hlt⟩ := h f hle hne hready
  refine ⟨?_, hlt⟩
  simp only [State.drop]
  rw [Function.update_of_ne (by omega)]
  exact hin

/-- Above `maxfd` nothing is ready. -/
theorem Ahead.none_above {fd n : Nat} {s : State} (h : Ahead listenfd readyReads fd n s) (hown : Own listenfd s)
    (hlt : s.maxfd < fd) : readyFrom listenfd readyReads fd n = [] := by
  apply List.filter_eq_nil_iff.2
  intro f hf hready
  have hle := (List.mem_range'_1.1 hf).1
  simp only [Bool.and_eq_true, decide_eq_true_eq] at hready
  have hbound := hown.bound f (h f hle hready.1 hready.2).1
  omega

/-- What the scan does. -/
structure Scanned (listenfd : Nat) (fails : Nat → Bool) (ready : List Nat) (log : List Echoed) (s : State) : Prop where
  echoed : log.map Echoed.fd = ready
  closed : ∀ e ∈ log, e.closed = fails e.fd
  maxfd  : ∀ e ∈ log, 0 ≤ e.maxfd
  own    : Own listenfd s

theorem scanned_none {s : State} (h : Own listenfd s) : Scanned listenfd fails [] [] s :=
  ⟨rfl, (fun e he => by cases he), (fun e he => by cases he), h⟩

/-- **The scan calls `echo_once` for what is ready**, though `maxfd` moves. -/
theorem scanLoop_spec : ∀ (n turns fd nready : Nat) (s : State), n < turns → Own listenfd s →
    Ahead listenfd readyReads fd n s → nready = (readyFrom listenfd readyReads fd n).length →
    ∃ log s', scanLoop listenfd fails readyReads turns fd nready s = some (log, s') ∧
      Scanned listenfd fails (readyFrom listenfd readyReads fd n) log s' := by
  intro n
  induction n with
  | zero =>
    intro turns fd nready s hturns hown hahead hnready
    obtain ⟨turns, rfl⟩ : ∃ t, turns = t + 1 := ⟨turns - 1, by omega⟩
    have hzero : nready = 0 := hnready
    refine ⟨[], s, ?_, scanned_none hown⟩
    rw [scanLoop, if_neg (by omega)]
  | succ n ih =>
    intro turns fd nready s hturns hown hahead hnready
    obtain ⟨turns, rfl⟩ : ∃ t, turns = t + 1 := ⟨turns - 1, by omega⟩
    by_cases hgo : (fd : Int) ≤ s.maxfd ∧ 0 < nready
    · rw [readyFrom_succ] at hnready ⊢
      by_cases hskip : fd = listenfd ∨ readyReads fd = false
      · rw [if_pos hskip] at hnready ⊢
        rw [scanLoop, if_pos hgo, if_pos hskip]
        exact ih turns (fd + 1) nready s (by omega) hown hahead.next hnready
      · rw [if_neg hskip, List.length_cons] at hnready
        rw [if_neg hskip, scanLoop, if_pos hgo, if_neg hskip]
        have hne : fd ≠ listenfd := fun h => hskip (.inl h)
        -- `close` or not, the sets stay in order and what is ahead stays there
        obtain ⟨s₁, hs₁, hown₁, hahead₁⟩ : ∃ s₁, s₁ = (if fails fd then s.drop fd else s) ∧ Own listenfd s₁ ∧
            Ahead listenfd readyReads (fd + 1) n s₁ := by
          refine ⟨_, rfl, ?_⟩
          split
          · exact ⟨hown.drop hne, hahead.next.drop⟩
          · exact ⟨hown, hahead.next⟩
        obtain ⟨log, s', hloop, hechoed, hclosed, hmaxfd, hown'⟩ :=
          ih turns (fd + 1) (nready - 1) s₁ (by omega) hown₁ hahead₁ (by omega)
        refine ⟨⟨fd, fails fd, s₁.maxfd⟩ :: log, s', ?_, ?_, ?_, ?_, hown'⟩
        · simp only [← hs₁, hloop, Option.map_some]
        · rw [List.map_cons, hechoed]
        · intro e he
          rcases List.mem_cons.1 he with rfl | he
          · rfl
          · exact hclosed e he
        · intro e he
          rcases List.mem_cons.1 he with rfl | he
          · exact hown₁.maxfd_nonneg
          · exact hmaxfd e he
    · have hnone : readyFrom listenfd readyReads fd (n + 1) = [] := by
        by_cases hlt : s.maxfd < fd
        · exact hahead.none_above hown hlt
        · exact List.length_eq_zero_iff.1 (by omega)
      rw [hnone]
      refine ⟨[], s, ?_, scanned_none hown⟩
      rw [scanLoop, if_neg hgo]

/-- More turns change nothing. -/
theorem scanLoop_mono : ∀ {turns turns' fd nready : Nat} {s : State} {r : List Echoed × State},
    scanLoop listenfd fails readyReads turns fd nready s = some r → turns ≤ turns' →
    scanLoop listenfd fails readyReads turns' fd nready s = some r := by
  intro turns
  induction turns with
  | zero =>
    intro turns' fd nready s r h
    cases h
  | succ turns ih =>
    intro turns' fd nready s r h hle
    obtain ⟨turns', rfl⟩ : ∃ t, turns' = t + 1 := ⟨turns' - 1, by omega⟩
    rw [scanLoop] at h ⊢
    split at h
    · rename_i hgo
      rw [if_pos hgo]
      split at h
      · rename_i hskip
        rw [if_pos hskip]
        exact ih h (by omega)
      · rename_i hskip
        obtain ⟨r', hr', rfl⟩ := Option.map_eq_some_iff.1 h
        rw [if_neg hskip]
        have hloop := ih hr' (show turns ≤ turns' by omega)
        simp only [hloop, Option.map_some]
    · rename_i hgo
      rw [if_neg hgo]
      exact h

/-! ## The round -/

/-- What the scan looks for from 0 on. -/
theorem readyFrom_zero (maxfd : Int) :
    readyFrom listenfd readyReads 0 (maxfd + 1).toNat = (members readyReads maxfd).filter (· ≠ listenfd) := by
  unfold readyFrom members
  rw [List.filter_filter, List.range_eq_range']

theorem members_nodup (fds : FdSet) (maxfd : Int) : (members fds maxfd).Nodup := List.nodup_range.filter _

/-- The listener is one of what `select` counts. -/
theorem members_length (hin : listenfd ∈ members readyReads maxfd) :
    (members readyReads maxfd).length - 1 = ((members readyReads maxfd).filter (· ≠ listenfd)).length := by
  have herase : (members readyReads maxfd).erase listenfd = (members readyReads maxfd).filter (· ≠ listenfd) := by
    rw [(members_nodup readyReads maxfd).erase_eq_filter]
    apply List.filter_congr
    intro fd _
    simp [bne, Bool.beq_eq_decide_eq]
  rw [← herase, List.length_erase_of_mem hin]

theorem round_spec (fails : Nat → Bool) {s : State} (hown : Own listenfd s) (hready : ∀ fd, readyReads fd = true → s.allReads fd = true)
    (accepted : Option Nat) {turns : Nat} (hturns : (s.maxfd + 1).toNat < turns) :
    ∃ log s', round listenfd accepted fails readyReads turns s (members readyReads s.maxfd).length = some (log, s') ∧
      Scanned listenfd fails ((members readyReads s.maxfd).filter (· ≠ listenfd)) log s' := by
  have hown' := hown.letIn accepted
  have hbelow : ∀ fd, readyReads fd = true → fd < (s.maxfd + 1).toNat := by
    intro fd hfd
    have := hown.bound fd (hready fd hfd)
    omega
  have hahead : Ahead listenfd readyReads 0 (s.maxfd + 1).toNat (letIn accepted s) := by
    intro fd _ _ hfd
    have hlt := hbelow fd hfd
    exact ⟨letIn_keeps accepted (hready fd hfd), by omega⟩
  have hahead' : Ahead listenfd readyReads 0 (s.maxfd + 1).toNat s := by
    intro fd _ _ hfd
    have hlt := hbelow fd hfd
    exact ⟨hready fd hfd, by omega⟩
  simp only [round]
  rw [← readyFrom_zero]
  by_cases hlisten : readyReads listenfd = true
  · have hin : listenfd ∈ members readyReads s.maxfd := mem_members.2 ⟨hown.bound _ hown.listen, hlisten⟩
    have hcount := members_length hin
    rw [← readyFrom_zero] at hcount
    rw [if_pos hlisten]
    by_cases hzero : (members readyReads s.maxfd).length - 1 = 0
    · rw [if_pos hzero]
      have hnone : readyFrom listenfd readyReads 0 (s.maxfd + 1).toNat = [] := List.length_eq_zero_iff.1 (hcount ▸ hzero)
      rw [hnone]
      exact ⟨[], _, rfl, scanned_none hown'⟩
    · rw [if_neg hzero]
      exact scanLoop_spec _ turns 0 _ _ hturns hown' hahead hcount
  · have hall : (members readyReads s.maxfd).filter (· ≠ listenfd) = members readyReads s.maxfd := by
      apply List.filter_eq_self.2
      intro fd hfd
      have hne : fd ≠ listenfd := by
        rintro rfl
        exact hlisten (mem_members.1 hfd).2
      simpa using hne
    rw [if_neg hlisten]
    refine scanLoop_spec _ turns 0 _ _ hturns hown hahead' ?_
    rw [readyFrom_zero, hall]

theorem round_mono {accepted : Option Nat} {turns turns' nready : Nat} {s : State} {r : List Echoed × State}
    (h : round listenfd accepted fails readyReads turns s nready = some r) (hle : turns ≤ turns') :
    round listenfd accepted fails readyReads turns' s nready = some r := by
  simp only [round] at h ⊢
  split at h
  · rename_i hlisten
    rw [if_pos hlisten]
    split at h
    · rename_i hzero
      rw [if_pos hzero]
      exact h
    · rename_i hzero
      rw [if_neg hzero]
      exact scanLoop_mono h hle
  · rename_i hlisten
    rw [if_neg hlisten]
    exact scanLoop_mono h hle

end

/-- What holds at the top of the loop. -/
structure AtTop (listenfd : Nat) (x : World × State) : Prop where
  listen  : x.2.allReads listenfd = true
  members : ∀ fd, x.2.allReads fd = true ↔ fd = listenfd ∨ x.1.table fd ≠ none
  small   : ∀ fd, x.2.allReads fd = true → fd < FD_SETSIZE
  maxfd   : ∃ fd : Nat, x.2.maxfd = fd ∧ IsGreatest {fd | x.2.allReads fd = true} fd

theorem Books.atTop {listenfd : Nat} {x : World × State} (h : Books listenfd x) : AtTop listenfd x := by
  obtain ⟨top, htop, hin⟩ := h.own.top
  refine ⟨h.own.listen, h.table, h.own.small, top, htop, hin, fun fd hfd => ?_⟩
  have := h.own.bound fd hfd
  omega

/-- **The books of the select server.** In every state that is reached they are right, and a round from
there calls `echo_once` once for each connection that is ready. -/
theorem select_bookkeeping (listenfd : Nat) (others : List Nat) (s₀ : State) (hstart : Select.start listenfd = some s₀)
    (x : World × State) (hreach : Reach server.step always (World.start listenfd others, s₀) x) :
    AtTop listenfd x ∧
    ∀ (readyReads : FdSet), (∀ fd, readyReads fd = true → x.2.allReads fd = true) →
      ∀ (accepted : Option Nat) (fails : Nat → Bool), ∃ log s',
        (∃ enough, ∀ turns ≥ enough, round listenfd accepted fails readyReads turns x.2
          (members readyReads x.2.maxfd).length = some (log, s')) ∧
        (log.map Echoed.fd).Nodup ∧
        (∀ fd, fd ∈ log.map Echoed.fd ↔ fd ≠ listenfd ∧ readyReads fd = true) ∧
        (∀ e ∈ log, e.closed = fails e.fd ∧ 0 ≤ e.maxfd) ∧ Own listenfd s' := by
  have hbooks := Books.reach hstart hreach
  refine ⟨hbooks.atTop, fun readyReads hready accepted fails => ?_⟩
  obtain ⟨log, s', hround, hscanned⟩ := round_spec fails hbooks.own hready accepted (Nat.lt_succ_self _)
  obtain ⟨hechoed, hclosed, hmaxfd, hown⟩ := hscanned
  refine ⟨log, s', ⟨_, fun turns hturns => round_mono hround hturns⟩, ?_, fun fd => ?_, fun e he => ?_, hown⟩
  · rw [hechoed]
    exact (members_nodup readyReads x.2.maxfd).filter _
  · rw [hechoed, List.mem_filter, mem_members, decide_eq_true_eq]
    constructor
    · rintro ⟨⟨-, hfd⟩, hne⟩
      exact ⟨hne, hfd⟩
    · rintro ⟨hne, hfd⟩
      exact ⟨⟨hbooks.own.bound fd (hready fd hfd), hfd⟩, hne⟩
  · exact ⟨hclosed e he, hmaxfd e he⟩

/-- Two clients come and are accepted. -/
def twoClients : List Label :=
  [.client .connect, .client .connect, .ready [] [] [], .accept (some 4) true, .ready [] [] [], .accept (some 5) true]

/-- The listener and both are ready; a third client gets 6 and the second one fails. -/
theorem select_bookkeeping_two : ∃ x log s',
    Reach server.step always (World.start 3 [0, 1, 2], ⟨Function.update (fun _ => false) 3 true, 3, .select⟩) x ∧
    (∃ enough, ∀ turns ≥ enough, round 3 (some 6) (fun fd => fd = 5) (fun fd => fd = 3 ∨ fd = 4 ∨ fd = 5) turns x.2 3 =
      some (log, s')) ∧
    (log.map Echoed.fd).Nodup ∧ (∀ fd, fd ∈ log.map Echoed.fd ↔ fd = 4 ∨ fd = 5) ∧ Own 3 s' := by
  have hend : (runFrom server.step (World.start 3 [0, 1, 2], ⟨Function.update (fun _ => false) 3 true, 3, .select⟩)
      twoClients).map (fun x => (x.2.maxfd, x.2.allReads 3, x.2.allReads 4, x.2.allReads 5)) =
      some (5, true, true, true) := by decide
  obtain ⟨x, hx, heq⟩ := Option.map_eq_some_iff.1 hend
  obtain ⟨hmaxfd, h3, h4, h5⟩ : x.2.maxfd = 5 ∧ x.2.allReads 3 = true ∧ x.2.allReads 4 = true ∧ x.2.allReads 5 = true := by
    simpa using heq
  obtain ⟨-, hround⟩ := select_bookkeeping 3 [0, 1, 2] _ rfl x (runFrom_reach hx)
  obtain ⟨log, s', hloop, hnodup, hmem, -, hown⟩ := hround (fun fd => fd = 3 ∨ fd = 4 ∨ fd = 5)
    (fun fd hfd => by rcases of_decide_eq_true hfd with rfl | rfl | rfl <;> assumption) (some 6) (fun fd => fd = 5)
  rw [hmaxfd] at hloop
  refine ⟨x, log, s', runFrom_reach hx, hloop, hnodup, fun fd => ?_, hown⟩
  rw [hmem, decide_eq_true_eq]
  omega

/-! ## The round in the step machine -/

section
variable {accepted : Option Nat} {fails : Nat → Bool} {w : World} {s : State} {x : World × State}

theorem turn_accept (h : main s w (.accept accepted true) = some x) : server.Turn accepted fails (w, s) x := .accept h

theorem turn_go (hout : s.pc.echoing = none) (h : main s w .go = some x) : server.Turn accepted fails (w, s) x :=
  .go hout h

end

def closeAll (w : World) (log : List Echoed) : World :=
  (log.filter Echoed.closed).foldl (fun w e => w.close e.fd) w

section
variable {listenfd : Nat} {accepted : Option Nat} {fails : Nat → Bool} {readyReads : FdSet}

/-- A connection that is ready, in two turns. -/
theorem echoed_turns (accepted : Option Nat) (fails : Nat → Bool) {w : World} {s : State} {fd nready : Nat} (hgo : (fd : Int) ≤ s.maxfd ∧ 0 < nready)
    (hready : ¬ (fd = w.listenfd ∨ readyReads fd = false)) :
    ReflTransGen (server.Turn accepted fails) (w, { s with pc := .scan fd readyReads nready })
      (if fails fd then (w.close fd, { s.drop fd with pc := .scan (fd + 1) readyReads (nready - 1) })
        else (w, { s with pc := .scan (fd + 1) readyReads (nready - 1) })) := by
  have hcall : server.Turn accepted fails (w, { s with pc := .scan fd readyReads nready })
      (w, { s with pc := .echo fd readyReads (nready - 1) }) := by
    refine turn_go rfl ?_
    simp only [main, if_pos hgo, if_neg hready]
  have hret : server.Turn accepted fails (w, { s with pc := .echo fd readyReads (nready - 1) })
      (returned { s with pc := .echo fd readyReads (nready - 1) } w (!fails fd)) := .echo rfl
  have heq : returned { s with pc := .echo fd readyReads (nready - 1) } w (!fails fd) =
      if fails fd then (w.close fd, { s.drop fd with pc := .scan (fd + 1) readyReads (nready - 1) })
      else (w, { s with pc := .scan (fd + 1) readyReads (nready - 1) }) := by
    unfold returned
    cases fails fd with
    | true => rfl
    | false => rfl
  rw [← heq]
  exact (ReflTransGen.single hcall).tail hret

theorem scanLoop_turns : ∀ {turns fd nready : Nat} {s s' : State} {log : List Echoed},
    scanLoop listenfd fails readyReads turns fd nready s = some (log, s') → s.pc = .select →
    ∀ w : World, w.listenfd = listenfd →
    ReflTransGen (server.Turn accepted fails) (w, { s with pc := .scan fd readyReads nready }) (closeAll w log, s') := by
  intro turns
  induction turns with
  | zero =>
    intro fd nready s s' log h
    cases h
  | succ turns ih =>
    intro fd nready s s' log h hpc w hw
    rw [scanLoop] at h
    split at h
    · rename_i hgo
      split at h
      · rename_i hskip
        have hturn : server.Turn accepted fails (w, { s with pc := .scan fd readyReads nready })
            (w, { s with pc := .scan (fd + 1) readyReads nready }) := by
          refine turn_go rfl ?_
          rw [← hw] at hskip
          simp only [main, if_pos hgo, if_pos hskip]
        exact ReflTransGen.head hturn (ih h hpc w hw)
      · rename_i hready
        obtain ⟨⟨log', s₁⟩, hr, heq⟩ := Option.map_eq_some_iff.1 h
        obtain ⟨rfl, rfl⟩ := Prod.mk.inj heq
        rw [← hw] at hready
        have hturns := echoed_turns accepted fails hgo hready
        cases hfails : fails fd with
        | true =>
          simp only [hfails, if_true] at hr hturns
          have hl : (w.close fd).listenfd = listenfd := by rw [World.close_listenfd, hw]
          exact hturns.trans (ih hr hpc (w.close fd) hl)
        | false =>
          simp only [hfails, Bool.false_eq_true, if_false] at hr hturns
          exact hturns.trans (ih hr hpc w hw)
    · rename_i hstop
      obtain ⟨rfl, rfl⟩ := Prod.mk.inj (Option.some.inj h)
      refine ReflTransGen.single (turn_go rfl ?_)
      simp only [main, if_neg hstop, closeAll, List.filter_nil, List.foldl_nil]
      rw [← hpc]

/-- The call of `accept`, and what it makes of the sets. -/
theorem listen_turn (fails : Nat → Bool) (s : State) (nready : Nat) {w : World} (hready : readyReads w.listenfd = true)
    (hacc : ∀ connfd, accepted = some connfd → ∃ w₁, w.accept connfd = some w₁) :
    ∃ w₁, w₁.listenfd = w.listenfd ∧ server.Turn accepted fails (w, { s with pc := .listen readyReads nready })
      (w₁, (letIn accepted s).listened readyReads nready) := by
  cases haccepted : accepted with
  | none =>
    refine ⟨w, rfl, turn_accept ?_⟩
    simp only [main, if_pos hready]
    rfl
  | some connfd =>
    obtain ⟨w₁, hw₁⟩ := hacc connfd haccepted
    have hl : w₁.listenfd = w.listenfd := by
      obtain ⟨c, rest, -, -, -, rfl⟩ := World.accept_some hw₁
      rfl
    by_cases hbig : FD_SETSIZE ≤ connfd
    · refine ⟨w₁.close connfd, (World.close_listenfd ..).trans hl, turn_accept ?_⟩
      simp only [main, if_pos hready, hw₁, Option.map_some, if_pos hbig, letIn]
      rfl
    · refine ⟨w₁, hl, turn_accept ?_⟩
      simp only [main, if_pos hready, hw₁, Option.map_some, if_neg hbig, letIn]
      rfl

/-- **The round is a run of the step machine**, from the return of `select` to its next call. -/
theorem round_turns {turns nready : Nat} {s s' : State} {log : List Echoed} {w : World}
    (h : round w.listenfd accepted fails readyReads turns s nready = some (log, s')) (hpc : s.pc = .select)
    (hacc : ∀ connfd, accepted = some connfd → ∃ w₁, w.accept connfd = some w₁) :
    ∃ w₁, ReflTransGen (server.Turn accepted fails) (w, { s with pc := .listen readyReads nready })
      (closeAll w₁ log, s') := by
  have hlet : (letIn accepted s).pc = s.pc := by
    unfold letIn
    split
    · rfl
    · split <;> rfl
  simp only [round] at h
  split at h
  · rename_i hready
    obtain ⟨w₁, hl, hturn⟩ := listen_turn fails s nready hready hacc
    refine ⟨w₁, ReflTransGen.head hturn ?_⟩
    unfold State.listened
    split at h
    · rename_i hzero
      obtain ⟨rfl, rfl⟩ := Prod.mk.inj (Option.some.inj h)
      rw [if_pos hzero]
      have hself : { letIn accepted s with pc := .select } = letIn accepted s := by
        rw [← hpc, ← hlet]
      rw [hself]
      exact .refl
    · rename_i hzero
      rw [if_neg hzero]
      exact scanLoop_turns h (hlet.trans hpc) w₁ hl
  · rename_i hready
    have hturn : server.Turn accepted fails (w, { s with pc := .listen readyReads nready })
        (w, { s with pc := .scan 0 readyReads nready }) := by
      refine turn_go rfl ?_
      simp only [main, if_neg hready]
    exact ⟨w, ReflTransGen.head hturn (scanLoop_turns h hpc w rfl)⟩

end

end ComputerSystem.MuxEcho.Select
