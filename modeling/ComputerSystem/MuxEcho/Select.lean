import ComputerSystem.MuxEcho.Server
/-!
# `select_echo_server.c`

| here                     | there                                                              |
|--------------------------|--------------------------------------------------------------------|
| `FdSet`                  | `fd_set`                                                             |
| `State.allReads`, `maxfd` | `all_reads` and `maxfd` (`:79-83`)                                  |
| `Pc.listen`              | `:97`, with `ready_reads` and `nready`                               |
| `Pc.scan`, `Pc.echo`     | the loop of `:126` at its head, and inside of `echo_once(fd)`        |
| `recomputeMaxfd`         | `recompute_maxfd` (`:52`)                                            |
-/

namespace ComputerSystem.MuxEcho.Select

def FD_SETSIZE : Nat := 1024

abbrev FdSet : Type := Nat → Bool

inductive Pc
  | select
  | listen (readyReads : FdSet) (nready : Nat)
  | scan (fd : Nat) (readyReads : FdSet) (nready : Nat)
  | echo (fd : Nat) (readyReads : FdSet) (nready : Nat)
  | stopped

structure State where
  allReads : FdSet
  maxfd    : Int
  pc       : Pc

/-- `while (*maxfd >= 0 && !FD_ISSET(*maxfd, all_reads)) --(*maxfd)`, from `maxfd = n - 1`. -/
def recomputeMaxfd (allReads : FdSet) : Nat → Int
  | 0 => -1
  | n + 1 => if allReads n = true then n else recomputeMaxfd allReads n

/-- The members of a set that `select(maxfd + 1, …)` and the scan look at. -/
def members (fds : FdSet) (maxfd : Int) : List Nat := (List.range (maxfd + 1).toNat).filter fun fd => fds fd

/-- `select(maxfd + 1, &ready_reads, NULL, NULL, NULL)` (`:88`): a descriptor that is not open is an error,
and without one that is ready the call blocks. -/
def State.select (s : State) (w : World) : Option State :=
  if ∃ fd ∈ members s.allReads s.maxfd, w.isOpen fd = false then some { s with pc := .stopped }
  else
    let readyReads : FdSet := fun fd => decide ((fd : Int) ≤ s.maxfd) && s.allReads fd && w.readable fd
    let nready := (members readyReads s.maxfd).length
    if nready = 0 then none else some { s with pc := .listen readyReads nready }

/-- `if (--nready == 0) continue;` (`:121`). -/
def State.listened (s : State) (readyReads : FdSet) (nready : Nat) : State :=
  if nready - 1 = 0 then { s with pc := .select } else { s with pc := .scan 0 readyReads (nready - 1) }

/-- `:105-119`. -/
def State.accepted (s : State) (connfd : Nat) : State :=
  { s with
    allReads := Function.update s.allReads connfd true
    maxfd := if s.maxfd < connfd then connfd else s.maxfd }

def main (s : State) (w : World) : Label → Option (World × State)
  | .interrupted =>
    match s.pc with
    | .select => some (w, s)
    | _ => none
  | .waitError =>
    match s.pc with
    | .select => some (w, { s with pc := .stopped })
    | _ => none
  | .ready _ _ _ =>
    match s.pc with
    | .select => (s.select w).map fun s => (w, s)
    | _ => none
  | .accept connfd _ =>
    match s.pc with
    | .listen readyReads nready =>
      if readyReads w.listenfd = true then
        match connfd with
        | none => some (w, s.listened readyReads nready)
        | some fd =>
          (w.accept fd).map fun w =>
            if FD_SETSIZE ≤ fd then (w.close fd, s.listened readyReads nready)
            else (w, (s.accepted fd).listened readyReads nready)
      else none
    | _ => none
  | .go =>
    match s.pc with
    | .listen readyReads nready =>
      if readyReads w.listenfd = true then none else some (w, { s with pc := .scan 0 readyReads nready })
    | .scan fd readyReads nready =>
      if (fd : Int) ≤ s.maxfd ∧ 0 < nready then
        if fd = w.listenfd ∨ readyReads fd = false then some (w, { s with pc := .scan (fd + 1) readyReads nready })
        else some (w, { s with pc := .echo fd readyReads (nready - 1) })
      else some (w, { s with pc := .select })
    | _ => none
  | _ => none

/-- `:132-138`. -/
def returned (s : State) (w : World) (ok : Bool) : World × State :=
  match s.pc with
  | .echo fd readyReads nready =>
    if ok then (w, { s with pc := .scan (fd + 1) readyReads nready })
    else
      let allReads := Function.update s.allReads fd false
      let maxfd := if (fd : Int) = s.maxfd then recomputeMaxfd allReads (s.maxfd + 1).toNat else s.maxfd
      (w.close fd, ⟨allReads, maxfd, .scan (fd + 1) readyReads nready⟩)
  | _ => (w, s)

def Pc.echoing : Pc → Option Nat
  | .echo fd _ _ => some fd
  | _ => none

def Pc.todo : Pc → Nat → Prop
  | .listen readyReads _, fd => readyReads fd = true
  | .scan i readyReads _, fd => i ≤ fd ∧ readyReads fd = true
  | .echo i readyReads _, fd => i < fd ∧ readyReads fd = true
  | .select, _ | .stopped, _ => False

def server : Program State where
  main     := main
  echoing  := fun s => s.pc.echoing
  returned := returned
  watched  := fun s fd => s.allReads fd = true
  todo     := fun s => s.pc.todo
  waiting  := fun s => s.pc = .select
  stopped  := fun s => s.pc = .stopped
  limits   := fun _ fd => fd < FD_SETSIZE

instance (s : State) (fd : Nat) : Decidable (server.limits s fd) := inferInstanceAs (Decidable (_ < _))

/-- `main` up to its loop (`:67-83`). -/
def start (listenfd : Nat) : Option State :=
  if FD_SETSIZE ≤ listenfd then none
  else some ⟨Function.update (fun _ => false) listenfd true, listenfd, .select⟩

/-! ## `all_reads` and `maxfd` -/

/-- `maxfd` is the greatest member. -/
structure Own (listenfd : Nat) (s : State) : Prop where
  listen : s.allReads listenfd = true
  small  : ∀ fd, s.allReads fd = true → fd < FD_SETSIZE
  bound  : ∀ fd, s.allReads fd = true → (fd : Int) ≤ s.maxfd
  top    : ∃ fd : Nat, s.maxfd = fd ∧ s.allReads fd = true

theorem recomputeMaxfd_spec {allReads : FdSet} {n fd : Nat} (hlt : fd < n) (hfd : allReads fd = true) :
    ∃ top : Nat, recomputeMaxfd allReads n = top ∧ allReads top = true ∧
      ∀ fd' < n, allReads fd' = true → fd' ≤ top := by
  induction n with
  | zero => omega
  | succ n ih =>
    rw [recomputeMaxfd]
    by_cases hn : allReads n = true
    · rw [if_pos hn]
      exact ⟨n, rfl, hn, fun fd' hlt' _ => Nat.le_of_lt_succ hlt'⟩
    · rw [if_neg hn]
      have hne : ∀ fd', allReads fd' = true → fd' ≠ n := fun fd' h heq => hn (heq ▸ h)
      obtain ⟨top, htop, hin, hmax⟩ := ih (by have := hne fd hfd; omega)
      exact ⟨top, htop, hin, fun fd' hlt' h' => hmax fd' (by have := hne fd' h'; omega) h'⟩

theorem Own.pc {listenfd : Nat} {s s' : State} (h : Own listenfd s) (hreads : s'.allReads = s.allReads)
    (hmaxfd : s'.maxfd = s.maxfd) : Own listenfd s' := by
  refine ⟨?_, ?_, ?_, ?_⟩
  · rw [hreads]
    exact h.listen
  · rw [hreads]
    exact h.small
  · rw [hreads, hmaxfd]
    exact h.bound
  · rw [hreads, hmaxfd]
    exact h.top

theorem Own.accepted {listenfd fd : Nat} {s : State} (h : Own listenfd s) (hfd : fd < FD_SETSIZE) :
    Own listenfd (s.accepted fd) := by
  have hmem : ∀ fd', Function.update s.allReads fd true fd' = true → fd' = fd ∨ s.allReads fd' = true := by
    intro fd' h'
    by_cases heq : fd' = fd
    · exact .inl heq
    · rw [Function.update_of_ne heq] at h'
      exact .inr h'
  have hkeep : ∀ fd', s.allReads fd' = true → Function.update s.allReads fd true fd' = true := by
    intro fd' h'
    by_cases heq : fd' = fd
    · rw [heq, Function.update_self]
    · rw [Function.update_of_ne heq, h']
  refine ⟨hkeep _ h.listen, fun fd' h' => ?_, fun fd' h' => ?_, ?_⟩
  · rcases hmem fd' h' with rfl | h'
    · exact hfd
    · exact h.small fd' h'
  · simp only [State.accepted]
    rcases hmem fd' h' with rfl | h'
    · split <;> omega
    · have := h.bound fd' h'
      split <;> omega
  · simp only [State.accepted]
    by_cases hlt : s.maxfd < fd
    · rw [if_pos hlt]
      exact ⟨fd, rfl, Function.update_self ..⟩
    · rw [if_neg hlt]
      obtain ⟨top, htop, hin⟩ := h.top
      exact ⟨top, htop, hkeep top hin⟩

theorem Own.closed {listenfd fd : Nat} {s : State} (h : Own listenfd s) (hne : fd ≠ listenfd) (pc : Pc) :
    Own listenfd ⟨Function.update s.allReads fd false,
      if (fd : Int) = s.maxfd then recomputeMaxfd (Function.update s.allReads fd false) (s.maxfd + 1).toNat
      else s.maxfd, pc⟩ := by
  have hmem : ∀ fd', Function.update s.allReads fd false fd' = true → fd' ≠ fd ∧ s.allReads fd' = true := by
    intro fd' h'
    by_cases heq : fd' = fd
    · rw [heq, Function.update_self] at h'
      cases h'
    · rw [Function.update_of_ne heq] at h'
      exact ⟨heq, h'⟩
  have hlisten : Function.update s.allReads fd false listenfd = true := by
    rw [Function.update_of_ne hne.symm]
    exact h.listen
  have hbound := h.bound listenfd h.listen
  refine ⟨hlisten, fun fd' h' => h.small fd' (hmem fd' h').2, ?_, ?_⟩
  · intro fd' h'
    have hle := h.bound fd' (hmem fd' h').2
    simp only
    split
    · obtain ⟨top, htop, -, hmax⟩ := recomputeMaxfd_spec (n := (s.maxfd + 1).toNat) (by omega) hlisten
      have := hmax fd' (by omega) h'
      rw [htop]
      omega
    · exact hle
  · simp only
    split
    · obtain ⟨top, htop, hin, -⟩ := recomputeMaxfd_spec (n := (s.maxfd + 1).toNat) (by omega) hlisten
      exact ⟨top, htop, hin⟩
    · rename_i hfd
      obtain ⟨top, htop, hin⟩ := h.top
      refine ⟨top, htop, ?_⟩
      rw [Function.update_of_ne]
      · exact hin
      · rintro rfl
        exact hfd htop.symm

/-! ## The loop -/

theorem mem_members {fds : FdSet} {maxfd : Int} {fd : Nat} :
    fd ∈ members fds maxfd ↔ (fd : Int) ≤ maxfd ∧ fds fd = true := by
  simp only [members, List.mem_filter, List.mem_range]
  constructor
  · rintro ⟨hlt, hfd⟩
    exact ⟨by omega, hfd⟩
  · rintro ⟨hle, hfd⟩
    exact ⟨by omega, hfd⟩

/-- All that is watched is open, so `select` does not fail. -/
theorem select_spec {w : World} {s s' : State} (hw : w.Ok) (h : server.Inv Own w s) (hs : s.select w = some s') :
    s'.allReads = s.allReads ∧ s'.maxfd = s.maxfd ∧
      ∃ readyReads nready, s'.pc = .listen readyReads nready ∧
        ∀ fd, readyReads fd = true → s.allReads fd = true ∧ w.readable fd = true := by
  have hopen : ¬ ∃ fd ∈ members s.allReads s.maxfd, w.isOpen fd = false := by
    rintro ⟨fd, hfd, hclosed⟩
    simp only [World.isOpen, decide_eq_false_iff_not, not_or] at hclosed
    rcases (h.watched fd).1 (mem_members.1 hfd).2 with rfl | htable
    · exact hclosed.1 hw.listen
    · exact hclosed.2 htable
  simp only [State.select, if_neg hopen] at hs
  split at hs
  · cases hs
  · cases hs
    refine ⟨rfl, rfl, _, _, rfl, fun fd hfd => ?_⟩
    simp only [Bool.and_eq_true] at hfd
    exact ⟨hfd.1.2, hfd.2⟩

/-- A `select` that blocks has found no member that is readable. -/
theorem select_blocks {w : World} {s : State} {listenfd : Nat} (h : Own listenfd s) (hs : s.select w = none) {fd : Nat}
    (hfd : s.allReads fd = true) : w.readable fd = false := by
  simp only [State.select] at hs
  split at hs
  · cases hs
  · split at hs
    · rename_i hnready
      rw [List.length_eq_zero_iff, List.eq_nil_iff_forall_not_mem] at hnready
      have hnot := hnready fd
      rw [mem_members] at hnot
      have hbound := h.bound fd hfd
      simpa [hbound, hfd] using hnot
    · cases hs

theorem listened_cases (s : State) (readyReads : FdSet) (nready : Nat) :
    (s.listened readyReads nready).allReads = s.allReads ∧ (s.listened readyReads nready).maxfd = s.maxfd ∧
      (s.listened readyReads nready).pc.echoing = none ∧ (s.listened readyReads nready).pc ≠ .stopped ∧
      ∀ fd, (s.listened readyReads nready).pc.todo fd → readyReads fd = true := by
  unfold State.listened
  split
  · exact ⟨rfl, rfl, rfl, by simp, fun fd hfd => hfd.elim⟩
  · exact ⟨rfl, rfl, rfl, by simp, fun fd hfd => hfd.2⟩

/-- `main` goes on with the same sets. -/
theorem Inv.next {w : World} {s : State} (h : server.Inv Own w s) {pc : Pc} (htodo : ∀ fd, pc.todo fd → s.pc.todo fd)
    (htarget : ∀ fd, pc.echoing = some fd → fd ≠ w.listenfd ∧ s.pc.todo fd ∧ ¬ pc.todo fd) (hpc : pc ≠ .stopped) :
    server.Inv Own w { s with pc := pc } ∧
      ∀ fd, pc.echoing = some fd → w.readable fd = true :=
  Program.Inv.next h (h.own.pc rfl rfl) (fun _ => Iff.rfl) htodo htarget hpc

theorem accept_step {w w' : World} {s s' : State} {connfd : Option Nat} {added : Bool} (hw : w.Ok)
    (hhand : w.hand = none) (h : server.Inv Own w s) (hok : server.ok (w, s) (.accept connfd added))
    (hs : main s w (.accept connfd added) = some (w', s')) :
    (w' = w ∨ ∃ fd, w.accept fd = some w') ∧ server.Inv Own w' s' ∧ s'.pc.echoing = none := by
  simp only [main] at hs
  split at hs
  · rename_i readyReads nready hpc
    split at hs
    · have htodo : ∀ fd, readyReads fd = true → s.pc.todo fd := fun fd hfd => by
        rw [hpc]
        exact hfd
      split at hs
      · obtain ⟨rfl, rfl⟩ := Prod.mk.inj (Option.some.inj hs)
        obtain ⟨hreads, hmax, hout, hrun, hsub⟩ := listened_cases s readyReads nready
        refine ⟨.inl rfl, ?_, hout⟩
        refine (Program.Inv.next h (h.own.pc hreads hmax) (fun fd => ?_) (fun fd hfd => htodo fd (hsub fd hfd))
          (fun fd hfd => ?_) hrun).1
        · simp only [server, hreads]
        · simp only [server, hout] at hfd
          cases hfd
      · rename_i fd
        have hfd : fd < FD_SETSIZE := hok.2
        obtain ⟨w₁, haccept, hpair⟩ := Option.map_eq_some_iff.1 hs
        rw [if_neg (by omega)] at hpair
        obtain ⟨rfl, rfl⟩ := Prod.mk.inj hpair
        obtain ⟨-, hacc, -⟩ := World.accept_ok hw hhand haccept
        obtain ⟨hreads, hmax, hout, hrun, hsub⟩ := listened_cases (s.accepted fd) readyReads nready
        refine ⟨.inr ⟨fd, haccept⟩, ?_, hout⟩
        refine Program.Inv.accepted h hacc ((h.own.accepted hfd).pc hreads hmax) (fun fd' => ?_)
          (fun fd' hfd' => htodo fd' (hsub fd' hfd')) hout hrun
        simp only [server]
        rw [hreads, State.accepted]
        by_cases heq : fd' = fd
        · simp [heq]
        · simp [heq]
    · cases hs
  · cases hs

theorem go_step {w w' : World} {s s' : State} (h : server.Inv Own w s) (hs : main s w .go = some (w', s')) :
    w' = w ∧ server.Inv Own w s' ∧ ∀ fd, s'.pc.echoing = some fd → w.readable fd = true := by
  simp only [main] at hs
  split at hs
  · rename_i readyReads nready hpc
    split at hs
    · cases hs
    · obtain ⟨rfl, rfl⟩ := Prod.mk.inj (Option.some.inj hs)
      refine ⟨rfl, Inv.next h (fun fd hfd => ?_) (fun fd hfd => by cases hfd) (by simp)⟩
      rw [hpc]
      exact hfd.2
  · rename_i i readyReads nready hpc
    split at hs
    · split at hs
      · obtain ⟨rfl, rfl⟩ := Prod.mk.inj (Option.some.inj hs)
        refine ⟨rfl, Inv.next h (fun fd hfd => ?_) (fun fd hfd => by cases hfd) (by simp)⟩
        rw [hpc]
        exact ⟨Nat.le_of_succ_le hfd.1, hfd.2⟩
      · rename_i hready
        obtain ⟨rfl, rfl⟩ := Prod.mk.inj (Option.some.inj hs)
        obtain ⟨hne, hin⟩ : i ≠ w.listenfd ∧ readyReads i = true := by simpa using hready
        refine ⟨rfl, Inv.next h (fun fd hfd => ?_) (fun fd hfd => ?_) (by simp)⟩
        · rw [hpc]
          exact ⟨Nat.le_of_lt hfd.1, hfd.2⟩
        · obtain rfl : i = fd := Option.some.inj hfd
          refine ⟨hne, ?_, fun htodo => Nat.lt_irrefl _ htodo.1⟩
          rw [hpc]
          exact ⟨Nat.le_refl _, hin⟩
    · obtain ⟨rfl, rfl⟩ := Prod.mk.inj (Option.some.inj hs)
      exact ⟨rfl, Inv.next h (fun fd hfd => hfd.elim) (fun fd hfd => by cases hfd) (by simp)⟩
  · cases hs

theorem verified : server.Verified Own where
  main := by
    intro w w' s s' l hw hhand h hout hok hs
    cases l with
    | client _ | read _ | write _ => cases hs
    | waitError => exact hok.1.elim
    | interrupted =>
      simp only [server, main] at hs
      split at hs <;> cases hs
      exact ⟨.inl rfl, h, server.not_echoing hout⟩
    | ready hup err batch =>
      simp only [server, main] at hs
      split at hs
      · obtain ⟨s₁, hselect, hpair⟩ := Option.map_eq_some_iff.1 hs
        obtain ⟨rfl, rfl⟩ := Prod.mk.inj hpair
        obtain ⟨hreads, hmax, readyReads, nready, hpc, hready⟩ := select_spec hw h hselect
        have hout' : s₁.pc.echoing = none := by rw [hpc]; rfl
        refine ⟨.inl rfl, Program.Inv.waited h (h.own.pc hreads hmax) (fun fd => ?_) (fun fd hfd => ?_) hout' ?_,
          server.not_echoing hout'⟩
        · simp only [server, hreads]
        · simp only [server, hpc] at hfd
          exact hready fd hfd
        · simp [server, hpc]
      · cases hs
    | accept connfd added =>
      obtain ⟨hdone, hinv, hout'⟩ := accept_step hw hhand h hok hs
      exact ⟨hdone, hinv, server.not_echoing hout'⟩
    | go =>
      obtain ⟨rfl, hinv, hready⟩ := go_step h hs
      exact ⟨.inl rfl, hinv, hready⟩
  idle := by
    intro w s h hwait
    have hpc : s.pc = .select := hwait
    refine ⟨by simp [server, hpc, Pc.echoing], fun hblock fd hfd => select_blocks h.own ?_ hfd⟩
    simpa [server, main, hpc] using hblock [] [] []
  kept := by
    intro w s fd h hfd
    cases hpc : s.pc with
    | echo i readyReads nready =>
      have hret : server.returned s w true = (w, { s with pc := .scan (i + 1) readyReads nready }) := by
        simp [server, returned, hpc]
      rw [hret]
      refine ⟨rfl, (Inv.next h (fun fd' hfd' => ?_) (fun fd' hfd' => by cases hfd') (by simp)).1, rfl⟩
      rw [hpc]
      exact ⟨hfd'.1, hfd'.2⟩
    | select | listen _ _ | scan _ _ _ | stopped => simp [server, hpc, Pc.echoing] at hfd
  closed := by
    intro w s fd hw h hfd
    cases hpc : s.pc with
    | echo i readyReads nready =>
      obtain rfl : i = fd := by simpa [server, hpc, Pc.echoing] using hfd
      have hne : i ≠ w.listenfd := (h.target i hfd).1
      simp only [server, returned, hpc, Bool.false_eq_true, if_false]
      refine ⟨trivial, Program.Inv.close h hfd (w.close_closed hw i) (h.own.closed hne _) (fun fd' => ?_)
        (fun fd' hfd' => ?_) rfl (by simp), rfl⟩
      · by_cases heq : fd' = i
        · simp [heq]
        · simp [heq]
      · simp only [hpc]
        exact ⟨hfd'.1, hfd'.2⟩
    | select | listen _ _ | scan _ _ _ | stopped => simp [server, hpc, Pc.echoing] at hfd

theorem start_inv {listenfd : Nat} (others : List Nat) {s : State} (hs : start listenfd = some s) :
    server.Inv Own (World.start listenfd others) s ∧ server.echoing s = none := by
  simp only [start] at hs
  split at hs
  · cases hs
  · rename_i hlt
    cases hs
    have hmem : ∀ fd, Function.update (fun _ => false) listenfd true fd = true ↔ fd = listenfd := by
      intro fd
      by_cases heq : fd = listenfd
      · simp [heq]
      · simp [heq]
    refine ⟨⟨⟨(hmem _).2 rfl, fun fd hfd => ?_, fun fd hfd => ?_, listenfd, rfl, (hmem _).2 rfl⟩, fun fd => ?_,
      fun fd hfd => hfd.elim, (fun fd hfd => by cases hfd), (by simp [server])⟩, rfl⟩
    · rw [(hmem fd).1 hfd]
      omega
    · rw [(hmem fd).1 hfd]
    · exact (hmem fd).trans (by simp [World.start])

end ComputerSystem.MuxEcho.Select
