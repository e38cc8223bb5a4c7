import ComputerSystem.Lib.SwapRemove
import ComputerSystem.MuxEcho.Server
/-!
# `poll_echo_server.c`

| here                     | there                                                              |
|--------------------------|--------------------------------------------------------------------|
| `Revents`, `PollFd`      | `struct pollfd`; `events` is `POLLIN` in every entry                 |
| `State.fds`              | `fds[0 .. nfds)`                                                     |
| `removePollfd`           | `remove_pollfd` (`:53`), without its `close`                         |
| `addClient`              | `add_client` (`:59`)                                                 |
| `Pc.listen`              | `:104`, with `nready`                                                |
| `Pc.scan`, `Pc.echo`     | the loop of `:128` at its head, and inside of `echo_once(fds[i].fd)` |
| `State.handled`          | `:143-152`                                                           |
-/

namespace ComputerSystem.MuxEcho.Poll

def MAX_CLIENTS : Nat := 1024

structure Revents where
  pollin   : Bool
  pollhup  : Bool
  pollerr  : Bool
  pollnval : Bool
deriving DecidableEq

def Revents.zero : Revents := ⟨false, false, false, false⟩

/-- `revents != 0`. -/
def Revents.nonzero (r : Revents) : Bool := r.pollin || r.pollhup || r.pollerr || r.pollnval

structure PollFd where
  fd      : Nat
  revents : Revents
deriving DecidableEq

inductive Pc
  | poll
  | listen (nready : Nat)
  | scan (i nready : Nat)
  | echo (i nready : Nat)
  | stopped

structure State where
  fds : List PollFd
  pc  : Pc

/-- What `poll` reports of a descriptor: a hang-up of a connection whose client has shut down, an error,
or that it is not open. -/
def revents (w : World) (hup err : List Nat) (fd : Nat) : Revents where
  pollin   := w.readable fd
  pollhup  := hup.contains fd && w.fin fd
  pollerr  := err.contains fd
  pollnval := !w.isOpen fd

/-- `poll(fds, nfds, -1)` (`:94`): without an entry that is ready the call blocks. -/
def State.poll (s : State) (w : World) (hup err : List Nat) : Option State :=
  let fds := s.fds.map fun e => { e with revents := revents w hup err e.fd }
  let nready := (fds.filter fun e => e.revents.nonzero).length
  if nready = 0 then none else some ⟨fds, .listen nready⟩

def removePollfd (fds : List PollFd) (i : Nat) : List PollFd := swapRemove fds i

def addClient (fds : List PollFd) (connfd : Nat) : List PollFd := fds ++ [⟨connfd, .zero⟩]

/-- `fds[0].revents`. -/
def State.listener (s : State) : Revents := (s.fds.head?.map PollFd.revents).getD .zero

/-- `if (--nready == 0) continue;` (`:123`). -/
def State.listened (s : State) (nready : Nat) : State :=
  if nready - 1 = 0 then { s with pc := .poll } else { s with pc := .scan 1 (nready - 1) }

/-- The end of the loop's body: an entry that is removed leaves its place to the last one, and the loop
stays there. -/
def State.handled (s : State) (w : World) (i nready : Nat) (closeIt : Bool) : World × State :=
  match s.fds[i]? with
  | none => (w, s)
  | some e =>
    if closeIt || e.revents.pollerr || e.revents.pollnval then
      (w.close e.fd, ⟨removePollfd s.fds i, .scan i nready⟩)
    else (w, { s with pc := .scan (i + 1) nready })

def main (s : State) (w : World) : Label → Option (World × State)
  | .interrupted =>
    match s.pc with
    | .poll => some (w, s)
    | _ => none
  | .waitError =>
    match s.pc with
    | .poll => some (w, { s with pc := .stopped })
    | _ => none
  | .ready hup err _ =>
    match s.pc with
    | .poll => (s.poll w hup err).map fun s => (w, s)
    | _ => none
  | .accept connfd _ =>
    match s.pc with
    | .listen nready =>
      if s.listener.pollin = true then
        match connfd with
        | none => some (w, s.listened nready)
        | some fd =>
          (w.accept fd).map fun w =>
            if MAX_CLIENTS + 1 ≤ s.fds.length then (w.close fd, s.listened nready)
            else (w, State.listened { s with fds := addClient s.fds fd } nready)
      else none
    | _ => none
  | .go =>
    match s.pc with
    | .listen nready =>
      if s.listener.pollin = true then none
      else if s.listener.nonzero = true then some (w, s.listened nready)
      else some (w, { s with pc := .scan 1 nready })
    | .scan i nready =>
      if 0 < nready then
        match s.fds[i]? with
        | some e =>
          if e.revents.nonzero = false then some (w, { s with pc := .scan (i + 1) nready })
          else if e.revents.pollin || e.revents.pollhup then some (w, { s with pc := .echo i (nready - 1) })
          else some (s.handled w i (nready - 1) false)
        | none => some (w, { s with pc := .poll })
      else some (w, { s with pc := .poll })
    | _ => none
  | _ => none

def returned (s : State) (w : World) (ok : Bool) : World × State :=
  match s.pc with
  | .echo i nready => s.handled w i nready (!ok)
  | _ => (w, s)

def State.echoing (s : State) : Option Nat :=
  match s.pc with
  | .echo i _ => s.fds[i]?.map PollFd.fd
  | _ => none

/-- The entries that the loop has still to look at. -/
def State.rest (s : State) : List PollFd :=
  match s.pc with
  | .listen _ => s.fds
  | .scan i _ => s.fds.drop i
  | .echo i _ => s.fds.drop (i + 1)
  | .poll | .stopped => []

def server : Program State where
  main     := main
  echoing  := State.echoing
  returned := returned
  watched  := fun s fd => fd ∈ s.fds.map PollFd.fd
  todo     := fun s fd => ∃ e ∈ s.rest, e.fd = fd ∧ e.revents.nonzero = true
  waiting  := fun s => s.pc = .poll
  stopped  := fun s => s.pc = .stopped
  limits   := fun s _ => s.fds.length < MAX_CLIENTS + 1

instance (s : State) (fd : Nat) : Decidable (server.limits s fd) := inferInstanceAs (Decidable (_ < _))

/-- `main` up to its loop (`:87-91`). -/
def start (listenfd : Nat) : State := ⟨[⟨listenfd, .zero⟩], .poll⟩

/-! ## The array -/

/-- The loop of `:128` does not look at `fds[0]`. -/
def Pc.place : Pc → Prop
  | .scan i _ | .echo i _ => 1 ≤ i
  | .poll | .listen _ | .stopped => True

structure Own (listenfd : Nat) (s : State) : Prop where
  head  : (s.fds.map PollFd.fd).head? = some listenfd
  nodup : (s.fds.map PollFd.fd).Nodup
  size  : s.fds.length ≤ MAX_CLIENTS + 1
  fine  : ∀ e ∈ s.fds, e.revents.pollerr = false ∧ e.revents.pollnval = false
  place : s.pc.place

theorem Own.pc {listenfd : Nat} {s s' : State} (h : Own listenfd s) (hfds : s'.fds = s.fds)
    (hplace : s'.pc.place) : Own listenfd s' := by
  refine ⟨?_, ?_, ?_, ?_, hplace⟩
  · rw [hfds]
    exact h.head
  · rw [hfds]
    exact h.nodup
  · rw [hfds]
    exact h.size
  · rw [hfds]
    exact h.fine

theorem Own.addClient {listenfd fd : Nat} {s : State} (h : Own listenfd s) (hfd : fd ∉ s.fds.map PollFd.fd)
    (hroom : s.fds.length < MAX_CLIENTS + 1) (hpc : ∃ nready, s.pc = .listen nready) :
    Own listenfd { s with fds := addClient s.fds fd } := by
  refine ⟨?_, ?_, ?_, ?_, ?_⟩
  · simp only [Poll.addClient, List.map_append, List.head?_append, h.head]
    rfl
  · simp only [Poll.addClient, List.map_append, List.map_cons, List.map_nil]
    exact List.nodup_append.2 ⟨h.nodup, by simp, fun a ha b hb heq => hfd (by simp_all)⟩
  · simp only [Poll.addClient, List.length_append, List.length_singleton]
    omega
  · intro e he
    rcases List.mem_append.1 he with he | he
    · exact h.fine e he
    · rw [List.mem_singleton.1 he]
      exact ⟨rfl, rfl⟩
  · obtain ⟨nready, hpc⟩ := hpc
    rw [hpc]
    trivial

/-- An entry that the loop looks at is not the listener, and not among those behind it. -/
theorem Own.entry {listenfd i : Nat} {s : State} {e : PollFd} (h : Own listenfd s) (hi : 1 ≤ i)
    (he : s.fds[i]? = some e) : e.fd ≠ listenfd ∧ ∀ e' ∈ s.fds.drop (i + 1), e'.fd ≠ e.fd := by
  obtain ⟨hlt, rfl⟩ := List.getElem?_eq_some_iff.1 he
  constructor
  · obtain ⟨first, rest, hcons⟩ := List.exists_cons_of_ne_nil (List.ne_nil_of_length_pos (by omega : 0 < s.fds.length))
    have hhead := h.head
    have hnodup := h.nodup
    simp only [hcons, List.map_cons, List.head?_cons, Option.some.injEq, List.nodup_cons] at hhead hnodup
    intro heq
    refine hnodup.1 (hhead ▸ heq ▸ List.mem_map_of_mem ?_)
    obtain ⟨j, rfl⟩ : ∃ j, i = j + 1 := ⟨i - 1, by omega⟩
    simp only [hcons, List.getElem_cons_succ]
    exact List.getElem_mem _
  · intro e' he' heq
    have hnodup : ((s.fds.drop i).map PollFd.fd).Nodup := h.nodup.sublist ((List.drop_sublist i s.fds).map _)
    rw [List.drop_eq_getElem_cons hlt, List.map_cons, List.nodup_cons] at hnodup
    exact hnodup.1 (heq ▸ List.mem_map_of_mem he')

/-- The descriptors after a removal. -/
theorem Own.mem_removePollfd {listenfd i : Nat} {s : State} {e : PollFd} (h : Own listenfd s)
    (he : s.fds[i]? = some e) (fd : Nat) :
    fd ∈ (removePollfd s.fds i).map PollFd.fd ↔ fd ≠ e.fd ∧ fd ∈ s.fds.map PollFd.fd := by
  obtain ⟨hlt, rfl⟩ := List.getElem?_eq_some_iff.1 he
  have hperm := (cons_swapRemove_perm hlt).map PollFd.fd
  have hnodup := hperm.nodup_iff.2 h.nodup
  rw [List.map_cons, List.nodup_cons] at hnodup
  rw [← hperm.mem_iff, List.map_cons, List.mem_cons]
  constructor
  · intro hfd
    refine ⟨?_, .inr hfd⟩
    rintro rfl
    exact hnodup.1 hfd
  · rintro ⟨hne, hfd⟩
    exact hfd.resolve_left hne

theorem Own.removePollfd {listenfd i nready : Nat} {s : State} {e : PollFd} (h : Own listenfd s) (hi : 1 ≤ i)
    (he : s.fds[i]? = some e) : Own listenfd ⟨removePollfd s.fds i, .scan i nready⟩ := by
  obtain ⟨hlt, rfl⟩ := List.getElem?_eq_some_iff.1 he
  have hperm := cons_swapRemove_perm hlt
  refine ⟨?_, ?_, ?_, ?_, hi⟩
  · have htake := congrArg List.head? (congrArg (List.map PollFd.fd) (take_swapRemove hlt))
    have hne : i ≠ 0 := by omega
    simp only [List.map_take, List.head?_take, if_neg hne] at htake
    exact htake.trans h.head
  · have hnodup := (hperm.map PollFd.fd).nodup_iff.2 h.nodup
    exact (List.nodup_cons.1 hnodup).2
  · have := length_swapRemove hlt
    have := h.size
    simp only [Poll.removePollfd]
    omega
  · exact fun e' he' => h.fine e' (hperm.subset (List.mem_cons_of_mem _ he'))

/-! ## The loop -/

theorem revents_spec {w : World} (hw : w.Ok) {hup : List Nat} {fd : Nat}
    (hfd : fd = w.listenfd ∨ w.table fd ≠ none) :
    (revents w hup [] fd).pollerr = false ∧ (revents w hup [] fd).pollnval = false ∧
      ((revents w hup [] fd).nonzero = true → w.readable fd = true) := by
  have hopen : w.isOpen fd = true := by
    rcases hfd with rfl | htable
    · simp [World.isOpen, hw.listen]
    · simp [World.isOpen, htable]
  refine ⟨rfl, by simp [revents, hopen], fun hnz => ?_⟩
  simp only [Revents.nonzero, revents, hopen, List.contains_nil, Bool.not_true, Bool.or_false,
    Bool.or_eq_true, Bool.and_eq_true] at hnz
  rcases hnz with hr | ⟨-, hfin⟩
  · exact hr
  · exact World.readable_fin hw hfin

theorem poll_spec {w : World} {s s' : State} {hup : List Nat} (hw : w.Ok) (h : server.Inv Own w s)
    (hs : s.poll w hup [] = some s') :
    s'.fds.map PollFd.fd = s.fds.map PollFd.fd ∧ (∃ nready, s'.pc = .listen nready) ∧
      ∀ e ∈ s'.fds, e.revents.pollerr = false ∧ e.revents.pollnval = false ∧
        (e.revents.nonzero = true → w.readable e.fd = true) := by
  simp only [State.poll] at hs
  split at hs
  · cases hs
  · cases hs
    refine ⟨by simp, ⟨_, rfl⟩, fun e he => ?_⟩
    obtain ⟨e₀, he₀, rfl⟩ := List.mem_map.1 he
    exact revents_spec hw ((h.watched e₀.fd).1 (List.mem_map_of_mem he₀))

/-- A `poll` that blocks has found no entry that is readable. -/
theorem poll_blocks {w : World} {s : State} {hup err : List Nat} (hs : s.poll w hup err = none) {fd : Nat}
    (hfd : fd ∈ s.fds.map PollFd.fd) : w.readable fd = false := by
  obtain ⟨e, he, rfl⟩ := List.mem_map.1 hfd
  simp only [State.poll] at hs
  split at hs
  · rename_i hnready
    rw [List.length_eq_zero_iff, List.filter_eq_nil_iff] at hnready
    have hnot := hnready _ (List.mem_map_of_mem he)
    simp only [Revents.nonzero, revents, Bool.not_eq_true, Bool.or_eq_false_iff] at hnot
    exact hnot.1.1.1
  · cases hs

theorem listened_cases (s : State) (nready : Nat) :
    (s.listened nready).fds = s.fds ∧ (s.listened nready).echoing = none ∧ (s.listened nready).pc ≠ .stopped ∧
      (s.listened nready).pc.place ∧
      ∀ e ∈ (s.listened nready).rest, e ∈ s.fds := by
  unfold State.listened
  split
  · exact ⟨rfl, rfl, by simp, trivial, fun e he => by cases he⟩
  · exact ⟨rfl, rfl, by simp, Nat.le_refl 1, fun e he => List.mem_of_mem_drop he⟩

/-- `main` goes on over the same array. -/
theorem Inv.next {w : World} {s s' : State} (h : server.Inv Own w s) (hfds : s'.fds = s.fds)
    (hplace : s'.pc.place) (hrest : ∀ e ∈ s'.rest, e ∈ s.rest)
    (htarget : ∀ fd, s'.echoing = some fd →
      fd ≠ w.listenfd ∧ server.todo s fd ∧ ∀ e ∈ s'.rest, e.fd ≠ fd) (hpc : s'.pc ≠ .stopped) :
    server.Inv Own w s' ∧ ∀ fd, s'.echoing = some fd → w.readable fd = true := by
  refine Program.Inv.next h (h.own.pc hfds hplace) (fun fd => ?_) (fun fd hfd => ?_) (fun fd hfd => ?_) hpc
  · simp only [server, hfds]
  · obtain ⟨e, he, hfd, hnz⟩ := hfd
    exact ⟨e, hrest e he, hfd, hnz⟩
  · obtain ⟨hl, htodo, hnot⟩ := htarget fd hfd
    exact ⟨hl, htodo, fun ⟨e, he, heq, _⟩ => hnot e he heq⟩

theorem accept_step {w w' : World} {s s' : State} {connfd : Option Nat} {added : Bool} (hw : w.Ok)
    (hhand : w.hand = none) (h : server.Inv Own w s) (hok : server.ok (w, s) (.accept connfd added))
    (hs : main s w (.accept connfd added) = some (w', s')) :
    (w' = w ∨ ∃ fd, w.accept fd = some w') ∧ server.Inv Own w' s' ∧ s'.echoing = none := by
  simp only [main] at hs
  split at hs
  · rename_i nready hpc
    have hrest : s.rest = s.fds := by simp only [State.rest, hpc]
    split at hs
    · split at hs
      · obtain ⟨rfl, rfl⟩ := Prod.mk.inj (Option.some.inj hs)
        obtain ⟨hfds, hout, hrun, hplace, hsub⟩ := listened_cases s nready
        refine ⟨.inl rfl, (Inv.next h hfds hplace (fun e he => hrest ▸ hsub e he) (fun fd hfd => ?_) hrun).1, hout⟩
        rw [hout] at hfd
        cases hfd
      · rename_i fd
        have hroom : s.fds.length < MAX_CLIENTS + 1 := hok.2
        obtain ⟨w₁, haccept, hpair⟩ := Option.map_eq_some_iff.1 hs
        rw [if_neg (by omega)] at hpair
        obtain ⟨rfl, rfl⟩ := Prod.mk.inj hpair
        obtain ⟨-, hacc, -⟩ := World.accept_ok hw hhand haccept
        have hfree : fd ∉ s.fds.map PollFd.fd := fun hin => by
          rcases (h.watched fd).1 hin with hl | htable
          · exact hacc.other hl
          · exact htable hacc.free
        obtain ⟨hfds, hout, hrun, hplace, hsub⟩ := listened_cases { s with fds := addClient s.fds fd } nready
        refine ⟨.inr ⟨fd, haccept⟩, ?_, hout⟩
        refine Program.Inv.accepted h hacc ((h.own.addClient hfree hroom ⟨nready, hpc⟩).pc hfds hplace)
          (fun fd' => ?_) (fun fd' hfd' => ?_) hout hrun
        · simp only [server]
          rw [hfds]
          simp [addClient, or_comm]
        · obtain ⟨e, he, heq, hnz⟩ := hfd'
          rcases List.mem_append.1 (hsub e he) with he | he
          · exact ⟨e, hrest ▸ he, heq, hnz⟩
          · rw [List.mem_singleton.1 he] at hnz
            cases hnz
    · cases hs
  · cases hs

theorem go_step {w w' : World} {s s' : State} (h : server.Inv Own w s) (hs : main s w .go = some (w', s')) :
    w' = w ∧ server.Inv Own w s' ∧ ∀ fd, s'.echoing = some fd → w.readable fd = true := by
  simp only [main] at hs
  split at hs
  · rename_i nready hpc
    have hrest : s.rest = s.fds := by simp only [State.rest, hpc]
    split at hs
    · cases hs
    · split at hs
      · obtain ⟨rfl, rfl⟩ := Prod.mk.inj (Option.some.inj hs)
        obtain ⟨hfds, hout, hrun, hplace, hsub⟩ := listened_cases s nready
        refine ⟨rfl, Inv.next h hfds hplace (fun e he => hrest ▸ hsub e he) (fun fd hfd => ?_) hrun⟩
        rw [hout] at hfd
        cases hfd
      · obtain ⟨rfl, rfl⟩ := Prod.mk.inj (Option.some.inj hs)
        exact ⟨rfl, Inv.next h rfl (Nat.le_refl 1) (fun e he => hrest ▸ List.mem_of_mem_drop he)
          (fun fd hfd => by cases hfd) (by simp)⟩
  · rename_i i nready hpc
    have hi : 1 ≤ i := by simpa only [hpc, Pc.place] using h.own.place
    have hrest : s.rest = s.fds.drop i := by simp only [State.rest, hpc]
    split at hs
    · split at hs
      · rename_i e he
        obtain ⟨hlt, hget⟩ := List.getElem?_eq_some_iff.1 he
        have hdrop : s.fds.drop i = e :: s.fds.drop (i + 1) := by rw [List.drop_eq_getElem_cons hlt, hget]
        split at hs
        · obtain ⟨rfl, rfl⟩ := Prod.mk.inj (Option.some.inj hs)
          refine ⟨rfl, Inv.next h rfl (Nat.le_succ_of_le hi) (fun e' he' => ?_) (fun fd hfd => ?_) (by simp)⟩
          · rw [hrest, hdrop]
            exact List.mem_cons_of_mem _ he'
          · cases hfd
        · rename_i hnz
          split at hs
          · obtain ⟨rfl, rfl⟩ := Prod.mk.inj (Option.some.inj hs)
            obtain ⟨hl, hbehind⟩ := h.own.entry hi he
            refine ⟨rfl, Inv.next h rfl hi (fun e' he' => ?_) (fun fd hfd => ?_) (by simp)⟩
            · rw [hrest, hdrop]
              exact List.mem_cons_of_mem _ he'
            · obtain rfl : e.fd = fd := by simpa [State.echoing, he] using hfd
              refine ⟨hl, ⟨e, ?_, rfl, by simpa using hnz⟩, hbehind⟩
              rw [hrest, hdrop]
              exact List.mem_cons_self ..
          · rename_i hnone
            obtain ⟨herr, hnval⟩ := h.own.fine e (List.mem_of_getElem? he)
            simp [Revents.nonzero, herr, hnval] at hnz hnone
            simp [hnone] at hnz
      · obtain ⟨rfl, rfl⟩ := Prod.mk.inj (Option.some.inj hs)
        exact ⟨rfl, Inv.next h rfl trivial (fun e he => by cases he) (fun fd hfd => by cases hfd) (by simp)⟩
    · obtain ⟨rfl, rfl⟩ := Prod.mk.inj (Option.some.inj hs)
      exact ⟨rfl, Inv.next h rfl trivial (fun e he => by cases he) (fun fd hfd => by cases hfd) (by simp)⟩
  · cases hs

/-- After `echo_once`: without an error of the descriptor its value alone decides. -/
theorem handled_echo {w : World} {s : State} {i nready fd : Nat} (h : server.Inv Own w s)
    (hpc : s.pc = .echo i nready) (hfd : s.echoing = some fd) :
    ∃ e, s.fds[i]? = some e ∧ e.fd = fd ∧
      s.handled w i nready false = (w, { s with pc := .scan (i + 1) nready }) ∧
      s.handled w i nready true = (w.close fd, ⟨removePollfd s.fds i, .scan i nready⟩) := by
  simp only [State.echoing, hpc] at hfd
  obtain ⟨e, he, rfl⟩ := Option.map_eq_some_iff.1 hfd
  obtain ⟨herr, hnval⟩ := h.own.fine e (List.mem_of_getElem? he)
  refine ⟨e, he, rfl, ?_, ?_⟩
  · simp [State.handled, he, herr, hnval]
  · simp [State.handled, he]

theorem verified : server.Verified Own where
  main := by
    intro w w' s s' l hw hhand h hout hok hs
    cases l with
    | client _ | read _ | write _ => cases hs
    | waitError => exact hok.1.elim
    | interrupted =>
      simp only [server, main] at hs
      split at hs <;> cases hs
      exact ⟨.inl rfl, h, server.not_echoing hout⟩
    | ready hup err batch =>
      simp only [server, main] at hs
      split at hs
      · obtain rfl : err = [] := hok.1
        obtain ⟨s₁, hpoll, hpair⟩ := Option.map_eq_some_iff.1 hs
        obtain ⟨rfl, rfl⟩ := Prod.mk.inj hpair
        obtain ⟨hfds, ⟨nready, hpc⟩, hrev⟩ := poll_spec hw h hpoll
        have hout' : s₁.echoing = none := by simp only [State.echoing, hpc]
        have hown : Own w.listenfd s₁ := by
          refine ⟨?_, ?_, ?_, fun e he => ⟨(hrev e he).1, (hrev e he).2.1⟩, by rw [hpc]; trivial⟩
          · rw [hfds]
            exact h.own.head
          · rw [hfds]
            exact h.own.nodup
          · have := congrArg List.length hfds
            have := h.own.size
            simp only [List.length_map] at *
            omega
        refine ⟨.inl rfl, Program.Inv.waited h hown (fun fd => ?_) (fun fd hfd => ?_) hout' ?_,
          server.not_echoing hout'⟩
        · simp only [server, hfds]
        · obtain ⟨e, he, rfl, hnz⟩ := hfd
          simp only [State.rest, hpc] at he
          refine ⟨?_, (hrev e he).2.2 hnz⟩
          simp only [server, ← hfds]
          exact List.mem_map_of_mem he
        · simp [server, hpc]
      · cases hs
    | accept connfd added =>
      obtain ⟨hdone, hinv, hout'⟩ := accept_step hw hhand h hok hs
      exact ⟨hdone, hinv, server.not_echoing hout'⟩
    | go =>
      obtain ⟨rfl, hinv, hready⟩ := go_step h hs
      exact ⟨.inl rfl, hinv, hready⟩
  idle := by
    intro w s h hwait
    have hpc : s.pc = .poll := hwait
    refine ⟨by simp [server, hpc, State.echoing], fun hblock fd hfd => ?_⟩
    have hnone : s.poll w [] [] = none := by simpa [server, main, hpc] using hblock [] [] []
    exact poll_blocks hnone hfd
  kept := by
    intro w s fd h hfd
    cases hpc : s.pc with
    | echo i nready =>
      obtain ⟨e, he, rfl, hkept, -⟩ := handled_echo h hpc hfd
      have hret : server.returned s w true = (w, { s with pc := .scan (i + 1) nready }) := by
        simp only [server, returned, hpc, Bool.not_true, hkept]
      have hinv : server.Inv Own w { s with pc := .scan (i + 1) nready } := by
        have hi : 1 ≤ i := by simpa only [hpc, Pc.place] using h.own.place
        refine And.left (Inv.next h rfl (Nat.le_succ_of_le hi) (fun e' he' => ?_) (fun fd hfd => by cases hfd) (by simp))
        simpa only [State.rest, hpc] using he'
      rw [hret]
      exact ⟨rfl, hinv, rfl⟩
    | poll | listen _ | scan _ _ | stopped => simp [server, State.echoing, hpc] at hfd
  closed := by
    intro w s fd hw h hfd
    cases hpc : s.pc with
    | echo i nready =>
      obtain ⟨e, he, rfl, -, hclose⟩ := handled_echo h hpc hfd
      have hi : 1 ≤ i := by simpa only [hpc, Pc.place] using h.own.place
      simp only [server, returned, hpc, Bool.not_false, hclose]
      refine ⟨trivial, Program.Inv.close h hfd (w.close_closed hw e.fd) (h.own.removePollfd hi he)
        (fun fd' => h.own.mem_removePollfd he fd') (fun fd' hfd' => ?_) rfl (by simp), rfl⟩
      obtain ⟨e', he', heq, hnz⟩ := hfd'
      refine ⟨e', ?_, heq, hnz⟩
      simp only [State.rest, hpc]
      exact (drop_swapRemove (List.getElem?_eq_some_iff.1 he).1).subset he'
    | poll | listen _ | scan _ _ | stopped => simp [server, State.echoing, hpc] at hfd

theorem start_inv (listenfd : Nat) (others : List Nat) :
    server.Inv Own (World.start listenfd others) (start listenfd) ∧ server.echoing (start listenfd) = none := by
  refine ⟨⟨⟨rfl, by simp [start], by simp [start, MAX_CLIENTS], fun e he => ?_, trivial⟩, fun fd => ?_,
    fun fd hfd => ?_, (fun fd hfd => by cases hfd), (by simp [server, start])⟩, rfl⟩
  · rw [List.mem_singleton.1 he]
    exact ⟨rfl, rfl⟩
  · have hmem : fd ∈ [listenfd] ↔ fd = listenfd := List.mem_singleton
    exact hmem.trans (by simp [World.start])
  · obtain ⟨e, he, -⟩ := hfd
    cases he

end ComputerSystem.MuxEcho.Poll
