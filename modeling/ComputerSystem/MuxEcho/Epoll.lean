import Mathlib.Data.List.Dedup
import ComputerSystem.MuxEcho.Server
/-!
# `epoll_echo_server.c`

| here                     | there                                                              |
|--------------------------|--------------------------------------------------------------------|
| `Event`                  | `struct epoll_event`                                                 |
| `State.interest`         | the kernel's interest list of `epfd`                                 |
| `event`, `reportable`    | what a level-triggered `epoll_wait` reports of a descriptor           |
| `Pc.handle`              | the loop of `:110` at its head, with `events[i .. nready)`           |
| `Pc.echo`                | inside of `echo_once(fd)` (`:142`)                                   |
| `State.closeEpollFd`     | `close_epoll_fd` (`:66`)                                             |

The interest is `EPOLLIN` for the listener and `EPOLLIN | EPOLLRDHUP` for a client.
-/

namespace ComputerSystem.MuxEcho.Epoll

def MAX_EVENTS : Nat := 1024

structure Event where
  fd         : Nat
  epollin    : Bool
  epollrdhup : Bool
  epollhup   : Bool
  epollerr   : Bool
deriving DecidableEq

inductive Pc
  | wait
  | handle (events : List Event)
  | echo (ev : Event) (events : List Event)
  | stopped

structure State where
  interest : List Nat
  pc       : Pc

def event (w : World) (hup err : List Nat) (fd : Nat) : Event where
  fd         := fd
  epollin    := w.readable fd
  epollrdhup := w.fin fd
  epollhup   := hup.contains fd && w.fin fd
  epollerr   := err.contains fd

def Event.nonzero (ev : Event) : Bool := ev.epollin || ev.epollrdhup || ev.epollhup || ev.epollerr

/-- The kernel may report this batch: as many descriptors as there is room for, each of them once, and
all of them when there is room for all. -/
def reportable (w : World) (interest hup err batch : List Nat) : Prop :=
  batch ≠ [] ∧ batch.Nodup ∧ batch.length ≤ MAX_EVENTS ∧
    (∀ fd ∈ batch, fd ∈ interest ∧ (event w hup err fd).nonzero = true) ∧
    (batch.length = MAX_EVENTS ∨ ∀ fd ∈ interest, (event w hup err fd).nonzero = true → fd ∈ batch)

instance (w : World) (interest hup err batch : List Nat) : Decidable (reportable w interest hup err batch) :=
  inferInstanceAs (Decidable (_ ∧ _ ∧ _ ∧ _ ∧ _))

def State.closeEpollFd (s : State) (w : World) (fd : Nat) (events : List Event) : World × State :=
  (w.close fd, ⟨s.interest.filter (· ≠ fd), .handle events⟩)

def main (s : State) (w : World) : Label → Option (World × State)
  | .interrupted =>
    match s.pc with
    | .wait => some (w, s)
    | _ => none
  | .waitError =>
    match s.pc with
    | .wait => some (w, { s with pc := .stopped })
    | _ => none
  | .ready hup err batch =>
    match s.pc with
    | .wait =>
      if reportable w s.interest hup err batch then
        some (w, { s with pc := .handle (batch.map (event w hup err)) })
      else none
    | _ => none
  | .accept connfd added =>
    match s.pc with
    | .handle (ev :: events) =>
      if ev.fd = w.listenfd then
        match connfd with
        | none => some (w, { s with pc := .handle events })
        | some fd =>
          -- `add_epoll_fd` (`:54`) closes what it cannot add
          (w.accept fd).map fun w =>
            if added then (w, ⟨s.interest ++ [fd], .handle events⟩)
            else (w.close fd, { s with pc := .handle events })
      else none
    | _ => none
  | .go =>
    match s.pc with
    | .handle [] => some (w, { s with pc := .wait })
    | .handle (ev :: events) =>
      if ev.fd = w.listenfd then none
      else if ev.epollerr then some (s.closeEpollFd w ev.fd events)
      else if ev.epollin then some (w, { s with pc := .echo ev events })
      else if ev.epollhup || ev.epollrdhup then some (s.closeEpollFd w ev.fd events)
      else some (w, { s with pc := .handle events })
    | _ => none
  | _ => none

/-- `:142-157`: data that was read keeps the connection for the next round, a hang-up or not. -/
def returned (s : State) (w : World) (ok : Bool) : World × State :=
  match s.pc with
  | .echo ev events => if ok then (w, { s with pc := .handle events }) else s.closeEpollFd w ev.fd events
  | _ => (w, s)

def Pc.echoing : Pc → Option Nat
  | .echo ev _ => some ev.fd
  | _ => none

/-- The events that the loop has still to look at. -/
def Pc.rest : Pc → List Event
  | .handle events | .echo _ events => events
  | .wait | .stopped => []

def server : Program State where
  main     := main
  echoing  := fun s => s.pc.echoing
  returned := returned
  watched  := fun s fd => fd ∈ s.interest
  todo     := fun s fd => ∃ ev ∈ s.pc.rest, ev.fd = fd
  waiting  := fun s => s.pc = .wait
  stopped  := fun s => s.pc = .stopped
  limits   := fun _ _ => True

instance (s : State) (fd : Nat) : Decidable (server.limits s fd) := inferInstanceAs (Decidable True)

/-- `main` up to its loop (`:89-97`). -/
def start (listenfd : Nat) : State := ⟨[listenfd], .wait⟩

/-! ## The batch -/

structure Own (listenfd : Nat) (s : State) : Prop where
  nodup : (s.pc.rest.map Event.fd).Nodup
  /-- a client's event says that it is readable, so that a hang-up alone is not met -/
  fine  : ∀ ev ∈ s.pc.rest, ev.epollerr = false ∧ (ev.fd ≠ listenfd → ev.epollin = true)

theorem Own.rest {listenfd : Nat} {s s' : State} {ev : Event} (h : Own listenfd s)
    (hrest : s.pc.rest = ev :: s'.pc.rest) : Own listenfd s' := by
  have hnodup := h.nodup
  rw [hrest, List.map_cons, List.nodup_cons] at hnodup
  exact ⟨hnodup.2, fun ev' hev' => h.fine ev' (hrest ▸ List.mem_cons_of_mem _ hev')⟩

theorem Own.same {listenfd : Nat} {s s' : State} (h : Own listenfd s) (hrest : s'.pc.rest = s.pc.rest) :
    Own listenfd s' := by
  refine ⟨?_, ?_⟩
  · rw [hrest]
    exact h.nodup
  · rw [hrest]
    exact h.fine

/-! ## The loop -/

variable {w w' : World} {s s' : State}

theorem event_spec (hw : w.Ok) {hup : List Nat} {fd : Nat} (hnz : (event w hup [] fd).nonzero = true) :
    w.readable fd = true := by
  simp only [Event.nonzero, event, List.contains_nil, Bool.or_false, Bool.or_eq_true, Bool.and_eq_true] at hnz
  rcases hnz with (hr | hfin) | ⟨-, hfin⟩
  · exact hr
  · exact World.readable_fin hw hfin
  · exact World.readable_fin hw hfin

/-- When something can be reported, there is a batch. -/
theorem reportable_of_readable {interest : List Nat} {fd : Nat} (hfd : fd ∈ interest) (hr : w.readable fd = true) :
    ∃ batch, reportable w interest [] [] batch := by
  have hmem : ∀ fd', fd' ∈ (interest.filter fun fd => (event w [] [] fd).nonzero).dedup ↔
      fd' ∈ interest ∧ (event w [] [] fd').nonzero = true := by
    intro fd'
    rw [List.mem_dedup, List.mem_filter]
  have hnodup := List.nodup_dedup (interest.filter fun fd => (event w [] [] fd).nonzero)
  have hin := (hmem fd).2 ⟨hfd, by simp [Event.nonzero, event, hr]⟩
  generalize (interest.filter fun fd => (event w [] [] fd).nonzero).dedup = all at hmem hnodup hin
  have hpos : 0 < all.length := List.length_pos_of_mem hin
  refine ⟨all.take MAX_EVENTS, ?_, hnodup.sublist (List.take_sublist ..), List.length_take_le ..,
    fun fd' hfd' => (hmem fd').1 (List.mem_of_mem_take hfd'), ?_⟩
  · rw [Ne, ← List.length_eq_zero_iff, List.length_take]
    have : 0 < MAX_EVENTS := by decide
    omega
  · by_cases hlen : MAX_EVENTS ≤ all.length
    · left
      rw [List.length_take, Nat.min_eq_left hlen]
    · right
      intro fd' hfd' hnz
      rw [List.take_of_length_le (by omega)]
      exact (hmem fd').2 ⟨hfd', hnz⟩

/-- `main` takes the next event. -/
theorem Inv.next {ev : Event} {pc : Pc} (h : server.Inv Own w s) (hrest : s.pc.rest = ev :: pc.rest)
    (htarget : ∀ fd, pc.echoing = some fd → ev.fd = fd ∧ fd ≠ w.listenfd) (hpc : pc ≠ .stopped) :
    server.Inv Own w { s with pc := pc } ∧ ∀ fd, pc.echoing = some fd → w.readable fd = true := by
  have hnodup := h.own.nodup
  rw [hrest, List.map_cons, List.nodup_cons] at hnodup
  refine Program.Inv.next h (h.own.rest hrest) (fun _ => Iff.rfl) (fun fd hfd => ?_) (fun fd hfd => ?_) hpc
  · obtain ⟨ev', hev', heq⟩ := hfd
    exact ⟨ev', hrest ▸ List.mem_cons_of_mem _ hev', heq⟩
  · obtain ⟨rfl, hl⟩ := htarget fd hfd
    refine ⟨hl, ⟨ev, hrest ▸ List.mem_cons_self .., rfl⟩, ?_⟩
    rintro ⟨ev', hev', heq⟩
    exact hnodup.1 (heq ▸ List.mem_map_of_mem hev')

theorem accept_step {connfd : Option Nat} {added : Bool} (hw : w.Ok) (hhand : w.hand = none)
    (h : server.Inv Own w s) (hok : server.ok (w, s) (.accept connfd added))
    (hs : main s w (.accept connfd added) = some (w', s')) :
    (w' = w ∨ ∃ fd, w.accept fd = some w') ∧ server.Inv Own w' s' ∧ s'.pc.echoing = none := by
  simp only [main] at hs
  split at hs
  · rename_i ev events hpc
    have hrest : s.pc.rest = ev :: events := by simp only [Pc.rest, hpc]
    split at hs
    · split at hs
      · obtain ⟨rfl, rfl⟩ := Prod.mk.inj (Option.some.inj hs)
        exact ⟨.inl rfl, (Inv.next h hrest (fun fd hfd => by cases hfd) (by simp)).1, rfl⟩
      · rename_i fd
        obtain rfl : added = true := hok.1
        obtain ⟨w₁, haccept, hpair⟩ := Option.map_eq_some_iff.1 hs
        rw [if_pos rfl] at hpair
        obtain ⟨rfl, rfl⟩ := Prod.mk.inj hpair
        obtain ⟨-, hacc, -⟩ := World.accept_ok hw hhand haccept
        refine ⟨.inr ⟨fd, haccept⟩, ?_, rfl⟩
        refine Program.Inv.accepted h hacc (h.own.rest hrest) (fun fd' => ?_) (fun fd' hfd' => ?_) rfl (by simp [server])
        · simp [server, or_comm]
        · obtain ⟨ev', hev', heq⟩ := hfd'
          exact ⟨ev', hrest ▸ List.mem_cons_of_mem _ hev', heq⟩
    · cases hs
  · cases hs

theorem go_step (h : server.Inv Own w s) (hs : main s w .go = some (w', s')) :
    w' = w ∧ server.Inv Own w s' ∧ ∀ fd, s'.pc.echoing = some fd → w.readable fd = true := by
  simp only [main] at hs
  split at hs
  · rename_i hpc
    have hrest : s.pc.rest = [] := by simp only [Pc.rest, hpc]
    obtain ⟨rfl, rfl⟩ := Prod.mk.inj (Option.some.inj hs)
    refine ⟨rfl, Program.Inv.next h (h.own.same hrest.symm) (fun _ => Iff.rfl) (fun fd hfd => ?_)
      (fun fd hfd => by cases hfd) (by simp [server])⟩
    obtain ⟨ev, hev, -⟩ := hfd
    cases hev
  · rename_i ev events hpc
    have hrest : s.pc.rest = ev :: events := by simp only [Pc.rest, hpc]
    obtain ⟨herr, hin⟩ := h.own.fine ev (hrest ▸ List.mem_cons_self ..)
    split at hs
    · cases hs
    · rename_i hl
      rw [if_neg (by simp [herr]), if_pos (hin hl)] at hs
      obtain ⟨rfl, rfl⟩ := Prod.mk.inj (Option.some.inj hs)
      refine ⟨rfl, Inv.next h hrest (fun fd hfd => ?_) (by simp)⟩
      obtain rfl : ev.fd = fd := Option.some.inj hfd
      exact ⟨rfl, hl⟩
  · cases hs

theorem verified : server.Verified Own where
  main := by
    intro w w' s s' l hw hhand h hout hok hs
    cases l with
    | client _ | read _ | write _ => cases hs
    | waitError => exact hok.1.elim
    | interrupted =>
      simp only [server, main] at hs
      split at hs <;> cases hs
      exact ⟨.inl rfl, h, server.not_echoing hout⟩
    | ready hup err batch =>
      simp only [server, main] at hs
      split at hs
      · obtain rfl : err = [] := hok.1
        split at hs
        · rename_i hreport
          obtain ⟨-, hnodup, -, hin, -⟩ := hreport
          obtain ⟨rfl, rfl⟩ := Prod.mk.inj (Option.some.inj hs)
          have hown : Own w.listenfd { s with pc := .handle (batch.map (event w hup [])) } := by
            refine ⟨?_, fun ev hev => ?_⟩
            · simpa only [Pc.rest, List.map_map, Function.comp_def, event, List.map_id'] using hnodup
            · obtain ⟨fd, hfd, rfl⟩ := List.mem_map.1 hev
              exact ⟨rfl, fun _ => event_spec hw (hin fd hfd).2⟩
          refine ⟨.inl rfl, Program.Inv.waited h hown (fun _ => Iff.rfl) (fun fd hfd => ?_) rfl (by simp [server]),
            fun fd hfd => by cases hfd⟩
          obtain ⟨ev, hev, rfl⟩ := hfd
          obtain ⟨fd, hfd, rfl⟩ := List.mem_map.1 hev
          exact ⟨(hin fd hfd).1, event_spec hw (hin fd hfd).2⟩
        · cases hs
      · cases hs
    | accept connfd added =>
      obtain ⟨hdone, hinv, hout'⟩ := accept_step hw hhand h hok hs
      exact ⟨hdone, hinv, server.not_echoing hout'⟩
    | go =>
      obtain ⟨rfl, hinv, hready⟩ := go_step h hs
      exact ⟨.inl rfl, hinv, hready⟩
  idle := by
    intro w s h hwait
    have hpc : s.pc = .wait := hwait
    refine ⟨by simp [server, hpc, Pc.echoing], fun hblock fd hfd => ?_⟩
    by_contra hr
    obtain ⟨batch, hbatch⟩ := reportable_of_readable hfd (Bool.eq_true_of_not_eq_false hr)
    have hnone := hblock [] [] batch
    simp [server, main, hpc, hbatch] at hnone
  kept := by
    intro w s fd h hfd
    cases hpc : s.pc with
    | echo ev events =>
      have hrest : s.pc.rest = events := by simp only [Pc.rest, hpc]
      have hret : server.returned s w true = (w, { s with pc := .handle events }) := by
        simp [server, returned, hpc]
      rw [hret]
      refine ⟨rfl, And.left (Program.Inv.next h (h.own.same hrest.symm) (fun _ => Iff.rfl) (fun fd' hfd' => ?_)
        (fun fd hfd => by cases hfd) (by simp [server])), rfl⟩
      obtain ⟨ev', hev', heq⟩ := hfd'
      exact ⟨ev', hrest ▸ hev', heq⟩
    | wait | handle _ | stopped => simp [server, hpc, Pc.echoing] at hfd
  closed := by
    intro w s fd hw h hfd
    cases hpc : s.pc with
    | echo ev events =>
      obtain rfl : ev.fd = fd := by simpa [server, hpc, Pc.echoing] using hfd
      have hrest : s.pc.rest = events := by simp only [Pc.rest, hpc]
      have hret : server.returned s w false = s.closeEpollFd w ev.fd events := by simp [server, returned, hpc]
      rw [hret, State.closeEpollFd]
      refine ⟨rfl, Program.Inv.close h hfd (w.close_closed hw ev.fd) (h.own.same hrest.symm) (fun fd' => ?_)
        (fun fd' hfd' => ?_) rfl (by simp [server]), rfl⟩
      · simp [server, and_comm]
      · obtain ⟨ev', hev', heq⟩ := hfd'
        exact ⟨ev', hrest ▸ hev', heq⟩
    | wait | handle _ | stopped => simp [server, hpc, Pc.echoing] at hfd

theorem start_inv (listenfd : Nat) (others : List Nat) :
    server.Inv Own (World.start listenfd others) (start listenfd) ∧ server.echoing (start listenfd) = none := by
  refine ⟨⟨⟨List.nodup_nil, fun ev hev => by cases hev⟩, fun fd => ?_, fun fd hfd => ?_,
    (fun fd hfd => by cases hfd), (by simp [server, start])⟩, rfl⟩
  · have hmem : fd ∈ [listenfd] ↔ fd = listenfd := List.mem_singleton
    exact hmem.trans (by simp [World.start])
  · obtain ⟨ev, hev, -⟩ := hfd
    cases hev

end ComputerSystem.MuxEcho.Epoll
