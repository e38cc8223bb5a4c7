import ComputerSystem.Lib.Custody
import ComputerSystem.Lib.Machine
/-!
# The thread-per-client echo server (`Chapter12/12.3/experiments/thread_echo_server.c:45-118`)

`main` accepts and puts the descriptor into a cell of the heap, which a new thread reads and frees; the
descriptor itself belongs to whoever will close it (`:117`). All threads share one table of descriptors and
one heap. What `echo` (`:26`) does between two system calls is left out here; each of its calls is `io`.

| here            | there                                                                      |
|-----------------|----------------------------------------------------------------------------|
| `State.conn`    | the connection behind a descriptor, by the number of its `accept`; `none` is closed |
| `State.heap`    | the cells of `malloc` and their contents; `none` inside is not written yet   |
| `Tid`           | threads by the number of their `pthread_create`                              |
| `State.touched` | which thread has read or written which connection                            |
| `State.bad`     | a cell that is not there was read or freed, a descriptor that is closed used  |

`fdLog` and `cellLog` are the calls that give or take a descriptor or a cell. What is printed,
`getnameinfo` and `pthread_detach`, whose failure is only printed, are left out.
-/

namespace ComputerSystem.ThreadEcho

open Custody

abbrev Fd := Nat
abbrev Addr := Nat
abbrev Tid := Nat
abbrev ConnId := Nat

/-- Where the loop of `main` stands. -/
inductive MainPc
  /-- `accept` (`:82`) -/
  | accept
  /-- `malloc` (`:100`) -/
  | malloc (connfd : Fd)
  /-- `*connfdp = connfd` (`:106`) -/
  | store (connfd : Fd) (connfdp : Addr)
  /-- `pthread_create` (`:109`) -/
  | create (connfd : Fd) (connfdp : Addr)
  /-- `free(connfdp)` (`:112`) -/
  | free (connfd : Fd) (connfdp : Addr)
  /-- `close(connfd)` (`:103`, `:113`) -/
  | close (connfd : Fd)
deriving DecidableEq, Repr

/-- Where `serve_client` stands. -/
inductive WorkerPc
  /-- `*(int *)arg` (`:46`) -/
  | load (arg : Addr)
  /-- `free(arg)` (`:47`) -/
  | free (arg : Addr) (connfd : Fd)
  /-- in `echo` (`:55`) -/
  | echo (connfd : Fd)
  /-- `close(connfd)` (`:57`) -/
  | close (connfd : Fd)
  /-- not created, or returned -/
  | gone
deriving DecidableEq, Repr

structure State where
  pc       : MainPc
  workers  : Tid → WorkerPc
  conn     : Fd → Option ConnId
  heap     : Addr → Option (Option Fd)
  accepted : Nat
  created  : Nat
  fdLog    : List (Event Fd)
  cellLog  : List (Event Addr)
  touched  : List (Tid × ConnId)
  bad      : Bool

/-- At the first `accept`. -/
def start : State := ⟨.accept, fun _ => .gone, fun _ => none, fun _ => none, 0, 0, [], [], [], false⟩

inductive Label
  /-- `accept` returned this descriptor, `none` for `-1`, of which both cases go on (`:83-89`) -/
  | accept (r : Option Fd)
  | malloc (r : Option Addr)
  | create (ok : Bool)
  /-- the next instruction of `main` that needs no outcome -/
  | main
  /-- the next instruction of a worker -/
  | worker (t : Tid)
  /-- a worker reads or writes its connection (`:32`, `:34`) -/
  | io (t : Tid)
  /-- `echo` returns, at the end of the stream or after an error -/
  | echoed (t : Tid)
deriving DecidableEq, Repr

def State.setWorker (s : State) (t : Tid) (pc : WorkerPc) : State :=
  { s with workers := Function.update s.workers t pc }

/-- `close(fd)`. -/
def State.close (s : State) (fd : Fd) : State :=
  { s with conn := Function.update s.conn fd none, fdLog := s.fdLog ++ [.closed fd], bad := s.bad || (s.conn fd).isNone }

/-- `free(p)`. -/
def State.free (s : State) (p : Addr) : State :=
  { s with heap := Function.update s.heap p none, cellLog := s.cellLog ++ [.closed p], bad := s.bad || (s.heap p).isNone }

/-- `inherited` are the descriptors that were open before, `listenfd` among them. -/
def step (inherited : List Fd) (s : State) : Label → Option State
  | .accept r => match s.pc, r with
    | .accept, some fd =>
      if fd ∈ inherited ∨ s.conn fd ≠ none then none
      else some { s with
        pc := .malloc fd
        conn := Function.update s.conn fd (some s.accepted)
        accepted := s.accepted + 1
        fdLog := s.fdLog ++ [.acquired fd] }
    | .accept, none => some s
    | _, _ => none
  | .malloc r => match s.pc, r with
    | .malloc fd, some p =>
      if s.heap p ≠ none then none
      else some { s with
        pc := .store fd p
        heap := Function.update s.heap p (some none)
        cellLog := s.cellLog ++ [.acquired p] }
    | .malloc fd, none => some { s with pc := .close fd }
    | _, _ => none
  | .create ok => match s.pc with
    | .create fd p =>
      if ok then some { s.setWorker s.created (.load p) with pc := .accept, created := s.created + 1 }
      else some { s with pc := .free fd p }
    | _ => none
  | .main => match s.pc with
    | .store fd p => some { s with
        pc := .create fd p, heap := Function.update s.heap p (some (some fd)), bad := s.bad || (s.heap p).isNone }
    | .free fd p => some { s.free p with pc := .close fd }
    | .close fd => some { s.close fd with pc := .accept }
    | _ => none
  | .worker t => match s.workers t with
    | .load p => match (s.heap p).join with
      | some fd => some (s.setWorker t (.free p fd))
      | none => some { s.setWorker t .gone with bad := true }
    | .free p fd => some ((s.free p).setWorker t (.echo fd))
    | .close fd => some ((s.close fd).setWorker t .gone)
    | _ => none
  | .io t => match s.workers t with
    | .echo fd => match s.conn fd with
      | some c => some { s with touched := s.touched ++ [(t, c)] }
      | none => some { s with bad := true }
    | _ => none
  | .echoed t => match s.workers t with
    | .echo fd => some (s.setWorker t (.close fd))
    | _ => none

/-! ## Who has what -/

/-- `main`, or a worker. -/
abbrev Owner := Option Tid

/-- What `main` and the workers have. -/
def owners {α : Type} (m : Option α) (w : Tid → Option α) : Owner → Option α
  | none => m
  | some t => w t

def MainPc.fd : MainPc → Option Fd
  | .accept => none
  | .malloc fd | .store fd _ | .create fd _ | .free fd _ | .close fd => some fd

def MainPc.cell : MainPc → Option Addr
  | .store _ p | .create _ p | .free _ p => some p
  | _ => none

/-- Before it has read its argument a worker has the descriptor through the heap. -/
def WorkerPc.fd (heap : Addr → Option (Option Fd)) : WorkerPc → Option Fd
  | .load p => (heap p).join
  | .free _ fd | .echo fd | .close fd => some fd
  | .gone => none

def WorkerPc.cell : WorkerPc → Option Addr
  | .load p | .free p _ => some p
  | _ => none

def State.fdOf (s : State) : Owner → Option Fd := owners s.pc.fd fun t => (s.workers t).fd s.heap

def State.cellOf (s : State) : Owner → Option Addr := owners s.pc.cell fun t => (s.workers t).cell

section
variable {α : Type} {m a : Option α} {w : Tid → Option α} {t : Tid}

@[simp] theorem update_main : Function.update (owners m w) none a = owners a w := by
  funext o
  cases o with
  | none => rfl
  | some t => rfl

@[simp] theorem update_worker : Function.update (owners m w) (some t) a = owners m (Function.update w t a) := by
  funext o
  cases o with
  | none => rfl
  | some x =>
    by_cases hx : x = t
    · subst hx
      rw [Function.update_self]
      exact (Function.update_self x a w).symm
    · rw [Function.update_of_ne fun h => hx (Option.some.inj h)]
      exact (Function.update_of_ne hx a w).symm

/-- A worker moves. -/
theorem map_update {β γ : Type} (f : β → γ) (ws : Tid → β) (t : Tid) (b : β) :
    (fun x => f (Function.update ws t b x)) = Function.update (fun x => f (ws x)) t (f b) := by
  funext x
  by_cases hx : x = t
  · subst hx
    rw [Function.update_self, Function.update_self]
  · rw [Function.update_of_ne hx, Function.update_of_ne hx]

end

/-- A cell that no worker is about to load does not matter to who has which descriptor. -/
theorem fd_heap {workers : Tid → WorkerPc} {p : Addr} (h : ∀ t, workers t ≠ .load p) (heap : Addr → Option (Option Fd))
    (v : Option (Option Fd)) :
    (fun t => (workers t).fd (Function.update heap p v)) = fun t => (workers t).fd heap := by
  funext t
  cases hw : workers t with
  | load q =>
    have hne : q ≠ p := by
      rintro rfl
      exact h t hw
    simp only [WorkerPc.fd, Function.update_of_ne hne]
  | free _ _ | echo _ | close _ | gone => rfl

structure Inv (inherited : List Fd) (s : State) : Prop where
  fds     : Linear s.fdOf s.fdLog
  cells   : Linear s.cellOf s.cellLog
  opened  : Tracks s.conn s.fdLog
  live    : Tracks s.heap s.cellLog
  /-- the cell that is passed on is written -/
  written : ∀ fd p, s.pc = .create fd p → s.heap p = some (some fd)
  loads   : ∀ t p, s.workers t = .load p → ∃ fd, s.heap p = some (some fd)
  fresh   : ∀ t, s.created ≤ t → s.workers t = .gone
  foreign : ∀ fd ∈ inherited, s.conn fd = none ∧ ∀ e ∈ s.fdLog, e.key ≠ fd
  good    : s.bad = false

/-! ## One step -/

section
variable {inherited : List Fd} {s s' : State}

/-- What an owner has is open. -/
theorem Inv.conn_open (h : Inv inherited s) {o : Owner} {fd : Fd} (ho : s.fdOf o = some fd) : s.conn fd ≠ none :=
  (h.opened fd).2 ((h.fds.held_iff fd).2 ⟨o, ho⟩)

theorem Inv.heap_live (h : Inv inherited s) {o : Owner} {p : Addr} (ho : s.cellOf o = some p) : s.heap p ≠ none :=
  (h.live p).2 ((h.cells.held_iff p).2 ⟨o, ho⟩)

theorem Inv.unowned (h : Inv inherited s) {fd : Fd} (hc : s.conn fd = none) (o : Owner) : s.fdOf o ≠ some fd :=
  fun ho => h.conn_open ho hc

theorem Inv.unallocated (h : Inv inherited s) {p : Addr} (hp : s.heap p = none) (o : Owner) : s.cellOf o ≠ some p :=
  fun ho => h.heap_live ho hp

/-- Only the owner of a cell is about to load it. -/
theorem Inv.load_owner (h : Inv inherited s) {o : Owner} {p : Addr} (ho : s.cellOf o = some p) {t : Tid}
    (ht : s.workers t = .load p) : o = some t :=
  h.cells.one ho (show (s.workers t).cell = some p by rw [ht]; rfl)

/-- `main` moves, with what it has. -/
theorem Inv.moveMain (h : Inv inherited s) {pc : MainPc} (hfd : pc.fd = s.pc.fd) (hcell : pc.cell = s.pc.cell)
    (hpc : ∀ fd p, pc ≠ .create fd p) : Inv inherited { s with pc := pc } := by
  refine ⟨?_, ?_, h.opened, h.live, fun fd p hat => absurd hat (hpc fd p), h.loads, h.fresh, h.foreign, h.good⟩
  · have := h.fds
    simp only [State.fdOf] at this ⊢
    rw [hfd]
    exact this
  · have := h.cells
    simp only [State.cellOf] at this ⊢
    rw [hcell]
    exact this

theorem accept_keeps {r : Option Fd} (h : Inv inherited s) (hs : step inherited s (.accept r) = some s') :
    Inv inherited s' := by
  simp only [step] at hs
  split at hs
  · rename_i fd hpc
    split at hs <;> cases hs
    rename_i hfree
    obtain ⟨hin, hclosed⟩ := not_or.1 hfree
    rw [not_not] at hclosed
    refine ⟨?_, ?_, h.opened.acquire fd _, h.live, nofun, h.loads, h.fresh, ?_, h.good⟩
    · have htake := h.fds.take (o := none) (by simp only [State.fdOf, owners, hpc, MainPc.fd]) (h.unowned hclosed)
      rwa [State.fdOf, update_main] at htake
    · have hcells := h.cells
      simp only [State.cellOf, hpc] at hcells
      exact hcells
    · intro x hx
      obtain ⟨hxc, hxl⟩ := h.foreign x hx
      have hne : x ≠ fd := by
        rintro rfl
        exact hin hx
      refine ⟨(Function.update_of_ne hne ..).trans hxc, fun e he => ?_⟩
      rcases List.mem_append.1 he with he | he
      · exact hxl e he
      · rw [List.mem_singleton.1 he]
        exact fun hk => hne hk.symm
  · cases hs
    exact h
  · cases hs

theorem malloc_keeps {r : Option Addr} (h : Inv inherited s) (hs : step inherited s (.malloc r) = some s') :
    Inv inherited s' := by
  simp only [step] at hs
  split at hs
  · rename_i fd p hpc
    split at hs <;> cases hs
    rename_i hfree
    rw [not_not] at hfree
    have hnoload : ∀ t, s.workers t ≠ .load p := fun t ht => by
      obtain ⟨v, hv⟩ := h.loads t p ht
      rw [hfree] at hv
      cases hv
    refine ⟨?_, ?_, h.opened, h.live.acquire p _, nofun, ?_, h.fresh, h.foreign, h.good⟩
    · have hfds := h.fds
      simp only [State.fdOf, hpc] at hfds ⊢
      rw [fd_heap hnoload]
      exact hfds
    · have htake := h.cells.take (o := none) (by simp only [State.cellOf, owners, hpc, MainPc.cell]) (h.unallocated hfree)
      rwa [State.cellOf, update_main] at htake
    · intro t q hq
      have hne : q ≠ p := by
        rintro rfl
        exact hnoload t hq
      obtain ⟨v, hv⟩ := h.loads t q hq
      exact ⟨v, (Function.update_of_ne hne ..).trans hv⟩
  · rename_i fd hpc
    cases hs
    exact h.moveMain (by rw [hpc]; rfl) (by rw [hpc]; rfl) nofun
  · cases hs

theorem create_keeps {ok : Bool} (h : Inv inherited s) (hs : step inherited s (.create ok) = some s') :
    Inv inherited s' := by
  simp only [step] at hs
  split at hs
  · rename_i fd p hpc
    cases ok with
    | false =>
      cases hs
      exact h.moveMain (by rw [hpc]; rfl) (by rw [hpc]; rfl) nofun
    | true =>
      cases hs
      have hgone := h.fresh s.created (Nat.le_refl _)
      have hwritten := h.written fd p hpc
      -- what `main` had the worker has
      refine ⟨?_, ?_, h.opened, h.live, nofun, ?_, ?_, h.foreign, h.good⟩
      · have hpass := h.fds.pass (o := some s.created) (p := none) nofun
          (by simp only [State.fdOf, owners, hgone, WorkerPc.fd])
        have hmain : s.fdOf none = WorkerPc.fd s.heap (.load p) := by
          simp only [State.fdOf, owners, hpc, MainPc.fd, WorkerPc.fd, hwritten, Option.join_some]
        rw [hmain, State.fdOf, update_worker, update_main, ← map_update] at hpass
        exact hpass
      · have hpass := h.cells.pass (o := some s.created) (p := none) nofun
          (by simp only [State.cellOf, owners, hgone, WorkerPc.cell])
        have hmain : s.cellOf none = WorkerPc.cell (.load p) := by
          simp only [State.cellOf, owners, hpc, MainPc.cell, WorkerPc.cell]
        rw [hmain, State.cellOf, update_worker, update_main, ← map_update] at hpass
        exact hpass
      · intro t q hq
        by_cases ht : t = s.created
        · subst ht
          cases (Function.update_self ..).symm.trans hq
          exact ⟨fd, hwritten⟩
        · exact h.loads t q ((Function.update_of_ne ht ..).symm.trans hq)
      · intro t ht
        have hlt : s.created < t := ht
        exact (Function.update_of_ne (Nat.ne_of_gt hlt) ..).trans (h.fresh t (Nat.le_of_lt hlt))
  · cases hs

/-- An inherited descriptor is not one that is open here. -/
theorem Inv.foreign_close (h : Inv inherited s) {fd : Fd} (hopen : s.conn fd ≠ none) : ∀ x ∈ inherited,
    Function.update s.conn fd none x = none ∧ ∀ e ∈ s.fdLog ++ [.closed fd], e.key ≠ x := by
  intro x hx
  obtain ⟨hxc, hxl⟩ := h.foreign x hx
  have hne : x ≠ fd := by
    rintro rfl
    exact hopen hxc
  refine ⟨(Function.update_of_ne hne ..).trans hxc, fun e he => ?_⟩
  rcases List.mem_append.1 he with he | he
  · exact hxl e he
  · rw [List.mem_singleton.1 he]
    exact fun hk => hne hk.symm

/-- Where nobody else is about to load a cell, its contents can change. -/
theorem Inv.loads_update (h : Inv inherited s) {p : Addr} (hnoload : ∀ t, s.workers t ≠ .load p) (v : Option (Option Fd)) :
    ∀ t q, s.workers t = .load q → ∃ fd, Function.update s.heap p v q = some (some fd) := by
  intro t q hq
  have hne : q ≠ p := by
    rintro rfl
    exact hnoload t hq
  obtain ⟨fd, hfd⟩ := h.loads t q hq
  exact ⟨fd, (Function.update_of_ne hne ..).trans hfd⟩

/-- Nothing bad happens to what is there. -/
theorem Inv.still_good {V : Type} {v : Option V} (h : Inv inherited s) (hv : v ≠ none) : (s.bad || v.isNone) = false := by
  rw [h.good, Bool.false_or, Option.isNone_eq_false_iff, Option.isSome_iff_ne_none]
  exact hv

theorem main_keeps (h : Inv inherited s) (hs : step inherited s .main = some s') : Inv inherited s' := by
  simp only [step] at hs
  split at hs
  · -- the descriptor is stored
    rename_i fd p hpc
    cases hs
    have hcell : s.cellOf none = some p := by simp only [State.cellOf, owners, hpc, MainPc.cell]
    have hlive := h.heap_live hcell
    have hnoload : ∀ t, s.workers t ≠ .load p := fun t ht => by
      cases h.load_owner hcell ht
    refine ⟨?_, ?_, h.opened, h.live.write hlive _, ?_, ?_, h.fresh, h.foreign, ?_⟩
    · have hfds := h.fds
      simp only [State.fdOf, hpc] at hfds ⊢
      rw [fd_heap hnoload]
      exact hfds
    · have hcells := h.cells
      simp only [State.cellOf, hpc] at hcells
      exact hcells
    · rintro _ _ ⟨⟩
      exact Function.update_self ..
    · exact h.loads_update hnoload _
    · exact h.still_good hlive
  · -- the cell is freed
    rename_i fd p hpc
    cases hs
    have hcell : s.cellOf none = some p := by simp only [State.cellOf, owners, hpc, MainPc.cell]
    have hlive := h.heap_live hcell
    have hnoload : ∀ t, s.workers t ≠ .load p := fun t ht => by
      cases h.load_owner hcell ht
    refine ⟨?_, ?_, h.opened, h.live.close p, nofun, ?_, h.fresh, h.foreign, ?_⟩
    · have hfds := h.fds
      simp only [State.fdOf, hpc] at hfds ⊢
      simp only [State.free, fd_heap hnoload]
      exact hfds
    · have hdrop := h.cells.drop (e := .closed p) hcell rfl
      rwa [State.cellOf, update_main] at hdrop
    · exact h.loads_update hnoload _
    · exact h.still_good hlive
  · -- the descriptor is closed
    rename_i fd hpc
    cases hs
    have hfd : s.fdOf none = some fd := by simp only [State.fdOf, owners, hpc, MainPc.fd]
    have hopen := h.conn_open hfd
    refine ⟨?_, ?_, h.opened.close fd, h.live, nofun, h.loads, h.fresh, ?_, ?_⟩
    · have hdrop := h.fds.drop (e := .closed fd) hfd rfl
      rwa [State.fdOf, update_main] at hdrop
    · have hcells := h.cells
      simp only [State.cellOf, hpc] at hcells
      exact hcells
    · exact h.foreign_close hopen
    · exact h.still_good hopen
  · cases hs

/-- A worker moves, with what it has. -/
theorem Inv.moveWorker (h : Inv inherited s) {t : Tid} {pc : WorkerPc} (hfd : pc.fd s.heap = (s.workers t).fd s.heap)
    (hcell : pc.cell = (s.workers t).cell) (hpc : ∀ p, pc ≠ .load p) (hhere : s.workers t ≠ .gone) :
    Inv inherited (s.setWorker t pc) := by
  refine ⟨?_, ?_, h.opened, h.live, h.written, ?_, ?_, h.foreign, h.good⟩
  · have hfds := h.fds
    simp only [State.fdOf, State.setWorker] at hfds ⊢
    rw [map_update, hfd, Function.update_eq_self t fun t => (s.workers t).fd s.heap]
    exact hfds
  · have hcells := h.cells
    simp only [State.cellOf, State.setWorker] at hcells ⊢
    rw [map_update, hcell, Function.update_eq_self t fun t => (s.workers t).cell]
    exact hcells
  · intro x q hq
    by_cases hx : x = t
    · subst hx
      exact absurd ((Function.update_self ..).symm.trans hq) (hpc q)
    · exact h.loads x q ((Function.update_of_ne hx ..).symm.trans hq)
  · intro x hx
    have hne : x ≠ t := by
      rintro rfl
      exact hhere (h.fresh x hx)
    exact (Function.update_of_ne hne ..).trans (h.fresh x hx)

theorem worker_keeps {t : Tid} (h : Inv inherited s) (hs : step inherited s (.worker t) = some s') : Inv inherited s' := by
  simp only [step] at hs
  split at hs
  · -- the argument is read
    rename_i p hat
    obtain ⟨fd, hfd⟩ := h.loads t p hat
    simp only [hfd, Option.join_some] at hs
    cases hs
    refine h.moveWorker ?_ ?_ (by rintro _ ⟨⟩) (by rw [hat]; rintro ⟨⟩)
    · rw [hat]
      simp only [WorkerPc.fd, hfd, Option.join_some]
    · rw [hat]
      rfl
  · -- and its cell freed
    rename_i p fd hat
    cases hs
    have hcell : s.cellOf (some t) = some p := by simp only [State.cellOf, owners, hat, WorkerPc.cell]
    have hlive := h.heap_live hcell
    have hnoload : ∀ x, s.workers x ≠ .load p := fun x hx => by
      cases h.load_owner hcell hx
      rw [hat] at hx
      cases hx
    have hworkers : ∀ x, (s.free p).workers x = s.workers x := fun _ => rfl
    refine ⟨?_, ?_, h.opened, h.live.close p, ?_, ?_, ?_, h.foreign, h.still_good hlive⟩
    · have hfds := h.fds
      simp only [State.fdOf, State.setWorker, State.free] at hfds ⊢
      rw [map_update, fd_heap hnoload]
      have hsame : WorkerPc.fd (Function.update s.heap p none) (.echo fd) = (s.workers t).fd s.heap := by
        rw [hat]
        rfl
      rw [hsame, Function.update_eq_self t fun t => (s.workers t).fd s.heap]
      exact hfds
    · have hdrop := h.cells.drop (e := .closed p) hcell rfl
      rw [State.cellOf, update_worker] at hdrop
      simp only [State.cellOf, State.setWorker, State.free]
      rw [map_update]
      exact hdrop
    · intro fd' q hpc
      have hne : q ≠ p := by
        rintro rfl
        have hmain : s.cellOf none = some q := by
          simp only [State.cellOf, owners]
          rw [show s.pc = .create fd' q from hpc]
          rfl
        cases h.cells.one hmain hcell
      exact (Function.update_of_ne hne ..).trans (h.written fd' q hpc)
    · intro x q hq
      by_cases hx : x = t
      · subst hx
        cases (Function.update_self ..).symm.trans hq
      · exact h.loads_update hnoload _ x q ((Function.update_of_ne hx ..).symm.trans hq)
    · intro x hx
      have hne : x ≠ t := by
        rintro rfl
        exact absurd (h.fresh x hx) (by rw [hat]; rintro ⟨⟩)
      exact (Function.update_of_ne hne ..).trans (h.fresh x hx)
  · -- the descriptor is closed
    rename_i fd hat
    cases hs
    have hfd : s.fdOf (some t) = some fd := by simp only [State.fdOf, owners, hat, WorkerPc.fd]
    have hopen := h.conn_open hfd
    refine ⟨?_, ?_, h.opened.close fd, h.live, h.written, ?_, ?_, h.foreign_close hopen, h.still_good hopen⟩
    · have hdrop := h.fds.drop (e := .closed fd) hfd rfl
      rw [State.fdOf, update_worker] at hdrop
      simp only [State.fdOf, State.setWorker, State.close]
      rw [map_update]
      exact hdrop
    · have hcells := h.cells
      simp only [State.cellOf, State.setWorker, State.close] at hcells ⊢
      rw [map_update, show WorkerPc.cell .gone = (s.workers t).cell by rw [hat]; rfl,
        Function.update_eq_self t fun t => (s.workers t).cell]
      exact hcells
    · intro x q hq
      by_cases hx : x = t
      · subst hx
        cases (Function.update_self ..).symm.trans hq
      · exact h.loads x q ((Function.update_of_ne hx ..).symm.trans hq)
    · intro x hx
      have hne : x ≠ t := by
        rintro rfl
        exact absurd (h.fresh x hx) (by rw [hat]; rintro ⟨⟩)
      exact (Function.update_of_ne hne ..).trans (h.fresh x hx)
  · cases hs

/-- **One step.** -/
theorem step_keeps {l : Label} (h : Inv inherited s) (hs : step inherited s l = some s') : Inv inherited s' := by
  cases l with
  | accept r => exact accept_keeps h hs
  | malloc r => exact malloc_keeps h hs
  | create ok => exact create_keeps h hs
  | main => exact main_keeps h hs
  | worker t => exact worker_keeps h hs
  | io t =>
    simp only [step] at hs
    split at hs
    · rename_i fd hat
      have hfd : s.fdOf (some t) = some fd := by simp only [State.fdOf, owners, hat, WorkerPc.fd]
      split at hs
      · cases hs
        exact ⟨h.fds, h.cells, h.opened, h.live, h.written, h.loads, h.fresh, h.foreign, h.good⟩
      · rename_i hnone
        exact absurd hnone (h.conn_open hfd)
    · cases hs
  | echoed t =>
    simp only [step] at hs
    split at hs
    · rename_i fd hat
      cases hs
      exact h.moveWorker (by rw [hat]; rfl) (by rw [hat]; rfl) nofun (by rw [hat]; nofun)
    · cases hs

end

theorem start_inv (inherited : List Fd) : Inv inherited start := by
  have hfds : start.fdOf = fun _ => none := by
    funext o
    cases o <;> rfl
  have hcells : start.cellOf = fun _ => none := by
    funext o
    cases o <;> rfl
  refine ⟨hfds ▸ .init, hcells ▸ .init, ?_, ?_, nofun, nofun, fun _ _ => rfl, fun _ _ => ⟨rfl, nofun⟩, rfl⟩
  · exact fun _ => ⟨fun hne => absurd rfl hne, nofun⟩
  · exact fun _ => ⟨fun hne => absurd rfl hne, nofun⟩

theorem inv_reach {inherited : List Fd} {s : State} (h : Reach (step inherited) always start s) : Inv inherited s :=
  h.invariant (start_inv inherited) fun _ _ _ hi _ hs => step_keeps hi hs

end ComputerSystem.ThreadEcho
