import ComputerSystem.ThreadEcho.Workers
/-!
# Each descriptor has one owner, each client one thread

Numbers of descriptors and cells are used again as soon as they are given back, so that a thread which
kept one too long would use what belongs to another client. `owned_once` says that no interleaving comes
to that; `own_client` that the bytes a thread reads and writes are those of one client, and of no other
thread's. `Flow` is what a step can do to who has what.
-/

namespace ComputerSystem.ThreadEcho

open Custody

/-! ## What a step hands on -/

structure Flow (s s' : State) : Prop where
  /-- a worker has what it had, or what `main` had when it was created -/
  worker   : ∀ t fd, s'.fdOf (some t) = some fd →
    s'.conn fd = s.conn fd ∧ (s.fdOf (some t) = some fd ∨ s.created ≤ t ∧ s.fdOf none = some fd)
  /-- `main` has what it had, or what it has just accepted -/
  main     : ∀ fd, s'.fdOf none = some fd → s'.conn fd = s.conn fd ∧ s.fdOf none = some fd ∨ s'.conn fd = some s.accepted
  /-- at most one descriptor is new -/
  conn     : ∃ new, ∀ fd c, s'.conn fd = some c →
    s.conn fd = some c ∨ fd = new ∧ c = s.accepted ∧ s'.accepted = s.accepted + 1
  touched  : s'.touched = s.touched ∨ ∃ t fd c, t < s.created ∧ s.fdOf (some t) = some fd ∧ s.conn fd = some c ∧
    s'.touched = s.touched ++ [(t, c)]
  created  : s.created ≤ s'.created
  accepted : s.accepted ≤ s'.accepted

section
variable {inherited : List Fd} {s s' : State}

/-- Nothing is handed on. -/
theorem Flow.same (hfds : ∀ o fd, s'.fdOf o = some fd → s.fdOf o = some fd ∧ s'.conn fd = s.conn fd)
    (hconn : ∀ fd c, s'.conn fd = some c → s.conn fd = some c) (htouched : s'.touched = s.touched)
    (hcreated : s'.created = s.created) (haccepted : s'.accepted = s.accepted) : Flow s s' where
  worker _ fd h := ⟨(hfds _ fd h).2, .inl (hfds _ fd h).1⟩
  main fd h := .inl ⟨(hfds _ fd h).2, (hfds _ fd h).1⟩
  conn := ⟨0, fun fd c h => .inl (hconn fd c h)⟩
  touched := .inl htouched
  created := Nat.le_of_eq hcreated.symm
  accepted := Nat.le_of_eq haccepted.symm

/-- A cell that nobody is about to load can change. -/
theorem fdOf_heap {p : Addr} {v : Option (Option Fd)} (hnoload : ∀ t, s.workers t ≠ .load p) :
    ({ s with heap := Function.update s.heap p v } : State).fdOf = s.fdOf := by
  simp only [State.fdOf, fd_heap hnoload]

theorem Inv.no_load (h : Inv inherited s) {o : Owner} {p : Addr} (ho : s.cellOf o = some p)
    (hhere : ∀ x, o = some x → s.workers x ≠ .load p) : ∀ t, s.workers t ≠ .load p :=
  fun t ht => hhere t (h.load_owner ho ht) ht

/-- A descriptor that one owner closes is not another's. -/
theorem Inv.close_other (h : Inv inherited s) {o x : Owner} {fd fd' : Fd} (ho : s.fdOf o = some fd) (hx : s.fdOf x = some fd')
    (hne : x ≠ o) : Function.update s.conn fd none fd' = s.conn fd' := by
  have hfd : fd' ≠ fd := by
    rintro rfl
    exact hne (h.fds.one hx ho)
  exact Function.update_of_ne hfd ..

theorem update_none {conn : Fd → Option ConnId} {fd fd' : Fd} {c : ConnId} (h : Function.update conn fd none fd' = some c) :
    conn fd' = some c := by
  by_cases hfd : fd' = fd
  · subst hfd
    rw [Function.update_self] at h
    cases h
  · rwa [Function.update_of_ne hfd] at h

theorem main_flow (h : Inv inherited s) (hs : step inherited s .main = some s') : Flow s s' := by
  simp only [step] at hs
  split at hs
  · rename_i fd p hpc
    cases hs
    have hcell : s.cellOf none = some p := by simp only [State.cellOf, owners, hpc, MainPc.cell]
    have hheap := fdOf_heap (v := some (some fd)) (h.no_load hcell (by rintro _ ⟨⟩))
    refine .same (fun o fd' ho => ⟨?_, rfl⟩) (fun _ _ hc => hc) rfl rfl rfl
    rw [← hheap]
    simp only [State.fdOf, hpc] at ho ⊢
    exact ho
  · rename_i fd p hpc
    cases hs
    have hcell : s.cellOf none = some p := by simp only [State.cellOf, owners, hpc, MainPc.cell]
    have hheap := fdOf_heap (v := none) (h.no_load hcell (by rintro _ ⟨⟩))
    refine .same (fun o fd' ho => ⟨?_, rfl⟩) (fun _ _ hc => hc) rfl rfl rfl
    rw [← hheap]
    simp only [State.fdOf, hpc] at ho ⊢
    exact ho
  · rename_i fd hpc
    cases hs
    have hfd : s.fdOf none = some fd := by simp only [State.fdOf, owners, hpc, MainPc.fd]
    refine .same (fun o fd' ho => ?_) (fun _ _ hc => update_none hc) rfl rfl rfl
    cases o with
    | none => cases ho
    | some t => exact ⟨ho, h.close_other hfd (show s.fdOf (some t) = some fd' from ho) (by rintro ⟨⟩)⟩
  · cases hs

theorem worker_flow {t : Tid} (h : Inv inherited s) (hs : step inherited s (.worker t) = some s') : Flow s s' := by
  -- what the other owners have does not change
  have hother : ∀ {pc : WorkerPc} {heap : Addr → Option (Option Fd)} {x : Tid}, x ≠ t →
      (Function.update s.workers t pc x).fd heap = (s.workers x).fd heap := by
    intro pc heap x hx
    rw [Function.update_of_ne hx]
  simp only [step] at hs
  split at hs
  · rename_i p hat
    obtain ⟨fd, hfd⟩ := h.loads t p hat
    simp only [hfd, Option.join_some] at hs
    cases hs
    refine .same (fun o fd' ho => ⟨?_, rfl⟩) (fun _ _ hc => hc) rfl rfl rfl
    cases o with
    | none => exact ho
    | some x =>
      by_cases hx : x = t
      · subst hx
        simp only [State.fdOf, owners, State.setWorker, Function.update_self, WorkerPc.fd] at ho ⊢
        simp only [hat, hfd, Option.join_some]
        exact ho
      · exact (hother hx).symm.trans ho
  · rename_i p fd hat
    cases hs
    have hcell : s.cellOf (some t) = some p := by simp only [State.cellOf, owners, hat, WorkerPc.cell]
    have hnoload := h.no_load hcell (by
      rintro x ⟨⟩
      rw [hat]
      rintro ⟨⟩)
    have hheap := fdOf_heap (v := none) hnoload
    refine .same (fun o fd' ho => ⟨?_, rfl⟩) (fun _ _ hc => hc) rfl rfl rfl
    rw [← hheap]
    cases o with
    | none => exact ho
    | some x =>
      by_cases hx : x = t
      · subst hx
        simp only [State.fdOf, owners, State.setWorker, Function.update_self, WorkerPc.fd] at ho ⊢
        simp only [hat]
        exact ho
      · exact (hother hx).symm.trans ho
  · rename_i fd hat
    cases hs
    have hfd : s.fdOf (some t) = some fd := by simp only [State.fdOf, owners, hat, WorkerPc.fd]
    refine .same (fun o fd' ho => ?_) (fun _ _ hc => update_none hc) rfl rfl rfl
    cases o with
    | none => exact ⟨ho, h.close_other hfd (show s.fdOf none = some fd' from ho) (by rintro ⟨⟩)⟩
    | some x =>
      by_cases hx : x = t
      · subst hx
        simp only [State.fdOf, owners, State.setWorker, Function.update_self, WorkerPc.fd] at ho
        cases ho
      · have hsame : s.fdOf (some x) = some fd' := (hother hx).symm.trans ho
        exact ⟨hsame, h.close_other hfd hsame fun hxt => hx (Option.some.inj hxt)⟩
  · cases hs

theorem step_flow {l : Label} (h : Inv inherited s) (hs : step inherited s l = some s') : Flow s s' := by
  cases l with
  | accept r =>
    simp only [step] at hs
    split at hs
    · rename_i fd hpc
      split at hs <;> cases hs
      rename_i hfree
      have hclosed := not_not.1 (not_or.1 hfree).2
      refine ⟨fun t fd' ho => ⟨?_, .inl ho⟩, ?_, ⟨fd, ?_⟩, .inl rfl, Nat.le_refl _, Nat.le_succ _⟩
      · have hne : fd' ≠ fd := by
          rintro rfl
          exact h.conn_open (show s.fdOf (some t) = some fd' from ho) hclosed
        exact Function.update_of_ne hne ..
      · rintro _ ⟨⟩
        exact .inr (Function.update_self ..)
      · intro fd' c hc
        by_cases hfd : fd' = fd
        · subst hfd
          have hnew : (some s.accepted : Option ConnId) = some c := (Function.update_self fd' _ s.conn).symm.trans hc
          exact .inr ⟨rfl, (Option.some.inj hnew).symm, rfl⟩
        · exact .inl ((Function.update_of_ne hfd ..).symm.trans hc)
    · cases hs
      exact .same (fun _ _ ho => ⟨ho, rfl⟩) (fun _ _ hc => hc) rfl rfl rfl
    · cases hs
  | malloc r =>
    simp only [step] at hs
    split at hs
    · rename_i fd p hpc
      split at hs <;> cases hs
      rename_i hfree
      have hheap := fdOf_heap (s := s) (p := p) (v := some none) (fun t ht => by
        obtain ⟨v, hv⟩ := h.loads t p ht
        rw [not_not.1 hfree] at hv
        cases hv)
      refine .same (fun o fd' ho => ⟨?_, rfl⟩) (fun _ _ hc => hc) rfl rfl rfl
      rw [← hheap]
      simp only [State.fdOf, hpc] at ho ⊢
      exact ho
    · rename_i fd hpc
      cases hs
      refine .same (fun o fd' ho => ⟨?_, rfl⟩) (fun _ _ hc => hc) rfl rfl rfl
      simp only [State.fdOf, hpc] at ho ⊢
      exact ho
    · cases hs
  | create ok =>
    simp only [step] at hs
    split at hs
    · rename_i fd p hpc
      cases ok with
      | false =>
        cases hs
        refine .same (fun o fd' ho => ⟨?_, rfl⟩) (fun _ _ hc => hc) rfl rfl rfl
        simp only [State.fdOf, hpc] at ho ⊢
        exact ho
      | true =>
        cases hs
        refine ⟨fun t fd' ho => ⟨rfl, ?_⟩, by rintro _ ⟨⟩, ⟨0, fun _ _ hc => .inl hc⟩, .inl rfl, Nat.le_succ _, Nat.le_refl _⟩
        by_cases ht : t = s.created
        · subst ht
          refine .inr ⟨Nat.le_refl _, ?_⟩
          have hwritten := h.written fd p hpc
          simp only [State.fdOf, owners, State.setWorker, Function.update_self, WorkerPc.fd, hwritten] at ho
          simp only [State.fdOf, owners, hpc, MainPc.fd]
          exact ho
        · left
          simp only [State.fdOf, owners, State.setWorker, Function.update_of_ne ht] at ho
          exact ho
    · cases hs
  | main => exact main_flow h hs
  | worker t => exact worker_flow h hs
  | io t =>
    simp only [step] at hs
    split at hs
    · rename_i fd hat
      have hfd : s.fdOf (some t) = some fd := by simp only [State.fdOf, owners, hat, WorkerPc.fd]
      have hlt : t < s.created := by
        by_contra hle
        have := h.fresh t (Nat.le_of_not_lt hle)
        rw [hat] at this
        cases this
      split at hs
      · rename_i c hc
        cases hs
        exact ⟨fun _ _ ho => ⟨rfl, .inl ho⟩, fun _ ho => .inl ⟨rfl, ho⟩, ⟨0, fun _ _ hc => .inl hc⟩,
          .inr ⟨t, fd, c, hlt, hfd, hc, rfl⟩, Nat.le_refl _, Nat.le_refl _⟩
      · rename_i hnone
        exact absurd hnone (h.conn_open hfd)
    · cases hs
  | echoed t =>
    simp only [step] at hs
    split at hs
    · rename_i fd hat
      cases hs
      refine .same (fun o fd' ho => ⟨?_, rfl⟩) (fun _ _ hc => hc) rfl rfl rfl
      cases o with
      | none => exact ho
      | some x =>
        by_cases hx : x = t
        · subst hx
          simp only [State.fdOf, owners, State.setWorker, Function.update_self, WorkerPc.fd, hat] at ho ⊢
          exact ho
        · simp only [State.fdOf, owners, State.setWorker, Function.update_of_ne hx] at ho ⊢
          exact ho
    · cases hs

end

/-! ## One client, one thread -/

structure Private (s : State) : Prop where
  one_client : ∀ t c c', (t, c) ∈ s.touched → (t, c') ∈ s.touched → c = c'
  one_thread : ∀ t t' c, (t, c) ∈ s.touched → (t', c) ∈ s.touched → t = t'
  mine       : ∀ t c fd, (t, c) ∈ s.touched → s.fdOf (some t) = some fd → s.conn fd = some c
  owner      : ∀ t c o fd, (t, c) ∈ s.touched → s.fdOf o = some fd → s.conn fd = some c → o = some t
  old        : ∀ t c, (t, c) ∈ s.touched → t < s.created ∧ c < s.accepted
  ids        : ∀ fd c, s.conn fd = some c → c < s.accepted
  once       : ∀ fd fd' c, s.conn fd = some c → s.conn fd' = some c → fd = fd'

section
variable {inherited : List Fd} {s s' : State}

/-- As long as nothing is touched, what is handed on stays private. -/
theorem Private.hand (h : Private s) (hflow : Flow s s') (htouched : s'.touched = s.touched) : Private s' where
  one_client := by
    rw [htouched]
    exact h.one_client
  one_thread := by
    rw [htouched]
    exact h.one_thread
  mine := by
    intro t c fd hmem ho
    rw [htouched] at hmem
    obtain ⟨hconn, hsame | ⟨hnew, -⟩⟩ := hflow.worker t fd ho
    · rw [hconn]
      exact h.mine t c fd hmem hsame
    · exact absurd hnew (Nat.not_le_of_lt (h.old t c hmem).1)
  owner := by
    intro t c o fd hmem ho hc
    rw [htouched] at hmem
    cases o with
    | none =>
      rcases hflow.main fd ho with ⟨hconn, hsame⟩ | hnew
      · exact h.owner t c none fd hmem hsame (hconn.symm.trans hc)
      · obtain rfl : s.accepted = c := Option.some.inj (hnew.symm.trans hc)
        exact absurd (h.old t _ hmem).2 (Nat.lt_irrefl _)
    | some x =>
      obtain ⟨hconn, hsame | ⟨-, hmain⟩⟩ := hflow.worker x fd ho
      · exact h.owner t c (some x) fd hmem hsame (hconn.symm.trans hc)
      · cases h.owner t c none fd hmem hmain (hconn.symm.trans hc)
  old := by
    intro t c hmem
    rw [htouched] at hmem
    obtain ⟨ht, hc⟩ := h.old t c hmem
    exact ⟨Nat.lt_of_lt_of_le ht hflow.created, Nat.lt_of_lt_of_le hc hflow.accepted⟩
  ids := by
    intro fd c hc
    obtain ⟨new, hconn⟩ := hflow.conn
    rcases hconn fd c hc with hc | ⟨-, hnew, hacc⟩
    · exact Nat.lt_of_lt_of_le (h.ids fd c hc) hflow.accepted
    · rw [hnew, hacc]
      exact Nat.lt_succ_self _
  once := by
    intro fd fd' c hc hc'
    obtain ⟨new, hconn⟩ := hflow.conn
    rcases hconn fd c hc with hc | ⟨hfd, hnew, -⟩
    · rcases hconn fd' c hc' with hc' | ⟨-, hnew, -⟩
      · exact h.once fd fd' c hc hc'
      · exact absurd (h.ids fd c hc) (by rw [hnew]; exact Nat.lt_irrefl _)
    · rcases hconn fd' c hc' with hc' | ⟨hfd', -, -⟩
      · exact absurd (h.ids fd' c hc') (by rw [hnew]; exact Nat.lt_irrefl _)
      · rw [hfd, hfd']

/-- A thread reads or writes the connection it owns. -/
theorem Private.touch (h : Private s) (hi : Inv inherited s) {t : Tid} {fd : Fd} {c : ConnId} (ht : t < s.created)
    (hfd : s.fdOf (some t) = some fd) (hc : s.conn fd = some c) :
    Private { s with touched := s.touched ++ [(t, c)] } := by
  have hmem : ∀ {x d}, (x, d) ∈ s.touched ++ [(t, c)] → (x, d) ∈ s.touched ∨ x = t ∧ d = c := by
    intro x d hx
    rcases List.mem_append.1 hx with hx | hx
    · exact .inl hx
    · exact .inr (Prod.mk.inj (List.mem_singleton.1 hx))
  have hmine : ∀ {d}, (t, d) ∈ s.touched → d = c := fun hx =>
    Option.some.inj ((h.mine t _ fd hx hfd).symm.trans hc)
  have howner : ∀ {x}, (x, c) ∈ s.touched → x = t := fun hx =>
    (Option.some.inj (h.owner _ c (some t) fd hx hfd hc)).symm
  refine ⟨?_, ?_, ?_, ?_, ?_, h.ids, h.once⟩
  · intro x d d' hx hx'
    rcases hmem hx with hold | ⟨rfl, rfl⟩ <;> rcases hmem hx' with hold' | ⟨hxt, hd⟩
    · exact h.one_client x d d' hold hold'
    · rw [hd]
      exact hmine (hxt ▸ hold)
    · exact (hmine hold').symm
    · exact hd.symm
  · intro x x' d hx hx'
    rcases hmem hx with hold | ⟨rfl, rfl⟩ <;> rcases hmem hx' with hold' | ⟨hxt, hd⟩
    · exact h.one_thread x x' d hold hold'
    · rw [hxt]
      exact howner (hd ▸ hold)
    · exact (howner hold').symm
    · exact hxt.symm
  · intro x d fd' hx ho
    rcases hmem hx with hx | ⟨rfl, rfl⟩
    · exact h.mine x d fd' hx ho
    · cases hfd.symm.trans ho
      exact hc
  · intro x d o fd' hx ho hd
    rcases hmem hx with hx | ⟨rfl, rfl⟩
    · exact h.owner x d o fd' hx ho hd
    · obtain rfl := h.once fd fd' d hc hd
      exact hi.fds.one ho hfd
  · intro x d hx
    rcases hmem hx with hx | ⟨rfl, rfl⟩
    · exact h.old x d hx
    · exact ⟨ht, h.ids fd d hc⟩

theorem private_step {l : Label} (hi : Inv inherited s) (h : Private s) (hs : step inherited s l = some s') : Private s' := by
  have hflow := step_flow hi hs
  rcases hflow.touched with hsame | ⟨t, fd, c, ht, hfd, hc, htouched⟩
  · exact h.hand hflow hsame
  · -- first what is touched, then what is handed on
    have hfirst := h.touch hi ht hfd hc
    exact hfirst.hand ⟨hflow.worker, hflow.main, hflow.conn, .inl htouched, hflow.created, hflow.accepted⟩ htouched

theorem start_private : Private start :=
  ⟨nofun, nofun, nofun, nofun, nofun, nofun, nofun⟩

theorem private_reach (h : Reach (step inherited) always start s) : Private s := by
  have hboth : Inv inherited s ∧ Private s := by
    refine h.invariant (I := fun s => Inv inherited s ∧ Private s) ⟨start_inv inherited, start_private⟩ ?_
    exact fun _ _ _ hi _ hs => ⟨step_keeps hi.1 hs, private_step hi.1 hi.2 hs⟩
  exact hboth.2

end

/-! ## Every interleaving -/

/-- `main` waits for a client, and no thread is left. -/
def State.Idle (s : State) : Prop := s.pc = .accept ∧ ∀ t, s.workers t = .gone

theorem Inv.idle {inherited : List Fd} {s : State} (h : Inv inherited s) (hidle : s.Idle) :
    (∀ fd, held fd s.fdLog = false) ∧ ∀ p, held p s.cellLog = false := by
  obtain ⟨hpc, hgone⟩ := hidle
  constructor
  · intro fd
    rw [Bool.eq_false_iff]
    intro hheld
    obtain ⟨o, ho⟩ := (h.fds.held_iff fd).1 hheld
    cases o with
    | none => simp only [State.fdOf, owners, hpc, MainPc.fd, reduceCtorEq] at ho
    | some t => simp only [State.fdOf, owners, hgone t, WorkerPc.fd, reduceCtorEq] at ho
  · intro p
    rw [Bool.eq_false_iff]
    intro hheld
    obtain ⟨o, ho⟩ := (h.cells.held_iff p).1 hheld
    cases o with
    | none => simp only [State.cellOf, owners, hpc, MainPc.cell, reduceCtorEq] at ho
    | some t => simp only [State.cellOf, owners, hgone t, WorkerPc.cell, reduceCtorEq] at ho

/-- **One owner each.** No thread uses, closes or frees what is not there, an open descriptor is in one
thread's hands, those from before are never closed; and when all threads have returned, each `accept` has
been closed once and each cell freed once. -/
theorem owned_once {inherited : List Fd} {s : State} (h : Reach (step inherited) always start s) :
    s.bad = false ∧
    (∀ fd, s.conn fd ≠ none → ∃! o, s.fdOf o = some fd) ∧
    (∀ p, s.heap p ≠ none → ∃! o, s.cellOf o = some p) ∧
    (∀ fd ∈ inherited, .closed fd ∉ s.fdLog) ∧
    (∀ fd a b, s.fdLog = a ++ .acquired fd :: b → ended fd b ≤ 1 ∧ (s.Idle → ended fd b = 1)) ∧
    (∀ p a b, s.cellLog = a ++ .acquired p :: b → ended p b ≤ 1 ∧ (s.Idle → ended p b = 1)) := by
  have hi := inv_reach h
  refine ⟨hi.good, ?_, ?_, ?_, ?_, ?_⟩
  · intro fd hfd
    obtain ⟨o, ho⟩ := (hi.fds.held_iff fd).1 ((hi.opened fd).1 hfd)
    exact ⟨o, ho, fun o' ho' => hi.fds.one ho' ho⟩
  · intro p hp
    obtain ⟨o, ho⟩ := (hi.cells.held_iff p).1 ((hi.live p).1 hp)
    exact ⟨o, ho, fun o' ho' => hi.cells.one ho' ho⟩
  · exact fun fd hfd hmem => (hi.foreign fd hfd).2 _ hmem rfl
  · exact fun fd a b hab => ⟨hi.fds.disciplined.ended_le hab, fun hidle => hi.fds.disciplined.ended_eq ((hi.idle hidle).1 fd) hab⟩
  · exact fun p a b hab => ⟨hi.cells.disciplined.ended_le hab, fun hidle => hi.cells.disciplined.ended_eq ((hi.idle hidle).2 p) hab⟩

/-- Two clients; the second one gets the first one's descriptor and cell, its thread is not created. -/
def reuseRun : List Label :=
  [.accept (some 4), .malloc (some 0), .main, .create true, .worker 0, .worker 0, .io 0, .io 0, .echoed 0, .worker 0,
    .accept none, .accept (some 4), .malloc (some 0), .main, .create false, .main, .main]

theorem owned_once_reused : ∃ s, runFrom (step [0, 1, 2, 3]) start reuseRun = some s ∧ s.bad = false ∧
    s.fdLog = [.acquired 4, .closed 4, .acquired 4, .closed 4] ∧ ended 4 [.closed 4, .acquired 4, .closed 4] = 1 := by
  have hend : (runFrom (step [0, 1, 2, 3]) start reuseRun).map (·.fdLog) =
      some [.acquired 4, .closed 4, .acquired 4, .closed 4] := by decide +kernel
  obtain ⟨s, hs, hlog⟩ := Option.map_eq_some_iff.1 hend
  have h := owned_once (runFrom_reach hs)
  have hidle : s.Idle := by
    have hpc : (runFrom (step [0, 1, 2, 3]) start reuseRun).map (·.pc) = some .accept := by rfl
    rw [hs] at hpc
    refine ⟨Option.some.inj hpc, fun t => ?_⟩
    cases hs
    by_cases ht : t = 0
    · subst ht
      rfl
    · exact (inv_reach (runFrom_reach (rfl : runFrom (step [0, 1, 2, 3]) start reuseRun = some _))).fresh t
        (Nat.one_le_iff_ne_zero.2 ht)
  exact ⟨s, hs, h.1, hlog, (h.2.2.2.2.1 4 [] _ hlog).2 hidle⟩

/-- **One client each.** What a thread reads and writes is one client's connection, which no other thread
ever reads or writes, and which it has for as long as it has a descriptor. -/
theorem own_client {inherited : List Fd} {s : State} (h : Reach (step inherited) always start s) {t : Tid} {c : ConnId}
    (hc : (t, c) ∈ s.touched) :
    (∀ t', (t', c) ∈ s.touched ↔ t' = t) ∧ (∀ c', (t, c') ∈ s.touched ↔ c' = c) ∧
    (∀ o fd, s.fdOf o = some fd → (s.conn fd = some c ↔ o = some t)) := by
  have hp := private_reach h
  refine ⟨fun t' => ⟨fun h' => hp.one_thread t' t c h' hc, ?_⟩, fun c' => ⟨fun h' => hp.one_client t c' c h' hc, ?_⟩, ?_⟩
  · rintro rfl
    exact hc
  · rintro rfl
    exact hc
  · intro o fd ho
    constructor
    · exact hp.owner t c o fd hc ho
    · rintro rfl
      exact hp.mine t c fd hc ho

/-- Two threads at once. -/
theorem own_client_two : ∃ s, runFrom (step [0, 1, 2, 3]) start
      [.accept (some 4), .malloc (some 0), .main, .create true, .accept (some 5), .malloc (some 1), .main, .create true,
        .worker 1, .worker 0, .worker 0, .worker 1, .io 1, .io 0, .io 1, .echoed 0] = some s ∧
    s.touched = [(1, 1), (0, 0), (1, 1)] ∧ ∀ t, (t, 1) ∈ s.touched ↔ t = 1 := by
  have hend : (runFrom (step [0, 1, 2, 3]) start
      [.accept (some 4), .malloc (some 0), .main, .create true, .accept (some 5), .malloc (some 1), .main, .create true,
        .worker 1, .worker 0, .worker 0, .worker 1, .io 1, .io 0, .io 1, .echoed 0]).map (·.touched) =
      some [(1, 1), (0, 0), (1, 1)] := by decide +kernel
  obtain ⟨s, hs, htouched⟩ := Option.map_eq_some_iff.1 hend
  exact ⟨s, hs, htouched, (own_client (runFrom_reach hs) (by rw [htouched]; decide)).1⟩

end ComputerSystem.ThreadEcho
