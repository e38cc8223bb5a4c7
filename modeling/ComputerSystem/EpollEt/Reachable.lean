import ComputerSystem.EpollEt.Invariant
/-!
# Every run of the edge-triggered server

`Chapter12/12.2/experiments/epoll_et_echo_server.c:214-350`. `ServerInv` puts every open connection
in the phase that the program counter and the batch give it, keeps the batch to distinct open
connections, and ties the accept queue to the listener's event. Each step keeps it (`step_ok`), so it
holds in every run; both results below are read off it.
-/

namespace ComputerSystem.EpollEt

/-- The keys of the batch: the `data.ptr` of the events still to be handled. -/
def keys (batch : List (Option Ptr × Events)) : List (Option Ptr) := batch.map (·.1)

/-- The phase of a connection that is not in hand. -/
def restPhase (batch : List (Option Ptr × Events)) (p : Ptr) : Phase :=
  if some p ∈ keys batch then .batched else .idle

def phase (batch : List (Option Ptr × Events)) (p : Ptr) : Pc → Phase
  | .conn q pc => if q = p then .hand pc else restPhase batch p
  | _ => restPhase batch p

structure ServerInv (s : Server) : Prop where
  conns    : ∀ p l, s.conns p = some l → ConnInv (phase s.batch p s.pc) l
  hand     : ∀ p pc, s.pc = .conn p pc → (s.conns p).isSome ∧ some p ∉ keys s.batch
  live     : ∀ p, some p ∈ keys s.batch → (s.conns p).isSome
  nodup    : (keys s.batch).Nodup
  listener : 0 < s.backlog → s.lnQueued = true ∨ s.pc = .acceptLoop ∨ s.pc = .exited ∨
    ∃ ready, (none, ready) ∈ s.batch ∧ ready.epollin = true
  waiting  : s.pc = .epollWait → s.batch = []

theorem restPhase_listener (ready : Events) (rest : List (Option Ptr × Events)) (p : Ptr) :
    restPhase ((none, ready) :: rest) p = restPhase rest p := by
  exact if_congr (by simp [keys]) rfl rfl

theorem restPhase_other {p q : Ptr} (h : p ≠ q) (ready : Events) (rest : List (Option Ptr × Events)) :
    restPhase ((some q, ready) :: rest) p = restPhase rest p := by
  exact if_congr (by simp [keys, h]) rfl rfl

theorem phase_other {p q : Ptr} (h : q ≠ p) (batch : List (Option Ptr × Events)) (pc : ConnPc) :
    phase batch p (.conn q pc) = restPhase batch p := by
  simp [phase, h]

theorem phase_hand {batch : List (Option Ptr × Events)} {p : Ptr} {pc : Pc} {c : ConnPc}
    (h : phase batch p pc = .hand c) : pc = .conn p c := by
  have hrest : restPhase batch p ≠ .hand c := by
    unfold restPhase
    split <;> simp
  cases pc with
  | conn q c' =>
    simp only [phase] at h
    split at h
    · rename_i hq
      cases h
      rw [hq]
    · exact absurd h hrest
  | _ => exact absurd h hrest

/-- In the event loop and at `epoll_wait`, clients that wait have an event. -/
theorem ServerInv.listener_event {s : Server} (h : ServerInv s) (hacc : s.pc ≠ .acceptLoop) (hex : s.pc ≠ .exited)
    (hb : 0 < s.backlog) : s.lnQueued = true ∨ ∃ ready, (none, ready) ∈ s.batch ∧ ready.epollin = true := by
  rcases h.listener hb with hq | hq | hq | hq
  · exact .inl hq
  · exact absurd hq hacc
  · exact absurd hq hex
  · exact .inr hq

theorem start_ok (backlog : Nat) : ServerInv (.start backlog) where
  conns := fun _ _ h => nomatch h
  hand := fun _ _ h => nomatch h
  live := fun _ h => nomatch h
  nodup := List.nodup_nil
  listener := fun h => .inl (decide_eq_true h)
  waiting := fun _ => rfl

theorem update_isSome {conns : Ptr → Option Live} {p q : Ptr} {l : Live} (h : (conns q).isSome) :
    (Function.update conns p (some l) q).isSome := by
  by_cases hq : q = p
  · subst hq; simp
  · rw [Function.update_of_ne hq]; exact h

/-- Only the connection at `p` changes, and keeps its phase. -/
theorem ServerInv.setConn {s : Server} (h : ServerInv s) {p : Ptr} {l' : Live}
    (hl : ConnInv (phase s.batch p s.pc) l') :
    ServerInv { s with conns := Function.update s.conns p (some l') } := by
  refine ⟨fun q l hq => ?_, fun q pc hpc => ?_, fun q hq => update_isSome (h.live q hq), h.nodup, h.listener,
    h.waiting⟩
  · by_cases hqp : q = p
    · subst hqp
      simp only [Function.update_self, Option.some.injEq] at hq
      subst hq
      exact hl
    · simp only [Function.update_of_ne hqp] at hq
      exact h.conns q l hq
  · obtain ⟨h1, h2⟩ := h.hand q pc hpc
    exact ⟨update_isSome h1, h2⟩

/-- The program counter moves between places where no connection is in hand. -/
theorem ServerInv.setPc {s : Server} (h : ServerInv s) {pc : Pc} (hfrom : ∀ p c, s.pc ≠ .conn p c)
    (hto : ∀ p c, pc ≠ .conn p c)
    (hlisten : 0 < s.backlog → s.lnQueued = true ∨ pc = .acceptLoop ∨ pc = .exited ∨
      ∃ ready, (none, ready) ∈ s.batch ∧ ready.epollin = true)
    (hwait : pc = .epollWait → s.batch = []) : ServerInv { s with pc := pc } := by
  have hph : ∀ {pc : Pc} (p : Ptr), (∀ q c, pc ≠ .conn q c) → phase s.batch p pc = restPhase s.batch p := by
    intro pc p hne
    cases pc with
    | conn q c => exact absurd rfl (hne q c)
    | _ => rfl
  refine ⟨fun p l hl => ?_, fun p c hc => absurd hc (hto p c), h.live, h.nodup, hlisten, hwait⟩
  have := h.conns p l hl
  rw [hph p hfrom] at this
  show ConnInv (phase s.batch p pc) l
  rwa [hph p hto]

/-- `epoll_wait` moves events from the ready list to the batch. -/
theorem deliver_ok {s : Server} (h : ServerInv s) (hpc : s.pc = .epollWait)
    {events : List (Option Ptr × Events)} (hnodup : (events.map (·.1)).Nodup) (hrep : events.all s.reports = true) :
    ServerInv (s.deliver events) := by
  have hbatch := h.waiting hpc
  refine ⟨fun p l hl => ?_, fun p pc hc => (nomatch hc), fun p hp => ?_, hnodup, fun hb => ?_, fun hc => (nomatch hc)⟩
  · simp only [Server.deliver, Option.map_eq_some_iff] at hl
    obtain ⟨l₀, hl₀, rfl⟩ := hl
    -- with an empty batch every connection was idle
    have hidle : ConnInv .idle l₀ := by
      have := h.conns p l₀ hl₀
      simpa [hpc, hbatch, phase, restPhase, keys] using this
    show ConnInv (restPhase events p) _
    unfold restPhase keys
    split
    · exact ⟨⟨hidle.1.buf, hidle.1.history, hidle.1.eof⟩, hidle.2.1⟩
    · exact hidle
  · -- what is reported is open
    obtain ⟨⟨k, ready⟩, hmem, rfl⟩ := List.mem_map.1 hp
    have hr := List.all_eq_true.1 hrep _ hmem
    simp only [Server.reports] at hr
    split at hr
    · rename_i l hl
      simp [Server.deliver, hl]
    · cases hr
  · by_cases hln : none ∈ events.map (·.1)
    · obtain ⟨⟨k, ready⟩, hmem, rfl⟩ := List.mem_map.1 hln
      have hr := List.all_eq_true.1 hrep _ hmem
      simp only [Server.reports, Bool.and_eq_true, Bool.or_eq_true, decide_eq_true_eq] at hr
      have hb' : 0 < s.backlog := hb
      exact .inr (.inr (.inr ⟨ready, hmem, hr.2.resolve_left (by omega)⟩))
    · rcases h.listener_event (by simp [hpc]) (by simp [hpc]) hb with hq | ⟨ready, hmem, -⟩
      · left
        simp [Server.deliver, hq, hln]
      · rw [hbatch] at hmem; cases hmem

/-- The event loop takes up the listener's event. -/
theorem next_listener_ok {s : Server} (h : ServerInv s) (hpc : s.pc = .eventLoop) {ready : Events}
    {rest : List (Option Ptr × Events)} (hbatch : s.batch = (none, ready) :: rest) {pc : Pc}
    (hto : pc = .exited ∨ pc = .acceptLoop ∨ pc = .eventLoop ∧ ready.epollin = false) :
    ServerInv { s with pc := pc, batch := rest } := by
  have hphase : ∀ p, phase rest p pc = phase s.batch p s.pc := by
    intro p
    rw [hpc, hbatch]
    rcases hto with rfl | rfl | ⟨rfl, -⟩ <;> exact (restPhase_listener ready rest p).symm
  have hnot : ∀ p c, pc ≠ .conn p c := by
    intro p c
    rcases hto with rfl | rfl | ⟨rfl, -⟩ <;> simp
  have hnodup := h.nodup
  rw [hbatch] at hnodup
  refine ⟨fun p l hl => ?_, fun p c hc => absurd hc (hnot p c), fun p hp => h.live p ?_, (List.nodup_cons.1 hnodup).2,
    fun hb => ?_, fun hc => ?_⟩
  · show ConnInv (phase rest p pc) l
    rw [hphase]
    exact h.conns p l hl
  · rw [hbatch]
    exact List.mem_cons_of_mem _ hp
  · rcases hto with rfl | rfl | ⟨rfl, hin⟩
    · exact .inr (.inr (.inl rfl))
    · exact .inr (.inl rfl)
    · rcases h.listener_event (by simp [hpc]) (by simp [hpc]) hb with hq | ⟨ready', hmem, hin'⟩
      · exact .inl hq
      · rw [hbatch] at hmem
        rcases List.mem_cons.1 hmem with heq | hmem
        · cases heq
          rw [hin] at hin'
          cases hin'
        · exact .inr (.inr (.inr ⟨ready', hmem, hin'⟩))
  · rcases hto with rfl | rfl | ⟨rfl, -⟩ <;> cases hc

/-- The event loop takes up a connection's event. -/
theorem next_conn_ok {s : Server} (h : ServerInv s) (hpc : s.pc = .eventLoop) {p : Ptr} {ready : Events}
    {rest : List (Option Ptr × Events)} (hbatch : s.batch = (some p, ready) :: rest) :
    ServerInv { s with pc := .conn p (dispatch ready), batch := rest } := by
  have hnodup := h.nodup
  rw [hbatch] at hnodup
  obtain ⟨hp, hrest⟩ := List.nodup_cons.1 hnodup
  have hlive : (s.conns p).isSome := h.live p (by rw [hbatch]; exact List.mem_cons_self ..)
  refine ⟨fun q l hl => ?_, fun q c hc => ?_, fun q hq => h.live q ?_, hrest, fun hb => ?_, fun hc => (nomatch hc)⟩
  · have hq := h.conns q l hl
    rw [hpc, hbatch] at hq
    by_cases hpq : p = q
    · subst hpq
      have hbat : ConnInv .batched l := by
        simpa [phase, restPhase, keys] using hq
      simp only [phase, if_true]
      exact ⟨hbat.1, dispatch_ok hbat.2⟩
    · show ConnInv (phase rest q (.conn p (dispatch ready))) l
      rw [phase_other hpq, ← restPhase_other (Ne.symm hpq) ready rest]
      exact hq
  · cases hc
    exact ⟨hlive, hp⟩
  · rw [hbatch]
    exact List.mem_cons_of_mem _ hq
  · rcases h.listener_event (by simp [hpc]) (by simp [hpc]) hb with hq | ⟨ready', hmem, hin'⟩
    · exact .inl hq
    · rw [hbatch] at hmem
      rcases List.mem_cons.1 hmem with heq | hmem
      · cases heq
      · exact .inr (.inr (.inr ⟨ready', hmem, hin'⟩))

theorem accepted_inv {s s' : Server} (h : ServerInv s) (hpc : s.pc = .acceptLoop) {a : Accepted}
    (hs : s.accepted a = some s') : ServerInv s' := by
  have hbase : ServerInv { s with backlog := s.backlog - 1 } :=
    ⟨h.conns, h.hand, h.live, h.nodup, fun _ => .inr (.inl hpc), h.waiting⟩
  simp only [Server.accepted] at hs
  split at hs
  · cases hs; exact hbase
  · rename_i p _
    split at hs
    · cases hs
    · rename_i hfree
      split at hs <;> cases hs
      · refine hbase.setConn ?_
        -- a free address is in no batch
        have hp : some p ∉ keys s.batch := fun hmem => hfree (h.live p hmem)
        have hph : phase s.batch p s.pc = .idle := by
          rw [hpc]
          simp only [phase, restPhase, if_neg hp]
        show ConnInv (phase s.batch p s.pc) a.live
        rw [hph]
        exact accepted_ok a
      · exact hbase

/-- The connection in hand is changed or closed; the others keep their phase, whether the next counter
holds `p` or not. -/
theorem ServerInv.put {s : Server} (h : ServerInv s) {p : Ptr} {pc : ConnPc} (hpc : s.pc = .conn p pc) {pc' : Pc}
    {o : Option Live} (hto : pc' = .eventLoop ∨ ∃ c, pc' = .conn p c ∧ o.isSome = true)
    (hself : ∀ l, o = some l → ConnInv (phase s.batch p pc') l) :
    ServerInv { s with pc := pc', conns := Function.update s.conns p o } := by
  obtain ⟨-, hnot⟩ := h.hand p pc hpc
  have hother : ∀ q, p ≠ q → phase s.batch q pc' = restPhase s.batch q := by
    intro q hpq
    rcases hto with rfl | ⟨c, rfl, -⟩
    · rfl
    · exact phase_other hpq s.batch c
  refine ⟨fun q l hl => ?_, fun q c hc => ?_, fun q hq => ?_, h.nodup, fun hb => ?_, fun hc => ?_⟩
  · show ConnInv (phase s.batch q pc') l
    by_cases hpq : p = q
    · subst hpq
      simp only [Function.update_self] at hl
      exact hself l hl
    · simp only [Function.update_of_ne (Ne.symm hpq)] at hl
      have hq := h.conns q l hl
      rw [hpc, phase_other hpq] at hq
      rw [hother q hpq]
      exact hq
  · rcases hto with rfl | ⟨c', rfl, hsome⟩
    · cases hc
    · cases hc
      exact ⟨by simpa using hsome, hnot⟩
  · -- the connection in hand has no event left in the batch
    have hqp : q ≠ p := fun heq => hnot (heq ▸ hq)
    simp only [Function.update_of_ne hqp]
    exact h.live q hq
  · rcases h.listener_event (by simp [hpc]) (by simp [hpc]) hb with hq | hq
    · exact .inl hq
    · exact .inr (.inr (.inr hq))
  · rcases hto with rfl | ⟨c, rfl, -⟩ <;> cases hc

/-- The event loop's body moves on, with the connection still in hand or done with. -/
theorem io_ok {s s' : Server} (h : ServerInv s) {i : Io} (hs : step s (.io i) = some s') : ServerInv s' := by
  simp only [step] at hs
  split at hs
  · rename_i p pc hpc
    split at hs
    · cases hs
    · rename_i l hl
      obtain ⟨-, hnot⟩ := h.hand p pc hpc
      have hin : ConnInv (.hand pc) l := by
        have := h.conns p l hl
        simpa only [hpc, phase, if_true] using this
      split at hs
      · cases hs
      · rename_i pc' l' ho
        cases hs
        apply h.put hpc (.inr ⟨pc', rfl, rfl⟩)
        intro l₁ heq
        cases heq
        simp only [phase, if_true]
        exact connStep_ok hin.1 hin.2 ho
      · rename_i l' ho
        cases hs
        apply h.put hpc (.inl rfl)
        intro l₁ heq
        cases heq
        show ConnInv (restPhase s.batch p) l'
        rw [restPhase, if_neg hnot]
        exact connStep_ok hin.1 hin.2 ho
      · cases hs
        apply h.put hpc (.inl rfl)
        intro l₁ heq
        cases heq
  · cases hs

/-- **Step lemma.** -/
theorem step_ok (s : Server) (lab : Label) (s' : Server) (h : ServerInv s) (hs : step s lab = some s') :
    ServerInv s' := by
  cases lab with
  | env p e =>
    simp only [step] at hs
    split at hs
    · cases hs
    · rename_i l hl
      obtain ⟨l', he, rfl⟩ := Option.map_eq_some_iff.1 hs
      exact h.setConn (envStep_ok (h.conns p l hl) he)
  | connect =>
    cases hs
    exact ⟨h.conns, h.hand, h.live, h.nodup, fun _ => .inl rfl, h.waiting⟩
  | dropListener =>
    simp only [step] at hs
    split at hs <;> cases hs
    rename_i h0
    exact ⟨h.conns, h.hand, h.live, h.nodup, fun hb => absurd h0 (Nat.pos_iff_ne_zero.1 hb), h.waiting⟩
  | epollWait r =>
    simp only [step] at hs
    split at hs
    · rename_i events hpc
      split at hs <;> cases hs
      rename_i hg
      exact deliver_ok h hpc hg.2.1 hg.2.2
    · cases hs; exact h
    · rename_i hpc
      cases hs
      exact h.setPc (by simp [hpc]) (by simp) (fun _ => .inr (.inr (.inl rfl))) (by simp)
    · cases hs
  | next =>
    simp only [step] at hs
    split at hs
    · rename_i hpc hbatch
      cases hs
      refine h.setPc (by simp [hpc]) (by simp) (fun hb => ?_) fun _ => hbatch
      rcases h.listener_event (by simp [hpc]) (by simp [hpc]) hb with hq | ⟨ready, hmem, -⟩
      · exact .inl hq
      · rw [hbatch] at hmem; cases hmem
    · rename_i ready rest hpc hbatch
      split at hs
      · cases hs
        exact next_listener_ok h hpc hbatch (.inl rfl)
      · split at hs <;> cases hs
        · exact next_listener_ok h hpc hbatch (.inr (.inl rfl))
        · rename_i hin
          have hnext : ServerInv { s with pc := .eventLoop, batch := rest } :=
            next_listener_ok h hpc hbatch (.inr (.inr ⟨rfl, by simpa using hin⟩))
          rw [← hpc] at hnext
          exact hnext
    · rename_i p ready rest hpc hbatch
      cases hs
      exact next_conn_ok h hpc hbatch
    · cases hs
  | accept r =>
    simp only [step] at hs
    split at hs
    · rename_i hpc
      split at hs
      · exact accepted_inv h hpc hs
      · cases hs
    · cases hs; exact h
    · rename_i hpc
      split at hs <;> cases hs
      rename_i h0
      exact h.setPc (by simp [hpc]) (by simp) (fun hb => absurd h0 (Nat.pos_iff_ne_zero.1 hb)) (by simp)
    · rename_i hpc
      cases hs
      exact h.setPc (by simp [hpc]) (by simp) (fun _ => .inr (.inr (.inl rfl))) (by simp)
    · cases hs
  | io i => exact io_ok h hs

theorem reach_ok {backlog : Nat} {s : Server} (h : Reach step always (.start backlog) s) : ServerInv s :=
  h.invariant (start_ok backlog) fun s lab s' hi _ hs => step_ok s lab s' hi hs

/-! ## Conservation of bytes -/

/-- Inside `drain_input` (`:165-212`). -/
def ConnPc.inDrain : ConnPc → Bool
  | .drainLoop _ | .appendCall _ _ | .appendRet _ _ | .flushLoop _ .drain | .flushRet _ .drain _ => true
  | _ => false

/-- The local `failed` is set, or the call that sets it has returned. -/
def ConnPc.failed : ConnPc → Bool
  | .drainRet _ true | .decide true | .close .failed => true
  | _ => false

theorem HandOk.conserved {pc : ConnPc} {l : Live} (h : HandOk pc l) (hd : pc.inDrain = false)
    (hf : pc.failed = false) : Conserved l := by
  unfold HandOk at h
  split at h
  · cases hd
  · cases hd
  · cases hf
  · cases hf
  · cases hf
  · exact h.1
  · exact h.1
  · exact h

/-- Two bytes arrive, are read and written one at a time, and the peer closes. -/
def closingRun : List Label :=
  [.epollWait (.ok [(none, ⟨true, false, false, false, false⟩)]), .next,
    .accept (.ok ⟨5, some 100, [7, 8], false, true, false, false, true⟩), .accept (.error .EAGAIN), .next,
    .epollWait (.ok [(some 100, ⟨true, false, false, false, false⟩)]), .next, .io (.read (.ok 2)),
    .env 100 .peerFin, .io (.append true), .io .tau, .io (.write (.ok 1) true), .io (.write (.ok 1) true),
    .io .tau, .io .tau, .io (.read (.ok 0)), .io .tau, .io .tau]

/-- One of two bytes is written; room and the FIN come before `EPOLL_CTL_MOD`. -/
def pendingRun : List Label :=
  [.epollWait (.ok [(none, ⟨true, false, false, false, false⟩)]), .next,
    .accept (.ok ⟨5, some 100, [7, 8], false, true, false, false, true⟩), .accept (.error .EAGAIN), .next,
    .epollWait (.ok [(some 100, ⟨true, false, false, false, false⟩)]), .next, .io (.read (.ok 2)),
    .io (.append true), .io .tau, .io (.write (.ok 1) false), .io (.write (.error .EAGAIN) false), .io .tau,
    .io (.read (.error .EAGAIN)), .env 100 .space, .env 100 .peerFin, .io .tau, .io .tau, .io (.modify true), .next]

end ComputerSystem.EpollEt
