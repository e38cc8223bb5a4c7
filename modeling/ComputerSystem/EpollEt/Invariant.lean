import ComputerSystem.EpollEt.Server
/-!
# What holds of a connection in each phase

A connection is idle, or it has an event in the batch, or the event loop has it in hand at some
`ConnPc`. `ConnInv` says for each of these what holds of it: the bytes are conserved except between
`read` and the end of `append_output` and after a failure; while the connection is idle its
registration is the one it needs and no readiness is without a queued event.

`envStep_ok` and `connStep_ok` are the two step lemmas; a move of the peer keeps every phase, a step
of the program leads from one phase to the next.
-/

namespace ComputerSystem.EpollEt

/-- The buffer is sound, the socket's history is cut at what was read, and the EOF flag is right. -/
structure LiveOk (l : Live) : Prop where
  buf     : BufOk l.conn
  history : l.sock.received = l.sock.readBytes ++ l.sock.inq
  eof     : l.conn.peerEof = true → l.sock.fin = true ∧ l.sock.inq = []

/-- The bytes written and the bytes pending are the bytes read. -/
def Conserved (l : Live) : Prop := l.sock.written ++ l.conn.pending = l.sock.readBytes

/-- The registration is the one the connection needs, and what it waits for is on the ready list if
it is there already. -/
structure Armed (l : Live) : Prop where
  mask   : l.mask = connectionEvents l.conn
  unfinished : ¬ (l.conn.peerEof = true ∧ pendingOutput l.conn = 0)
  input  : l.conn.peerEof = false → l.sock.inq ≠ [] ∨ l.sock.fin = true → l.queued.epollin = true
  output : 0 < pendingOutput l.conn → l.sock.writable = true → l.queued.epollout = true

/-- What holds of the connection in hand. -/
def HandOk : ConnPc → Live → Prop
  | .appendCall _ data, l => l.sock.written ++ l.conn.pending ++ data = l.sock.readBytes
  | .appendRet _ (.error _), _ => True
  | .drainRet _ true, _ => True
  | .decide true, _ => True
  | .close .failed, _ => True
  | .close .peerDone, l => Conserved l ∧ l.conn.peerEof = true ∧ pendingOutput l.conn = 0
  | .modify, l => Conserved l ∧ ¬ (l.conn.peerEof = true ∧ pendingOutput l.conn = 0)
  | _, l => Conserved l

inductive Phase
  | idle
  | batched
  | hand (pc : ConnPc)

def ConnInv : Phase → Live → Prop
  | .idle, l => LiveOk l ∧ Conserved l ∧ Armed l
  | .batched, l => LiveOk l ∧ Conserved l
  | .hand pc, l => LiveOk l ∧ HandOk pc l

/-! ## Moves of the peer -/

@[simp] theorem wake_epollin (l : Live) (bits : Events) :
    (l.wake bits).queued.epollin = (l.queued.epollin || l.mask.epollin && bits.epollin) := rfl

@[simp] theorem wake_epollout (l : Live) (bits : Events) :
    (l.wake bits).queued.epollout = (l.queued.epollout || l.mask.epollout && bits.epollout) := rfl

@[simp] theorem connectionEvents_epollin (conn : Connection) :
    (connectionEvents conn).epollin = !conn.peerEof := rfl

@[simp] theorem connectionEvents_epollout (conn : Connection) :
    (connectionEvents conn).epollout = decide (0 < pendingOutput conn) := rfl

/-- A move of the peer leaves the user's side and what was read and written alone. -/
theorem envStep_frame {l l' : Live} {e : Env} (h : envStep l e = some l') :
    l'.conn = l.conn ∧ l'.mask = l.mask ∧ l'.sock.written = l.sock.written ∧
      l'.sock.readBytes = l.sock.readBytes := by
  cases e <;> simp only [envStep] at h
  case arrive =>
    split at h <;> cases h
    exact ⟨rfl, rfl, rfl, rfl⟩
  all_goals
    cases h
    exact ⟨rfl, rfl, rfl, rfl⟩

theorem envStep_live {l l' : Live} {e : Env} (hl : LiveOk l) (h : envStep l e = some l') : LiveOk l' := by
  obtain ⟨hbuf, hhist, heof⟩ := hl
  cases e <;> simp only [envStep] at h
  case arrive data =>
    split at h
    · cases h
    · rename_i hfin
      cases h
      refine ⟨hbuf, ?_, fun hp => absurd (heof hp).1 hfin⟩
      show l.sock.received ++ data = l.sock.readBytes ++ (l.sock.inq ++ data)
      rw [hhist, List.append_assoc]
  case peerFin =>
    cases h
    exact ⟨hbuf, hhist, fun hp => ⟨rfl, (heof hp).2⟩⟩
  all_goals
    cases h
    exact ⟨hbuf, hhist, heof⟩

/-- Input, EOF or room that comes while the connection is idle queues its event. -/
theorem envStep_armed {l l' : Live} {e : Env} (ha : Armed l) (h : envStep l e = some l') : Armed l' := by
  obtain ⟨hmask, hopen, hin, hout⟩ := ha
  cases e <;> simp only [envStep] at h
  case arrive data =>
    split at h <;> cases h
    refine ⟨hmask, hopen, fun hp _ => ?_, fun hpend hw => ?_⟩
    · have hp' : l.conn.peerEof = false := hp
      simp [hmask, hp']
    · have := hout hpend hw
      simp [this]
  case peerFin =>
    cases h
    refine ⟨hmask, hopen, fun hp _ => ?_, fun hpend hw => ?_⟩
    · have hp' : l.conn.peerEof = false := hp
      simp [hmask, hp']
    · have := hout hpend hw
      simp [this]
  case space =>
    cases h
    refine ⟨hmask, hopen, fun hp hi => ?_, fun hpend _ => ?_⟩
    · have := hin hp hi
      simp [this]
    · have hpend' : 0 < pendingOutput l.conn := hpend
      simp [hmask, hpend']
  case dropStale =>
    cases h
    refine ⟨hmask, hopen, fun hp hi => ?_, fun hpend hw => ?_⟩
    · have hq := hin hp hi
      -- the bit still holds, so it is not stale
      have hnow : l.sock.readiness.epollin = true := by
        rcases hi with hi | hi
        · simp [Sock.readiness, show l.sock.inq ≠ [] from hi]
        · simp [Sock.readiness, show l.sock.fin = true from hi]
      simp [Events.inter, hq, hnow]
    · have hq := hout hpend hw
      have hnow : l.sock.readiness.epollout = true := hw
      simp [Events.inter, hq, hnow]
  all_goals
    cases h
    refine ⟨hmask, hopen, fun hp hi => ?_, fun hpend hw => ?_⟩
    · have := hin hp hi
      simp [this]
    · have := hout hpend hw
      simp [this]

theorem Conserved.congr {l l' : Live} (hc : l'.conn = l.conn) (hw : l'.sock.written = l.sock.written)
    (hr : l'.sock.readBytes = l.sock.readBytes) : Conserved l' ↔ Conserved l := by
  simp only [Conserved, hc, hw, hr]

/-- What is in hand depends on the user's side and on what was read and written. -/
theorem HandOk.congr {l l' : Live} (hc : l'.conn = l.conn) (hw : l'.sock.written = l.sock.written)
    (hr : l'.sock.readBytes = l.sock.readBytes) {pc : ConnPc} (h : HandOk pc l) : HandOk pc l' := by
  have hcons := Conserved.congr hc hw hr
  unfold HandOk at h ⊢
  split <;> simp_all

/-- **A move of the peer** keeps the phase. -/
theorem envStep_ok {ph : Phase} {l l' : Live} {e : Env} (hi : ConnInv ph l) (h : envStep l e = some l') :
    ConnInv ph l' := by
  obtain ⟨hc, -, hw, hr⟩ := envStep_frame h
  cases ph with
  | idle => exact ⟨envStep_live hi.1 h, (Conserved.congr hc hw hr).2 hi.2.1, envStep_armed hi.2.2 h⟩
  | batched => exact ⟨envStep_live hi.1 h, (Conserved.congr hc hw hr).2 hi.2⟩
  | hand pc => exact ⟨envStep_live hi.1 h, HandOk.congr hc hw hr hi.2⟩

/-! ## Steps of the program -/

theorem consume_ok {l : Live} (hl : LiveOk l) (hc : Conserved l) {n : Nat} (hn : n + 1 ≤ l.sock.inq.length) :
    LiveOk (l.consume (n + 1)) ∧
      (l.consume (n + 1)).sock.written ++ (l.consume (n + 1)).conn.pending ++ l.sock.inq.take (n + 1) =
        (l.consume (n + 1)).sock.readBytes := by
  refine ⟨⟨hl.buf, ?_, fun hp => ?_⟩, ?_⟩
  · show l.sock.received = l.sock.readBytes ++ l.sock.inq.take (n + 1) ++ l.sock.inq.drop (n + 1)
    rw [List.append_assoc, List.take_append_drop, hl.history]
  · -- after EOF there is nothing to read
    have := (hl.eof hp).2
    simp [this] at hn
  · show l.sock.written ++ l.conn.pending ++ l.sock.inq.take (n + 1) = l.sock.readBytes ++ l.sock.inq.take (n + 1)
    rw [show l.sock.written ++ l.conn.pending = l.sock.readBytes from hc]

theorem emit_ok {l : Live} (hl : LiveOk l) (hc : Conserved l) {n : Nat} {writable : Bool}
    (hn : n ≤ pendingOutput l.conn) : LiveOk (l.emit n writable) ∧ Conserved (l.emit n writable) := by
  obtain ⟨hbuf, hpend⟩ := advanceOutput_ok hl.buf hn
  refine ⟨⟨hbuf, hl.history, hl.eof⟩, ?_⟩
  show l.sock.written ++ l.conn.pending.take n ++ (advanceOutput l.conn n).pending = l.sock.readBytes
  rw [hpend, List.append_assoc, List.take_append_drop]
  exact hc

theorem reset_ok {l : Live} (hl : LiveOk l) (hc : Conserved l) (h0 : ¬ pendingOutput l.conn > 0) :
    LiveOk { l with conn := resetOutput l.conn } ∧ Conserved { l with conn := resetOutput l.conn } := by
  obtain ⟨hbuf, hpend⟩ := resetOutput_ok hl.buf (by omega)
  refine ⟨⟨hbuf, hl.history, hl.eof⟩, ?_⟩
  show l.sock.written ++ (resetOutput l.conn).pending = l.sock.readBytes
  rw [hpend]
  exact hc

/-- After `append_output` the bytes in transit are pending, or the connection has failed. -/
theorem append_ok {l : Live} (hl : LiveOk l) {ready : Events} {data : Bytes}
    (hc : l.sock.written ++ l.conn.pending ++ data = l.sock.readBytes) {reallocOk : Bool}
    {rc : Except Errno Unit} {conn : Connection} (h : appendOutput l.conn data reallocOk = some (rc, conn)) :
    LiveOk { l with conn := conn } ∧ HandOk (.appendRet ready rc) { l with conn := conn } := by
  obtain ⟨rc', conn', heq, hbuf, heof, -, hrc⟩ := appendOutput_spec hl.buf data reallocOk
  rw [heq] at h
  cases h
  refine ⟨⟨hbuf, hl.history, fun hp => hl.eof (heof ▸ hp)⟩, ?_⟩
  rcases hrc with ⟨rfl, hpend⟩ | ⟨⟨e, rfl⟩, -⟩
  · show l.sock.written ++ conn.pending = l.sock.readBytes
    rw [hpend, ← List.append_assoc]
    exact hc
  · trivial

theorem eof_ok {l : Live} (hl : LiveOk l) (hc : Conserved l) (h : l.sock.inq = [] ∧ l.sock.fin = true) :
    LiveOk { l with conn := { l.conn with peerEof := true } } ∧
      Conserved { l with conn := { l.conn with peerEof := true } } :=
  ⟨⟨⟨hl.buf.window, hl.buf.inside, hl.buf.max, hl.buf.size⟩, hl.history, fun _ => ⟨h.2, h.1⟩⟩, hc⟩

/-- **`ADD` and `MOD`** arm a connection: what it waits for and is there already is queued. -/
theorem register_armed {l : Live} (h : ¬ (l.conn.peerEof = true ∧ pendingOutput l.conn = 0)) :
    Armed l.register := by
  refine ⟨rfl, h, fun hp hi => ?_, fun hpend hw => ?_⟩
  · have hp' : l.conn.peerEof = false := hp
    rcases hi with hi | hi
    · simp [Live.register, hp', Sock.readiness, show l.sock.inq ≠ [] from hi]
    · simp [Live.register, hp', Sock.readiness, show l.sock.fin = true from hi]
  · have hpend' : 0 < pendingOutput l.conn := hpend
    simp [Live.register, hpend', Sock.readiness, show l.sock.writable = true from hw]

theorem afterDrain_ok {ready : Events} {failed : Bool} {l : Live} (h : failed = false → Conserved l) :
    HandOk (afterDrain ready failed) l := by
  cases failed with
  | true => trivial
  | false =>
    unfold afterDrain
    split
    · exact h rfl
    · exact h rfl

theorem dispatch_ok {ready : Events} {l : Live} (hc : Conserved l) : HandOk (dispatch ready) l := by
  unfold dispatch
  split
  · exact hc
  · split
    · exact hc
    · exact afterDrain_ok fun _ => hc

def OutcomeOk : Outcome → Prop
  | .stay pc l => LiveOk l ∧ HandOk pc l
  | .done l => LiveOk l ∧ Conserved l ∧ Armed l
  | .closed => True

/-- **A step of the event loop's body** leads from one phase to the next. -/
theorem connStep_ok {l : Live} {pc : ConnPc} {io : Io} {o : Outcome} (hl : LiveOk l) (hh : HandOk pc l)
    (h : connStep l pc io = some o) : OutcomeOk o := by
  unfold connStep at h
  split at h
  · -- read: EOF
    split at h <;> cases h
    rename_i hg
    exact eof_ok hl hh hg
  · -- read: n bytes
    split at h <;> cases h
    rename_i hg
    exact consume_ok hl hh hg.2
  · cases h; exact ⟨hl, hh⟩
  · split at h <;> cases h
    exact ⟨hl, hh⟩
  · cases h; exact ⟨hl, trivial⟩
  · -- append_output
    split at h <;> cases h
    rename_i heq
    exact append_ok hl hh heq
  · cases h; exact ⟨hl, hh⟩
  · cases h; exact ⟨hl, trivial⟩
  · -- flush_output: nothing left
    split at h <;> cases h
    rename_i hg
    exact reset_ok hl hh hg
  · split at h <;> cases h
    exact ⟨hl, hh⟩
  · -- write: n bytes
    split at h <;> cases h
    rename_i hg
    exact emit_ok hl hh hg.1
  · split at h <;> cases h
    exact ⟨hl, hh⟩
  · split at h <;> cases h
    exact ⟨hl, hh⟩
  · split at h <;> cases h
    exact ⟨hl, hh⟩
  · cases h; exact ⟨hl, hh⟩
  · cases h; exact ⟨hl, trivial⟩
  · -- the flush of `main`: the flag `failed` is what it returned
    cases h
    rename_i ok
    cases ok with
    | true => exact ⟨hl, hh⟩
    | false => exact ⟨hl, trivial⟩
  · cases h
    rename_i failed
    refine ⟨hl, afterDrain_ok fun hf => ?_⟩
    subst hf
    exact hh
  · -- the test of `failed`
    rename_i failed
    cases failed with
    | true => cases h; exact ⟨hl, trivial⟩
    | false =>
      simp only [Bool.false_eq_true, if_false] at h
      split at h <;> cases h
      · rename_i hg
        exact ⟨hl, hh, hg⟩
      · rename_i hg
        exact ⟨hl, hh, hg⟩
  · split at h <;> cases h
    · exact ⟨⟨hl.buf, hl.history, hl.eof⟩, hh.1, register_armed hh.2⟩
    · exact ⟨hl, hh.1⟩
  · cases h; trivial
  · cases h

/-- A connection fresh from `accept4` is armed. -/
theorem accepted_ok (a : Accepted) : ConnInv .idle a.live :=
  ⟨⟨new_ok a.fd, rfl, fun h => nomatch h⟩, rfl, register_armed fun h => nomatch h.1⟩

end ComputerSystem.EpollEt
