import ComputerSystem.Rio.Segments
/-!
# The line-buffered echo servers

One loop serves a client in each of three programs: `echo` of `Chapter12/12.3/experiments/thread_echo_server.c:26-43`
and of `Chapter12/12.1/experiments/process_echo_server.c:49-66`, and the inner loop of `main` of
`Chapter10/experiments/uds_server.c:98-115`, which changes each line in place before it goes back.

| here            | there                                                                       |
|-----------------|-----------------------------------------------------------------------------|
| `inPlace`       | the loop of `buf_toupper` (`uds_server.c:46-49`), for any function on bytes   |
| `Echo.stop`     | how the loop has ended, none while it goes on                                |
| `echoRound`     | one turn of the `while`: `rio_readlineb`, the change, `rio_writen`            |
| `echoLoop`      | at most so many turns                                                        |

The schedules of `read(2)` and `write(2)` are lists; where one ends, the run stands inside that call,
so every point of a run is the end of a run with shorter schedules. What the programs print is left
out.
-/

namespace ComputerSystem.LineEcho

open Rio

/-- `for (i = 0; i < len; i++) buf[i] = f(buf[i])` -/
def inPlace (f : UInt8 → UInt8) (buf : Bytes) (len : Nat) : Bytes :=
  (List.range len).foldl (fun buf i => buf.set i (f (buf.getD i 0))) buf

/-- `toupper` of `ctype.h` in the C locale. -/
def toupper (c : UInt8) : UInt8 := if 97 ≤ c ∧ c ≤ 122 then c - 32 else c

/-- `buf_toupper` (`uds_server.c:46`). -/
def bufToupper (buf : Bytes) (len : Nat) : Bytes := inPlace toupper buf len

inductive Stop
  | eof
  | readError
  | writeError
  /-- inside `read(2)` or `write(2)` -/
  | blocked
deriving DecidableEq, Repr

/-- A connection in the hands of the loop: what is left of the outcomes of `write(2)`, and what has
been written. -/
structure Echo where
  rio   : RioT
  fd    : Fd
  sched : List WriteOutcome
  sent  : Bytes
  stop  : Option Stop

/-- One turn of the loop; `transform` is what happens to the buffer between the two calls. -/
def echoRound (maxlen : Nat) (transform : Bytes → Nat → Bytes) (e : Echo) : Echo :=
  let c := rioReadlineb e.rio e.fd maxlen
  match c.ret with
  | none => { e with rio := c.rio, fd := c.fd, stop := some .blocked }
  | some n =>
    if n > 0 then
      let buf := transform c.usrbuf n.toNat
      let w := rioWriten e.sched (buf.take n.toNat)
      { rio   := c.rio
        fd    := c.fd
        sched := w.sched
        sent  := e.sent ++ w.sent
        stop  := match w.ret with
          | none => some .blocked
          | some r => if r = n then none else some .writeError }
    else { e with rio := c.rio, fd := c.fd, stop := some (if n < 0 then .readError else .eof) }

def echoLoop (maxlen : Nat) (transform : Bytes → Nat → Bytes) : Nat → Echo → Echo
  | 0, e => e
  | rounds + 1, e =>
    if e.stop.isSome then e else echoLoop maxlen transform rounds (echoRound maxlen transform e)

/-- `rio_initb` and the loop, on a client that sends `stream` and closes its side. -/
def serve (maxlen : Nat) (transform : Bytes → Nat → Bytes) (rp : RioT) (stream : Bytes)
    (rsched : List ReadOutcome) (wsched : List WriteOutcome) (rounds : Nat) : Echo :=
  echoLoop maxlen transform rounds ⟨rioInitb rp, ⟨stream, rsched⟩, wsched, [], none⟩

def MAXLINE : Nat := 1024

/-- `echo` of the thread server (`thread_echo_server.c:26`). -/
def threadEcho := serve MAXLINE fun buf _ => buf

/-- `echo` of the process server (`process_echo_server.c:49`). -/
def processEcho := serve MAXLINE fun buf _ => buf

/-- The inner loop of `uds_server.c` (`:98-115`). -/
def udsEcho := serve RIO_BUFSIZE bufToupper

/-! ## The change in place -/

theorem inPlace_succ (f : UInt8 → UInt8) (buf : Bytes) (len : Nat) :
    inPlace f buf (len + 1) = (inPlace f buf len).set len (f ((inPlace f buf len).getD len 0)) := by
  simp only [inPlace, List.range_succ, List.foldl_append, List.foldl_cons, List.foldl_nil]

/-- Each of the first `len` bytes is changed once, and no other. -/
theorem inPlace_eq (f : UInt8 → UInt8) (buf : Bytes) : ∀ len, len ≤ buf.length →
    inPlace f buf len = (buf.take len).map f ++ buf.drop len := by
  intro len
  induction len with
  | zero =>
    intro _
    simp [inPlace]
  | succ len ih =>
    intro hle
    rw [inPlace_succ, ih (by omega)]
    have hlen : ((buf.take len).map f).length = len := by
      rw [List.length_map, List.length_take]
      omega
    have hdrop : buf.drop len = buf[len] :: buf.drop (len + 1) := List.drop_eq_getElem_cons (by omega)
    have hget : ((buf.take len).map f ++ buf.drop len).getD len 0 = buf[len] := by
      rw [List.getD_eq_getElem?_getD, List.getElem?_append_right (by omega), hlen, Nat.sub_self, hdrop]
      rfl
    have htake : buf.take (len + 1) = buf.take len ++ [buf[len]] := (List.take_append_getElem (by omega)).symm
    rw [hget, List.set_append_right _ _ (by omega), hlen, Nat.sub_self, hdrop, htake, List.map_append,
      List.set_cons_zero, List.append_assoc]
    rfl

/-! ## One turn -/

section
variable {m : Nat} {f : UInt8 → UInt8} {transform : Bytes → Nat → Bytes}

/-- The first `len` bytes of the changed buffer are the images of those read. -/
def Maps (transform : Bytes → Nat → Bytes) (f : UInt8 → UInt8) : Prop :=
  ∀ buf : Bytes, (transform buf buf.length).take buf.length = buf.map f

theorem maps_id : Maps (fun buf _ => buf) id := by
  intro buf
  rw [List.take_length, List.map_id]

theorem maps_inPlace (f : UInt8 → UInt8) : Maps (inPlace f) f := by
  intro buf
  rw [inPlace_eq f buf _ (Nat.le_refl _), List.take_length, List.drop_length, List.append_nil]
  exact List.take_of_length_le (by rw [List.length_map])

/-- What a turn makes of a connection that has answered all the bytes taken from it: it goes on, one
more piece taken and answered, or it has stopped. -/
theorem echoRound_cases (hf : Maps transform f) {e : Echo} (hok : e.rio.Ok) :
    let e' := echoRound (m + 1) transform e
    e'.rio.Ok ∧ e'.fd.sched <:+ e.fd.sched ∧ e'.sched <:+ e.sched ∧
    ∃ line, line ++ rest e'.rio e'.fd = rest e.rio e.fd ∧ ∃ out, e'.sent = e.sent ++ out ∧ out <+: line.map f ∧
      ((e'.stop = none ∧ line ≠ [] ∧ out = line.map f ∧ writes e.sched ≤ writes e'.sched + out.length ∧
          (Spent 0 e.fd e'.fd ∨ Spent 1 e.fd e'.fd ∧ (rest e'.rio e'.fd = [] ∨ .count 0 ∈ e.fd.sched))) ∨
        (e'.stop = some .eof ∧ line = [] ∧ (0 < m → rest e.rio e.fd = [] ∨ .count 0 ∈ e.fd.sched)) ∨
        (e'.stop = some .readError ∧ .error ∈ e.fd.sched) ∨
        (e'.stop = some .writeError ∧ ¬ NoWriteFails e.sched) ∨
        (e'.stop = some .blocked ∧ (e'.fd.sched = [] ∧ Spent 0 e.fd e'.fd ∨
          e'.sched = [] ∧ writes e.sched ≤ out.length ∧ out.length < line.length))) := by
  obtain ⟨hok', hcons⟩ := rioReadlineb_ok hok e.fd (m + 1)
  have hspec := rioReadlineb_spec hok e.fd m
  simp only [echoRound]
  generalize rioReadlineb e.rio e.fd (m + 1) = c at hok' hcons hspec
  obtain ⟨ret, line, rp', fd'⟩ := c
  simp only at hok' hcons hspec
  rcases hspec with ⟨rfl, hs, hsp⟩ | ⟨rfl, he, hsp⟩ | ⟨rfl, hpiece, hend⟩
  · -- inside `read(2)`
    exact ⟨hok', hsp.suffix, List.suffix_refl _, line, hcons, [], (List.append_nil _).symm, List.nil_prefix,
      .inr (.inr (.inr (.inr ⟨rfl, .inl ⟨hs, hsp⟩⟩)))⟩
  · exact ⟨hok', hsp.suffix, List.suffix_refl _, line, hcons, [], (List.append_nil _).symm, List.nil_prefix,
      .inr (.inr (.inl ⟨rfl, he⟩))⟩
  · have hsuf : fd'.sched <:+ e.fd.sched := by
      rcases hend with hsp | ⟨hsp, -⟩
      · exact hsp.suffix
      · exact hsp.suffix
    by_cases hline : line = []
    · subst hline
      refine ⟨hok', hsuf, List.suffix_refl _, [], hcons, [], (List.append_nil _).symm, List.nil_prefix,
        .inr (.inl ⟨rfl, rfl, fun hm => ?_⟩)⟩
      exact hpiece.imp_left fun h => (piece_eq_nil hm).1 h.symm
    · have hpos : ((line.length : Nat) : Int) > 0 := by
        have := List.length_pos_iff.2 hline
        omega
      obtain ⟨used, hused, hpre, hcase⟩ := rioWriten_spec e.sched (line.map f)
      rw [List.length_map] at hcase
      simp only [if_pos hpos, Int.toNat_natCast, hf line]
      generalize rioWriten e.sched (line.map f) = w at hused hpre hcase
      obtain ⟨ret, out, ws⟩ := w
      simp only at hused hpre hcase ⊢
      refine ⟨hok', hsuf, ⟨used, hused⟩, line, hcons, out, rfl, hpre, ?_⟩
      rcases hcase with ⟨rfl, rfl, -, hle⟩ | ⟨rfl, hlt, hbad⟩ | ⟨rfl, hlt, hs, hle⟩
      · exact .inl ⟨by simp, hline, rfl, by rw [List.length_map]; exact hle, hend⟩
      · have hne : ¬ (-1 : Int) = (line.length : Int) := by omega
        exact .inr (.inr (.inr (.inl ⟨by simp [hne], fun hno => hbad fun o ho => hno o (hused ▸ List.mem_append_left _ ho)⟩)))
      · exact .inr (.inr (.inr (.inr ⟨rfl, .inr ⟨hs, hle, hlt⟩⟩)))

/-! ## Every run -/

/-- The bytes taken from the client so far, as long as the loop goes on: all are answered. -/
structure Going (f : UInt8 → UInt8) (stream : Bytes) (e : Echo) : Prop where
  ok   : e.rio.Ok
  sent : ∃ done, done ++ rest e.rio e.fd = stream ∧ e.sent = done.map f

/-- Prefix property: what was sent answers a prefix of what was received. -/
def Answers (f : UInt8 → UInt8) (stream : Bytes) (e : Echo) : Prop :=
  ∃ received, received ++ e.fd.unread = stream ∧ e.sent <+: received.map f

theorem answers_of_done {stream done : Bytes} {e : Echo} (hdone : done ++ rest e.rio e.fd = stream)
    (hsent : e.sent <+: done.map f) : Answers f stream e := by
  refine ⟨done ++ e.rio.window, ?_, ?_⟩
  · rw [List.append_assoc]
    exact hdone
  · rw [List.map_append]
    exact hsent.trans (List.prefix_append _ _)

theorem Going.answers {stream : Bytes} {e : Echo} (h : Going f stream e) : Answers f stream e := by
  obtain ⟨done, hdone, hsent⟩ := h.sent
  exact answers_of_done hdone (hsent ▸ List.prefix_refl _)

theorem Going.round (hf : Maps transform f) {stream : Bytes} {e : Echo} (h : Going f stream e) :
    Answers f stream (echoRound (m + 1) transform e) ∧
    ((echoRound (m + 1) transform e).stop = none → Going f stream (echoRound (m + 1) transform e)) := by
  obtain ⟨done, hdone, hsent⟩ := h.sent
  obtain ⟨hok', -, -, line, hline, out, hout, hpre, hcase⟩ := echoRound_cases (m := m) hf h.ok
  have htotal : (done ++ line) ++ rest (echoRound (m + 1) transform e).rio (echoRound (m + 1) transform e).fd =
      stream := by
    rw [List.append_assoc, hline, hdone]
  constructor
  · refine answers_of_done htotal ?_
    rw [hout, hsent, List.map_append]
    exact (List.prefix_append_right_inj _).2 hpre
  · intro hgo
    rcases hcase with ⟨-, -, rfl, -⟩ | ⟨hs, -⟩ | ⟨hs, -⟩ | ⟨hs, -⟩ | ⟨hs, -⟩
    · exact ⟨hok', done ++ line, htotal, by rw [hout, hsent, List.map_append]⟩
    all_goals
      rw [hs] at hgo
      cases hgo

/-- **At every point of every run** what was sent is a prefix of what was received. -/
theorem echoLoop_answers (hf : Maps transform f) {stream : Bytes} : ∀ (rounds : Nat) {e : Echo},
    Going f stream e → Answers f stream (echoLoop (m + 1) transform rounds e) := by
  intro rounds
  induction rounds with
  | zero =>
    intro e h
    exact h.answers
  | succ rounds ih =>
    intro e h
    simp only [echoLoop]
    split
    · exact h.answers
    · obtain ⟨hans, hgo⟩ := h.round (m := m) hf
      by_cases hstop : (echoRound (m + 1) transform e).stop = none
      · exact ih (hgo hstop)
      · -- the loop has ended
        cases rounds with
        | zero => exact hans
        | succ rounds =>
          simp only [echoLoop, Option.isSome_iff_ne_none.2 hstop, if_true]
          exact hans

/-- Nothing fails. -/
structure Faultless (e : Echo) : Prop where
  reads  : NoReadFails e.fd.sched
  writes : NoWriteFails e.sched

/-- Enough outcomes are left to read the rest and meet the end of file, twice if a line is open
there, and to answer the rest. -/
structure Enough (e : Echo) : Prop where
  reads  : e.fd.unread.length + (if rest e.rio e.fd = [] then 1 else 2) ≤ reads e.fd.sched
  writes : (rest e.rio e.fd).length ≤ writes e.sched

/-- **Without failures** the loop goes on to the end of file, where the whole stream is answered. -/
theorem echoLoop_whole (hf : Maps transform f) (hm : 0 < m) {stream : Bytes} : ∀ (rounds : Nat) {e : Echo},
    Going f stream e → e.stop = none → Faultless e →
    let e' := echoLoop (m + 1) transform rounds e
    (e'.stop = none ∨ e'.stop = some .eof ∨ e'.stop = some .blocked) ∧
    (e'.stop = some .eof → e'.sent = stream.map f) ∧
    ((rest e.rio e.fd).length < rounds → e'.stop ≠ none) ∧
    (Enough e → e'.stop ≠ some .blocked) := by
  intro rounds
  induction rounds with
  | zero =>
    intro e _ hstop _
    simp [echoLoop, hstop]
  | succ rounds ih =>
    intro e h hstop hfl
    obtain ⟨done, hdone, hsent⟩ := h.sent
    obtain ⟨-, hgo⟩ := h.round (m := m) hf
    obtain ⟨-, hrsuf, hwsuf, line, hline, out, hout, hpre, hcase⟩ := echoRound_cases (m := m) hf h.ok
    have hnot : e.stop.isSome = false := by rw [hstop]; rfl
    have hlen := congrArg List.length hline
    rw [List.length_append] at hlen
    -- once stopped the loop does nothing more
    have hend : (echoRound (m + 1) transform e).stop ≠ none →
        echoLoop (m + 1) transform rounds (echoRound (m + 1) transform e) = echoRound (m + 1) transform e := by
      intro hs
      cases rounds with
      | zero => rfl
      | succ rounds => simp only [echoLoop, Option.isSome_iff_ne_none.2 hs, if_true]
    simp only [echoLoop, hnot, Bool.false_eq_true, if_false]
    rcases hcase with ⟨hs, hne, rfl, hw, hspent⟩ | ⟨hs, rfl, hrest⟩ | ⟨-, he⟩ | ⟨-, hbad⟩ | ⟨hs, hb⟩
    · have hlpos := List.length_pos_iff.2 hne
      obtain ⟨h1, h2, h3, h4⟩ := ih (hgo hs) hs ⟨hfl.reads.suffix hrsuf, hfl.writes.suffix hwsuf⟩
      refine ⟨h1, h2, fun hr => h3 (by omega), fun hen => h4 ⟨?_, ?_⟩⟩
      · have hr := hen.reads
        rw [if_neg (by rw [← hline]; exact List.append_ne_nil_of_left_ne_nil hne _)] at hr
        rcases hspent with hsp | ⟨hsp, hnil | hearly⟩
        · have := hsp.moved
          split <;> omega
        · have := hsp.moved
          rw [if_pos hnil]
          omega
        · exact absurd hearly hfl.reads.no_early
      · have := hen.writes
        rw [List.length_map] at hw
        omega
    · rw [hend (by rw [hs]; simp)]
      refine ⟨.inr (.inl hs), fun _ => ?_, fun _ => by rw [hs]; simp, fun _ => by rw [hs]; simp⟩
      have hnil : rest e.rio e.fd = [] := (hrest hm).resolve_right hfl.reads.no_early
      have hall : done = stream := by rw [← hdone, hnil, List.append_nil]
      rw [hout, List.eq_nil_of_prefix_nil hpre, List.append_nil, hsent, hall]
    · exact absurd he hfl.reads.no_error
    · exact absurd hfl.writes hbad
    · rw [hend (by rw [hs]; simp)]
      refine ⟨.inr (.inr hs), fun heof => ?_, fun _ => by rw [hs]; simp, fun hen _ => ?_⟩
      · rw [hs] at heof
        cases heof
      · have hr := hen.reads
        have hw := hen.writes
        rcases hb with ⟨hnil, hsp⟩ | ⟨-, hle, hlt⟩
        · have := hsp.moved
          simp only [hnil, reads, List.countP_nil] at this hr
          split at hr <;> omega
        · omega

end

/-! ## The three servers -/

/-- What a server that answers each byte by its image under `f` owes a client that sends `stream`,
whatever the `rio_t` held and whatever the calls do: at every point the bytes sent are a prefix of the
images of those received; and if no call fails the loop ends at the end of file only, having answered
the whole stream, and it gets there once the calls have returned often enough. -/
def Transmits (serve : RioT → Bytes → List ReadOutcome → List WriteOutcome → Nat → Echo) (f : UInt8 → UInt8) :
    Prop :=
  ∀ rp stream rsched wsched rounds, Answers f stream (serve rp stream rsched wsched rounds) ∧
    (NoReadFails rsched → NoWriteFails wsched →
      ((serve rp stream rsched wsched rounds).stop = none ∨
        (serve rp stream rsched wsched rounds).stop = some .blocked ∨
        (serve rp stream rsched wsched rounds).stop = some .eof ∧
          (serve rp stream rsched wsched rounds).sent = stream.map f) ∧
      (stream.length < rounds → stream.length + 2 ≤ reads rsched → stream.length ≤ writes wsched →
        (serve rp stream rsched wsched rounds).stop = some .eof ∧
          (serve rp stream rsched wsched rounds).sent = stream.map f))

theorem serve_transmits {m : Nat} {f : UInt8 → UInt8} {transform : Bytes → Nat → Bytes} (hf : Maps transform f)
    (hm : 0 < m) : Transmits (serve (m + 1) transform) f := by
  intro rp stream rsched wsched rounds
  have hrest : rest (rioInitb rp) ⟨stream, rsched⟩ = stream := by simp [rest, rioInitb_window]
  have hgo : Going f stream ⟨rioInitb rp, ⟨stream, rsched⟩, wsched, [], none⟩ :=
    ⟨rioInitb_ok rp, [], hrest, rfl⟩
  refine ⟨echoLoop_answers hf rounds hgo, fun hr hw => ?_⟩
  obtain ⟨h1, h2, h3, h4⟩ := echoLoop_whole hf hm rounds hgo rfl ⟨hr, hw⟩
  constructor
  · rcases h1 with h | h | h
    · exact .inl h
    · exact .inr (.inr ⟨h, h2 h⟩)
    · exact .inr (.inl h)
  · intro hrounds hreads hwrites
    have hen : Enough ⟨rioInitb rp, ⟨stream, rsched⟩, wsched, [], none⟩ := by
      refine ⟨?_, by rw [hrest]; exact hwrites⟩
      show stream.length + _ ≤ reads rsched
      split <;> omega
    have hnone := h3 (by rw [hrest]; exact hrounds)
    have heof : (echoLoop (m + 1) transform rounds ⟨rioInitb rp, ⟨stream, rsched⟩, wsched, [], none⟩).stop = some .eof :=
      (h1.resolve_left hnone).resolve_right (h4 hen)
    exact ⟨heof, h2 heof⟩

/-- **The line-buffered echo servers transmit the whole stream**: the thread and the process server as
it is, the Unix domain socket server with each byte through `toupper` once. -/
theorem lines_echoed : Transmits threadEcho id ∧ Transmits processEcho id ∧ Transmits udsEcho toupper :=
  ⟨serve_transmits (m := 1023) maps_id (by decide), serve_transmits (m := 1023) maps_id (by decide),
    serve_transmits (m := 8191) (maps_inPlace toupper) (by decide)⟩

end ComputerSystem.LineEcho
