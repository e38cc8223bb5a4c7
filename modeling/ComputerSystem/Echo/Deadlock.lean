import ComputerSystem.Echo.Lockstep
import Mathlib.Data.List.DropRight
/-!
# When the echo client and its server wait for each other

`rio_readlineb` returns a line that ends in a newline or fills the buffer; `fgets` also returns what is
left at the end of `stdin` (`process_echo_client.c:28`). Such a piece is sent, the server keeps it and
waits for the rest of the line, and the client waits for the reply: `Deadlock`. It happens exactly
when the bytes after the last newline do not fill whole buffers (`deadlock_free_iff`).
-/

namespace ComputerSystem.Echo

open Rio

/-- The client waits for a reply, the server waits for input, the connection is open and nothing is
in flight. -/
def Deadlock (s : State) : Prop :=
  (∃ seg usrbuf, s.client.pc = .reading seg usrbuf) ∧ (∃ usrbuf, s.server.pc = .reading usrbuf) ∧
    s.c2s = [] ∧ s.s2c = []

/-! ## The last line of the input -/

/-- The bytes after the last newline. -/
def lastLine (stdin : Bytes) : Bytes := stdin.rtakeWhile (· ≠ newline)

/-- The last line fills whole buffers; it is empty when `stdin` ends in a newline. -/
def WholeBuffers (stdin : Bytes) : Prop := (lastLine stdin).length % (MAXLINE - 1) = 0

instance (stdin : Bytes) : Decidable (WholeBuffers stdin) := inferInstanceAs (Decidable (_ = _))

theorem lastLine_concat (a : Bytes) (b : UInt8) :
    lastLine (a ++ [b]) = if b = newline then [] else lastLine a ++ [b] := by
  simp only [lastLine, List.rtakeWhile_concat]
  by_cases hb : b = newline <;> simp [hb]

theorem lastLine_append_of_not_mem (a : Bytes) {b : Bytes} (h : newline ∉ b) :
    lastLine (a ++ b) = lastLine a ++ b := by
  induction b using List.reverseRecOn with
  | nil => simp
  | append_singleton b x ih =>
    have hb : newline ∉ b := fun hmem => h (List.mem_append_left _ hmem)
    have hx : x ≠ newline := fun hx => h (by simp [hx])
    rw [← List.append_assoc, lastLine_concat, if_neg hx, ih hb, List.append_assoc]

theorem lastLine_append_of_mem (a : Bytes) {b : Bytes} (h : newline ∈ b) : lastLine (a ++ b) = lastLine b := by
  induction b using List.reverseRecOn with
  | nil => simp at h
  | append_singleton b x ih =>
    rw [← List.append_assoc, lastLine_concat, lastLine_concat]
    split
    · rfl
    · rename_i hx
      rcases List.mem_append.1 h with hb | hb
      · rw [ih hb]
      · exact absurd (List.mem_singleton.1 hb).symm hx

/-- A line without a newline is its own last line. -/
theorem lastLine_of_not_mem {b : Bytes} (h : newline ∉ b) : lastLine b = b :=
  lastLine_append_of_not_mem [] h

/-- A segment that has its newline ends in it. -/
theorem Segment.lastLine {seg : Bytes} (h : Segment seg) (hn : newline ∈ seg) : lastLine seg = [] := by
  have hlast := List.dropLast_concat_getLast h.ne_nil
  rw [← hlast] at hn ⊢
  rw [lastLine_concat]
  rcases List.mem_append.1 hn with hmem | hmem
  · exact absurd hmem h.cut
  · rw [if_pos (List.mem_singleton.1 hmem).symm]

/-- A complete segment in front changes nothing. -/
theorem wholeBuffers_append {seg rest : Bytes} (h : Segment seg) (hc : Complete M seg) :
    WholeBuffers (seg ++ rest) ↔ WholeBuffers rest := by
  simp only [WholeBuffers]
  by_cases hr : newline ∈ rest
  · rw [lastLine_append_of_mem seg hr]
  · rw [lastLine_append_of_not_mem seg hr, lastLine_of_not_mem hr]
    by_cases hs : newline ∈ seg
    · rw [h.lastLine hs, List.nil_append]
    · have hlen : seg.length = MAXLINE - 1 := hc.resolve_left hs
      rw [lastLine_of_not_mem hs, List.length_append, hlen, Nat.add_mod_left]

/-- An open segment is the whole of the last line, and does not fill a buffer. -/
theorem Segment.not_wholeBuffers {seg : Bytes} (h : Segment seg) (ho : Open M seg) : ¬ WholeBuffers seg := by
  have hpos := List.length_pos_iff.2 h.ne_nil
  have hlen : seg.length < MAXLINE - 1 := ho.2
  simp only [WholeBuffers, lastLine_of_not_mem ho.1, Nat.mod_eq_of_lt hlen]
  omega

/-- `fgets` stops at a newline, at the end of the buffer, or at the end of the input. -/
theorem fgetsLoop_complete : ∀ (n : Nat) (stdin : Bytes),
    Complete n (fgetsLoop n stdin).1 ∨ (fgetsLoop n stdin).2 = [] := by
  intro n
  induction n with
  | zero =>
    intro stdin
    exact .inl (.inr rfl)
  | succ n ih =>
    intro stdin
    cases stdin with
    | nil => exact .inr rfl
    | cons b stdin =>
      simp only [fgetsLoop]
      by_cases hb : b = newline
      · left
        left
        simp [hb]
      · rw [if_neg hb]
        rcases ih stdin with (hn | hl) | hrest
        · exact .inl (.inl (List.mem_cons_of_mem _ hn))
        · exact .inl (.inr (by rw [List.length_cons, hl]))
        · exact .inr hrest

/-! ## Whole buffers: no deadlock -/

section
variable {input : Bytes} {rp rp' : RioT} {s : State}

/-- The rest of `stdin` fills whole buffers and so does the segment in hand. -/
structure Fills (s : State) : Prop where
  stdin       : WholeBuffers s.client.stdin
  outstanding : s.client.pc.outstanding ≠ [] → Complete M s.client.pc.outstanding

theorem fgets_fills {stdin : Bytes} (hne : stdin ≠ []) (h : WholeBuffers stdin) :
    Complete M (fgets stdin).1 ∧ WholeBuffers (fgets stdin).2 := by
  have hseg := fgets_segment hne
  have happ : (fgets stdin).1 ++ (fgets stdin).2 = stdin := fgetsLoop_append M stdin
  have hc : Complete M (fgets stdin).1 := by
    rcases open_or_complete hseg.le with hopen | hc
    · obtain hc | hrest : _ ∨ (fgets stdin).2 = [] := fgetsLoop_complete M stdin
      · exact hc
      · rw [hrest, List.append_nil] at happ
        exact absurd (happ.symm ▸ h) (hseg.not_wholeBuffers hopen)
    · exact hc
  exact ⟨hc, (wholeBuffers_append hseg hc).1 (by rwa [happ])⟩

/-- What a step of the client does to its input and to the segment in hand. -/
def Keeps (seg : Bytes) (s s' : State) : Prop :=
  s'.client.stdin = s.client.stdin ∧ (s'.client.pc.outstanding = seg ∨ s'.client.pc.outstanding = [])

theorem clientRead_keeps (s : State) (seg usrbuf : Bytes) (sched : List ReadOutcome) :
    Keeps seg s (s.clientRead seg usrbuf sched) := by
  simp only [State.clientRead]
  split
  · exact ⟨rfl, .inl rfl⟩
  · split
    · exact ⟨rfl, .inr rfl⟩
    · exact ⟨rfl, .inr rfl⟩

theorem clientWrite_keeps (s : State) (seg left : Bytes) (sched : List WriteOutcome) :
    Keeps seg s (s.clientWrite seg left sched) := by
  simp only [State.clientWrite]
  split
  · exact ⟨rfl, .inl rfl⟩
  · split
    · exact ⟨rfl, .inr rfl⟩
    · exact clientRead_keeps _ seg [] []

theorem serverRead_client (s : State) (usrbuf : Bytes) (sched : List ReadOutcome) :
    (s.serverRead usrbuf sched).client = s.client := by
  simp only [State.serverRead]
  split
  · rfl
  · split <;> rfl

theorem serverWrite_client (s : State) (n : Nat) (left : Bytes) (sched : List WriteOutcome) :
    (s.serverWrite n left sched).client = s.client := by
  simp only [State.serverWrite]
  split
  · rfl
  · split
    · rfl
    · exact serverRead_client _ [] []

theorem Fills.keeps {s' : State} {seg : Bytes} (hstdin : WholeBuffers s.client.stdin) (hc : seg ≠ [] → Complete M seg)
    (hk : Keeps seg s s') : Fills s' := by
  refine ⟨hk.1 ▸ hstdin, fun hne => ?_⟩
  rcases hk.2 with heq | heq
  · rw [heq] at hne ⊢
    exact hc hne
  · exact absurd heq hne

theorem Fills.client {s' : State} (h : Fills s) (heq : s'.client = s.client) : Fills s' :=
  ⟨heq ▸ h.stdin, heq ▸ h.outstanding⟩

theorem step_fills (s : State) (l : Label) (s' : State) (h : Fills s) (_ : NoFailure s l)
    (hs : step s l = some s') : Fills s' := by
  cases l with
  | fgets =>
    simp only [step] at hs
    split at hs <;> cases hs
    unfold State.clientFgets
    split
    · exact ⟨h.stdin, fun hne => absurd rfl hne⟩
    · rename_i hne
      obtain ⟨hc, hrest⟩ := fgets_fills hne h.stdin
      exact Fills.keeps (s := { s with client := { s.client with stdin := (fgets s.client.stdin).2 } }) hrest (fun _ => hc)
        (clientWrite_keeps _ (fgets s.client.stdin).1 _ [])
  | clientWrite o =>
    simp only [step] at hs
    split at hs <;> cases hs
    rename_i seg left hpc
    have hout := h.outstanding
    rw [hpc] at hout
    exact Fills.keeps h.stdin hout (clientWrite_keeps s seg left [o])
  | clientRead o =>
    simp only [step] at hs
    split at hs
    · rename_i seg usrbuf hpc
      split at hs <;> cases hs
      have hout := h.outstanding
      rw [hpc] at hout
      exact Fills.keeps h.stdin hout (clientRead_keeps s seg usrbuf [o])
    · cases hs
  | serverRead o =>
    simp only [step] at hs
    split at hs
    · split at hs <;> cases hs
      exact h.client (serverRead_client s _ [o])
    · cases hs
  | serverWrite o =>
    simp only [step] at hs
    split at hs <;> cases hs
    exact h.client (serverWrite_client s _ _ [o])

theorem start_fills (h : WholeBuffers input) : Fills (start input rp rp') :=
  ⟨h, fun hne => absurd rfl hne⟩

/-- A client and a server that wait for each other hold an incomplete segment. -/
theorem Fills.no_deadlock (h : Fills s) (hinv : EchoInv input s) : ¬ Deadlock s := by
  rintro ⟨⟨seg, cu, hcp⟩, ⟨u, hsp⟩, hc, hs⟩
  have hplace := hinv.place
  have hout := h.outstanding
  rw [hcp, hsp, hc, hs] at hplace
  rw [hcp] at hout
  obtain ⟨hseg, hcu, ⟨_, -, -, -, hmove, hu⟩ | ⟨_, _, hwriting, -⟩ | ⟨-, -, hmove, hcomp⟩⟩ := hplace.of_reading
  · rw [List.append_nil] at hmove
    exact hu.not_complete (hmove ▸ hout hseg.ne_nil)
  · cases hwriting
  · rw [List.append_nil] at hmove
    exact hcu.not_complete (hmove ▸ hcomp)

/-! ## An incomplete piece: the run into the deadlock -/

/-- Where both sides stand and what is still to be read or in flight. -/
structure At (s : State) (stdin : Bytes) (cp : ClientPc) (sp : ServerPc) (c2s s2c : Bytes) : Prop where
  stdin  : s.client.stdin = stdin
  client : s.client.pc = cp
  server : s.server.pc = sp
  c2s    : s.c2s = c2s
  s2c    : s.s2c = s2c

theorem noFailure_count {k : Nat} (hk : 0 < k) :
    NoFailure s (.clientWrite (.count k)) ∧ NoFailure s (.serverWrite (.count k)) := by
  cases k with
  | zero => exact absurd hk (Nat.lt_irrefl 0)
  | succ k => exact ⟨trivial, trivial⟩

/-- One `read(2)` can take a whole segment. -/
theorem Segment.whole {seg : Bytes} (h : Segment seg) :
    seg.take (min seg.length RIO_BUFSIZE) = seg ∧ seg.drop (min seg.length RIO_BUFSIZE) = [] := by
  have hmin : min seg.length RIO_BUFSIZE = seg.length :=
    Nat.min_eq_left (Nat.le_trans h.le (by decide))
  rw [hmin]
  exact ⟨List.take_length, List.drop_length⟩

theorem Segment.read_open {seg : Bytes} {rp : RioT} (h : Segment seg) (hwait : Waiting M [] rp) (ho : Open M seg) :
    ∃ rp', rioReadlinebLoop (M - ([] : Bytes).length) (([] : Bytes).length + 1 : Nat) [] rp ⟨seg, [.count seg.length]⟩ =
      ⟨none, seg, rp', ⟨[], []⟩⟩ := by
  obtain ⟨rp', hloop, -⟩ := Rio.read_open (x := seg) (k := seg.length) hwait (by rw [h.whole.1]; exact h.ne_nil)
    (by rw [h.whole.1]; exact ho)
  rw [h.whole.1, h.whole.2] at hloop
  exact ⟨rp', hloop⟩

theorem Segment.read_line {seg : Bytes} {rp : RioT} (h : Segment seg) (hwait : Waiting M [] rp) (hc : Complete M seg) :
    ∃ rp', rioReadlinebLoop (M - ([] : Bytes).length) (([] : Bytes).length + 1 : Nat) [] rp ⟨seg, [.count seg.length]⟩ =
      ⟨some seg.length, seg, rp', ⟨[], []⟩⟩ := by
  obtain ⟨rp', hloop, -⟩ := read_complete (x := seg) (k := seg.length) hwait (by rw [h.whole.1]; exact h.ne_nil)
    (by rw [h.whole.1]; exact h.cut) (by rw [h.whole.1]; exact h.le) (by rw [h.whole.1]; exact hc)
  rw [h.whole.1, h.whole.2] at hloop
  exact ⟨rp', hloop⟩

theorem Segment.readable {seg : Bytes} (h : Segment seg) (closed : Bool) :
    readable seg closed (.count seg.length) = true := by
  simp only [Echo.readable, if_neg h.ne_nil, decide_eq_true_eq]
  exact List.length_pos_iff.2 h.ne_nil

variable {stdin seg : Bytes}

/-- `fgets` and a `write(2)` of all it returned. -/
theorem send (hnul : (0 : UInt8) ∉ input) (hr : Reach step NoFailure (start input rp rp') s)
    (h : At s stdin .fgets (.reading []) [] []) (hne : stdin ≠ []) :
    ∃ s', Reach step NoFailure (start input rp rp') s' ∧
      At s' (fgets stdin).2 (.reading (fgets stdin).1 []) (.reading []) (fgets stdin).1 [] := by
  have hseg := fgets_segment hne
  have hin := (reach_ok hnul hr).input
  have hnul' : (0 : UInt8) ∉ (fgets stdin).1 := by
    have happ : (fgets stdin).1 ++ (fgets stdin).2 = stdin := fgetsLoop_append M stdin
    intro hmem
    refine hnul (hin ▸ List.mem_append_right _ ?_)
    rw [h.stdin, ← happ]
    exact List.mem_append_left _ hmem
  have hstep : step s .fgets = some s.clientFgets := by simp only [step, h.client, if_true]
  have hr1 : Reach step NoFailure (start input rp rp') s.clientFgets := hr.tail (l := .fgets) trivial hstep
  have hfgets : s.clientFgets = { s with
      client := { s.client with pc := .writing (fgets stdin).1 (fgets stdin).1, stdin := (fgets stdin).2 } } := by
    simp only [State.clientFgets, h.stdin, if_neg hne]
    rw [clientWrite_none (write_blocked (by rw [cstring_eq hnul']; exact hseg.ne_nil)), cstring_eq hnul']
    simp
  rw [hfgets] at hr1
  have hpos := List.length_pos_iff.2 hseg.ne_nil
  refine ⟨_, hr1.tail (l := .clientWrite (.count (fgets stdin).1.length)) (noFailure_count hpos).1 rfl, ?_⟩
  rw [(reach_ok hnul hr1).clientWritten (write_all hpos hseg.ne_nil List.drop_length)]
  exact ⟨rfl, rfl, h.server, by simp [h.c2s], h.s2c⟩

section
variable (hnul : (0 : UInt8) ∉ input) (hr : Reach step NoFailure (start input rp rp') s) (hseg : Segment seg)
include hnul hr hseg

/-- The server gets a segment that is not a line for it, and waits for more. -/
theorem receive_open (h : At s stdin (.reading seg []) (.reading []) seg []) (ho : Open M seg) :
    ∃ s', Reach step NoFailure (start input rp rp') s' ∧ At s' stdin (.reading seg []) (.reading seg) [] [] := by
  have hstep : step s (.serverRead (.count seg.length)) = some (s.serverRead [] [.count seg.length]) := by
    simp only [step, h.server, h.c2s, hseg.readable, if_true]
  refine ⟨_, hr.tail (l := .serverRead (.count seg.length)) trivial hstep, ?_⟩
  obtain ⟨rp, hloop⟩ := hseg.read_open ((reach_ok hnul hr).serverWaiting open_M_nil) ho
  rw [serverRead_none (by rw [h.c2s]; exact hloop)]
  exact ⟨h.stdin, h.client, rfl, rfl, h.s2c⟩

/-- The server gets a line and is about to send it back. -/
theorem receive_line (h : At s stdin (.reading seg []) (.reading []) seg []) (hc : Complete M seg) :
    ∃ s', Reach step NoFailure (start input rp rp') s' ∧
      At s' stdin (.reading seg []) (.writing seg.length seg) [] [] := by
  have hstep : step s (.serverRead (.count seg.length)) = some (s.serverRead [] [.count seg.length]) := by
    simp only [step, h.server, h.c2s, hseg.readable, if_true]
  refine ⟨_, hr.tail (l := .serverRead (.count seg.length)) trivial hstep, ?_⟩
  obtain ⟨rp, hloop⟩ := hseg.read_line ((reach_ok hnul hr).serverWaiting open_M_nil) hc
  rw [serverRead_some (List.length_pos_iff.2 hseg.ne_nil) (by rw [h.c2s]; exact hloop)]
  exact ⟨h.stdin, h.client, rfl, rfl, h.s2c⟩

/-- The server sends the line back. -/
theorem answer (h : At s stdin (.reading seg []) (.writing seg.length seg) [] []) :
    ∃ s', Reach step NoFailure (start input rp rp') s' ∧ At s' stdin (.reading seg []) (.reading []) [] seg := by
  have hstep : step s (.serverWrite (.count seg.length)) =
      some (s.serverWrite seg.length seg [.count seg.length]) := by
    simp only [step, h.server]
  have hpos := List.length_pos_iff.2 hseg.ne_nil
  refine ⟨_, hr.tail (noFailure_count hpos).2 hstep, ?_⟩
  rw [(reach_ok hnul hr).serverWritten (write_all hpos hseg.ne_nil List.drop_length)]
  exact ⟨h.stdin, h.client, rfl, h.c2s, by simp [h.s2c]⟩

/-- The client gets its reply and prints it. -/
theorem print (h : At s stdin (.reading seg []) (.reading []) [] seg) (hc : Complete M seg) :
    ∃ s', Reach step NoFailure (start input rp rp') s' ∧ At s' stdin .fgets (.reading []) [] [] := by
  have hstep : step s (.clientRead (.count seg.length)) = some (s.clientRead seg [] [.count seg.length]) := by
    simp only [step, h.client, h.s2c, hseg.readable, if_true]
  refine ⟨_, hr.tail (l := .clientRead (.count seg.length)) trivial hstep, ?_⟩
  obtain ⟨rp, hloop⟩ := hseg.read_line ((reach_ok hnul hr).clientWaiting open_M_nil) hc
  rw [clientRead_some (List.length_pos_iff.2 hseg.ne_nil) (by rw [h.s2c]; exact hloop)]
  exact ⟨h.stdin, rfl, h.server, h.c2s, rfl⟩

end

/-- From any `fgets` on, input that does not fill whole buffers leads to the deadlock: the complete
segments go round one after another, and the last piece stays with the server. -/
theorem deadlock_reached (hnul : (0 : UInt8) ∉ input) : ∀ (n : Nat) {stdin : Bytes} {s : State}, stdin.length < n →
    Reach step NoFailure (start input rp rp') s → At s stdin .fgets (.reading []) [] [] → ¬ WholeBuffers stdin →
    ∃ s', Reach step NoFailure (start input rp rp') s' ∧ Deadlock s'
  | 0, _, _, hn, _, _, _ => absurd hn (Nat.not_lt_zero _)
  | n + 1, stdin, s, hn, hr, h, hw => by
    have hne : stdin ≠ [] := fun heq => hw (by rw [heq]; decide)
    have hseg := fgets_segment hne
    have happ : (fgets stdin).1 ++ (fgets stdin).2 = stdin := fgetsLoop_append M stdin
    obtain ⟨s1, hr1, h1⟩ := send hnul hr h hne
    rcases open_or_complete hseg.le with hopen | hc
    · obtain ⟨s2, hr2, h2⟩ := receive_open hnul hr1 hseg h1 hopen
      exact ⟨s2, hr2, ⟨_, _, h2.client⟩, ⟨_, h2.server⟩, h2.c2s, h2.s2c⟩
    · obtain ⟨s2, hr2, h2⟩ := receive_line hnul hr1 hseg h1 hc
      obtain ⟨s3, hr3, h3⟩ := answer hnul hr2 hseg h2
      obtain ⟨s4, hr4, h4⟩ := print hnul hr3 hseg h3 hc
      have hshorter : (fgets stdin).2.length < n := by
        have := congrArg List.length happ
        have := List.length_pos_iff.2 hseg.ne_nil
        rw [List.length_append] at *
        omega
      exact deadlock_reached hnul n hshorter hr4 h4 fun hrest => hw (happ ▸ (wholeBuffers_append hseg hc).2 hrest)

end

/-! ## Deadlock freedom -/

/-- **Deadlock freedom.** No run without a failing read or write reaches the deadlock if and only if
the bytes after the last newline of `stdin` fill whole buffers. -/
theorem deadlock_free_iff {input : Bytes} {rp rp' : RioT} (hnul : (0 : UInt8) ∉ input) :
    (∀ s, Reach step NoFailure (start input rp rp') s → ¬ Deadlock s) ↔ WholeBuffers input := by
  constructor
  · intro h
    by_contra hw
    have hat : At (start input rp rp') input .fgets (.reading []) [] [] := ⟨rfl, rfl, rfl, rfl, rfl⟩
    obtain ⟨s, hr, hdead⟩ := deadlock_reached hnul _ (Nat.lt_succ_self _) .refl hat hw
    exact h s hr hdead
  · intro hw s hr
    have hfills : Fills s := hr.invariant (start_fills hw) step_fills
    exact hfills.no_deadlock (reach_ok hnul hr)

/-- A file of one line that ends in a newline. -/
theorem deadlock_free_line : WholeBuffers [97, 10] ∧
    ∀ s, Reach step NoFailure (start [97, 10] zeroRio zeroRio) s → ¬ Deadlock s :=
  ⟨by decide, (deadlock_free_iff (by decide)).2 (by decide)⟩

/-- One byte and no newline: the server has the byte, and the client waits for it. -/
theorem deadlock_unterminated : ∃ s, Reach step NoFailure (start [97] zeroRio zeroRio) s ∧ Deadlock s := by
  have hend : (runWhile step NoFailure (start [97] zeroRio zeroRio)
      [.fgets, .clientWrite (.count 1), .serverRead (.count 1)]).map
        (fun s => (s.client.pc, s.server.pc, s.c2s, s.s2c)) =
      some (.reading [97] [], .reading [97], [], []) := by decide +kernel
  obtain ⟨s, hs, heq⟩ := Option.map_eq_some_iff.1 hend
  simp only [Prod.mk.injEq] at heq
  exact ⟨s, runWhile_reach hs, ⟨_, _, heq.1⟩, ⟨_, heq.2.1⟩, heq.2.2⟩

end ComputerSystem.Echo
