import ComputerSystem.Echo.Machine
import ComputerSystem.Rio.Lines
/-!
# Lockstep of the echo client and its server

The client cuts its input with `fgets`, the server cuts what arrives with `rio_readlineb`, and so
does the client with the reply. `Segment` is a piece that all three cut alike. `Place` says where the
bytes of the one outstanding segment can be: still to be written by the client, in flight, stored by
the server, still to be echoed, in flight back, stored by the client. Every step moves some of them
on (`step_ok`), so the reply is the segment (`lockstep`).
-/

namespace ComputerSystem.Echo

open Rio

/-- The bytes of a line in a buffer of size `MAXLINE`. -/
def M : Nat := MAXLINE - 1

/-! ## Segments -/

/-- A piece of text as `fgets` cuts it: a newline can only be its last byte. -/
structure Segment (seg : Bytes) : Prop where
  ne_nil : seg ≠ []
  le     : seg.length ≤ M
  cut    : newline ∉ seg.dropLast

theorem fgetsLoop_append : ∀ (n : Nat) (stdin : Bytes), (fgetsLoop n stdin).1 ++ (fgetsLoop n stdin).2 = stdin := by
  intro n
  induction n with
  | zero =>
    intro stdin
    rfl
  | succ n ih =>
    intro stdin
    cases stdin with
    | nil => rfl
    | cons b stdin =>
      simp only [fgetsLoop]
      split
      · rfl
      · rw [List.cons_append, ih stdin]

theorem fgetsLoop_length : ∀ (n : Nat) (stdin : Bytes), (fgetsLoop n stdin).1.length ≤ n := by
  intro n
  induction n with
  | zero =>
    intro stdin
    exact Nat.le_refl 0
  | succ n ih =>
    intro stdin
    cases stdin with
    | nil => exact Nat.zero_le _
    | cons b stdin =>
      simp only [fgetsLoop]
      split
      · exact Nat.succ_le_succ (Nat.zero_le n)
      · exact Nat.succ_le_succ (ih stdin)

theorem fgetsLoop_cut : ∀ (n : Nat) (stdin : Bytes), newline ∉ (fgetsLoop n stdin).1.dropLast := by
  intro n
  induction n with
  | zero =>
    intro stdin
    simp [fgetsLoop]
  | succ n ih =>
    intro stdin
    cases stdin with
    | nil => simp [fgetsLoop]
    | cons b stdin =>
      simp only [fgetsLoop]
      by_cases hb : b = newline
      · simp [hb]
      · rw [if_neg hb]
        have hcut := ih stdin
        cases h : (fgetsLoop n stdin).1 with
        | nil => simp
        | cons c l =>
          rw [h] at hcut
          rw [List.dropLast_cons_cons]
          intro hmem
          rcases List.mem_cons.1 hmem with heq | hmem
          · exact hb heq.symm
          · exact hcut hmem

theorem fgets_segment {stdin : Bytes} (h : stdin ≠ []) : Segment (fgets stdin).1 := by
  refine ⟨?_, fgetsLoop_length M stdin, fgetsLoop_cut M stdin⟩
  obtain ⟨b, l, rfl⟩ := List.exists_cons_of_ne_nil h
  show (fgetsLoop (M - 1 + 1) (b :: l)).1 ≠ []
  simp only [fgetsLoop]
  split <;> simp

/-- What comes before the end of a segment is an open line. -/
theorem Segment.open {seg u v : Bytes} (h : Segment seg) (heq : u ++ v = seg) (hv : v ≠ []) : Open M u := by
  have hlen := h.le
  have hcut := h.cut
  rw [← heq, List.length_append] at hlen
  rw [← heq, List.dropLast_append_of_ne_nil hv] at hcut
  have := List.length_pos_iff.2 hv
  exact ⟨fun hmem => hcut (List.mem_append_left _ hmem), by omega⟩

/-! ## Where the bytes are -/

/-- The segment that was taken from `stdin` and whose reply has not been returned. -/
def ClientPc.outstanding : ClientPc → Bytes
  | .writing seg _ => seg
  | .reading seg _ => seg
  | _ => []

/-- Where the two processes and the bytes in flight can stand. -/
inductive Place : ClientPc → ServerPc → Bytes → Bytes → Prop
  | idle : Place .fgets (.reading []) [] []
  | request {seg left u c2s : Bytes} : Segment seg → u ++ c2s ++ left = seg → left ≠ [] →
      Place (.writing seg left) (.reading u) c2s []
  | waiting {seg u c2s : Bytes} : Segment seg → u ++ c2s = seg → Open M u →
      Place (.reading seg []) (.reading u) c2s []
  | echoing {seg cu left s2c : Bytes} {n : Nat} : Segment seg → Complete M seg → cu ++ s2c ++ left = seg →
      left ≠ [] → Place (.reading seg cu) (.writing n left) [] s2c
  | reply {seg cu s2c : Bytes} : Segment seg → Complete M seg → cu ++ s2c = seg → Open M cu →
      Place (.reading seg cu) (.reading []) [] s2c
  | closing : Place .closed (.reading []) [] []
  | closed : Place .closed .closed [] []

section
variable {sp : ServerPc} {c2s s2c : Bytes}

theorem Place.of_fgets (h : Place .fgets sp c2s s2c) : sp = .reading [] ∧ c2s = [] ∧ s2c = [] := by
  cases h
  exact ⟨rfl, rfl, rfl⟩

theorem Place.of_writing {seg left : Bytes} (h : Place (.writing seg left) sp c2s s2c) :
    ∃ u, sp = .reading u ∧ s2c = [] ∧ Segment seg ∧ u ++ c2s ++ left = seg ∧ left ≠ [] := by
  cases h with
  | request hseg hmove hleft => exact ⟨_, rfl, rfl, hseg, hmove, hleft⟩

theorem Place.of_serverWriting {cp : ClientPc} {n : Nat} {left : Bytes} (h : Place cp (.writing n left) c2s s2c) :
    ∃ seg cu, cp = .reading seg cu ∧ c2s = [] ∧ Segment seg ∧ Open M cu ∧ Complete M seg ∧
      cu ++ s2c ++ left = seg ∧ left ≠ [] := by
  cases h with
  | echoing hseg hc hmove hleft =>
    have hcu := hmove
    rw [List.append_assoc] at hcu
    exact ⟨_, _, rfl, rfl, hseg, hseg.open hcu (by simp [hleft]), hc, hmove, hleft⟩

/-- The client waits for its reply: the server has not got the whole segment, or is echoing it, or has
done so. -/
theorem Place.of_reading {seg cu : Bytes} (h : Place (.reading seg cu) sp c2s s2c) :
    Segment seg ∧ Open M cu ∧
    ((∃ u, sp = .reading u ∧ s2c = [] ∧ cu = [] ∧ u ++ c2s = seg ∧ Open M u) ∨
      (∃ n left, sp = .writing n left ∧ c2s = [] ∧ cu ++ s2c ++ left = seg ∧ left ≠ [] ∧ Complete M seg) ∨
      (sp = .reading [] ∧ c2s = [] ∧ cu ++ s2c = seg ∧ Complete M seg)) := by
  cases h with
  | waiting hseg hmove hu => exact ⟨hseg, open_nil (by decide), .inl ⟨_, rfl, rfl, rfl, hmove, hu⟩⟩
  | echoing hseg hc hmove hleft =>
    rw [List.append_assoc] at hmove
    refine ⟨hseg, hseg.open hmove (by simp [hleft]), .inr (.inl ⟨_, _, rfl, rfl, ?_, hleft, hc⟩)⟩
    rw [List.append_assoc]
    exact hmove
  | reply hseg hc hmove hcu => exact ⟨hseg, hcu, .inr (.inr ⟨rfl, rfl, hmove, hc⟩)⟩

end

structure EchoInv (input : Bytes) (s : State) : Prop where
  clientOk  : s.client.rio.Ok
  clientWin : s.client.rio.window = []
  serverOk  : s.server.rio.Ok
  serverWin : s.server.rio.window = []
  replies   : ∀ r ∈ s.client.log, r.2 = r.1
  out       : s.client.stdout = (s.client.log.map (·.1)).flatten
  input     : s.client.stdout ++ s.client.pc.outstanding ++ s.client.stdin = input
  place     : Place s.client.pc s.server.pc s.c2s s.s2c

theorem start_ok (stdin : Bytes) (rp rp' : RioT) : EchoInv stdin (start stdin rp rp') where
  clientOk := rioInitb_ok rp
  clientWin := rioInitb_window rp
  serverOk := rioInitb_ok rp'
  serverWin := rioInitb_window rp'
  replies := nofun
  out := rfl
  input := rfl
  place := .idle

section
variable {input : Bytes} {s : State}

theorem EchoInv.clientWaiting (h : EchoInv input s) {u : Bytes} (hu : Open M u) : Waiting M u s.client.rio :=
  ⟨h.clientOk, h.clientWin, hu⟩

theorem EchoInv.serverWaiting (h : EchoInv input s) {u : Bytes} (hu : Open M u) : Waiting M u s.server.rio :=
  ⟨h.serverOk, h.serverWin, hu⟩

theorem open_M_nil : Open M [] := open_nil (by decide)

/-! ### What the steps do to the state -/

theorem clientRead_none {seg u u' : Bytes} {sched : List ReadOutcome} {rp : RioT} {x : Bytes}
    (h : rioReadlinebLoop (M - u.length) (u.length + 1 : Nat) u s.client.rio ⟨s.s2c, sched⟩ = ⟨none, u', rp, ⟨x, []⟩⟩) :
    s.clientRead seg u sched =
      { s with client := { s.client with pc := .reading seg u', rio := rp }, s2c := x } := by
  simp only [State.clientRead, show MAXLINE - 1 = M from rfl, h]

theorem clientRead_some {seg u u' : Bytes} {sched : List ReadOutcome} {rp : RioT} {x : Bytes} (hpos : 0 < u'.length)
    (h : rioReadlinebLoop (M - u.length) (u.length + 1 : Nat) u s.client.rio ⟨s.s2c, sched⟩ =
      ⟨some u'.length, u', rp, ⟨x, []⟩⟩) :
    s.clientRead seg u sched = { s with
      client := { s.client with
        pc := .fgets, rio := rp, stdout := s.client.stdout ++ cstring u', log := s.client.log ++ [(seg, u')] }
      s2c := x } := by
  simp only [State.clientRead, show MAXLINE - 1 = M from rfl, h, if_neg (show ¬ (u'.length : Int) ≤ 0 by omega)]

theorem serverRead_none {u u' : Bytes} {sched : List ReadOutcome} {rp : RioT} {x : Bytes}
    (h : rioReadlinebLoop (M - u.length) (u.length + 1 : Nat) u s.server.rio ⟨s.c2s, sched⟩ = ⟨none, u', rp, ⟨x, []⟩⟩) :
    s.serverRead u sched = { s with server := ⟨.reading u', rp⟩, c2s := x } := by
  simp only [State.serverRead, show MAXLINE - 1 = M from rfl, h]

theorem serverRead_some {u u' : Bytes} {sched : List ReadOutcome} {rp : RioT} {x : Bytes} (hpos : 0 < u'.length)
    (h : rioReadlinebLoop (M - u.length) (u.length + 1 : Nat) u s.server.rio ⟨s.c2s, sched⟩ =
      ⟨some u'.length, u', rp, ⟨x, []⟩⟩) :
    s.serverRead u sched = { s with server := ⟨.writing u'.length u', rp⟩, c2s := x } := by
  simp only [State.serverRead, show MAXLINE - 1 = M from rfl, h, if_pos (show (u'.length : Int) > 0 by omega),
    Int.toNat_natCast]

/-- The client has written its segment and waits for the reply. -/
theorem EchoInv.clientWritten (h : EchoInv input s) {seg left : Bytes} {sched : List WriteOutcome}
    (hw : rioWritenLoop (cstring seg).length sched left [] = ⟨some (cstring seg).length, left, []⟩) :
    s.clientWrite seg left sched =
      { s with client := { s.client with pc := .reading seg [] }, c2s := s.c2s ++ left } := by
  simp only [State.clientWrite, hw, ne_eq, not_true_eq_false, if_false]
  exact clientRead_none (s := { s with c2s := s.c2s ++ left }) (enter_blocks (h.clientWaiting open_M_nil) s.s2c)

theorem clientWrite_none {seg left sent : Bytes} {sched : List WriteOutcome}
    (hw : rioWritenLoop (cstring seg).length sched left [] = ⟨none, sent, []⟩) :
    s.clientWrite seg left sched = { s with
      client := { s.client with pc := .writing seg (left.drop sent.length) }, c2s := s.c2s ++ sent } := by
  simp only [State.clientWrite, hw]

/-- The server has written its line and waits for the next one. -/
theorem EchoInv.serverWritten (h : EchoInv input s) {n : Nat} {left : Bytes} {sched : List WriteOutcome}
    (hw : rioWritenLoop n sched left [] = ⟨some n, left, []⟩) :
    s.serverWrite n left sched =
      { s with server := ⟨.reading [], s.server.rio⟩, s2c := s.s2c ++ left } := by
  simp only [State.serverWrite, hw, ne_eq, not_true_eq_false, if_false]
  exact serverRead_none (s := { s with s2c := s.s2c ++ left }) (enter_blocks (h.serverWaiting open_M_nil) s.c2s)

theorem serverWrite_none {n : Nat} {left sent : Bytes} {sched : List WriteOutcome}
    (hw : rioWritenLoop n sched left [] = ⟨none, sent, []⟩) :
    s.serverWrite n left sched = { s with
      server := { s.server with pc := .writing n (left.drop sent.length) }, s2c := s.s2c ++ sent } := by
  simp only [State.serverWrite, hw]

/-! ### Each step keeps the invariant -/

theorem fgets_ok (h : EchoInv input s) (hnul : (0 : UInt8) ∉ input) (hpc : s.client.pc = .fgets) :
    EchoInv input s.clientFgets := by
  have hplace := h.place
  have hin := h.input
  rw [hpc] at hplace hin
  obtain ⟨hsp, hc, hs⟩ := hplace.of_fgets
  unfold State.clientFgets
  split
  · refine ⟨h.clientOk, h.clientWin, h.serverOk, h.serverWin, h.replies, h.out, hin, ?_⟩
    simp only [hsp, hc, hs]
    exact .closing
  · rename_i hne
    have hseg := fgets_segment hne
    have happ : (fgets s.client.stdin).1 ++ (fgets s.client.stdin).2 = s.client.stdin := fgetsLoop_append M _
    have hnul' : (0 : UInt8) ∉ (fgets s.client.stdin).1 := by
      intro hmem
      refine hnul (hin ▸ List.mem_append_right _ ?_)
      rw [← happ]
      exact List.mem_append_left _ hmem
    simp only
    rw [clientWrite_none (write_blocked (by rw [cstring_eq hnul']; exact hseg.ne_nil)), cstring_eq hnul']
    refine ⟨h.clientOk, h.clientWin, h.serverOk, h.serverWin, h.replies, h.out, ?_, ?_⟩
    · show s.client.stdout ++ (fgets s.client.stdin).1 ++ (fgets s.client.stdin).2 = input
      rw [List.append_assoc, happ, ← hin]
      simp [ClientPc.outstanding]
    · simp only [hsp, hc, hs, List.append_nil, List.length_nil, List.drop_zero]
      exact .request hseg rfl hseg.ne_nil

theorem noFailure_write {o : WriteOutcome} (h : NoFailure s (.clientWrite o) ∨ NoFailure s (.serverWrite o)) :
    o ≠ .error ∧ o ≠ .count 0 := by
  constructor <;> rintro rfl <;> rcases h with h | h <;> exact h.elim

theorem clientWrite_ok (h : EchoInv input s) {seg left : Bytes}
    (hpc : s.client.pc = .writing seg left) {o : WriteOutcome} (ho : NoFailure s (.clientWrite o)) :
    EchoInv input (s.clientWrite seg left [o]) := by
  have hplace := h.place
  have hin := h.input
  rw [hpc] at hplace hin
  obtain ⟨u, hsp, hs, hseg, hmove, hleft⟩ := hplace.of_writing
  obtain ⟨herr, hzero⟩ := noFailure_write (.inl ho)
  rcases write_cases (n := (cstring seg).length) herr hzero hleft with ⟨sent, hw, hsent, hrest⟩ | hw
  · rw [clientWrite_none hw]
    refine ⟨h.clientOk, h.clientWin, h.serverOk, h.serverWin, h.replies, h.out, hin, ?_⟩
    simp only [hsp, hs]
    refine .request hseg ?_ hrest
    rw [← hmove, ← hsent]
    simp only [List.append_assoc, List.drop_left]
  · rw [h.clientWritten hw]
    refine ⟨h.clientOk, h.clientWin, h.serverOk, h.serverWin, h.replies, h.out, hin, ?_⟩
    simp only [hsp, hs]
    have hmove' : u ++ (s.c2s ++ left) = seg := by rw [← List.append_assoc]; exact hmove
    exact .waiting hseg hmove' (hseg.open hmove' (by simp [hleft]))

theorem serverWrite_ok (h : EchoInv input s) {n : Nat} {left : Bytes} (hpc : s.server.pc = .writing n left)
    {o : WriteOutcome} (ho : NoFailure s (.serverWrite o)) : EchoInv input (s.serverWrite n left [o]) := by
  have hplace := h.place
  rw [hpc] at hplace
  obtain ⟨seg, cu, hcp, hc, hseg, hcu, hcomp, hmove, hleft⟩ := hplace.of_serverWriting
  obtain ⟨herr, hzero⟩ := noFailure_write (.inr ho)
  rcases write_cases (n := n) herr hzero hleft with ⟨sent, hw, hsent, hrest⟩ | hw
  · rw [serverWrite_none hw]
    refine ⟨h.clientOk, h.clientWin, h.serverOk, h.serverWin, h.replies, h.out, h.input, ?_⟩
    simp only [hcp, hc]
    refine .echoing hseg hcomp ?_ hrest
    rw [← hmove, ← hsent]
    simp only [List.append_assoc, List.drop_left]
  · rw [h.serverWritten hw]
    refine ⟨h.clientOk, h.clientWin, h.serverOk, h.serverWin, h.replies, h.out, h.input, ?_⟩
    simp only [hcp, hc]
    exact .reply hseg hcomp (by rw [← hmove, List.append_assoc]) hcu

/-- Bytes that `read(2)` moves from a channel. -/
theorem moved {x : Bytes} (hx : x ≠ []) {k : Nat} (hk : 0 < k) : x.take (min k RIO_BUFSIZE) ≠ [] := by
  have hpos := List.length_pos_iff.2 hx
  refine List.length_pos_iff.1 ?_
  simp only [List.length_take, RIO_BUFSIZE]
  omega

theorem readable_count {x : Bytes} {k : Nat} (h : readable x false (.count k) = true) : x ≠ [] ∧ 0 < k := by
  simp only [readable] at h
  split at h
  · cases h
  · rename_i hx
    exact ⟨hx, of_decide_eq_true h⟩

/-- **One `read(2)` of a segment that is on its way** leaves the line open, or ends it: then the segment
is complete, and nothing of it is left. -/
theorem read_segment {u x left seg : Bytes} {rp : RioT} {k : Nat} (h : Waiting M u rp) (hseg : Segment seg)
    (hmove : u ++ x ++ left = seg) (hx : x ≠ []) (hk : 0 < k) :
    (∃ rp', rioReadlinebLoop (M - u.length) (u.length + 1 : Nat) u rp ⟨x, [.count k]⟩ =
        ⟨none, u ++ x.take (min k RIO_BUFSIZE), rp', ⟨x.drop (min k RIO_BUFSIZE), []⟩⟩ ∧
      Waiting M (u ++ x.take (min k RIO_BUFSIZE)) rp') ∨
    (∃ rp', rioReadlinebLoop (M - u.length) (u.length + 1 : Nat) u rp ⟨x, [.count k]⟩ =
        ⟨some seg.length, seg, rp', ⟨[], []⟩⟩ ∧ rp'.Ok ∧ rp'.window = [] ∧ left = [] ∧ Complete M seg) := by
  have hbs := moved hx hk
  have hsplit : u ++ x.take (min k RIO_BUFSIZE) ++ (x.drop (min k RIO_BUFSIZE) ++ left) = seg := by
    rw [← hmove]
    simp only [List.append_assoc, List.take_append_drop, ← List.append_assoc (List.take _ _)]
  by_cases hend : x.drop (min k RIO_BUFSIZE) ++ left = []
  · obtain ⟨hdrop, hleft⟩ := List.append_eq_nil_iff.1 hend
    rw [hend, List.append_nil] at hsplit
    rcases open_or_complete hseg.le with hopen | hcomp
    · exact .inl (read_open h hbs (hsplit ▸ hopen))
    · right
      obtain ⟨rp', hloop, hok, hwin⟩ := read_complete h hbs (hsplit ▸ hseg.cut) (hsplit ▸ hseg.le) (hsplit ▸ hcomp)
      rw [hsplit, hdrop] at hloop
      exact ⟨rp', hloop, hok, hwin, hleft, hcomp⟩
  · exact .inl (read_open h hbs (hseg.open hsplit hend))

theorem clientRead_ok (h : EchoInv input s) (hnul : (0 : UInt8) ∉ input) {seg cu : Bytes}
    (hpc : s.client.pc = .reading seg cu) {o : ReadOutcome} (ho : NoFailure s (.clientRead o))
    (hr : readable s.s2c (s.server.pc = .closed) o = true) : EchoInv input (s.clientRead seg cu [o]) := by
  have hplace := h.place
  have hin := h.input
  rw [hpc] at hplace hin
  obtain ⟨hseg, hcu, hcases⟩ := hplace.of_reading
  have hwait := h.clientWaiting hcu
  have hopen : decide (s.server.pc = .closed) = false := by
    rcases hcases with ⟨_, hsp, -⟩ | ⟨_, _, hsp, -⟩ | ⟨hsp, -⟩ <;> simp [hsp]
  cases o with
  | error => exact ho.elim
  | eintr =>
    obtain ⟨rp, hloop, hok, hwin, -⟩ := read_eintr hwait s.s2c
    rw [clientRead_none hloop]
    refine ⟨hok, hwin, h.serverOk, h.serverWin, h.replies, h.out, hin, ?_⟩
    exact hplace
  | count k =>
    rw [hopen] at hr
    obtain ⟨hne, hk⟩ := readable_count hr
    have hsplit := List.take_append_drop (min k RIO_BUFSIZE) s.s2c
    rcases hcases with ⟨u, hsp, hs, -⟩ | ⟨n, left, hsp, hc, hmove, hleft, hcomp⟩ | ⟨hsp, hc, hmove, hcomp⟩
    · exact absurd hs hne
    · rcases read_segment hwait hseg hmove hne hk with ⟨rp, hloop, hok, hwin, -⟩ | ⟨_, _, _, _, hnil, _⟩
      · rw [clientRead_none hloop]
        refine ⟨hok, hwin, h.serverOk, h.serverWin, h.replies, h.out, hin, ?_⟩
        simp only [hsp, hc]
        exact .echoing hseg hcomp (by rw [List.append_assoc cu, hsplit]; exact hmove) hleft
      · exact absurd hnil hleft
    · rcases read_segment hwait hseg ((List.append_nil _).trans hmove) hne hk with
        ⟨rp, hloop, hok, hwin, hcu'⟩ | ⟨rp, hloop, hok, hwin, -, -⟩
      · rw [clientRead_none hloop]
        refine ⟨hok, hwin, h.serverOk, h.serverWin, h.replies, h.out, hin, ?_⟩
        simp only [hsp, hc]
        exact .reply hseg hcomp (by rw [List.append_assoc, hsplit]; exact hmove) hcu'
      · -- the reply is complete, and it is the segment
        rw [clientRead_some (List.length_pos_iff.2 hseg.ne_nil) hloop]
        have hnul' : (0 : UInt8) ∉ seg := fun hmem =>
          hnul (hin ▸ List.mem_append_left _ (List.mem_append_right _ hmem))
        refine ⟨hok, hwin, h.serverOk, h.serverWin, fun r hr => ?_, ?_, ?_, ?_⟩
        · rcases List.mem_append.1 hr with hr | hr
          · exact h.replies r hr
          · obtain rfl := List.mem_singleton.1 hr
            rfl
        · simp only [cstring_eq hnul', h.out, List.map_append, List.flatten_append]
          simp
        · simp only [cstring_eq hnul']
          rw [← hin]
          simp [ClientPc.outstanding]
        · simp only [hsp, hc]
          exact .idle

/-- The server waits for input: the line it has stored is open, and input can only come while the
client is sending a segment or has closed. -/
theorem Place.of_serverReading {cp : ClientPc} {u c2s s2c : Bytes} (h : Place cp (.reading u) c2s s2c) :
    Open M u ∧
    ((∃ seg left, cp = .writing seg left ∧ s2c = [] ∧ Segment seg ∧ u ++ c2s ++ left = seg ∧ left ≠ []) ∨
      (∃ seg, cp = .reading seg [] ∧ s2c = [] ∧ Segment seg ∧ u ++ c2s = seg) ∨
      (u = [] ∧ c2s = [] ∧ (cp = .closed → s2c = []))) := by
  cases h with
  | idle => exact ⟨open_M_nil, .inr (.inr ⟨rfl, rfl, nofun⟩)⟩
  | request hseg hmove hleft =>
    have hmove' := hmove
    rw [List.append_assoc] at hmove'
    exact ⟨hseg.open hmove' (by simp [hleft]), .inl ⟨_, _, rfl, rfl, hseg, hmove, hleft⟩⟩
  | waiting hseg hmove hu => exact ⟨hu, .inr (.inl ⟨_, rfl, rfl, hseg, hmove⟩)⟩
  | reply hseg hc hmove hcu => exact ⟨open_M_nil, .inr (.inr ⟨rfl, rfl, nofun⟩)⟩
  | closing => exact ⟨open_M_nil, .inr (.inr ⟨rfl, rfl, fun _ => rfl⟩)⟩

theorem serverRead_ok (h : EchoInv input s) {u : Bytes} (hpc : s.server.pc = .reading u) {o : ReadOutcome}
    (ho : NoFailure s (.serverRead o)) (hr : readable s.c2s (s.client.pc = .closed) o = true) :
    EchoInv input (s.serverRead u [o]) := by
  have hplace := h.place
  rw [hpc] at hplace
  obtain ⟨hu, hcases⟩ := hplace.of_serverReading
  have hwait := h.serverWaiting hu
  cases o with
  | error => exact ho.elim
  | eintr =>
    obtain ⟨rp, hloop, hok, hwin, -⟩ := read_eintr hwait s.c2s
    rw [serverRead_none hloop]
    exact ⟨h.clientOk, h.clientWin, hok, hwin, h.replies, h.out, h.input, hplace⟩
  | count k =>
    have hsplit := List.take_append_drop (min k RIO_BUFSIZE) s.c2s
    rcases hcases with ⟨seg, left, hcp, hs, hseg, hmove, hleft⟩ | ⟨seg, hcp, hs, hseg, hmove⟩ | ⟨rfl, hc, hcl⟩
    · obtain ⟨hne, hk⟩ := readable_count (show readable s.c2s false (.count k) = true by simpa [hcp] using hr)
      rcases read_segment hwait hseg hmove hne hk with ⟨rp, hloop, hok, hwin, -⟩ | ⟨_, _, _, _, hnil, _⟩
      · rw [serverRead_none hloop]
        refine ⟨h.clientOk, h.clientWin, hok, hwin, h.replies, h.out, h.input, ?_⟩
        simp only [hcp, hs]
        exact .request hseg (by rw [List.append_assoc u, hsplit]; exact hmove) hleft
      · exact absurd hnil hleft
    · obtain ⟨hne, hk⟩ := readable_count (show readable s.c2s false (.count k) = true by simpa [hcp] using hr)
      rcases read_segment hwait hseg ((List.append_nil _).trans hmove) hne hk with
        ⟨rp, hloop, hok, hwin, hu'⟩ | ⟨rp, hloop, hok, hwin, -, hcomp⟩
      · rw [serverRead_none hloop]
        refine ⟨h.clientOk, h.clientWin, hok, hwin, h.replies, h.out, h.input, ?_⟩
        simp only [hcp, hs]
        exact .waiting hseg (by rw [List.append_assoc, hsplit]; exact hmove) hu'
      · -- the line is complete, and it is the segment
        rw [serverRead_some (List.length_pos_iff.2 hseg.ne_nil) hloop]
        refine ⟨h.clientOk, h.clientWin, hok, hwin, h.replies, h.out, h.input, ?_⟩
        simp only [hcp, hs]
        exact .echoing hseg hcomp rfl hseg.ne_nil
    · -- nothing to read: the client has closed, and this is the end of file
      have hclosed : s.client.pc = .closed := by simpa [readable, hc] using hr
      have hloop := read_eof hwait k
      have hread : s.serverRead [] [.count k] =
          { s with server := ⟨.closed, { s.server.rio with rioCnt := 0 }⟩, c2s := [] } := by
        simp only [State.serverRead, show MAXLINE - 1 = M from rfl, List.length_nil, hc, hloop, gt_iff_lt,
          Int.lt_irrefl, if_false]
      rw [hread]
      refine ⟨h.clientOk, h.clientWin, ?_, window_of_cnt_le (by simp), h.replies, h.out, h.input, ?_⟩
      · exact ⟨by simp, by simp [RIO_BUFSIZE], by have := h.serverOk.inside; simp; omega⟩
      · simp only [hclosed, hcl hclosed]
        exact .closed

/-- **Step lemma.** -/
theorem step_ok (hnul : (0 : UInt8) ∉ input) (s : State) (l : Label) (s' : State) (h : EchoInv input s)
    (ho : NoFailure s l) (hs : step s l = some s') : EchoInv input s' := by
  cases l with
  | fgets =>
    simp only [step] at hs
    split at hs <;> cases hs
    rename_i hpc
    exact fgets_ok h hnul hpc
  | clientWrite o =>
    simp only [step] at hs
    split at hs <;> cases hs
    rename_i hpc
    exact clientWrite_ok h hpc ho
  | clientRead o =>
    simp only [step] at hs
    split at hs
    · rename_i hpc
      split at hs <;> cases hs
      rename_i hr
      exact clientRead_ok h hnul hpc ho hr
    · cases hs
  | serverRead o =>
    simp only [step] at hs
    split at hs
    · rename_i hpc
      split at hs <;> cases hs
      rename_i hr
      exact serverRead_ok h hpc ho hr
    · cases hs
  | serverWrite o =>
    simp only [step] at hs
    split at hs <;> cases hs
    rename_i hpc
    exact serverWrite_ok h hpc ho

theorem reach_ok {rp rp' : RioT} (hnul : (0 : UInt8) ∉ input) (h : Reach step NoFailure (start input rp rp') s) :
    EchoInv input s :=
  h.invariant (start_ok input rp rp') fun s l s' hi ho hs => step_ok hnul s l s' hi ho hs

end

/-! ## Lockstep -/

/-- What the client has still to write, and what it has stored of the reply. -/
def ClientPc.unsent : ClientPc → Bytes
  | .writing _ left => left
  | _ => []

def ClientPc.stored : ClientPc → Bytes
  | .reading _ usrbuf => usrbuf
  | _ => []

/-- What the server has stored of a line, and what it has still to echo. -/
def ServerPc.stored : ServerPc → Bytes
  | .reading usrbuf => usrbuf
  | _ => []

def ServerPc.unsent : ServerPc → Bytes
  | .writing _ left => left
  | _ => []

/-- All the bytes between the client's `fgets` and its `fputs`, first out first. -/
def State.inTransit (s : State) : Bytes :=
  s.client.pc.stored ++ s.client.rio.window ++ s.s2c ++ s.server.pc.unsent ++ s.server.pc.stored ++
    s.server.rio.window ++ s.c2s ++ s.client.pc.unsent

theorem Place.inTransit {cp : ClientPc} {sp : ServerPc} {c2s s2c : Bytes} (h : Place cp sp c2s s2c) :
    cp.stored ++ s2c ++ sp.unsent ++ sp.stored ++ c2s ++ cp.unsent = cp.outstanding := by
  cases h with
  | idle => rfl
  | request _ hmove _ =>
    simpa [ClientPc.stored, ClientPc.unsent, ServerPc.stored, ServerPc.unsent, ClientPc.outstanding] using hmove
  | waiting _ hmove _ =>
    simpa [ClientPc.stored, ClientPc.unsent, ServerPc.stored, ServerPc.unsent, ClientPc.outstanding] using hmove
  | echoing _ _ hmove _ =>
    simpa [ClientPc.stored, ClientPc.unsent, ServerPc.stored, ServerPc.unsent, ClientPc.outstanding] using hmove
  | reply _ _ hmove _ =>
    simpa [ClientPc.stored, ClientPc.unsent, ServerPc.stored, ServerPc.unsent, ClientPc.outstanding] using hmove
  | closing => rfl
  | closed => rfl

/-- **Lockstep.** In every run without a failing read or write: all the bytes in transit are those of
one segment, the one `fgets` produced last; every reply that `rio_readlineb` returned is the segment
it was the reply to; and what was printed, the outstanding segment and the rest of `stdin` are the
input, so what was printed is a prefix of it. -/
theorem lockstep {input : Bytes} {rp rp' : RioT} {s : State} (hnul : (0 : UInt8) ∉ input)
    (h : Reach step NoFailure (start input rp rp') s) :
    s.inTransit = s.client.pc.outstanding ∧
    (∀ r ∈ s.client.log, r.2 = r.1) ∧
    s.client.stdout = (s.client.log.map (·.2)).flatten ∧
    s.client.stdout ++ s.client.pc.outstanding ++ s.client.stdin = input := by
  have hinv := reach_ok hnul h
  refine ⟨?_, hinv.replies, ?_, hinv.input⟩
  · rw [State.inTransit, hinv.clientWin, hinv.serverWin, List.append_nil, List.append_nil]
    exact hinv.place.inTransit
  · rw [hinv.out]
    congr 1
    exact List.map_congr_left fun r hr => (hinv.replies r hr).symm

/-- Two lines; the first goes out in two writes and comes back in two reads. -/
def twoLines : List Label :=
  [.fgets, .clientWrite (.count 1), .serverRead (.count 9), .clientWrite (.count 5), .serverRead .eintr,
    .serverRead (.count 9), .serverWrite (.count 1), .clientRead (.count 9), .serverWrite (.count 9),
    .clientRead (.count 9), .fgets, .clientWrite (.count 9)]

theorem lockstep_twoLines : ∃ s, runWhile step NoFailure (start [97, 10, 98, 10] zeroRio zeroRio) twoLines = some s ∧
    s.client.stdout = [97, 10] ∧ s.inTransit = s.client.pc.outstanding := by
  have hend : (runWhile step NoFailure (start [97, 10, 98, 10] zeroRio zeroRio) twoLines).map
      (·.client.stdout) = some [97, 10] := by decide +kernel
  obtain ⟨s, hs, hout⟩ := Option.map_eq_some_iff.1 hend
  exact ⟨s, hs, hout, (lockstep (by decide) (runWhile_reach hs)).1⟩

end ComputerSystem.Echo
