import ComputerSystem.Rio.Stream
import ComputerSystem.Tiny.Dispatch
import ComputerSystem.Tiny.Upload
/-!
# Reading the request headers (`Chapter11/tiny_web/tiny.c:149-167`)

`read_requesthdrs` calls `rio_readlineb` until its buffer holds `"\r\n"`, and looks at nothing but the
buffer. At the end of file `rio_readlineb` returns 0 and leaves the buffer alone (`rio.c:109-111`), so
the loop sees the same line again and never ends. `headers_return_iff` says for which streams it does
end.

| here             | there                                                                  |
|------------------|------------------------------------------------------------------------|
| `Headers.buf`    | `char buf[MAXLINE]`, which keeps what was in it                          |
| `atol`           | `atol`, with the clipping of `strtol` to a `long`                        |
| `noteHeader`     | the body of the loop without its last call (`:153-164`)                  |
| `nextHeader`     | one `rio_readlineb(rp, buf, MAXLINE)`; `none` while it is blocked        |
| `headersLoop`    | at most so many turns of the loop                                        |

What is printed is left out.
-/

namespace ComputerSystem.Tiny

open Rio

def blankLine : Bytes := [13, 10]

/-- `isspace` in the C locale. -/
def isSpace (c : UInt8) : Bool := c = 32 ∨ 9 ≤ c ∧ c ≤ 13

def isDigit (c : UInt8) : Bool := 48 ≤ c ∧ c ≤ 57

/-- Into the range of a `long`. -/
def clipLong (z : Int) : Int := max (-2 ^ 63) (min (2 ^ 63 - 1) z)

/-- The decimal number that `s` starts with. -/
def decimal (s : Bytes) : Nat := (s.takeWhile isDigit).foldl (fun n c => 10 * n + (c.toNat - 48)) 0

/-- `atol`. -/
def atol (s : Bytes) : Int :=
  match s.dropWhile isSpace with
  | [] => 0
  | c :: t =>
    if c = 45 then clipLong (-(decimal t : Int))
    else if c = 43 then clipLong (decimal t)
    else clipLong (decimal (c :: t))

/-- The locals of `read_requesthdrs` and what its arguments point to. -/
structure Headers where
  contentLength : Int
  contentType   : Bytes
  buf           : Bytes
  rio           : RioT
  fd            : Fd

/-- The tests on the line in `buf` (`:154-163`). -/
def noteHeader (h : Headers) : Headers :=
  let line := cstring h.buf
  if equalFold (line.take 15) (ascii "Content-Length:") then
    { h with contentLength := atol (line.drop 15) }
  else if equalFold (line.take 13) (ascii "Content-Type:") then
    let p := (line.drop 13).dropWhile (· = 32)
    { h with contentType := (p.take (MAXLINE - 1)).takeWhile fun c => c ≠ 13 ∧ c ≠ 10 }
  else h

/-- `bytes` stored at the start of the buffer. -/
def overwrite (buf bytes : Bytes) : Bytes := bytes ++ buf.drop bytes.length

/-- What `rio_readlineb` makes of the buffer: the bytes and a NUL (`rio.c:117`), or only the bytes when
it fails, or nothing when it returns 0. -/
def stored (ret : Int) (usrbuf buf : Bytes) : Bytes :=
  if ret = 0 then buf
  else if ret < 0 then overwrite buf usrbuf
  else overwrite buf (usrbuf ++ [0])

/-- `rio_readlineb(rp, buf, MAXLINE)` (`:152`, `:165`). -/
def nextHeader (h : Headers) : Option Headers :=
  match rioReadlineb h.rio h.fd MAXLINE with
  | ⟨none, _, _, _⟩ => none
  | ⟨some ret, usrbuf, rp, fd⟩ => some { h with buf := stored ret usrbuf h.buf, rio := rp, fd := fd }

inductive Reading
  | blocked
  | running (h : Headers)
  | returned (h : Headers)

/-- The `while` (`:153-166`). -/
def headersLoop : Nat → Headers → Reading
  | 0, h => if cstring h.buf = blankLine then .returned h else .running h
  | n + 1, h =>
    if cstring h.buf = blankLine then .returned h
    else match nextHeader (noteHeader h) with
    | none => .blocked
    | some h => headersLoop n h

/-- `read_requesthdrs` (`:149`), for at most so many turns of its loop. -/
def readRequesthdrs (turns : Nat) (h : Headers) : Reading :=
  match nextHeader h with
  | none => .blocked
  | some h => headersLoop turns h

/-! ## One line -/

theorem noteHeader_frame (h : Headers) :
    (noteHeader h).buf = h.buf ∧ (noteHeader h).rio = h.rio ∧ (noteHeader h).fd = h.fd := by
  unfold noteHeader
  simp only
  split
  · exact ⟨rfl, rfl, rfl⟩
  · split <;> exact ⟨rfl, rfl, rfl⟩

/-- The loop looks at its buffer and asks for the next line. -/
theorem headersLoop_succ (n : Nat) (h : Headers) : headersLoop (n + 1) h =
    if cstring h.buf = blankLine then .returned h else readRequesthdrs n (noteHeader h) := rfl

/-- **Invariant rule**: what the tests on a line and the reading of the next one keep. -/
theorem readRequesthdrs_keeps {P : Headers → Prop} (hnote : ∀ h, P h → P (noteHeader h))
    (hnext : ∀ h h', P h → nextHeader h = some h' → P h') : ∀ (turns : Nat) {h h' : Headers}, P h →
    readRequesthdrs turns h = .returned h' → P h' := by
  intro turns
  induction turns with
  | zero =>
    intro h h' hp hret
    unfold readRequesthdrs at hret
    split at hret
    · cases hret
    · rename_i h₁ hread
      simp only [headersLoop] at hret
      split at hret <;> cases hret
      exact hnext h _ hp hread
  | succ turns ih =>
    intro h h' hp hret
    unfold readRequesthdrs at hret
    split at hret
    · cases hret
    · rename_i h₁ hread
      have hp₁ := hnext h h₁ hp hread
      rw [headersLoop_succ] at hret
      split at hret
      · cases hret
        exact hp₁
      · exact ih (hnote h₁ hp₁) hret

/-- A piece is the blank line if the string in the buffer is. -/
theorem cstring_piece {m : Nat} {bs : Bytes} (buf : Bytes) :
    cstring (overwrite buf (piece m bs ++ [0])) = blankLine ↔ piece m bs = blankLine := by
  have hcut : cstring (overwrite buf (piece m bs ++ [0])) = cstring (piece m bs) := by
    rw [overwrite, List.append_assoc]
    exact cstring_append_nul _ _
  rw [hcut]
  constructor
  · intro h
    -- what follows the newline in the piece is empty
    obtain ⟨c, hc⟩ : cstring (piece m bs) <+: piece m bs := List.takeWhile_prefix _
    rw [h] at hc
    have hcut : piece m bs = [13] ++ 10 :: c := by
      rw [← hc]
      rfl
    have hnil : c = [] := piece_newline m hcut
    rw [← hc, hnil, List.append_nil]
  · intro h
    rw [h]
    rfl

/-- **One call.** It takes the next piece and leaves it in the buffer, or at the end of file leaves
the buffer as it was; it waits only when the outcomes are used up. -/
theorem nextHeader_cases {h : Headers} (hok : h.rio.Ok) (hno : NoReadFails h.fd.sched) :
    (nextHeader h = none ∧ reads h.fd.sched ≤ h.fd.unread.length) ∨
    ∃ h', nextHeader h = some h' ∧ h'.rio.Ok ∧ NoReadFails h'.fd.sched ∧
      ((rest h.rio h.fd = [] ∧ rest h'.rio h'.fd = [] ∧ cstring h'.buf = cstring h.buf) ∨
        (rest h.rio h.fd ≠ [] ∧ piece (MAXLINE - 1) (rest h.rio h.fd) ++ rest h'.rio h'.fd = rest h.rio h.fd ∧
          (cstring h'.buf = blankLine ↔ piece (MAXLINE - 1) (rest h.rio h.fd) = blankLine) ∧
          (rest h'.rio h'.fd ≠ [] → reads h.fd.sched + h'.fd.unread.length ≤ reads h'.fd.sched + h.fd.unread.length))) := by
  have hcall := rioReadlineb_cases hok hno (MAXLINE - 1)
  have hmax : MAXLINE - 1 + 1 = MAXLINE := rfl
  rw [hmax] at hcall
  unfold nextHeader
  rcases hcall with ⟨hret, hreads⟩ | ⟨rp', fd', hcall, hok', hno', hrest, -, hmoved⟩
  · generalize rioReadlineb h.rio h.fd MAXLINE = c at hret
    obtain ⟨ret, usrbuf, rp, fd⟩ := c
    obtain rfl : ret = none := hret
    exact .inl ⟨rfl, hreads⟩
  · rw [hcall]
    refine .inr ⟨_, rfl, hok', hno', ?_⟩
    by_cases hnil : rest h.rio h.fd = []
    · left
      rw [hnil, piece_nil] at hrest ⊢
      exact ⟨rfl, hrest, rfl⟩
    · right
      have hpos := List.length_pos_iff.2 (mt (piece_eq_nil (m := MAXLINE - 1) (by decide)).1 hnil)
      have hsplit := List.prefix_iff_eq_append.1 ( piece_prefix (MAXLINE - 1) (rest h.rio h.fd))
      refine ⟨hnil, by rw [hrest]; exact hsplit, ?_, hmoved⟩
      have hstored : stored ((piece (MAXLINE - 1) (rest h.rio h.fd)).length : Int)
          (piece (MAXLINE - 1) (rest h.rio h.fd)) h.buf =
          overwrite h.buf (piece (MAXLINE - 1) (rest h.rio h.fd) ++ [0]) := by
        rw [stored, if_neg (by omega), if_neg (by omega)]
      simp only [hstored]
      exact cstring_piece h.buf

/-! ## The length -/

theorem atol_lt (s : Bytes) : atol s < 2 ^ 63 := by
  have hclip : ∀ z, clipLong z < 2 ^ 63 := by
    intro z
    unfold clipLong
    omega
  unfold atol
  split
  · decide
  · split
    · exact hclip _
    · split <;> exact hclip _

/-- It is a `long`. -/
theorem readRequesthdrs_long {turns : Nat} {h h' : Headers} (hlong : h.contentLength < 2 ^ 63)
    (hret : readRequesthdrs turns h = .returned h') : h'.contentLength < 2 ^ 63 := by
  refine readRequesthdrs_keeps (P := fun h => h.contentLength < 2 ^ 63) ?_ ?_ turns hlong hret
  · intro h hlong
    unfold noteHeader
    simp only
    split
    · exact atol_lt _
    · split <;> exact hlong
  · intro h h' hlong hnext
    unfold nextHeader at hnext
    split at hnext
    · cases hnext
    · cases hnext
      exact hlong

/-! ## Whether the loop ends -/

/-- A blank line is among the pieces, or there is nothing to read and the buffer held one. -/
def Ends (h : Headers) : Prop :=
  blankLine ∈ segments (MAXLINE - 1) (rest h.rio h.fd) ∨ rest h.rio h.fd = [] ∧ cstring h.buf = blankLine

/-- After a line that is not blank the rest decides. -/
theorem segments_rest {h h' : Headers} (hne : rest h.rio h.fd ≠ [])
    (hcons : piece (MAXLINE - 1) (rest h.rio h.fd) ++ rest h'.rio h'.fd = rest h.rio h.fd) :
    segments (MAXLINE - 1) (rest h.rio h.fd) =
      piece (MAXLINE - 1) (rest h.rio h.fd) :: segments (MAXLINE - 1) (rest h'.rio h'.fd) := by
  have hdrop : (rest h.rio h.fd).drop (piece (MAXLINE - 1) (rest h.rio h.fd)).length = rest h'.rio h'.fd := by
    have := congrArg (List.drop (piece (MAXLINE - 1) (rest h.rio h.fd)).length) hcons
    rwa [List.drop_left, eq_comm] at this
  rw [segments_eq (by decide) hne, hdrop]

/-- What a call of `rio_readlineb` in the loop starts with. -/
structure Ready (h : Headers) : Prop where
  ok : h.rio.Ok
  no : NoReadFails h.fd.sched

theorem Ready.note {h : Headers} (hr : Ready h) : Ready (noteHeader h) := by
  obtain ⟨-, hrio, hfd⟩ := noteHeader_frame h
  exact ⟨hrio ▸ hr.ok, hfd ▸ hr.no⟩

/-- With a blank line to come and calls that return the loop ends. -/
theorem readRequesthdrs_returns : ∀ (n : Nat) {h : Headers}, Ready h → (rest h.rio h.fd).length ≤ n → Ends h →
    h.fd.unread.length + 1 ≤ reads h.fd.sched → ∃ h', readRequesthdrs n h = .returned h' := by
  intro n
  induction n with
  | zero =>
    intro h hr hlen hends henough
    have hnil : rest h.rio h.fd = [] := List.length_eq_zero_iff.1 (by omega)
    rcases nextHeader_cases hr.ok hr.no with ⟨-, hfew⟩ | ⟨h', hnext, -, -, hcase⟩
    · omega
    · rcases hends with hmem | ⟨-, hbuf⟩
      · rw [hnil, segments_nil] at hmem
        cases hmem
      · rcases hcase with ⟨-, -, hsame⟩ | ⟨hne, -⟩
        · refine ⟨h', ?_⟩
          simp only [readRequesthdrs, hnext, headersLoop, if_pos (hsame.trans hbuf)]
        · exact absurd hnil hne
  | succ n ih =>
    intro h hr hlen hends henough
    rcases nextHeader_cases hr.ok hr.no with ⟨-, hfew⟩ | ⟨h', hnext, hok', hno', hcase⟩
    · omega
    · simp only [readRequesthdrs, hnext, headersLoop_succ]
      by_cases hblank : cstring h'.buf = blankLine
      · exact ⟨h', by rw [if_pos hblank]⟩
      · rw [if_neg hblank]
        obtain ⟨-, hrio, hfd⟩ := noteHeader_frame h'
        rcases hcase with ⟨hnil, -, hsame⟩ | ⟨hne, hcons, hpiece, hspent⟩
        · -- nothing was read, so the buffer is the one of the start
          rcases hends with hmem | ⟨-, hbuf⟩
          · rw [hnil, segments_nil] at hmem
            cases hmem
          · exact absurd (hsame.trans hbuf) hblank
        · have hmem : blankLine ∈ segments (MAXLINE - 1) (rest h'.rio h'.fd) := by
            rcases hends with hmem | ⟨hnil, -⟩
            · rw [segments_rest hne hcons] at hmem
              rcases List.mem_cons.1 hmem with heq | hmem
              · exact absurd (hpiece.2 heq.symm) hblank
              · exact hmem
            · exact absurd hnil hne
          have hne' : rest h'.rio h'.fd ≠ [] := by
            intro hnil
            rw [hnil, segments_nil] at hmem
            cases hmem
          have hpos := List.length_pos_iff.2 (mt (piece_eq_nil (m := MAXLINE - 1) (by decide)).1 hne)
          have hsplit := congrArg List.length hcons
          rw [List.length_append] at hsplit
          have := hspent hne'
          apply ih (Ready.note ⟨hok', hno'⟩)
          · rw [hrio, hfd]
            omega
          · exact .inl (by rw [hrio, hfd]; exact hmem)
          · rw [hfd]
            omega

/-- Without one the loop never ends: the buffer always holds another line. -/
theorem readRequesthdrs_stays : ∀ (n : Nat) {h : Headers}, Ready h → ¬ Ends h →
    ∀ h', readRequesthdrs n h ≠ .returned h' := by
  intro n
  induction n with
  | zero =>
    intro h hr hends h₁ hret
    rcases nextHeader_cases hr.ok hr.no with ⟨hnone, -⟩ | ⟨h', hnext, -, -, hcase⟩
    · simp only [readRequesthdrs, hnone, reduceCtorEq] at hret
    · have hblank : ¬ cstring h'.buf = blankLine := by
        intro hb
        rcases hcase with ⟨hnil, -, hsame⟩ | ⟨hne, hcons, hpiece, -⟩
        · exact hends (.inr ⟨hnil, hsame.symm.trans hb⟩)
        · refine hends (.inl ?_)
          rw [segments_rest hne hcons, hpiece.1 hb]
          exact List.mem_cons_self ..
      simp only [readRequesthdrs, hnext, headersLoop, if_neg hblank, reduceCtorEq] at hret
  | succ n ih =>
    intro h hr hends h₁ hret
    rcases nextHeader_cases hr.ok hr.no with ⟨hnone, -⟩ | ⟨h', hnext, hok', hno', hcase⟩
    · simp only [readRequesthdrs, hnone, reduceCtorEq] at hret
    · have hends' : ¬ cstring h'.buf = blankLine ∧ ¬ Ends h' := by
        rcases hcase with ⟨hnil, hnil', hsame⟩ | ⟨hne, hcons, hpiece, -⟩
        · have hbuf : ¬ cstring h'.buf = blankLine := fun hb => hends (.inr ⟨hnil, hsame.symm.trans hb⟩)
          refine ⟨hbuf, ?_⟩
          rintro (hmem | ⟨-, hb⟩)
          · rw [hnil', segments_nil] at hmem
            cases hmem
          · exact hbuf hb
        · have hseg := segments_rest hne hcons
          have hbuf : ¬ cstring h'.buf = blankLine := by
            intro hb
            refine hends (.inl ?_)
            rw [hseg, hpiece.1 hb]
            exact List.mem_cons_self ..
          refine ⟨hbuf, ?_⟩
          rintro (hmem | ⟨-, hb⟩)
          · exact hends (.inl (by rw [hseg]; exact List.mem_cons_of_mem _ hmem))
          · exact hbuf hb
      obtain ⟨hbuf, hrio, hfd⟩ := noteHeader_frame h'
      simp only [readRequesthdrs, hnext, headersLoop_succ, if_neg hends'.1] at hret
      refine ih (Ready.note ⟨hok', hno'⟩) ?_ h₁ hret
      rw [Ends, hbuf, hrio, hfd]
      exact hends'.2

/-- **`read_requesthdrs` returns if and only if it meets a blank line**: on a connection whose peer
sends `unread` and closes its side, however `read(2)` cuts the bytes up. The bytes are those left of
the request, in the window and behind it, in the pieces that `rio_readlineb` makes of them; without
any byte it is what the buffer happens to hold that counts. -/
theorem headers_return_iff (contentLength : Int) (contentType buf : Bytes) (rp : RioT) (unread : Bytes)
    (sched : Nat → ReadOutcome) (hok : rp.Ok) (hcl : Closes sched) :
    (∃ calls turns h, readRequesthdrs turns ⟨contentLength, contentType, buf, rp, ⟨unread, upTo sched calls⟩⟩ =
        .returned h) ↔
      blankLine ∈ segments (MAXLINE - 1) (rp.window ++ unread) ∨
        rp.window ++ unread = [] ∧ cstring buf = blankLine := by
  constructor
  · rintro ⟨calls, turns, h, hret⟩
    by_contra hends
    exact readRequesthdrs_stays turns (h := ⟨contentLength, contentType, buf, rp, ⟨unread, upTo sched calls⟩⟩)
      ⟨hok, hcl.noReadFails calls⟩ hends h hret
  · intro hends
    obtain ⟨calls, hcalls⟩ := hcl.enough (unread.length + 1)
    obtain ⟨h, hret⟩ := readRequesthdrs_returns (rp.window ++ unread).length
      (h := ⟨contentLength, contentType, buf, rp, ⟨unread, upTo sched calls⟩⟩) ⟨hok, hcl.noReadFails calls⟩
      (Nat.le_refl _) hends hcalls
    exact ⟨calls, _, h, hret⟩

/-- A byte with each `read(2)`. -/
def byteWise : Nat → ReadOutcome := fun _ => .count 1

theorem byteWise_closes : Closes byteWise := ⟨fun _ => rfl, fun i => ⟨i, Nat.le_refl i, rfl⟩⟩

/-- The array as the stack left it, with zeros. -/
def zeroBuf : Bytes := List.replicate MAXLINE 0

theorem headers_return_iff_host : ∃ calls turns h,
    readRequesthdrs turns ⟨-1, [], zeroBuf, rioInitb zeroRio, ⟨ascii "Host: x\r\n\r\n", upTo byteWise calls⟩⟩ =
      .returned h := by
  refine (headers_return_iff (-1) [] zeroBuf (rioInitb zeroRio) (ascii "Host: x\r\n\r\n") byteWise (rioInitb_ok _)
    byteWise_closes).2 (.inl ?_)
  rw [rioInitb_window]
  decide

/-- Lines that end in LF only, and then the end of file: the loop goes round for ever. -/
theorem lf_only_never_returns : Closes byteWise ∧ ∀ calls turns h,
    readRequesthdrs turns ⟨-1, [], zeroBuf, rioInitb zeroRio, ⟨ascii "Host: x\n\n", upTo byteWise calls⟩⟩ ≠
      .returned h := by
  refine ⟨byteWise_closes, fun calls turns => ?_⟩
  refine readRequesthdrs_stays turns ⟨rioInitb_ok zeroRio, byteWise_closes.noReadFails calls⟩ ?_
  have hno : ¬ (blankLine ∈ segments (MAXLINE - 1) ([] ++ ascii "Host: x\n\n") ∨
      [] ++ ascii "Host: x\n\n" = [] ∧ cstring zeroBuf = blankLine) := by decide
  rwa [Ends, rest, rioInitb_window]

end ComputerSystem.Tiny
