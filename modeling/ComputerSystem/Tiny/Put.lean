import ComputerSystem.Rio.Segments
import ComputerSystem.Tiny.Upload
/-!
# A PUT upload, and what an acknowledged upload has stored

`Chapter11/tiny_web/tiny.c:294` (`serve_put`) and the end of `serve_post` (`:399-415`). Both ignore
what `rio_writen` returns on the opened file, and both count the bytes from the side of the client:
`serve_put` those that `rio_readnb` returned, `serve_post` those it selected. So an answer can name
more bytes than the file has. `acknowledged_iff` says exactly when it does: when one of the
`write(2)`s to the file failed.

| here           | there                                                                      |
|----------------|----------------------------------------------------------------------------|
| `Transfer`     | the locals of `serve_put`'s loop (`:311-322`), and the file so far          |
| `transferLoop` | that loop                                                                  |
| `servePut`     | `serve_put`; its end is a `Posted`, as for `serve_post`                     |
| `made`         | the outcomes of the `write(2)`s made, from those before and those left      |
-/

namespace ComputerSystem.Tiny

open Rio

def MAXBUF : Nat := 8192

/-- `remaining` and what was written to the file. -/
structure Transfer where
  remaining : Int
  file      : Bytes
  rio       : RioT
  fd        : Fd
  writes    : List WriteOutcome

/-- The loop of `serve_put` (`:312-320`); `none` while it is blocked in a system call. Every round
that goes on gets a byte, so `content_length` rounds are enough. -/
def transferLoop : Nat → Transfer → Option Transfer
  | 0, t => some t
  | rounds + 1, t =>
    if t.remaining > 0 then
      let want := if t.remaining < MAXBUF then t.remaining.toNat else MAXBUF
      match rioReadnb t.rio t.fd want with
      | ⟨none, _, _, _⟩ => none
      | ⟨some n, buf, rp, fd⟩ =>
        if n ≤ 0 then some { t with rio := rp, fd := fd }
        else
          let w := rioWriten t.writes (buf.take n.toNat)
          match w.ret with
          | none => none
          | some _ => transferLoop rounds ⟨t.remaining - n, t.file ++ w.sent, rp, fd, w.sched⟩
    else some t

/-- The loop on a file just opened with `O_TRUNC`. -/
def transfer (env : Env) (contentLength : Int) (rp : RioT) (fd : Fd) : Option Transfer :=
  transferLoop contentLength.toNat ⟨contentLength, [], rp, fd, env.writes⟩

/-- `serve_put` (`:294`); it does not call `malloc`. -/
def servePut (env : Env) (uri : Bytes) (contentLength : Int) (rp : RioT) (fd : Fd) : Posted :=
  if contentLength < 0 then
    .clienterror (ascii "PUT") (ascii "411") (ascii "Length Required")
      (ascii "PUT requires a Content-Length header")
  else
    let savepath := uploadPath uri
    if !env.opened then
      .clienterror savepath (ascii "500") (ascii "Internal Server Error")
        (ascii "Tiny couldn't open the file for writing")
    else match transfer env contentLength rp fd with
    | none => .blocked
    | some t => .saved savepath t.file (contentLength - t.remaining)

/-- **The ways `serve_put` ends**. -/
theorem servePut_cases (env : Env) (uri : Bytes) (contentLength : Int) (rp : RioT) (fd : Fd) :
    (contentLength < 0 ∧ servePut env uri contentLength rp fd =
      .clienterror (ascii "PUT") (ascii "411") (ascii "Length Required")
        (ascii "PUT requires a Content-Length header")) ∨
    0 ≤ contentLength ∧
      ((env.opened = false ∧ servePut env uri contentLength rp fd =
        .clienterror (uploadPath uri) (ascii "500") (ascii "Internal Server Error")
          (ascii "Tiny couldn't open the file for writing")) ∨
      servePut env uri contentLength rp fd = .blocked ∨
      ∃ t, transfer env contentLength rp fd = some t ∧
        servePut env uri contentLength rp fd = .saved (uploadPath uri) t.file (contentLength - t.remaining)) := by
  unfold servePut
  by_cases hneg : contentLength < 0
  · exact .inl ⟨hneg, if_pos hneg⟩
  · simp only [if_neg hneg]
    refine .inr ⟨by omega, ?_⟩
    cases hopened : env.opened with
    | false => exact .inl ⟨rfl, rfl⟩
    | true =>
      simp only [Bool.not_true, Bool.false_eq_true, if_false]
      cases htransfer : transfer env contentLength rp fd with
      | none => exact .inr (.inl rfl)
      | some t => exact .inr (.inr ⟨t, rfl, rfl⟩)

/-- What a `serve_put` that has answered 201 has stored. -/
theorem servePut_saved {env : Env} {uri : Bytes} {contentLength : Int} {rp : RioT} {fd : Fd} {savepath file : Bytes} {n : Int}
    (h : servePut env uri contentLength rp fd = .saved savepath file n) :
    0 ≤ contentLength ∧ savepath = uploadPath uri ∧ ∃ t, transfer env contentLength rp fd = some t ∧ file = t.file ∧
      n = contentLength - t.remaining := by
  rcases servePut_cases env uri contentLength rp fd with ⟨-, heq⟩ | ⟨h0, ⟨-, heq⟩ | heq | ⟨t, ht, heq⟩⟩
  · rw [heq] at h
    cases h
  · rw [heq] at h
    cases h
  · rw [heq] at h
    cases h
  · rw [heq] at h
    cases h
    exact ⟨h0, rfl, t, ht, rfl, rfl⟩

/-! ## The writes that were made -/

def made (before left : List WriteOutcome) : List WriteOutcome := before.take (before.length - left.length)

/-- The outcomes of the `write(2)`s that a `serve_put` that has returned made to the file. -/
def putWrites (env : Env) (contentLength : Int) (rp : RioT) (fd : Fd) : List WriteOutcome :=
  match transfer env contentLength rp fd with
  | none => []
  | some t => made env.writes t.writes

/-- The outcomes of the `write(2)`s that a `serve_post` that has returned made to the file. -/
def postWrites (env : Env) (contentLength : Int) (contentType : Bytes) (rp : RioT) (fd : Fd) : List WriteOutcome :=
  match receiveLoop contentLength.toNat contentLength.toNat [] rp fd with
  | none => []
  | some body => made env.writes (rioWriten env.writes (decode contentType body).content).sched

theorem made_eq {used left before : List WriteOutcome} (h : used ++ left = before) : made before left = used := by
  subst h
  rw [made, List.length_append, Nat.add_sub_cancel, List.take_left]

theorem noWriteFails_append {a b : List WriteOutcome} : NoWriteFails (a ++ b) ↔ NoWriteFails a ∧ NoWriteFails b :=
  List.forall_mem_append

/-- One `rio_writen` that returned: the file has all of the buffer, or less of it after a failure. -/
theorem returned_cases (sched : List WriteOutcome) (buf : Bytes) {r : Int} (hr : (rioWriten sched buf).ret = some r) :
    ∃ used, used ++ (rioWriten sched buf).sched = sched ∧
      ((rioWriten sched buf).sent = buf ∧ NoWriteFails used ∨
        (rioWriten sched buf).sent.length < buf.length ∧ ¬ NoWriteFails used) := by
  obtain ⟨used, hused, -, hcase⟩ := rioWriten_spec sched buf
  refine ⟨used, hused, ?_⟩
  rcases hcase with ⟨-, hsent, hno, -⟩ | ⟨-, hlt, hbad⟩ | ⟨hnone, -⟩
  · exact .inl ⟨hsent, hno⟩
  · exact .inr ⟨hlt, hbad⟩
  · rw [hnone] at hr
    cases hr

/-- The loop takes `body` from the connection and puts `out` into the file: all of it unless a write
failed, and then less. -/
theorem transferLoop_spec (rounds : Nat) : ∀ (t : Transfer), t.rio.Ok → ∀ t', transferLoop rounds t = some t' →
    ∃ body out used, body <+: rest t.rio t.fd ∧ t'.remaining = t.remaining - body.length ∧
      t'.file = t.file ++ out ∧ used ++ t'.writes = t.writes ∧
      (out = body ∧ NoWriteFails used ∨ out.length < body.length ∧ ¬ NoWriteFails used) := by
  -- nothing more is taken or written
  have hstop : ∀ (t : Transfer) (rp : RioT) (fd : Fd), ∃ body out used, body <+: rest t.rio t.fd ∧
      t.remaining = t.remaining - (body : Bytes).length ∧ t.file = t.file ++ out ∧ used ++ t.writes = t.writes ∧
      (out = body ∧ NoWriteFails used ∨ out.length < body.length ∧ ¬ NoWriteFails used) := by
    intro t rp fd
    exact ⟨[], [], [], List.nil_prefix, by simp, by simp, rfl, .inl ⟨rfl, fun o ho => by cases ho⟩⟩
  induction rounds with
  | zero =>
    intro t hok t' ht
    cases ht
    exact hstop t t.rio t.fd
  | succ rounds ih =>
    intro t hok t' ht
    simp only [transferLoop] at ht
    split at ht
    · generalize (if t.remaining < (MAXBUF : Int) then t.remaining.toNat else MAXBUF) = want at ht
      obtain ⟨hok', hcons⟩ := rioReadnb_ok hok t.fd want
      have hcount := fun r => rioReadnb_count (r := r) hok t.fd want
      generalize rioReadnb t.rio t.fd want = c at ht hok' hcons hcount
      obtain ⟨ret, buf, rp, fd⟩ := c
      cases ret with
      | none => cases ht
      | some n =>
        simp only at ht hok' hcons
        split at ht
        · cases ht
          exact hstop t rp fd
        · rename_i hn
          have hlen : (buf.length : Int) = n := hcount n rfl (by omega)
          have htake : buf.take n.toNat = buf := List.take_of_length_le (by omega)
          rw [htake] at ht
          split at ht
          · cases ht
          · rename_i r hr
            obtain ⟨used, hused, hcase⟩ := returned_cases t.writes buf hr
            obtain ⟨body, out, used', hpre, hrem, hfile, hused', hcase'⟩ := ih _ hok' t' ht
            refine ⟨buf ++ body, (rioWriten t.writes buf).sent ++ out, used ++ used', ?_, ?_, ?_, ?_, ?_⟩
            · rw [← hcons]
              exact (List.prefix_append_right_inj _).2 hpre
            · simp only [List.length_append] at hrem ⊢
              omega
            · rw [hfile, List.append_assoc]
            · rw [List.append_assoc, hused', hused]
            · simp only [List.length_append, noWriteFails_append]
              have hle : (rioWriten t.writes buf).sent.length ≤ buf.length := by
                rcases hcase with ⟨h, -⟩ | ⟨h, -⟩
                · rw [h]
                · omega
              have hle' : out.length ≤ body.length := by
                rcases hcase' with ⟨h, -⟩ | ⟨h, -⟩
                · rw [h]
                · omega
              rcases hcase with ⟨hsent, hno⟩ | ⟨hlt, hbad⟩
              · rcases hcase' with ⟨hout, hno'⟩ | ⟨hlt', hbad'⟩
                · exact .inl ⟨by rw [hsent, hout], hno, hno'⟩
                · exact .inr ⟨by omega, fun h => hbad' h.2⟩
              · exact .inr ⟨by omega, fun h => hbad h.1⟩
    · cases ht
      exact hstop t t.rio t.fd

/-- **A PUT answered with `n` bytes**: the file holds the first `n` bytes of the body if and only if
no `write(2)` to it failed. -/
theorem put_stored_iff {env : Env} {uri : Bytes} {contentLength : Int} {rp : RioT} {fd : Fd} (hok : rp.Ok)
    {savepath file : Bytes} {n : Int} (h : servePut env uri contentLength rp fd = .saved savepath file n) :
    ((file.length : Int) = n ∧ file = (rest rp fd).take n.toNat) ↔ NoWriteFails (putWrites env contentLength rp fd) := by
  obtain ⟨-, -, t, ht, rfl, rfl⟩ := servePut_saved h
  obtain ⟨body, out, used, hpre, hrem, hfile, hused, hcase⟩ := transferLoop_spec _ _ hok t ht
  simp only [List.nil_append] at hfile hrem hpre
  have hn : contentLength - t.remaining = (body.length : Int) := by omega
  have hbody : (rest rp fd).take body.length = body := List.prefix_iff_eq_take.1 hpre |>.symm
  have hwrites : putWrites env contentLength rp fd = used := by
    simp only [putWrites, ht]
    exact made_eq hused
  rw [hwrites, hn, Int.toNat_natCast, hbody, hfile]
  rcases hcase with ⟨rfl, hno⟩ | ⟨hlt, hbad⟩
  · exact ⟨fun _ => hno, fun _ => ⟨rfl, rfl⟩⟩
  · constructor
    · rintro ⟨hlen, -⟩
      omega
    · intro hno
      exact absurd hno hbad

/-- **A POST answered with `n` bytes**: the file holds the `n` bytes selected as content if and only if
no `write(2)` to it failed. -/
theorem post_stored_iff {env : Env} {uri : Bytes} {contentLength : Int} {contentType : Bytes} {rp : RioT} {fd : Fd}
    {savepath file : Bytes} {n : Int} (h : servePost env uri contentLength contentType rp fd = .saved savepath file n) :
    ((file.length : Int) = n ∧ ∃ body, receiveLoop contentLength.toNat contentLength.toNat [] rp fd = some body ∧
      file = (decode contentType body).content) ↔ NoWriteFails (postWrites env contentLength contentType rp fd) := by
  obtain ⟨-, -, -, body, r, hbody, -, hr, rfl, rfl⟩ := servePost_saved h
  obtain ⟨used, hused, hcase⟩ := returned_cases env.writes _ hr
  have hwrites : postWrites env contentLength contentType rp fd = used := by
    simp only [postWrites, hbody]
    exact made_eq hused
  rw [hwrites]
  rcases hcase with ⟨hsent, hno⟩ | ⟨hlt, hbad⟩
  · exact ⟨fun _ => hno, fun _ => ⟨by rw [hsent], body, hbody, hsent⟩⟩
  · constructor
    · rintro ⟨hlen, -⟩
      omega
    · intro hno
      exact absurd hno hbad

/-- **An acknowledged upload is stored if and only if no `write(2)` to the file failed**, by PUT and by
POST, whatever the reads from the client do. -/
theorem acknowledged_iff (env : Env) (uri : Bytes) (contentLength : Int) (contentType : Bytes) (rp : RioT) (fd : Fd)
    (hok : rp.Ok) (savepath file : Bytes) (n : Int) :
    (servePut env uri contentLength rp fd = .saved savepath file n →
      (((file.length : Int) = n ∧ file = (rest rp fd).take n.toNat) ↔
        NoWriteFails (putWrites env contentLength rp fd))) ∧
    (servePost env uri contentLength contentType rp fd = .saved savepath file n →
      (((file.length : Int) = n ∧ ∃ body, receiveLoop contentLength.toNat contentLength.toNat [] rp fd = some body ∧
          file = (decode contentType body).content) ↔
        NoWriteFails (postWrites env contentLength contentType rp fd))) :=
  ⟨put_stored_iff hok, post_stored_iff⟩

/-- A body of two bytes that comes with one `read(2)`. -/
def twoByteFd : Fd := ⟨[1, 2], [.count RIO_BUFSIZE]⟩

/-- The first byte is written, the call is interrupted, then the second is. -/
def shortEnv : Env := ⟨true, true, [.count 1, .eintr, .count 1]⟩

theorem acknowledged_iff_short :
    servePut shortEnv (ascii "/a") 2 (rioInitb zeroRio) twoByteFd = .saved (ascii "./uploads/a") [1, 2] 2 ∧
    (NoWriteFails (putWrites shortEnv 2 (rioInitb zeroRio) twoByteFd)) := by
  have h : servePut shortEnv (ascii "/a") 2 (rioInitb zeroRio) twoByteFd = .saved (ascii "./uploads/a") [1, 2] 2 := by
    decide
  have hrest : rest (rioInitb zeroRio) twoByteFd = [1, 2] := by
    rw [rest, rioInitb_window]
    rfl
  refine ⟨h, ((acknowledged_iff shortEnv (ascii "/a") 2 [] (rioInitb zeroRio) twoByteFd (rioInitb_ok zeroRio) _ _ _).1
    h).1 ⟨rfl, ?_⟩⟩
  rw [hrest]
  rfl

/-- The disk is full (`ENOSPC`) after one byte. -/
def fullEnv : Env := ⟨true, true, [.count 1, .error]⟩

/-- Two bytes are acknowledged, by both handlers, and one is stored. -/
theorem acknowledged_not_stored :
    servePut fullEnv (ascii "/a") 2 (rioInitb zeroRio) twoByteFd = .saved (ascii "./uploads/a") [1] 2 ∧
    servePost fullEnv (ascii "/a") 2 [] (rioInitb zeroRio) twoByteFd = .saved (ascii "./uploads/a") [1] 2 := by
  decide

end ComputerSystem.Tiny
