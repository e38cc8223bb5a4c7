import ComputerSystem.Lib.Search
import ComputerSystem.Rio.Basic
/-!
# A POST upload to Tiny

`Chapter11/tiny_web/tiny.c:262` (`upload_path`) and `:338` (`serve_post`). Strings are lists without
their terminating NUL.

| here | there |
| --- | --- |
| `uploadPath`     | `upload_path` (`:262`)                                                   |
| `receiveLoop`    | the loop that reads the body (`:357-361`)                                |
| `headerFilename` | the search for a file name in the headers of a part (`:378-386`)         |
| `decode`         | from the whole body to a file name and the bytes to save (`:363-397`)    |
| `servePost`      | `serve_post` (`:338`)                                                    |
| `postName`       | the name that it gives to `upload_path` (`:399-400`)                     |
| `Env`            | what `malloc`, `open` and the `write(2)`s to the opened file do          |

The 200 answer of `upload_response` carries what `Posted.saved` holds. The message that `serve_post`
prints is left out.
-/

namespace ComputerSystem.Tiny

open Rio

def MAXLINE : Nat := 8192
def MAX_UPLOAD : Int := 64 * 1024 * 1024
def UPLOAD_DIR : Bytes := ascii "./uploads"

/-- What `snprintf` puts into a `char [MAXLINE]`. -/
def snprintf (s : Bytes) : Bytes := s.take (MAXLINE - 1)

theorem snprintf_eq {s : Bytes} (h : s.length < MAXLINE) : snprintf s = s := List.take_of_length_le (by omega)

def slash : UInt8 := 47
def quote : UInt8 := 34

/-- From behind the last `/`, or all of `name` (`strrchr`). -/
def basename (name : Bytes) : Bytes := (name.reverse.takeWhile (· ≠ slash)).reverse

/-- The `base` of `upload_path`. -/
def uploadName (name : Bytes) : Bytes :=
  let base := basename name
  if base = [] ∨ base = ascii "." ∨ base = ascii ".." then ascii "upload.bin" else base

/-- `upload_path` (`:262`). -/
def uploadPath (name : Bytes) : Bytes := snprintf (UPLOAD_DIR ++ [slash] ++ uploadName name)

/-- The path has room for so many bytes of the name. -/
theorem uploadPath_cut (name : Bytes) :
    uploadPath name = UPLOAD_DIR ++ [slash] ++ (uploadName name).take (MAXLINE - 11) := by
  have hdir : (UPLOAD_DIR ++ [slash]).length = 10 := rfl
  unfold uploadPath snprintf
  rw [List.take_append, List.take_of_length_le (by rw [hdir]; decide), hdir]
  rfl

/-! ## From the body to a file -/

def crlf : Bytes := [13, 10]

/-- The search for `filename` between `p` and `hdr_end` (`:378-386`); `[]` when `filename` stays empty. -/
def headerFilename (hdr : Bytes) : Bytes :=
  match find (ascii "filename=\"") hdr with
  | none => []
  | some k =>
    let fn := hdr.drop (k + 10)
    match find [quote] fn with
    | none => []
    | some n => if n < MAXLINE then fn.take n else []

/-- `filename` and `content[0 .. content_len)`. -/
structure Decoded where
  filename : Bytes
  content  : Bytes
deriving DecidableEq, Repr

/-- `serve_post` from the received body on (`:363-397`). -/
def decode (contentType body : Bytes) : Decoded :=
  match find (ascii "boundary=") contentType with
  | none => ⟨[], body⟩
  | some bpos =>
    let boundary := snprintf (ascii "--" ++ contentType.drop (bpos + 9))
    match find boundary body with
    | none => ⟨[], body⟩
    | some i =>
      let p := body.drop (i + boundary.length)
      match find (crlf ++ crlf) p with
      | none => ⟨[], body⟩
      | some hdrEnd =>
        let filename := headerFilename (p.take hdrEnd)
        let cstart := p.drop (hdrEnd + 4)
        match find (snprintf (crlf ++ boundary)) cstart with
        | none => ⟨filename, body⟩
        | some contentLen => ⟨filename, cstart.take contentLen⟩

/-! ## `serve_post` -/

/-- The loop of `serve_post` with `body[0 .. got)` filled; `none` while it is blocked in `read(2)`.
Every round that goes on gets a byte, so `contentLength` rounds are enough. -/
def receiveLoop (contentLength : Nat) : Nat → Bytes → RioT → Fd → Option Bytes
  | 0, body, _, _ => some body
  | rounds + 1, body, rp, fd =>
    if body.length < contentLength then
      match rioReadnb rp fd (contentLength - body.length) with
      | ⟨none, _, _, _⟩ => none
      | ⟨some n, usrbuf, rp, fd⟩ =>
        if n ≤ 0 then some body else receiveLoop contentLength rounds (body ++ usrbuf.take n.toNat) rp fd
    else some body

structure Env where
  malloc : Bool
  opened : Bool
  writes : List WriteOutcome
deriving DecidableEq, Repr

/-- How a call of `serve_post` ends. -/
inductive Posted
  /-- it waits in a system call -/
  | blocked
  | clienterror (cause errnum shortmsg longmsg : Bytes)
  /-- `file` was written to `savepath`, and the 200 answer says `nbytes` -/
  | saved (savepath file : Bytes) (nbytes : Int)
deriving DecidableEq, Repr

/-- `serve_post` (`:338`). -/
def servePost (env : Env) (uri : Bytes) (contentLength : Int) (contentType : Bytes) (rp : RioT) (fd : Fd) : Posted :=
  if contentLength < 0 then
    .clienterror (ascii "POST") (ascii "411") (ascii "Length Required")
      (ascii "POST requires a Content-Length header")
  else if contentLength > MAX_UPLOAD then
    .clienterror (ascii "POST") (ascii "413") (ascii "Payload Too Large")
      (ascii "Tiny caps POST uploads (see MAX_UPLOAD)")
  else if !env.malloc then
    .clienterror (ascii "POST") (ascii "500") (ascii "Internal Server Error") (ascii "out of memory")
  else match receiveLoop contentLength.toNat contentLength.toNat [] rp fd with
  | none => .blocked
  | some body =>
    let d := decode contentType body
    let filename := cstring d.filename
    let savepath := uploadPath (if filename ≠ [] then filename else uri)
    if !env.opened then
      .clienterror savepath (ascii "500") (ascii "Internal Server Error")
        (ascii "Tiny couldn't open the file for writing")
    else
      let w := rioWriten env.writes d.content
      match w.ret with
      | none => .blocked
      | some _ => .saved savepath w.sent d.content.length

def postName (uri contentType body : Bytes) : Bytes :=
  let filename := cstring (decode contentType body).filename
  if filename ≠ [] then filename else uri

/-- **The ways `serve_post` ends**: with a refusal, blocked, or with an upload that it could or could not open
a file for. -/
theorem servePost_cases (env : Env) (uri : Bytes) (contentLength : Int) (contentType : Bytes) (rp : RioT) (fd : Fd) :
    (contentLength < 0 ∧ servePost env uri contentLength contentType rp fd =
      .clienterror (ascii "POST") (ascii "411") (ascii "Length Required")
        (ascii "POST requires a Content-Length header")) ∨
    (contentLength > MAX_UPLOAD ∧ servePost env uri contentLength contentType rp fd =
      .clienterror (ascii "POST") (ascii "413") (ascii "Payload Too Large")
        (ascii "Tiny caps POST uploads (see MAX_UPLOAD)")) ∨
    (env.malloc = false ∧ servePost env uri contentLength contentType rp fd =
      .clienterror (ascii "POST") (ascii "500") (ascii "Internal Server Error") (ascii "out of memory")) ∨
    servePost env uri contentLength contentType rp fd = .blocked ∨
    ∃ body, 0 ≤ contentLength ∧ contentLength ≤ MAX_UPLOAD ∧ env.malloc = true ∧
      receiveLoop contentLength.toNat contentLength.toNat [] rp fd = some body ∧
      ((env.opened = false ∧ servePost env uri contentLength contentType rp fd =
        .clienterror (uploadPath (postName uri contentType body)) (ascii "500") (ascii "Internal Server Error")
          (ascii "Tiny couldn't open the file for writing")) ∨
      ∃ r, (rioWriten env.writes (decode contentType body).content).ret = some r ∧
        servePost env uri contentLength contentType rp fd =
          .saved (uploadPath (postName uri contentType body)) (rioWriten env.writes (decode contentType body).content).sent
            (decode contentType body).content.length) := by
  unfold servePost
  by_cases hneg : contentLength < 0
  · exact .inl ⟨hneg, if_pos hneg⟩
  by_cases hmax : contentLength > MAX_UPLOAD
  · exact .inr (.inl ⟨hmax, by rw [if_neg hneg, if_pos hmax]⟩)
  cases hmalloc : env.malloc with
  | false => exact .inr (.inr (.inl ⟨rfl, by rw [if_neg hneg, if_neg hmax]; rfl⟩))
  | true =>
    simp only [if_neg hneg, if_neg hmax, Bool.not_true, Bool.false_eq_true, if_false]
    cases hbody : receiveLoop contentLength.toNat contentLength.toNat [] rp fd with
    | none => exact .inr (.inr (.inr (.inl rfl)))
    | some body =>
      cases hopened : env.opened with
      | false => exact .inr (.inr (.inr (.inr ⟨body, by omega, by omega, trivial, rfl, .inl ⟨rfl, rfl⟩⟩)))
      | true =>
        simp only [Bool.not_true, Bool.false_eq_true, if_false]
        cases hwrite : (rioWriten env.writes (decode contentType body).content).ret with
        | none => exact .inr (.inr (.inr (.inl rfl)))
        | some r => exact .inr (.inr (.inr (.inr ⟨body, by omega, by omega, trivial, rfl, .inr ⟨r, hwrite, rfl⟩⟩)))

/-- What a `serve_post` that has answered 200 has stored. -/
theorem servePost_saved {env : Env} {uri : Bytes} {contentLength : Int} {contentType : Bytes} {rp : RioT} {fd : Fd}
    {savepath file : Bytes} {n : Int} (h : servePost env uri contentLength contentType rp fd = .saved savepath file n) :
    0 ≤ contentLength ∧ contentLength ≤ MAX_UPLOAD ∧ env.malloc = true ∧ ∃ body r,
      receiveLoop contentLength.toNat contentLength.toNat [] rp fd = some body ∧
      savepath = uploadPath (postName uri contentType body) ∧
      (rioWriten env.writes (decode contentType body).content).ret = some r ∧
      file = (rioWriten env.writes (decode contentType body).content).sent ∧
      n = (decode contentType body).content.length := by
  rcases servePost_cases env uri contentLength contentType rp fd with
    ⟨-, heq⟩ | ⟨-, heq⟩ | ⟨-, heq⟩ | heq | ⟨body, h0, hmax, hmalloc, hbody, ⟨-, heq⟩ | ⟨r, hr, heq⟩⟩
  · rw [heq] at h
    cases h
  · rw [heq] at h
    cases h
  · rw [heq] at h
    cases h
  · rw [heq] at h
    cases h
  · rw [heq] at h
    cases h
  · rw [heq] at h
    cases h
    exact ⟨h0, hmax, hmalloc, body, r, hbody, rfl, hr, rfl, rfl⟩

end ComputerSystem.Tiny
