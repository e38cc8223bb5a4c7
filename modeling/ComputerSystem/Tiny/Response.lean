import Mathlib.Data.List.TakeWhile
import ComputerSystem.Lib.Block
import ComputerSystem.Tiny.Headers
import ComputerSystem.Tiny.Put
/-!
# The responses that Tiny builds itself

`serve_static` (`Chapter11/tiny_web/tiny.c:200`), `upload_response` (`:273`) and `clienterror` (`:420`),
and what a client reads from the bytes they send. `serve_static` has an `int filesize`, and `doit` gives
it `sbuf.st_size` (`:134`): `framed_iff` says that the header then is right for exactly the files whose
size is an `int`.

| here            | there                                                                    |
|-----------------|--------------------------------------------------------------------------|
| `showInt`       | `%d`, `%ld`                                                                |
| `mmap`          | `mmap(0, len, PROT_READ, MAP_PRIVATE, srcfd, 0)`; `none` is `MAP_FAILED`   |
| `serveStatic`   | `serve_static`; the buffers it hands to `rio_writen`, in order             |
| `uploadResponse`, `clienterror` | the same; `none` where a `sprintf` would overflow its buffer |
| `send`          | these calls of `rio_writen`                                                |
| `errorTexts`, `uploadStatuses` | what the callers pass                                       |
| `receive`       | a client: the header up to the first empty line, then the body             |
-/

namespace ComputerSystem.Tiny

open Rio

/-! ## What is sent -/

def showNat (n : Nat) : Bytes := (Nat.toDigits 10 n).map fun c => UInt8.ofNat c.toNat

def showInt : Int → Bytes
  | .ofNat n => showNat n
  | .negSucc n => 45 :: showNat (n + 1)

/-- `get_filetype` (`:224`). -/
def getFiletype (filename : Bytes) : Bytes :=
  if (find (ascii ".html") filename).isSome then ascii "text/html"
  else if (find (ascii ".gif") filename).isSome then ascii "image/gif"
  else if (find (ascii ".png") filename).isSome then ascii "image/png"
  else if (find (ascii ".jpg") filename).isSome then ascii "image/jpeg"
  else ascii "text/plain"

/-- An empty mapping is refused (`EINVAL`), and one that is larger than the address space (`ENOMEM`). -/
def mmap (file : Bytes) (len : Nat) : Option Bytes :=
  if len = 0 ∨ 2 ^ 47 ≤ len then none else some (file.take len)

/-- `serve_static` (`:200`). The `write(2)` of a mapping that failed sends nothing (`EFAULT`). -/
def serveStatic (filename file : Bytes) (filesize : Int) : List Bytes :=
  let filetype := getFiletype filename
  let buf :=
    ascii "HTTP/1.0 200 OK\r\n" ++
    ascii "Server: Tiny Web Server\r\n" ++
    ascii "Connection: close\r\n" ++
    (ascii "Content-length: " ++ showInt filesize ++ ascii "\r\n") ++
    (ascii "Content-type: " ++ filetype ++ ascii "\r\n\r\n")
  match mmap file (toSize filesize) with
  | none => [buf]
  | some srcp => [buf, srcp.take (toSize filesize)]

/-- `upload_response` (`:273`). -/
def uploadResponse (status savepath : Bytes) (nbytes : Int) : Option (List Bytes) :=
  let body :=
    ascii "<html><title>Upload</title><body bgcolor=\"ffffff\">\r\n" ++
    (ascii "<p>Saved <b>" ++ cstring savepath ++ ascii "</b> (" ++ showInt nbytes ++ ascii " bytes)\r\n") ++
    ascii "<hr><em>The Tiny Web server</em>\r\n</body></html>\r\n"
  let buf :=
    (ascii "HTTP/1.0 " ++ status ++ ascii "\r\n") ++
    ascii "Server: Tiny Web Server\r\n" ++
    ascii "Connection: close\r\n" ++
    (ascii "Content-length: " ++ showInt (toInt32 body.length) ++ ascii "\r\n") ++
    ascii "Content-type: text/html\r\n\r\n"
  if body.length < MAXBUF ∧ buf.length < MAXBUF then some [buf, body] else none

/-- `clienterror` (`:420`). -/
def clienterror (cause errnum shortmsg longmsg : Bytes) : Option (List Bytes) :=
  let body :=
    ascii "<html><title>Tiny Error</title>" ++
    ascii "<body bgcolor=\"ffffff\">\r\n" ++
    (errnum ++ ascii ": " ++ shortmsg ++ ascii "\r\n") ++
    (ascii "<p>" ++ longmsg ++ ascii ": " ++ cstring cause ++ ascii "\r\n") ++
    ascii "<hr><em>The Tiny Web server</em>\r\n"
  let status := ascii "HTTP/1.0 " ++ errnum ++ ascii " " ++ shortmsg ++ ascii "\r\n"
  let contentLength := ascii "Content-length: " ++ showInt (toInt32 body.length) ++ ascii "\r\n\r\n"
  if body.length < MAXBUF ∧ status.length < MAXLINE then
    some [status, ascii "Content-type: text/html\r\n", contentLength, body]
  else none

/-- The buffers, one `rio_writen` each, and what these sent; `none` while one is blocked. Nobody looks
at what `rio_writen` returns. -/
def send : List WriteOutcome → List Bytes → Option Bytes
  | _, [] => some []
  | sched, buf :: bufs =>
    let w := rioWriten sched buf
    match w.ret with
    | none => none
    | some _ => (send w.sched bufs).map (w.sent ++ ·)

inductive Response
  | static (filename file : Bytes)
  | upload (status savepath : Bytes) (nbytes : Int)
  | error (cause errnum shortmsg longmsg : Bytes)

/-- `doit` narrows the size of the file to an `int` (`:134`). -/
def Response.buffers : Response → Option (List Bytes)
  | .static filename file => some (serveStatic filename file (toInt32 file.length))
  | .upload status savepath nbytes => uploadResponse status savepath nbytes
  | .error cause errnum shortmsg longmsg => clienterror cause errnum shortmsg longmsg

/-! ## What the callers pass -/

/-- `:326`, `:415`. -/
def uploadStatuses : List Bytes := [ascii "201 Created", ascii "200 OK"]

/-- `errnum`, `shortmsg` and `longmsg` of each call. -/
def errorTexts : List (Bytes × Bytes × Bytes) :=
  [(ascii "501", ascii "Not Implemented", ascii "Tiny does not implement this method"),
   (ascii "404", ascii "Not found", ascii "Tiny couldn't find this file"),
   (ascii "403", ascii "Forbidden", ascii "Tiny couldn't read the file"),
   (ascii "403", ascii "Forbidden", ascii "Tiny couldn't run the CGI program"),
   (ascii "411", ascii "Length Required", ascii "PUT requires a Content-Length header"),
   (ascii "411", ascii "Length Required", ascii "POST requires a Content-Length header"),
   (ascii "413", ascii "Payload Too Large", ascii "Tiny caps POST uploads (see MAX_UPLOAD)"),
   (ascii "500", ascii "Internal Server Error", ascii "Tiny couldn't open the file for writing"),
   (ascii "500", ascii "Internal Server Error", ascii "out of memory")]

/-- Some call of the source asks for this response; a file has the size that `st_size` can report. -/
def Response.Called : Response → Prop
  | .static _ file => file.length < 2 ^ 63
  | .upload status _ _ => status ∈ uploadStatuses
  | .error _ errnum shortmsg longmsg => (errnum, shortmsg, longmsg) ∈ errorTexts

/-! ## What a client reads -/

/-- A decimal number and nothing else. -/
def numeral (s : Bytes) : Option Nat := if s ≠ [] ∧ s.all isDigit then some (decimal s) else none

/-- The value of a `Content-Length` line. -/
def lengthField (line : Bytes) : Option (Option Nat) :=
  if equalFold (line.take 15) (ascii "Content-Length:") then some (numeral ((line.drop 15).dropWhile (· = 32)))
  else none

/-- The `Content-Length` values of a message and its body. -/
structure Received where
  lengths : List (Option Nat)
  body    : Bytes
deriving DecidableEq

/-- Cut at the first empty line. -/
def receive (sent : Bytes) : Option Received :=
  match find (crlf ++ crlf) sent with
  | none => none
  | some k => some ⟨(linesBy 13 10 (sent.take k)).filterMap lengthField, sent.drop (k + 4)⟩

/-- The client finds one `Content-Length`, and it counts the bytes that follow; of a static response
these are the file. -/
def Response.Framed (sent : Bytes) : Response → Prop
  | .static _ file => receive sent = some ⟨[some file.length], file⟩
  | _ => ∃ body, receive sent = some ⟨[some body.length], body⟩

/-- The size of the file passes through an `int`. -/
def Response.FitsInt : Response → Prop
  | .static _ file => (file.length : Int) ≤ INT_MAX
  | _ => True

example : receive (ascii "HTTP/1.0 200 OK\r\nContent-length: 3\r\n\r\nabcd") = some ⟨[some 3], ascii "abcd"⟩ := by
  decide

/-! ## Numbers -/

theorem digit_toNat {c : Char} (h : c.isDigit) : (UInt8.ofNat c.toNat).toNat = c.toNat ∧ 48 ≤ c.toNat ∧ c.toNat ≤ 57 := by
  have h : c.val ≥ 48 ∧ c.val ≤ 57 := by simpa [Char.isDigit] using h
  obtain ⟨h1, h2⟩ := h
  rw [ge_iff_le, UInt32.le_iff_toNat_le] at h1
  rw [UInt32.le_iff_toNat_le] at h2
  have h1 : 48 ≤ c.toNat := h1
  have h2 : c.toNat ≤ 57 := h2
  refine ⟨?_, h1, h2⟩
  rw [UInt8.toNat_ofNat']
  omega

theorem isDigit_showNat {n : Nat} {c : UInt8} (h : c ∈ showNat n) : isDigit c := by
  obtain ⟨d, hd, rfl⟩ := List.mem_map.1 h
  obtain ⟨heq, h1, h2⟩ := digit_toNat (Nat.isDigit_of_mem_toDigits (by decide) (by decide) hd)
  simp only [isDigit, decide_eq_true_eq, UInt8.le_iff_toNat_le, heq]
  exact ⟨h1, h2⟩

theorem showNat_ne_nil (n : Nat) : showNat n ≠ [] := by
  intro h
  exact Nat.toDigits_ne_nil (List.map_eq_nil_iff.1 h)

/-- The digits are read as characters or as bytes. -/
theorem foldl_digits (ds : List Char) (hds : ∀ c ∈ ds, c.isDigit) : ∀ n : Nat,
    (ds.map fun c => UInt8.ofNat c.toNat).foldl (fun n c => 10 * n + (c.toNat - 48)) n = Nat.ofDigitChars 10 ds n := by
  induction ds with
  | nil => intro n; rw [Nat.ofDigitChars_nil]; rfl
  | cons c ds ih =>
    intro n
    obtain ⟨heq, -, -⟩ := digit_toNat (hds c (List.mem_cons_self ..))
    rw [List.map_cons, List.foldl_cons, heq, Nat.ofDigitChars_cons]
    exact ih (fun d hd => hds d (List.mem_cons_of_mem _ hd)) _

/-- What is printed is read back. -/
theorem decimal_showNat (n : Nat) : decimal (showNat n) = n := by
  have hall : (showNat n).takeWhile isDigit = showNat n := by
    rw [List.takeWhile_eq_self_iff]
    intro c hc
    exact isDigit_showNat hc
  rw [decimal, hall, showNat, foldl_digits _ fun c hc => Nat.isDigit_of_mem_toDigits (by decide) (by decide) hc]
  exact Nat.ofDigitChars_ten_toDigits

theorem numeral_showNat (n : Nat) : numeral (showNat n) = some n := by
  have hall : (showNat n).all isDigit = true := by
    rw [List.all_eq_true]
    intro c hc
    exact isDigit_showNat hc
  rw [numeral, if_pos ⟨showNat_ne_nil n, hall⟩, decimal_showNat]

/-- A printed `int` has no carriage return. -/
theorem cr_showInt (z : Int) : (13 : UInt8) ∉ showInt z := by
  have hnat : ∀ n, (13 : UInt8) ∉ showNat n := by
    intro n h
    exact absurd (isDigit_showNat h) (by decide)
  cases z with
  | ofNat n => exact hnat n
  | negSucc n =>
    rw [showInt, List.mem_cons, not_or]
    exact ⟨by decide, hnat _⟩

/-! ## The lines of a header -/

theorem lengthField_length (n : Nat) : lengthField (ascii "Content-length: " ++ showInt n) = some (some n) := by
  obtain ⟨c, t, hct⟩ := List.exists_cons_of_ne_nil (showNat_ne_nil n)
  have hc : isDigit c := isDigit_showNat (hct ▸ List.mem_cons_self ..)
  have hblank : ¬ c = 32 := by
    rintro rfl
    cases hc
  have hdrop : (ascii " " ++ showNat n).dropWhile (· = 32) = showNat n := by
    rw [hct]
    show List.dropWhile _ (32 :: c :: t) = _
    rw [List.dropWhile_cons_of_pos (by decide), List.dropWhile_cons_of_neg (by simpa using hblank)]
  have hfield : ascii "Content-length: " = ascii "Content-length:" ++ ascii " " := by decide
  have hline : ascii "Content-length: " ++ showInt n = ascii "Content-length:" ++ (ascii " " ++ showNat n) := by
    rw [hfield, List.append_assoc]
    rfl
  have hlen : (ascii "Content-length:").length = 15 := by decide
  rw [lengthField, hline, List.take_left' hlen, List.drop_left' hlen, if_pos (by decide), hdrop,
    numeral_showNat]

/-- A line that begins in another way is not a length. -/
theorem lengthField_other {p : Bytes} (t : Bytes) (hlen : p.length ≤ 15)
    (h : ¬ p.map toLower <+: (ascii "Content-Length:").map toLower) : lengthField (p ++ t) = none := by
  rw [lengthField, if_neg]
  intro heq
  apply h
  have heq : ((p ++ t).take 15).map toLower = (ascii "Content-Length:").map toLower := of_decide_eq_true heq
  rw [← heq, List.take_append, List.take_of_length_le hlen, List.map_append]
  exact List.prefix_append _ _

theorem receive_block {ls : List Bytes} (body : Bytes) (hne : ls ≠ []) (h : Plain 13 ls) :
    receive (block 13 10 ls body) = some ⟨ls.filterMap lengthField, body⟩ := by
  obtain ⟨k, hfind, hlines, hbody⟩ := block_spec (by decide : (13 : UInt8) ≠ 10) body ls hne h
  have hfind : find (crlf ++ crlf) (block 13 10 ls body) = some k := hfind
  rw [receive, hfind]
  simp only [hlines, hbody]

/-! ## What was sent -/

/-- When no `write(2)` fails, what is sent is what was handed over. -/
theorem send_eq (bufs : List Bytes) : ∀ (sched : List WriteOutcome) (out : Bytes), NoWriteFails sched →
    send sched bufs = some out → out = bufs.flatten := by
  induction bufs with
  | nil =>
    intro sched out _ h
    cases h
    rfl
  | cons buf bufs ih =>
    intro sched out hno h
    obtain ⟨used, hused, -, hcase⟩ := rioWriten_spec sched buf
    simp only [send] at h
    split at h
    · cases h
    · rename_i r hr
      obtain ⟨rest, hrest, rfl⟩ := Option.map_eq_some_iff.1 h
      rw [← hused, noWriteFails_append] at hno
      rcases hcase with ⟨-, hsent, -⟩ | ⟨-, -, hbad⟩ | ⟨hnone, -⟩
      · rw [hsent, ih _ _ hno.2 hrest, List.flatten_cons]
      · exact absurd hno.1 hbad
      · rw [hnone] at hr
        cases hr

theorem cr_getFiletype (filename : Bytes) : (13 : UInt8) ∉ getFiletype filename := by
  unfold getFiletype
  split
  · decide
  · split
    · decide
    · split
      · decide
      · split <;> decide

/-- The header lines of `serve_static` and `upload_response`. -/
def headerLines (status : Bytes) (length : Int) (filetype : Bytes) : List Bytes :=
  [ascii "HTTP/1.0 " ++ status, ascii "Server: Tiny Web Server", ascii "Connection: close",
    ascii "Content-length: " ++ showInt length, ascii "Content-type: " ++ filetype]

/-- Those of `clienterror`. -/
def errorLines (errnum shortmsg : Bytes) (length : Int) : List Bytes :=
  [ascii "HTTP/1.0 " ++ (errnum ++ ascii " " ++ shortmsg), ascii "Content-type: text/html",
    ascii "Content-length: " ++ showInt length]

/-! The lines as the source writes them, with their ends. -/

theorem line_end : ascii "\r\n" = [13, 10] := by rfl

theorem header_end : ascii "\r\n\r\n" = [13, 10, 13, 10] := by rfl

theorem line_ok : ascii "HTTP/1.0 200 OK\r\n" = ascii "HTTP/1.0 " ++ ascii "200 OK" ++ [13, 10] := by rfl

theorem line_server : ascii "Server: Tiny Web Server\r\n" = ascii "Server: Tiny Web Server" ++ [13, 10] := by rfl

theorem line_close : ascii "Connection: close\r\n" = ascii "Connection: close" ++ [13, 10] := by rfl

theorem line_html : ascii "Content-type: text/html\r\n" = ascii "Content-type: text/html" ++ [13, 10] := by rfl

theorem end_html : ascii "Content-type: text/html\r\n\r\n" =
    ascii "Content-type: " ++ ascii "text/html" ++ [13, 10, 13, 10] := by rfl

/-- A text behind a prefix of the source. -/
theorem plain_append {p s : Bytes} (hp : p ≠ [] ∧ (13 : UInt8) ∉ p) (hs : (13 : UInt8) ∉ s) :
    p ++ s ≠ [] ∧ (13 : UInt8) ∉ p ++ s := by
  rw [List.mem_append, not_or]
  exact ⟨List.append_ne_nil_of_left_ne_nil hp.1 s, hp.2, hs⟩

theorem headerLines_plain {status filetype : Bytes} (length : Int) (hs : (13 : UInt8) ∉ status)
    (ht : (13 : UInt8) ∉ filetype) : Plain 13 (headerLines status length filetype) := by
  intro l hl
  simp only [headerLines, List.mem_cons, List.not_mem_nil, or_false] at hl
  rcases hl with rfl | rfl | rfl | rfl | rfl
  · exact plain_append (by decide) hs
  · decide
  · decide
  · exact plain_append (by decide) (cr_showInt length)
  · exact plain_append (by decide) ht

theorem errorLines_plain {errnum shortmsg : Bytes} (length : Int) (he : (13 : UInt8) ∉ errnum)
    (hs : (13 : UInt8) ∉ shortmsg) : Plain 13 (errorLines errnum shortmsg length) := by
  intro l hl
  simp only [errorLines, List.mem_cons, List.not_mem_nil, or_false] at hl
  rcases hl with rfl | rfl | rfl
  · apply plain_append (by decide)
    simp only [List.mem_append, not_or]
    exact ⟨⟨he, by decide⟩, hs⟩
  · decide
  · exact plain_append (by decide) (cr_showInt length)

/-- The only length is the one meant. -/
theorem headerLines_lengths (status filetype : Bytes) (n : Nat) :
    (headerLines status n filetype).filterMap lengthField = [some n] := by
  have hstatus := lengthField_other (p := ascii "HTTP/1.0 ") status (by decide) (by decide)
  have htype := lengthField_other (p := ascii "Content-type: ") filetype (by decide) (by decide)
  have hserver : lengthField (ascii "Server: Tiny Web Server") = none := by decide
  have hclose : lengthField (ascii "Connection: close") = none := by decide
  simp only [headerLines, List.filterMap_cons, List.filterMap_nil, hstatus, htype, hserver, hclose,
    lengthField_length]

theorem errorLines_lengths (errnum shortmsg : Bytes) (n : Nat) :
    (errorLines errnum shortmsg n).filterMap lengthField = [some n] := by
  have hstatus := lengthField_other (p := ascii "HTTP/1.0 ") (errnum ++ ascii " " ++ shortmsg) (by decide)
    (by decide)
  have htype : lengthField (ascii "Content-type: text/html") = none := by decide
  simp only [errorLines, List.filterMap_cons, List.filterMap_nil, hstatus, htype, lengthField_length]

/-! ## The three senders -/

/-- What `serve_static` sends of the file. -/
def mapped (file : Bytes) (len : Nat) : Bytes := ((mmap file len).getD []).take len

theorem serveStatic_flatten (filename file : Bytes) (filesize : Int) :
    (serveStatic filename file filesize).flatten =
      block 13 10 (headerLines (ascii "200 OK") filesize (getFiletype filename)) (mapped file (toSize filesize)) := by
  simp only [serveStatic, mapped]
  cases mmap file (toSize filesize) with
  | none => simp [headerLines, block, line_ok, line_server, line_close, line_end, header_end]
  | some srcp => simp [headerLines, block, line_ok, line_server, line_close, line_end, header_end]

/-- A file whose size is an `int` is sent whole. -/
theorem mapped_all {file : Bytes} (h : (file.length : Int) ≤ INT_MAX) : mapped file (toSize (toInt32 file.length)) = file := by
  rw [toInt32_eq (by omega) h, toSize_eq (by omega) h, Int.toNat_natCast, mapped, mmap]
  unfold INT_MAX at h
  split
  · have hnil : file = [] := List.eq_nil_of_length_eq_zero (by omega)
    rw [hnil]
    rfl
  · rw [Option.getD_some, List.take_length, List.take_length]

/-- Of a larger one less is sent. -/
theorem mapped_short {file : Bytes} (h : INT_MAX < file.length) :
    (mapped file (toSize (toInt32 file.length))).length < file.length := by
  rw [mapped, mmap]
  split
  · unfold INT_MAX at h
    simp only [Option.getD_none, List.take_nil, List.length_nil]
    omega
  · rename_i hsize
    rw [Option.getD_some, List.length_take]
    unfold INT_MAX at h
    have hlt : toInt32 file.length < 2 ^ 31 := by
      unfold toInt32
      exact Int.bmod_lt (by decide)
    have hnonneg : 0 ≤ toInt32 file.length := by
      by_contra hneg
      apply hsize
      right
      have hge : -2 ^ 31 ≤ toInt32 file.length := by
        unfold toInt32
        exact Int.le_bmod (by decide)
      unfold toSize
      omega
    rw [toSize_eq hnonneg (by unfold INT_MAX; omega)]
    omega

/-- **A static response** is right if and only if the size of the file is an `int`. -/
theorem serveStatic_framed_iff (filename file : Bytes) :
    receive (serveStatic filename file (toInt32 file.length)).flatten = some ⟨[some file.length], file⟩ ↔
      (file.length : Int) ≤ INT_MAX := by
  rw [serveStatic_flatten, receive_block _ (by simp [headerLines])
    (headerLines_plain _ (by decide) (cr_getFiletype filename))]
  constructor
  · intro h
    by_contra hsize
    have hshort : (mapped file (toSize (toInt32 file.length))).length < file.length := mapped_short (by omega)
    obtain ⟨-, hbody⟩ := Received.mk.inj (Option.some.inj h)
    rw [hbody] at hshort
    omega
  · intro h
    rw [mapped_all h, toInt32_eq (by omega) h, headerLines_lengths]

theorem toInt32_length {body : Bytes} (h : body.length < MAXBUF) : toInt32 body.length = body.length := by
  unfold MAXBUF at h
  exact toInt32_eq (by omega) (by unfold INT_MAX; omega)

theorem uploadResponse_framed {status savepath : Bytes} {nbytes : Int} {bufs : List Bytes}
    (hs : (13 : UInt8) ∉ status) (h : uploadResponse status savepath nbytes = some bufs) :
    ∃ body, receive bufs.flatten = some ⟨[some body.length], body⟩ := by
  simp only [uploadResponse] at h
  generalize ascii "<html><title>Upload</title><body bgcolor=\"ffffff\">\r\n" ++ _ ++ _ = body at h
  split at h
  · rename_i hfit
    cases h
    refine ⟨body, ?_⟩
    have hblock : receive (block 13 10 (headerLines status body.length (ascii "text/html")) body) =
        some ⟨[some body.length], body⟩ := by
      rw [receive_block _ (by simp [headerLines]) (headerLines_plain _ hs (by decide)), headerLines_lengths]
    rw [← hblock, toInt32_length hfit.1]
    simp [headerLines, block, line_server, line_close, end_html, line_end]
  · cases h

theorem clienterror_framed {cause errnum shortmsg longmsg : Bytes} {bufs : List Bytes} (he : (13 : UInt8) ∉ errnum)
    (hs : (13 : UInt8) ∉ shortmsg) (h : clienterror cause errnum shortmsg longmsg = some bufs) :
    ∃ body, receive bufs.flatten = some ⟨[some body.length], body⟩ := by
  simp only [clienterror] at h
  generalize ascii "<html><title>Tiny Error</title>" ++ _ ++ _ ++ _ ++ _ = body at h
  split at h
  · rename_i hfit
    cases h
    refine ⟨body, ?_⟩
    have hblock : receive (block 13 10 (errorLines errnum shortmsg body.length) body) =
        some ⟨[some body.length], body⟩ := by
      rw [receive_block _ (by simp [errorLines]) (errorLines_plain _ he hs), errorLines_lengths]
    rw [← hblock, toInt32_length hfit.1]
    simp [errorLines, block, line_html, line_end, header_end]
  · cases h

/-! ## The callers -/

theorem dispatch_called {method uri : Bytes} {stat : Option Stat} {cause errnum shortmsg longmsg : Bytes}
    (h : dispatch method uri stat = .clienterror cause errnum shortmsg longmsg) :
    (Response.error cause errnum shortmsg longmsg).Called := by
  rcases dispatch_cases method uri stat with
    heq | heq | ⟨-, heq⟩ | ⟨-, heq⟩ | ⟨sbuf, -, ⟨-, heq | heq⟩ | ⟨-, heq | heq⟩⟩
  · rw [heq] at h
    cases h
  · rw [heq] at h
    cases h
  · rw [heq] at h
    cases h
    simp [Response.Called, errorTexts]
  · rw [heq] at h
    cases h
    simp [Response.Called, errorTexts]
  · rw [heq] at h
    cases h
    simp [Response.Called, errorTexts]
  · rw [heq] at h
    cases h
  · rw [heq] at h
    cases h
    simp [Response.Called, errorTexts]
  · rw [heq] at h
    cases h

theorem servePut_called {env : Env} {uri : Bytes} {contentLength : Int} {rp : RioT} {fd : Fd}
    {cause errnum shortmsg longmsg : Bytes}
    (h : servePut env uri contentLength rp fd = .clienterror cause errnum shortmsg longmsg) :
    (Response.error cause errnum shortmsg longmsg).Called := by
  rcases servePut_cases env uri contentLength rp fd with ⟨-, heq⟩ | ⟨-, ⟨-, heq⟩ | heq | ⟨t, -, heq⟩⟩
  · rw [heq] at h
    cases h
    simp [Response.Called, errorTexts]
  · rw [heq] at h
    cases h
    simp [Response.Called, errorTexts]
  · rw [heq] at h
    cases h
  · rw [heq] at h
    cases h

theorem servePost_called {env : Env} {uri : Bytes} {contentLength : Int} {contentType : Bytes} {rp : RioT} {fd : Fd}
    {cause errnum shortmsg longmsg : Bytes}
    (h : servePost env uri contentLength contentType rp fd = .clienterror cause errnum shortmsg longmsg) :
    (Response.error cause errnum shortmsg longmsg).Called := by
  rcases servePost_cases env uri contentLength contentType rp fd with
    ⟨-, heq⟩ | ⟨-, heq⟩ | ⟨-, heq⟩ | heq | ⟨body, -, -, -, -, ⟨-, heq⟩ | ⟨r, -, heq⟩⟩
  · rw [heq] at h
    cases h
    simp [Response.Called, errorTexts]
  · rw [heq] at h
    cases h
    simp [Response.Called, errorTexts]
  · rw [heq] at h
    cases h
    simp [Response.Called, errorTexts]
  · rw [heq] at h
    cases h
  · rw [heq] at h
    cases h
    simp [Response.Called, errorTexts]
  · rw [heq] at h
    cases h

theorem uploadStatuses_plain {status : Bytes} (h : status ∈ uploadStatuses) : (13 : UInt8) ∉ status := by
  have hall : ∀ s ∈ uploadStatuses, (13 : UInt8) ∉ s := by decide
  exact hall status h

theorem errorTexts_plain {errnum shortmsg longmsg : Bytes} (h : (errnum, shortmsg, longmsg) ∈ errorTexts) :
    (13 : UInt8) ∉ errnum ∧ (13 : UInt8) ∉ shortmsg := by
  have hall : ∀ t ∈ errorTexts, (13 : UInt8) ∉ t.1 ∧ (13 : UInt8) ∉ t.2.1 := by decide
  exact hall _ h

/-- **Framing.** For every response that is asked for, its strings fitting the buffers and no `write(2)`
to the client failing, what was sent is framed right if and only if the size of a static file is an
`int`. -/
theorem framed_iff (r : Response) (hcalled : r.Called) (bufs : List Bytes) (hbufs : r.buffers = some bufs)
    (sched : List WriteOutcome) (hno : NoWriteFails sched) (sent : Bytes) (hsent : send sched bufs = some sent) :
    r.Framed sent ↔ r.FitsInt := by
  rw [send_eq bufs sched sent hno hsent]
  cases r with
  | static filename file =>
    obtain rfl : serveStatic filename file (toInt32 file.length) = bufs := Option.some.inj hbufs
    exact serveStatic_framed_iff filename file
  | upload status savepath nbytes =>
    have hframed := uploadResponse_framed (uploadStatuses_plain hcalled) hbufs
    exact ⟨fun _ => trivial, fun _ => hframed⟩
  | error cause errnum shortmsg longmsg =>
    obtain ⟨he, hs⟩ := errorTexts_plain hcalled
    have hframed := clienterror_framed he hs hbufs
    exact ⟨fun _ => trivial, fun _ => hframed⟩

/-- A missing file, asked for under a name that itself has an empty line in it. -/
def missing : Response :=
  .error (ascii "./a\r\n\r\nb") (ascii "404") (ascii "Not found") (ascii "Tiny couldn't find this file")

theorem framed_iff_missing : ∃ bufs sent, missing.buffers = some bufs ∧ send (List.replicate 8 (.count 99)) bufs = some sent ∧
    (missing.Framed sent ↔ missing.FitsInt) := by
  have hbufs : (missing.buffers.bind fun bufs => send (List.replicate 8 (.count 99)) bufs).isSome := by decide +kernel
  obtain ⟨sent, hsent⟩ := Option.isSome_iff_exists.1 hbufs
  obtain ⟨bufs, hb, hsent⟩ := Option.bind_eq_some_iff.1 hsent
  have hcalled : missing.Called := by simp [missing, Response.Called, errorTexts]
  refine ⟨bufs, sent, hb, hsent, framed_iff missing hcalled bufs hb _ ?_ sent hsent⟩
  intro o ho
  rw [List.eq_of_mem_replicate ho]
  rfl

/-- One byte more than an `int` counts. -/
def hugeFile : Bytes := List.replicate (2 ^ 31) 0

/-- All that is sent of it. -/
def hugeHeader : Bytes := block 13 10 (headerLines (ascii "200 OK") (toInt32 (2 ^ 31)) (ascii "text/plain")) []

/-- The client is told a length of -2147483648 and gets no body. -/
theorem huge_file_misframed : ∃ bufs sent, (Response.static (ascii "./huge") hugeFile).buffers = some bufs ∧
    send [.count 8192] bufs = some sent ∧ receive sent = some ⟨[none], []⟩ ∧
    ¬ (Response.static (ascii "./huge") hugeFile).Framed sent := by
  have hlen : hugeFile.length = 2 ^ 31 := List.length_replicate
  have hmmap : mmap hugeFile (toSize (toInt32 (2 ^ 31))) = none := if_pos (.inr (by decide))
  have hbufs : serveStatic (ascii "./huge") hugeFile (toInt32 (2 ^ 31)) = [hugeHeader] := by
    simp only [serveStatic, hmmap]
    decide
  refine ⟨[hugeHeader], hugeHeader, ?_, by decide +kernel, by decide +kernel, ?_⟩
  · rw [Response.buffers, hlen]
    exact congrArg some hbufs
  · intro h
    have hnone : receive hugeHeader = some ⟨[none], []⟩ := by decide +kernel
    rw [Response.Framed, hnone] at h
    cases h

end ComputerSystem.Tiny
