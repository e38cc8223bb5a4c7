import ComputerSystem.Tiny.Bounds
import ComputerSystem.Tiny.Contained
import ComputerSystem.Tiny.Framing
import ComputerSystem.Tiny.Request
import ComputerSystem.Tiny.Response
/-!
# The strings that Tiny builds from a request

`parse_uri`, `clienterror` and `upload_response` (`Chapter11/tiny_web/tiny.c:175`, `:420`, `:273`) write
into arrays of 8192 bytes what comes from a line of up to 8191, with texts of their own around it.
`strings_fit_iff` says how long the words of a request may be.

| here              | there                                                                  |
|-------------------|------------------------------------------------------------------------|
| `Files`           | what `stat(2)` says of every path                                      |
| `DoitEnd.response`, `Posted.response` | the call of `clienterror` or `upload_response` at the end |
| `StringsFit`      | every string that has been built fits with its NUL                      |
-/

namespace ComputerSystem.Tiny

open Rio

/-- `limits.h`, with the NUL. -/
def PATH_MAX : Nat := 4096

/-- A path that is too long is refused (`ENAMETOOLONG`). -/
structure Files where
  stat    : Bytes → Option Stat
  tooLong : ∀ path, PATH_MAX ≤ path.length → stat path = none

def noFiles : Files := ⟨fun _ => none, fun _ _ => rfl⟩

/-! ## What is built -/

/-- `:326`, `:415`. -/
def uploadStatus (method : Bytes) : Bytes :=
  if equalFold method (ascii "PUT") then ascii "201 Created" else ascii "200 OK"

def Posted.response (status : Bytes) : Posted → Option Response
  | .blocked => none
  | .clienterror cause errnum shortmsg longmsg => some (.error cause errnum shortmsg longmsg)
  | .saved savepath _ nbytes => some (.upload status savepath nbytes)

def DoitEnd.response (status : Bytes) : DoitEnd → Option Response
  | .rejected cause errnum shortmsg longmsg | .served (.clienterror cause errnum shortmsg longmsg) =>
    some (.error cause errnum shortmsg longmsg)
  | .uploaded p => p.response status
  | _ => none

/-- Every string fits with its NUL: those handed to `rio_writen` are all that `body` and `buf` hold. -/
def Response.Fits (r : Response) : Prop := ∃ bufs, r.buffers = some bufs ∧ ∀ s ∈ bufs, s.length < MAXBUF

/-- What is asked of a run of `doit` on a line with these two words. `parse_uri` is behind whatever is served. -/
structure StringsFit (method uri : Bytes) (e : DoitEnd) : Prop where
  parsed : ∀ s, e = .served s → (parseUri uri).filename.length < MAXLINE ∧ (parseUri uri).cgiargs.length < MAXLINE
  built  : ∀ r, e.response (uploadStatus method) = some r → r.Fits

/-! ## Lengths -/

theorem showInt_length {z : Int} {k : Nat} (hk : 0 < k) (h0 : 0 ≤ z) (h : z < 10 ^ k) : (showInt z).length ≤ k := by
  obtain ⟨n, rfl⟩ := Int.eq_ofNat_of_zero_le h0
  have hshow : showInt (n : Int) = showNat n := rfl
  rw [hshow, showNat, List.length_map, Nat.length_toDigits_le_iff (by decide) hk]
  exact_mod_cast h

/-- The length of a page that fits has at most four digits. -/
theorem pageLength_length {body : Bytes} (h : body.length < MAXBUF) : (showInt (toInt32 body.length)).length ≤ 4 := by
  rw [toInt32_length h]
  unfold MAXBUF at h
  exact showInt_length (by decide) (by omega) (by omega)

/-- An error page takes 104 bytes, its two messages and the cause. -/
theorem error_fits_iff {cause errnum shortmsg longmsg : Bytes} (hcalled : (errnum, shortmsg, longmsg) ∈ errorTexts) :
    (Response.error cause errnum shortmsg longmsg).Fits ↔
      104 + shortmsg.length + longmsg.length + (cstring cause).length < MAXBUF := by
  have htexts : ∀ t ∈ errorTexts, t.1.length = 3 ∧ t.2.1.length ≤ 50 := by decide
  obtain ⟨herrnum, hshort⟩ : errnum.length = 3 ∧ shortmsg.length ≤ 50 := htexts _ hcalled
  have htitle : (ascii "<html><title>Tiny Error</title>").length = 31 := rfl
  have hbgcolor : (ascii "<body bgcolor=\"ffffff\">\r\n").length = 25 := rfl
  have hcolon : (ascii ": ").length = 2 := rfl
  have hline : (ascii "\r\n").length = 2 := rfl
  have hparagraph : (ascii "<p>").length = 3 := rfl
  have hrule : (ascii "<hr><em>The Tiny Web server</em>\r\n").length = 34 := rfl
  have hhttp : (ascii "HTTP/1.0 ").length = 9 := rfl
  have hblank : (ascii " ").length = 1 := rfl
  have htype : (ascii "Content-type: text/html\r\n").length = 25 := rfl
  have hlength : (ascii "Content-length: ").length = 16 := rfl
  have hend : (ascii "\r\n\r\n").length = 4 := rfl
  simp only [Response.Fits, Response.buffers, clienterror]
  generalize hbody : ascii "<html><title>Tiny Error</title>" ++ _ ++ _ ++ _ ++ _ = body
  have hsize : body.length = 104 + shortmsg.length + longmsg.length + (cstring cause).length := by
    rw [← hbody]
    simp only [List.length_append, herrnum, htitle, hbgcolor, hcolon, hline, hparagraph, hrule]
    omega
  have hstatus : (ascii "HTTP/1.0 " ++ errnum ++ ascii " " ++ shortmsg ++ ascii "\r\n").length < MAXLINE := by
    simp only [List.length_append, herrnum, hhttp, hblank, hline, MAXLINE]
    omega
  rw [← hsize]
  constructor
  · rintro ⟨bufs, hbufs, -⟩
    by_contra hlong
    rw [if_neg fun h => hlong h.1] at hbufs
    cases hbufs
  · intro hfits
    have hdigits := pageLength_length hfits
    refine ⟨_, if_pos ⟨hfits, hstatus⟩, fun s hs => ?_⟩
    simp only [List.mem_cons, List.not_mem_nil, or_false] at hs
    rcases hs with rfl | rfl | rfl | rfl
    · exact hstatus
    · decide
    · simp only [List.length_append, hlength, hend, MAXBUF]
      omega
    · exact hfits

/-- One with a short cause fits. -/
theorem error_fits {cause errnum shortmsg longmsg : Bytes} (hcalled : (errnum, shortmsg, longmsg) ∈ errorTexts)
    (hcause : cause.length < PATH_MAX) : (Response.error cause errnum shortmsg longmsg).Fits := by
  have htexts : ∀ t ∈ errorTexts, t.2.1.length + t.2.2.length ≤ 60 := by decide
  have hlen : shortmsg.length + longmsg.length ≤ 60 := htexts _ hcalled
  have hcut := (List.takeWhile_prefix (l := cause) (· ≠ 0)).length_le
  rw [error_fits_iff hcalled, cstring]
  unfold PATH_MAX at hcause
  unfold MAXBUF
  omega

/-- A page about an upload takes 129 bytes, the path and the number. -/
theorem upload_fits {status savepath : Bytes} {nbytes : Int} (hcalled : status ∈ uploadStatuses) (h0 : 0 ≤ nbytes)
    (hlong : nbytes < 2 ^ 63) (hroom : 148 + (cstring savepath).length < MAXBUF) :
    (Response.upload status savepath nbytes).Fits := by
  have hstatuses : ∀ s ∈ uploadStatuses, s.length ≤ 11 := by decide
  have hstatus := hstatuses _ hcalled
  have hnumber : (showInt nbytes).length ≤ 19 := showInt_length (by decide) h0 (by omega)
  have htitle : (ascii "<html><title>Upload</title><body bgcolor=\"ffffff\">\r\n").length = 52 := rfl
  have hsaved : (ascii "<p>Saved <b>").length = 12 := rfl
  have hbold : (ascii "</b> (").length = 6 := rfl
  have hbytes : (ascii " bytes)\r\n").length = 9 := rfl
  have hrule : (ascii "<hr><em>The Tiny Web server</em>\r\n</body></html>\r\n").length = 50 := rfl
  have hhttp : (ascii "HTTP/1.0 ").length = 9 := rfl
  have hline : (ascii "\r\n").length = 2 := rfl
  have hserver : (ascii "Server: Tiny Web Server\r\n").length = 25 := rfl
  have hclose : (ascii "Connection: close\r\n").length = 19 := rfl
  have hlength : (ascii "Content-length: ").length = 16 := rfl
  have htype : (ascii "Content-type: text/html\r\n\r\n").length = 27 := rfl
  simp only [Response.Fits, Response.buffers, uploadResponse]
  generalize hbody : ascii "<html><title>Upload</title><body bgcolor=\"ffffff\">\r\n" ++ _ ++ _ = body
  have hsize : body.length < MAXBUF := by
    rw [← hbody]
    simp only [List.length_append, htitle, hsaved, hbold, hbytes, hrule]
    omega
  have hdigits := pageLength_length hsize
  generalize hbuf : (ascii "HTTP/1.0 " ++ status ++ ascii "\r\n") ++ _ ++ _ ++ _ ++ _ = buf
  have hheader : buf.length < MAXBUF := by
    rw [← hbuf]
    simp only [List.length_append, hhttp, hline, hserver, hclose, hlength, htype, MAXBUF]
    omega
  refine ⟨_, if_pos ⟨hsize, hheader⟩, fun s hs => ?_⟩
  simp only [List.mem_cons, List.not_mem_nil, or_false] at hs
  rcases hs with rfl | rfl
  · exact hheader
  · exact hsize

/-! ## Uploads -/

theorem savepath_room (name : Bytes) : 164 + (uploadPath name).length < MAXBUF ↔ 174 + (basename name).length < MAXBUF := by
  have hdir : (UPLOAD_DIR ++ [slash]).length = 10 := rfl
  have hlen : (uploadPath name).length = min (MAXLINE - 1) (10 + (uploadName name).length) := by
    rw [uploadPath, snprintf, List.length_take, List.length_append, hdir]
  have hname : (uploadName name).length = (basename name).length ∨
      (uploadName name).length = 10 ∧ (basename name).length ≤ 2 := by
    unfold uploadName
    simp only
    split
    · rename_i hbase
      rcases hbase with h | h | h <;> rw [h] <;> exact .inr ⟨by decide, by decide⟩
    · exact .inl rfl
  rw [hlen]
  unfold MAXBUF MAXLINE
  omega

/-- What is taken from the connection is at most what was announced. -/
theorem transferLoop_remaining (rounds : Nat) : ∀ {t t' : Transfer}, t.rio.Ok → 0 ≤ t.remaining →
    transferLoop rounds t = some t' → 0 ≤ t'.remaining ∧ t'.remaining ≤ t.remaining := by
  induction rounds with
  | zero =>
    intro t t' _ h0 h
    cases h
    exact ⟨h0, Int.le_refl _⟩
  | succ rounds ih =>
    intro t t' hok h0 h
    simp only [transferLoop] at h
    split at h
    · generalize hwant : (if t.remaining < (MAXBUF : Int) then t.remaining.toNat else MAXBUF) = want at h
      have hle : (want : Int) ≤ t.remaining := by
        rw [← hwant]
        split <;> omega
      obtain ⟨hok', -⟩ := rioReadnb_ok hok t.fd want
      obtain ⟨used, hlen, -⟩ := rioReadnb_spec hok t.fd want
      have hcount := fun r => rioReadnb_count (r := r) hok t.fd want
      generalize rioReadnb t.rio t.fd want = c at h hok' hlen hcount
      obtain ⟨ret, buf, rp, fd⟩ := c
      cases ret with
      | none => cases h
      | some n =>
        simp only at h hok' hlen
        split at h
        · cases h
          exact ⟨h0, Int.le_refl _⟩
        · have hn : (buf.length : Int) = n := hcount n rfl (by omega)
          split at h
          · cases h
          · obtain ⟨h1, h2⟩ := ih hok' (by simp only; omega) h
            simp only at h2
            exact ⟨h1, by omega⟩
    · cases h
      exact ⟨h0, Int.le_refl _⟩

/-- The error page of both handlers that names the path. -/
theorem openError_fits_iff {name : Bytes} (h0 : (0 : UInt8) ∉ name) :
    (Response.error (uploadPath name) (ascii "500") (ascii "Internal Server Error")
      (ascii "Tiny couldn't open the file for writing")).Fits ↔ 174 + (basename name).length < MAXBUF := by
  have hshort : (ascii "Internal Server Error").length = 21 := rfl
  have hlong : (ascii "Tiny couldn't open the file for writing").length = 39 := rfl
  rw [error_fits_iff (by simp [errorTexts]), cstring_eq (uploadPath_contained h0).nul, hshort, hlong, savepath_room]

/-- The page about a file that was stored is shorter. -/
theorem saved_fits {status name : Bytes} {nbytes : Int} (hstatus : status ∈ uploadStatuses) (h0 : (0 : UInt8) ∉ name)
    (hnonneg : 0 ≤ nbytes) (hlong : nbytes < 2 ^ 63) (hroom : 174 + (basename name).length < MAXBUF) :
    (Response.upload status (uploadPath name) nbytes).Fits := by
  apply upload_fits hstatus hnonneg hlong
  rw [cstring_eq (uploadPath_contained h0).nul]
  have hpath := (savepath_room name).2 hroom
  omega

/-- The disk takes nothing. -/
def unwritable : Env := ⟨true, false, []⟩

/-- **PUT**: whatever `open` and `write(2)` do. -/
theorem put_fits_iff {uri : Bytes} (h0 : (0 : UInt8) ∉ uri) {contentLength : Int} (hlong : contentLength < 2 ^ 63)
    {rp : RioT} (hok : rp.Ok) (fd : Fd) {status : Bytes} (hstatus : status ∈ uploadStatuses) :
    (∀ env r, (servePut env uri contentLength rp fd).response status = some r → r.Fits) ↔
      (0 ≤ contentLength → 174 + (basename uri).length < MAXBUF) := by
  constructor
  · intro h hlen
    apply (openError_fits_iff h0).1
    apply h unwritable
    simp only [servePut, if_neg (Int.not_lt.2 hlen), unwritable]
    rfl
  · intro hroom env r hr
    rcases servePut_cases env uri contentLength rp fd with ⟨-, heq⟩ | ⟨hlen, ⟨-, heq⟩ | heq | ⟨t, ht, heq⟩⟩
    · rw [heq] at hr
      cases hr
      exact error_fits (by simp [errorTexts]) (by decide)
    · rw [heq] at hr
      cases hr
      exact (openError_fits_iff h0).2 (hroom hlen)
    · rw [heq] at hr
      cases hr
    · rw [heq] at hr
      cases hr
      obtain ⟨h1, h2⟩ := transferLoop_remaining _ hok hlen ht
      simp only at h2
      exact saved_fits hstatus h0 (by omega) (by omega) (hroom hlen)

theorem postName_nul {uri : Bytes} (h0 : (0 : UInt8) ∉ uri) (contentType body : Bytes) :
    (0 : UInt8) ∉ postName uri contentType body := by
  unfold postName
  simp only
  split
  · exact cstring_nul _
  · exact h0

theorem decode_length (contentType body : Bytes) : (decode contentType body).content.length ≤ body.length := by
  unfold decode
  split
  · exact Nat.le_refl _
  · simp only
    split
    · exact Nat.le_refl _
    · split
      · exact Nat.le_refl _
      · split
        · exact Nat.le_refl _
        · simp only [List.length_take, List.length_drop]
          omega

/-- **POST**: the same for the name in the body, or the URI. -/
theorem post_fits_iff {uri : Bytes} (h0 : (0 : UInt8) ∉ uri) {contentLength : Int} (contentType : Bytes)
    {rp : RioT} (hok : rp.Ok) (fd : Fd) {status : Bytes} (hstatus : status ∈ uploadStatuses) :
    (∀ env r, (servePost env uri contentLength contentType rp fd).response status = some r → r.Fits) ↔
      (0 ≤ contentLength → contentLength ≤ MAX_UPLOAD → ∀ body,
        receiveLoop contentLength.toNat contentLength.toNat [] rp fd = some body →
          174 + (basename (postName uri contentType body)).length < MAXBUF) := by
  constructor
  · intro h hlen hmax body hbody
    apply (openError_fits_iff (postName_nul h0 contentType body)).1
    apply h unwritable
    simp only [servePost, if_neg (Int.not_lt.2 hlen), if_neg (Int.not_lt.2 hmax), unwritable, hbody]
    rfl
  · intro hroom env r hr
    rcases servePost_cases env uri contentLength contentType rp fd with
      ⟨-, heq⟩ | ⟨-, heq⟩ | ⟨-, heq⟩ | heq | ⟨body, hlen, hmax, -, hbody, ⟨-, heq⟩ | ⟨r, -, heq⟩⟩
    · rw [heq] at hr
      cases hr
      exact error_fits (by simp [errorTexts]) (by decide)
    · rw [heq] at hr
      cases hr
      exact error_fits (by simp [errorTexts]) (by decide)
    · rw [heq] at hr
      cases hr
      exact error_fits (by simp [errorTexts]) (by decide)
    · rw [heq] at hr
      cases hr
    · rw [heq] at hr
      cases hr
      exact (openError_fits_iff (postName_nul h0 contentType body)).2 (hroom hlen hmax body hbody)
    · rw [heq] at hr
      cases hr
      have hgot := receiveLoop_le _ _ [] fd hok (Nat.zero_le _) hbody
      have hselected := decode_length contentType body
      have hroom := hroom hlen hmax body hbody
      unfold MAX_UPLOAD at hmax
      exact saved_fits hstatus (postName_nul h0 contentType body) (by omega) (by omega) hroom

/-! ## Files -/

/-- The page about a missing file. -/
theorem missing_fits_iff {uri : Bytes} (h0 : (0 : UInt8) ∉ uri) :
    (Response.error (parseUri uri).filename (ascii "404") (ascii "Not found")
      (ascii "Tiny couldn't find this file")).Fits ↔ 142 + pathLength uri < MAXBUF := by
  have hshort : (ascii "Not found").length = 9 := rfl
  have hlong : (ascii "Tiny couldn't find this file").length = 28 := rfl
  rw [error_fits_iff (by simp [errorTexts]), cstring_eq (filename_nul h0), hshort, hlong, filename_length]
  omega

/-- **GET**: whatever files there are. -/
theorem get_fits_iff {method uri : Bytes} (hget : equalFold method (ascii "GET") = true) (h0 : (0 : UInt8) ∉ uri)
    (hlen : uri.length < MAXLINE) :
    (∀ files : Files, StringsFit method uri (.served (dispatch method uri (files.stat (parseUri uri).filename)))) ↔
      142 + pathLength uri < MAXBUF := by
  have hput := equalFold_ne (b := ascii "PUT") (by decide) hget
  have hpost := equalFold_ne (b := ascii "POST") (by decide) hget
  constructor
  · intro h
    apply (missing_fits_iff h0).1
    apply (h noFiles).built
    simp only [dispatch, hput, hpost, hget, noFiles]
    rfl
  · intro hroom files
    refine ⟨fun s _ => ⟨?_, ?_⟩, fun r hr => ?_⟩
    · rw [filename_length]
      unfold MAXBUF at hroom
      unfold MAXLINE
      omega
    · exact Nat.lt_of_le_of_lt (cgiargs_length uri) hlen
    · rcases dispatch_cases method uri (files.stat (parseUri uri).filename) with
        heq | heq | ⟨hother, -⟩ | ⟨-, heq⟩ | ⟨sbuf, hstat, hthere⟩
      · rw [heq] at hr
        cases hr
      · rw [heq] at hr
        cases hr
      · rw [hget] at hother
        cases hother
      · rw [heq] at hr
        cases hr
        exact (missing_fits_iff h0).2 hroom
      · -- a file that is there has a shorter path
        have hpath : (parseUri uri).filename.length < PATH_MAX := by
          by_contra hlong
          rw [files.tooLong _ (by omega)] at hstat
          cases hstat
        rcases hthere with ⟨-, heq | heq⟩ | ⟨-, heq | heq⟩
        · rw [heq] at hr
          cases hr
          exact error_fits (by simp [errorTexts]) hpath
        · rw [heq] at hr
          cases hr
        · rw [heq] at hr
          cases hr
          exact error_fits (by simp [errorTexts]) hpath
        · rw [heq] at hr
          cases hr

/-! ## Requests -/

/-- The words of the line leave room for the texts around them. For an upload it is what is behind the last `/` of
the name that counts. -/
structure Roomy (method uri : Bytes) (h : Headers) : Prop where
  put   : equalFold method (ascii "PUT") = true → 0 ≤ h.contentLength → 174 + (basename uri).length < MAXBUF
  post  : equalFold method (ascii "POST") = true → 0 ≤ h.contentLength → h.contentLength ≤ MAX_UPLOAD → ∀ body,
    receiveLoop h.contentLength.toNat h.contentLength.toNat [] h.rio h.fd = some body →
      174 + (basename (postName uri h.contentType body)).length < MAXBUF
  get   : equalFold method (ascii "GET") = true → 142 + pathLength uri < MAXBUF
  other : equalFold method (ascii "PUT") = false → equalFold method (ascii "POST") = false →
    equalFold method (ascii "GET") = false → 154 + method.length < MAXBUF

theorem posted_response {e : DoitEnd} {p : Posted} (h : e.posted = some p) (status : Bytes) :
    e.response status = p.response status := by
  cases e with
  | rejected cause errnum shortmsg longmsg =>
    cases h
    rfl
  | blocked =>
    cases h
    rfl
  | uploaded p =>
    cases h
    rfl
  | undefined => cases h
  | returned => cases h
  | served s => cases h

theorem uploadStatus_called (method : Bytes) : uploadStatus method ∈ uploadStatuses := by
  unfold uploadStatus uploadStatuses
  split <;> simp

section
variable {method uri : Bytes} {a : Arrays} {h : Headers}

/-- An end without a file that was asked for. -/
theorem StringsFit.of_upload {e : DoitEnd} (hupload : ∀ s, e ≠ .served s) :
    StringsFit method uri e ↔ ∀ r, e.response (uploadStatus method) = some r → r.Fits :=
  ⟨fun hf => hf.built, fun hb => ⟨fun s hs => absurd hs (hupload s), hb⟩⟩

theorem answer_put_iff (hm : a.method.string = some method) (hu : a.uri.string = some uri) (h0 : (0 : UInt8) ∉ uri)
    (hlong : h.contentLength < 2 ^ 63) (hok : h.rio.Ok) (hput : equalFold method (ascii "PUT") = true) :
    (∀ (env : Env) (files : Files), StringsFit method uri (answer env files.stat a h)) ↔
      (0 ≤ h.contentLength → 174 + (basename uri).length < MAXBUF) := by
  rw [← put_fits_iff h0 hlong hok h.fd (uploadStatus_called method)]
  have hanswer : ∀ (env : Env) (files : Files), StringsFit method uri (answer env files.stat a h) ↔
      ∀ r, (servePut env uri h.contentLength h.rio h.fd).response (uploadStatus method) = some r → r.Fits := by
    intro env files
    simp only [answer, hm, if_pos hput]
    rw [StringsFit.of_upload (putEnd_upload _ _ _ _ _).2, posted_response (putEnd_posted hu env h.contentLength h.rio h.fd)]
  exact ⟨fun hf env => (hanswer env noFiles).1 (hf env noFiles), fun hf env files => (hanswer env files).2 (hf env)⟩

theorem answer_post_iff (hm : a.method.string = some method) (hu : a.uri.string = some uri) (h0 : (0 : UInt8) ∉ uri)
    (hok : h.rio.Ok) (hpost : equalFold method (ascii "POST") = true) :
    (∀ (env : Env) (files : Files), StringsFit method uri (answer env files.stat a h)) ↔
      (0 ≤ h.contentLength → h.contentLength ≤ MAX_UPLOAD → ∀ body,
        receiveLoop h.contentLength.toNat h.contentLength.toNat [] h.rio h.fd = some body →
          174 + (basename (postName uri h.contentType body)).length < MAXBUF) := by
  have hput := equalFold_ne (b := ascii "PUT") (by decide) hpost
  rw [← post_fits_iff h0 h.contentType hok h.fd (uploadStatus_called method)]
  have hanswer : ∀ (env : Env) (files : Files), StringsFit method uri (answer env files.stat a h) ↔
      ∀ r, (servePost env uri h.contentLength h.contentType h.rio h.fd).response (uploadStatus method) = some r → r.Fits := by
    intro env files
    simp only [answer, hm, hput, Bool.false_eq_true, if_false, if_pos hpost]
    rw [StringsFit.of_upload (postEnd_upload _ _ _ _ _ _).2,
      posted_response (postEnd_posted hu env h.contentLength h.contentType h.rio h.fd)]
  exact ⟨fun hf env => (hanswer env noFiles).1 (hf env noFiles), fun hf env files => (hanswer env files).2 (hf env)⟩

/-- A GET is left to `dispatch`. -/
theorem answer_get (env : Env) (stat : Bytes → Option Stat) (hm : a.method.string = some method) (hu : a.uri.string = some uri)
    (hne : uri ≠ []) (hget : equalFold method (ascii "GET") = true) :
    answer env stat a h = .served (dispatch method uri (stat (parseUri uri).filename)) := by
  have hput := equalFold_ne (b := ascii "PUT") (by decide) hget
  have hpost := equalFold_ne (b := ascii "POST") (by decide) hget
  have hparsed : parseUriIn uri = some (parseUri uri) := by
    have hpos := List.length_pos_iff.2 hne
    exact if_neg fun hlast => absurd hlast.2 (by omega)
  simp only [answer, hm, hput, hpost, hget, Bool.false_eq_true, if_false, Bool.not_true, hu, hparsed]

theorem answer_get_iff (hm : a.method.string = some method) (hu : a.uri.string = some uri) (h0 : (0 : UInt8) ∉ uri)
    (hne : uri ≠ []) (hlen : uri.length < MAXLINE) (hget : equalFold method (ascii "GET") = true) :
    (∀ (env : Env) (files : Files), StringsFit method uri (answer env files.stat a h)) ↔
      142 + pathLength uri < MAXBUF := by
  rw [← get_fits_iff hget h0 hlen]
  simp only [answer_get _ _ hm hu hne hget]
  exact ⟨fun hf => hf unwritable, fun hf _ => hf⟩

theorem answer_other_iff (hm : a.method.string = some method) (h0 : (0 : UInt8) ∉ method)
    (hput : equalFold method (ascii "PUT") = false) (hpost : equalFold method (ascii "POST") = false)
    (hget : equalFold method (ascii "GET") = false) :
    (∀ (env : Env) (files : Files), StringsFit method uri (answer env files.stat a h)) ↔ 154 + method.length < MAXBUF := by
  have hshort : (ascii "Not Implemented").length = 15 := rfl
  have hlong : (ascii "Tiny does not implement this method").length = 35 := rfl
  have hanswer : ∀ (env : Env) (files : Files), answer env files.stat a h =
      .rejected method (ascii "501") (ascii "Not Implemented") (ascii "Tiny does not implement this method") := by
    intro env files
    simp only [answer, hm, hput, hpost, hget, Bool.false_eq_true, if_false, Bool.not_false, if_true]
  have hpage : (Response.error method (ascii "501") (ascii "Not Implemented")
      (ascii "Tiny does not implement this method")).Fits ↔ 154 + method.length < MAXBUF := by
    rw [error_fits_iff (by simp [errorTexts]), cstring_eq h0, hshort, hlong]
  rw [← hpage]
  simp only [hanswer]
  constructor
  · intro hf
    exact (hf unwritable noFiles).built _ rfl
  · intro hfits env files
    refine ⟨fun s hs => (by cases hs), fun r hr => ?_⟩
    cases hr
    exact hfits

end

theorem answer_fits_iff {buf method uri : Bytes} (hline : requestLine buf = some (method, uri)) (h0 : (0 : UInt8) ∉ buf)
    (hlen : buf.length < MAXLINE) {h : Headers} (hlong : h.contentLength < 2 ^ 63) (hok : h.rio.Ok) :
    (∀ (env : Env) (files : Files), StringsFit method uri
      (answer env files.stat (sscanf buf ⟨unassigned, unassigned, unassigned⟩) h)) ↔ Roomy method uri h := by
  obtain ⟨hmethod, hne⟩ := requestLine_uri hline h0
  obtain ⟨hm0, hu0⟩ := requestLine_nul hline h0
  have hwords := requestLine_length hline
  obtain ⟨hm, hu⟩ := sscanf_spec h0
  rw [hmethod] at hm
  simp only [hline, Option.map_some] at hu
  generalize sscanf buf ⟨unassigned, unassigned, unassigned⟩ = a at hm hu ⊢
  by_cases hput : equalFold method (ascii "PUT") = true
  · have hpost := equalFold_ne (b := ascii "POST") (by decide) hput
    have hget := equalFold_ne (b := ascii "GET") (by decide) hput
    rw [answer_put_iff hm hu hu0 hlong hok hput]
    exact ⟨fun h => ⟨fun _ => h, by simp [hpost], by simp [hget], by simp [hput]⟩, fun h => h.put hput⟩
  · by_cases hpost : equalFold method (ascii "POST") = true
    · have hget := equalFold_ne (b := ascii "GET") (by decide) hpost
      rw [answer_post_iff hm hu hu0 hok hpost]
      exact ⟨fun h => ⟨by simp [hput], fun _ => h, by simp [hget], by simp [hpost]⟩, fun h => h.post hpost⟩
    · by_cases hget : equalFold method (ascii "GET") = true
      · rw [answer_get_iff hm hu hu0 hne (by omega) hget]
        exact ⟨fun h => ⟨by simp [hput], by simp [hpost], fun _ => h, by simp [hget]⟩, fun h => h.get hget⟩
      · rw [Bool.not_eq_true] at hput hpost hget
        rw [answer_other_iff hm hm0 hput hpost hget]
        exact ⟨fun h => ⟨by simp [hput], by simp [hpost], by simp [hget], fun _ _ _ => h⟩,
          fun h => h.other hput hpost hget⟩

/-- **String building.** For a request with a method and a URI in its first line: in every run of `doit`, whatever
the files, `malloc`, `open` and `write(2)` do, every string that `parse_uri`, `clienterror` and `upload_response`
build fits if and only if the words of the request are as short as `Roomy` says. -/
theorem strings_fit_iff {turns : Nat} {hdr : Bytes} {rp : RioT} {fd : Fd} {ret : Int} {method uri : Bytes}
    (hret : (rioReadlineb (rioInitb rp) fd MAXLINE).ret = some ret) (hpos : 0 < ret)
    (hline : requestLine (cstring (rioReadlineb (rioInitb rp) fd MAXLINE).usrbuf) = some (method, uri)) :
    (∀ (env : Env) (files : Files), StringsFit method uri (doit turns env files.stat hdr rp fd)) ↔
      ∀ h, readRequesthdrs turns ⟨-1, [], hdr, (rioReadlineb (rioInitb rp) fd MAXLINE).rio,
        (rioReadlineb (rioInitb rp) fd MAXLINE).fd⟩ = .returned h → Roomy method uri h := by
  have hread := rioReadlineb_ok (rioInitb_ok rp) fd MAXLINE
  -- with its NUL the line fits into `buf`
  have hlen : (cstring (rioReadlineb (rioInitb rp) fd MAXLINE).usrbuf).length < MAXLINE := by
    have hline := rioReadlineb_length (rioInitb_ok rp) fd MAXLINE
    have hcut := (List.takeWhile_prefix (l := (rioReadlineb (rioInitb rp) fd MAXLINE).usrbuf) (· ≠ 0)).length_le
    have hmax : MAXLINE - 1 < MAXLINE := by decide
    unfold cstring
    omega
  by_cases hhdr : ∃ h, readRequesthdrs turns ⟨-1, [], hdr, (rioReadlineb (rioInitb rp) fd MAXLINE).rio,
      (rioReadlineb (rioInitb rp) fd MAXLINE).fd⟩ = .returned h
  · obtain ⟨h, hhdr⟩ := hhdr
    have hfits : Fits h := Fits.read ⟨Nat.zero_le _, hread.ok⟩ hhdr
    have hlong : h.contentLength < 2 ^ 63 := readRequesthdrs_long (show (-1 : Int) < 2 ^ 63 by decide) hhdr
    have hiff := answer_fits_iff hline (cstring_nul _) hlen hlong hfits.rio
    simp only [doit_answer hret hpos hhdr, hiff]
    constructor
    · intro hroomy h' hhdr'
      rw [hhdr] at hhdr'
      cases hhdr'
      exact hroomy
    · intro hroomy
      exact hroomy h hhdr
  · -- nothing is built
    rw [not_exists] at hhdr
    refine ⟨fun _ h heq => absurd heq (hhdr h), fun _ env files => ?_⟩
    rw [doit_waits hret hpos hhdr]
    exact ⟨fun s hs => (by cases hs), fun r hr => (by cases hr)⟩

theorem strings_fit_iff_get : StringsFit (ascii "GET") (ascii "/") (doit 0 unwritable noFiles.stat zeroBuf zeroRio getFd) := by
  have hret : (rioReadlineb (rioInitb zeroRio) getFd MAXLINE).ret = some 16 := by decide +kernel
  have hline : requestLine (cstring (rioReadlineb (rioInitb zeroRio) getFd MAXLINE).usrbuf) =
      some (ascii "GET", ascii "/") := by decide +kernel
  refine (strings_fit_iff hret (by decide) hline).2 (fun h _ => ?_) unwritable noFiles
  exact ⟨fun hput => absurd hput (by decide), fun hpost => absurd hpost (by decide), fun _ => by decide,
    fun _ _ hget => absurd hget (by decide)⟩

/-! ## A request that does not fit -/

/-- A name of 8060 letters. -/
def longUri : Bytes := slash :: List.replicate 8060 97

def longLine : Bytes := ascii "GET " ++ (longUri ++ ascii " HTTP/1.0\r\n")

/-- A word: no blank in it. -/
def Word (w : Bytes) : Prop := w ≠ [] ∧ w.all (!isSpace ·)

theorem scanString_blank {w : Bytes} (hw : Word w) (t : Bytes) : scanString (w ++ 32 :: t) = some (w, 32 :: t) := by
  obtain ⟨c, w', rfl⟩ := List.exists_cons_of_ne_nil hw.1
  have hall : ∀ b ∈ c :: w', (!isSpace b) = true := List.all_eq_true.1 hw.2
  have hc : ¬ isSpace c = true := by simpa using hall c (List.mem_cons_self ..)
  have hdrop : (c :: w' ++ 32 :: t).dropWhile (isSpace ·) = c :: w' ++ 32 :: t := by
    rw [List.cons_append, List.dropWhile_cons_of_neg hc]
  simp only [scanString, hdrop]
  rw [if_neg (by simp), List.takeWhile_append_of_pos hall, List.dropWhile_append_of_pos hall,
    List.takeWhile_cons_of_neg (p := (!isSpace ·)) (by decide), List.dropWhile_cons_of_neg (p := (!isSpace ·)) (by decide),
    List.append_nil]

/-- Two words with a blank behind each. -/
theorem requestLine_words {m u : Bytes} (hm : Word m) (hu : Word u) (t : Bytes) :
    requestLine (m ++ 32 :: (u ++ 32 :: t)) = some (m, u) := by
  have hskip : scanString (32 :: (u ++ 32 :: t)) = scanString (u ++ 32 :: t) := by
    unfold scanString
    rw [List.dropWhile_cons_of_pos (by decide)]
  rw [requestLine, scanString_blank hm, Option.bind_some, hskip, scanString_blank hu]
  rfl

theorem longUri_ne : longUri ≠ [] := by
  rw [longUri]
  exact List.cons_ne_nil _ _

theorem longUri_letters : ∀ c ∈ longUri, c = slash ∨ c = 97 := by
  intro c hc
  rw [longUri] at hc
  rcases List.mem_cons.1 hc with h | h
  · exact .inl h
  · exact .inr (List.eq_of_mem_replicate h)

theorem pathLength_long : pathLength longUri = 8061 := by
  have hfind : find (ascii "cgi-bin") longUri = none := by
    have hc : (99 : UInt8) ∉ longUri := by
      intro hmem
      rcases longUri_letters _ hmem with h | h
      · exact absurd h (by decide)
      · exact absurd h (by decide)
    have hskip := find_skip (r := ascii "gi-bin") [] hc
    rwa [List.append_nil] at hskip
  have hlast : longUri.getLast? ≠ some 47 := by
    rw [longUri, List.replicate_succ', List.getLast?_cons, List.getLast?_concat]
    decide
  rw [pathLength, hfind]
  simp only [if_neg hlast]
  rw [longUri, List.length_cons, List.length_replicate]

theorem longLine_length : longLine.length = 8076 := by
  have hget : (ascii "GET ").length = 4 := rfl
  have hversion : (ascii " HTTP/1.0\r\n").length = 11 := rfl
  rw [longLine, List.length_append, List.length_append, hget, hversion, longUri, List.length_cons, List.length_replicate]

/-- It comes as one piece. -/
theorem longLine_piece (c : Bytes) : piece (MAXLINE - 1) (longLine ++ c) = longLine := by
  have hend : ascii " HTTP/1.0\r\n" = ascii " HTTP/1.0\r" ++ [newline] := by decide
  have hline : longLine = ascii "GET " ++ (longUri ++ ascii " HTTP/1.0\r") ++ [newline] := by
    rw [longLine, hend, List.append_assoc, List.append_assoc]
  have hnl : newline ∉ ascii "GET " ++ (longUri ++ ascii " HTTP/1.0\r") := by
    simp only [List.mem_append, not_or]
    refine ⟨by decide, fun hmem => ?_, by decide⟩
    rcases longUri_letters _ hmem with h | h
    · exact absurd h (by decide)
    · exact absurd h (by decide)
  have hlen := longLine_length
  rw [hline, List.length_append, List.length_singleton] at hlen
  have hsplit : longLine ++ c = ascii "GET " ++ (longUri ++ ascii " HTTP/1.0\r") ++ newline :: c := by
    simp only [hline, List.append_assoc, List.singleton_append]
  rw [hsplit, piece_line c hnl, if_pos (by unfold MAXLINE; omega), hline]

theorem longLine_words : (0 : UInt8) ∉ longLine ∧ requestLine longLine = some (ascii "GET", longUri) := by
  constructor
  · simp only [longLine, List.mem_append, not_or]
    refine ⟨by decide, fun hmem => ?_, by decide⟩
    rcases longUri_letters _ hmem with h | h
    · exact absurd h (by decide)
    · exact absurd h (by decide)
  · have hget : ascii "GET " = ascii "GET" ++ [32] := by decide
    have hversion : ascii " HTTP/1.0\r\n" = 32 :: ascii "HTTP/1.0\r\n" := by decide
    rw [longLine, hget, hversion, List.append_assoc, List.singleton_append]
    refine requestLine_words ⟨by decide, by decide⟩ ⟨longUri_ne, List.all_eq_true.2 fun c hc => ?_⟩ _
    rcases longUri_letters c hc with rfl | rfl <;> decide

/-- The line fits, the file is missing, and the page that says so does not fit. -/
theorem long_name_overflows : longLine.length ≤ MAXLINE - 1 ∧ ∃ calls turns h,
    (rioReadlineb (rioInitb zeroRio) ⟨longLine ++ blankLine, upTo byteWise calls⟩ MAXLINE).usrbuf = longLine ∧
    requestLine (cstring longLine) = some (ascii "GET", longUri) ∧
    readRequesthdrs turns ⟨-1, [], zeroBuf,
      (rioReadlineb (rioInitb zeroRio) ⟨longLine ++ blankLine, upTo byteWise calls⟩ MAXLINE).rio,
      (rioReadlineb (rioInitb zeroRio) ⟨longLine ++ blankLine, upTo byteWise calls⟩ MAXLINE).fd⟩ = .returned h ∧
    ¬ StringsFit (ascii "GET") longUri
      (doit turns unwritable noFiles.stat zeroBuf zeroRio ⟨longLine ++ blankLine, upTo byteWise calls⟩) := by
  obtain ⟨h0, hwords⟩ := longLine_words
  obtain ⟨calls, hcalls⟩ := byteWise_closes.enough ((longLine ++ blankLine).length + 1)
  refine ⟨by rw [longLine_length]; decide, calls, ?_⟩
  have hno : NoReadFails (Fd.mk (longLine ++ blankLine) (upTo byteWise calls)).sched := byteWise_closes.noReadFails calls
  have hread := rioReadlineb_cases (rioInitb_ok zeroRio) hno (MAXLINE - 1)
  have hmax : MAXLINE - 1 + 1 = MAXLINE := rfl
  have hrest : rest (rioInitb zeroRio) ⟨longLine ++ blankLine, upTo byteWise calls⟩ = longLine ++ blankLine := by
    rw [rest, rioInitb_window]
    rfl
  rw [hmax, hrest, longLine_piece] at hread
  rcases hread with ⟨-, hfew⟩ | ⟨rp', fd', hcall, hok', hno', hrest', -, hmoved⟩
  · simp only at hfew
    omega
  · rw [List.drop_left] at hrest'
    have hends : Ends ⟨-1, [], zeroBuf, rp', fd'⟩ := by
      rw [Ends, hrest']
      exact .inl (by decide)
    have hleft : fd'.unread.length + 1 ≤ reads fd'.sched := by
      have hmoved := hmoved (by rw [hrest']; decide)
      simp only at hmoved
      omega
    obtain ⟨h, hhdr⟩ := readRequesthdrs_returns 2 (h := ⟨-1, [], zeroBuf, rp', fd'⟩) ⟨hok', hno'⟩
      (by simp only [hrest']; decide) hends hleft
    have hret : (rioReadlineb (rioInitb zeroRio) ⟨longLine ++ blankLine, upTo byteWise calls⟩ MAXLINE).ret =
        some (longLine.length : Int) := by rw [hcall]
    have hhdr : readRequesthdrs 2 ⟨-1, [], zeroBuf,
        (rioReadlineb (rioInitb zeroRio) ⟨longLine ++ blankLine, upTo byteWise calls⟩ MAXLINE).rio,
        (rioReadlineb (rioInitb zeroRio) ⟨longLine ++ blankLine, upTo byteWise calls⟩ MAXLINE).fd⟩ = .returned h := by
      rw [hcall]
      exact hhdr
    refine ⟨2, h, by rw [hcall], by rw [cstring_eq h0, hwords], hhdr, ?_⟩
    obtain ⟨hm, hu⟩ := sscanf_spec h0
    rw [(requestLine_uri hwords h0).1] at hm
    simp only [hwords, Option.map_some] at hu
    rw [doit_answer hret (by rw [longLine_length]; decide) hhdr, hcall, cstring_eq h0,
      answer_get _ _ hm hu longUri_ne (by decide)]
    intro hfit
    have hpage := (missing_fits_iff (requestLine_nul hwords h0).2).1 (hfit.built _ rfl)
    rw [pathLength_long] at hpage
    exact absurd hpage (by decide)

end ComputerSystem.Tiny
