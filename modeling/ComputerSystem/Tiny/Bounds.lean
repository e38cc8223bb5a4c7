import ComputerSystem.Rio.Blocks
import ComputerSystem.Tiny.Headers
/-!
# The multipart parser stays inside of the received body (`Chapter11/tiny_web/tiny.c:363-397`)

`decodeChecked` is the middle of `serve_post` once more, with the pointers that C has, as offsets into
`body`, and with a test at every place where C has none: it is `none` where a length would be negative,
where a range would leave `body[0 .. got)` or `filename`, and where a `snprintf` would cut its string.
For a `content_type` that fits into the array of `doit` none of this happens, and the result is that of
`decode` (`decodeChecked_eq`).

| here             | there                                                                   |
|------------------|-------------------------------------------------------------------------|
| `range`          | `len` bytes at `body + start`                                            |
| `memmem`, `memchr` | the calls of them; the outer `none` is a bad range, the inner one `NULL` |
| `memcpyFilename` | `memcpy(filename, body + start, len)` and the NUL behind it (`:383-384`)   |
| `snprintfAll`    | a `snprintf` into a `char [MAXLINE]` that is not cut                      |
| `Selected`       | `filename`, `content` and `content_len`                                   |
-/

namespace ComputerSystem.Tiny

def range (body : Bytes) (start len : Int) : Option Bytes :=
  if 0 ≤ start ∧ 0 ≤ len ∧ start + len ≤ body.length then some ((body.drop start.toNat).take len.toNat) else none

def memmem (body : Bytes) (start len : Int) (needle : Bytes) : Option (Option Int) := do
  let hay ← range body start len
  return (find needle hay).map fun k : Nat => start + (k : Int)

def memchr (body : Bytes) (start : Int) (c : UInt8) (len : Int) : Option (Option Int) := memmem body start len [c]

def memcpyFilename (body : Bytes) (start len : Int) : Option Bytes :=
  if len < MAXLINE then range body start len else none

def snprintfAll (s : Bytes) : Option Bytes := if s.length < MAXLINE then some s else none

structure Selected where
  filename   : Bytes
  content    : Int
  contentLen : Int
deriving DecidableEq, Repr

/-- `:378-386`; `filename` is empty before. -/
def filenameChecked (body : Bytes) (p hdrEnd : Int) : Option Bytes := do
  match ← memmem body p (hdrEnd - p) (ascii "filename=\"") with
  | none => return []
  | some fn =>
    let fn := fn + 10
    match ← memchr body fn quote (hdrEnd - fn) with
    | none => return []
    | some fe => if toSize (fe - fn) < MAXLINE then memcpyFilename body fn (fe - fn) else return []

/-- From the first delimiter on (`:375-396`). -/
def partChecked (body boundary : Bytes) (p : Int) : Option Selected := do
  let got : Int := body.length
  match ← memmem body p (got - p) (crlf ++ crlf) with
  | none => return ⟨[], 0, got⟩
  | some hdrEnd =>
    let filename ← filenameChecked body p hdrEnd
    let cstart := hdrEnd + 4
    let sep ← snprintfAll (crlf ++ boundary)
    match ← memmem body cstart (got - cstart) sep with
    | none => return ⟨filename, 0, got⟩
    | some cend => return ⟨filename, cstart, cend - cstart⟩

/-- `:363-397`. -/
def decodeChecked (contentType body : Bytes) : Option Selected := do
  let got : Int := body.length
  match find (ascii "boundary=") contentType with
  | none => return ⟨[], 0, got⟩
  | some bpos =>
    let boundary ← snprintfAll (ascii "--" ++ contentType.drop (bpos + 9))
    match ← memmem body 0 got boundary with
    | none => return ⟨[], 0, got⟩
    | some p => partChecked body boundary (p + (boundary.length : Int))

/-! ## Every range is in bounds -/

theorem range_eq {body : Bytes} {start len : Nat} (h : start + len ≤ body.length) :
    range body start len = some ((body.drop start).take len) := by
  rw [range, if_pos (by omega), Int.toNat_natCast, Int.toNat_natCast]

theorem memmem_eq {body : Bytes} {start len : Nat} (h : start + len ≤ body.length) (needle : Bytes) :
    memmem body start len needle = some ((find needle ((body.drop start).take len)).map fun k => ((start + k : Nat) : Int)) := by
  simp only [memmem, range_eq h, Option.bind_eq_bind, Option.bind_some, Option.pure_def, Int.natCast_add]

theorem snprintfAll_eq {s : Bytes} (h : s.length < MAXLINE) : snprintfAll s = some s := if_pos h

/-- The headers of a part are `body[p .. p + n)`. -/
theorem filenameChecked_eq {body : Bytes} {p n : Nat} (hin : p + n ≤ body.length) (hmax : body.length < 2 ^ 64) :
    filenameChecked body p ((p + n : Nat) : Int) = some (headerFilename ((body.drop p).take n)) := by
  have hlen : ((p + n : Nat) : Int) - (p : Int) = (n : Int) := by omega
  unfold filenameChecked headerFilename
  rw [hlen, memmem_eq hin]
  cases hfn : find (ascii "filename=\"") ((body.drop p).take n) with
  | none => rfl
  | some k =>
    have hk := find_le hfn
    rw [List.length_take, List.length_drop, show (ascii "filename=\"").length = 10 from rfl] at hk
    -- `fn`, and what is left of the headers there
    have hstart : ((p + k : Nat) : Int) + 10 = ((p + k + 10 : Nat) : Int) := by omega
    have hleft : ((p + n : Nat) : Int) - ((p + k + 10 : Nat) : Int) = ((n - (k + 10) : Nat) : Int) := by omega
    have hdrop : ((body.drop p).take n).drop (k + 10) = (body.drop (p + k + 10)).take (n - (k + 10)) := by
      rw [List.drop_take, List.drop_drop, Nat.add_assoc]
    have hrange : p + k + 10 + (n - (k + 10)) ≤ body.length := by omega
    simp only [Option.bind_eq_bind, Option.bind_some, Option.map_some, hstart, hleft, memchr, memmem_eq hrange, hdrop]
    cases hfe : find [quote] ((body.drop (p + k + 10)).take (n - (k + 10))) with
    | none => rfl
    | some m =>
      have hm := find_le hfe
      rw [List.length_take, List.length_drop, List.length_singleton] at hm
      have hsize : ((p + k + 10 + m : Nat) : Int) - ((p + k + 10 : Nat) : Int) = (m : Int) := by omega
      have hto : toSize (m : Int) = m := by
        unfold toSize
        rw [Int.emod_eq_of_lt (by omega) (by omega), Int.toNat_natCast]
      simp only [Option.map_some, hsize, hto]
      by_cases hfits : m < MAXLINE
      · have htake : ((body.drop (p + k + 10)).take (n - (k + 10))).take m = (body.drop (p + k + 10)).take m := by
          rw [List.take_take, Nat.min_eq_left (by omega)]
        rw [if_pos hfits, if_pos hfits, memcpyFilename, if_pos (by omega), range_eq (by omega), htake]
      · rw [if_neg hfits, if_neg hfits]
        rfl

/-- What the headers give is short enough for `filename`. -/
theorem headerFilename_length (hdr : Bytes) : (headerFilename hdr).length < MAXLINE := by
  have hzero : ([] : Bytes).length < MAXLINE := by decide
  unfold headerFilename
  split
  · exact hzero
  · simp only
    split
    · exact hzero
    · rename_i n _
      split
      · rw [List.length_take]
        omega
      · exact hzero

/-- `content[0 .. content_len)`. -/
def Selected.bytes (r : Selected) (body : Bytes) : Bytes := (body.drop r.content.toNat).take r.contentLen.toNat

/-- All of the body is selected, or less of it and no `sep` in that. -/
structure Selected.Inside (body sep : Bytes) (r : Selected) : Prop where
  filename : r.filename.length < MAXLINE
  start    : 0 ≤ r.content
  len      : 0 ≤ r.contentLen
  inside   : r.content + r.contentLen ≤ body.length
  narrowed : r.contentLen < body.length → ¬ sep <:+: r.bytes body

theorem whole_bytes (body filename : Bytes) : Selected.bytes ⟨filename, 0, (body.length : Int)⟩ body = body := by
  simp [Selected.bytes]

theorem whole_inside {body sep filename : Bytes} (hname : filename.length < MAXLINE) :
    Selected.Inside body sep ⟨filename, 0, (body.length : Int)⟩ :=
  ⟨hname, Int.le_refl _, Int.natCast_nonneg _, by simp, fun hlt => absurd hlt (Int.lt_irrefl _)⟩

/-- `decode` from the first delimiter on. -/
def decodePart (body boundary : Bytes) (p : Nat) : Decoded :=
  match find (crlf ++ crlf) (body.drop p) with
  | none => ⟨[], body⟩
  | some hdrEnd =>
    match find (crlf ++ boundary) ((body.drop p).drop (hdrEnd + 4)) with
    | none => ⟨headerFilename ((body.drop p).take hdrEnd), body⟩
    | some contentLen =>
      ⟨headerFilename ((body.drop p).take hdrEnd), ((body.drop p).drop (hdrEnd + 4)).take contentLen⟩

theorem partChecked_ok {body boundary : Bytes} {p : Nat} (hp : p ≤ body.length) (hmax : body.length < 2 ^ 64)
    (hfits : (crlf ++ boundary).length < MAXLINE) :
    ∃ r, partChecked body boundary p = some r ∧ r.Inside body (crlf ++ boundary) ∧
      decodePart body boundary p = ⟨r.filename, r.bytes body⟩ := by
  have hempty : ([] : Bytes).length < MAXLINE := by decide
  have hleft : (body.length : Int) - (p : Int) = ((body.length - p : Nat) : Int) := by omega
  have hall : ∀ start, (body.drop start).take (body.length - start) = body.drop start := by
    intro start
    rw [← List.length_drop, List.take_length]
  unfold partChecked decodePart
  simp only [hleft, memmem_eq (show p + (body.length - p) ≤ body.length by omega), hall, Option.bind_eq_bind,
    Option.bind_some]
  cases hhdr : find (crlf ++ crlf) (body.drop p) with
  | none => exact ⟨_, rfl, whole_inside hempty, by rw [whole_bytes]⟩
  | some n =>
    have hn := find_le hhdr
    rw [List.length_drop, show (crlf ++ crlf).length = 4 from rfl] at hn
    have hname := headerFilename_length ((body.drop p).take n)
    have hcstart : ((p + n : Nat) : Int) + 4 = ((p + n + 4 : Nat) : Int) := by omega
    have hleft' : (body.length : Int) - ((p + n + 4 : Nat) : Int) = ((body.length - (p + n + 4) : Nat) : Int) := by omega
    have hdrop : (body.drop p).drop (n + 4) = body.drop (p + n + 4) := by
      rw [List.drop_drop, Nat.add_assoc]
    simp only [Option.map_some, filenameChecked_eq (show p + n ≤ body.length by omega) hmax, snprintfAll_eq hfits,
      Option.bind_some, hcstart, hleft', hdrop, hall,
      memmem_eq (show p + n + 4 + (body.length - (p + n + 4)) ≤ body.length by omega)]
    cases hsep : find (crlf ++ boundary) (body.drop (p + n + 4)) with
    | none => exact ⟨_, rfl, whole_inside hname, by rw [whole_bytes]⟩
    | some m =>
      have hm := find_le hsep
      rw [List.length_drop] at hm
      have hlen : ((p + n + 4 + m : Nat) : Int) - ((p + n + 4 : Nat) : Int) = (m : Int) := by omega
      have hbytes : Selected.bytes ⟨headerFilename ((body.drop p).take n), ((p + n + 4 : Nat) : Int), (m : Int)⟩ body =
          (body.drop (p + n + 4)).take m := rfl
      refine ⟨_, rfl, ?_, ?_⟩
      · simp only [hlen]
        refine ⟨hname, Int.natCast_nonneg _, Int.natCast_nonneg _, ?_, fun _ => ?_⟩
        · simp only
          omega
        · rw [hbytes]
          exact find_take (by simp [crlf]) hsep
      · simp only [hlen]
        rw [hbytes]

/-- The delimiter that ends the content; there is none without a `boundary=`. -/
def separator (contentType : Bytes) : Option Bytes :=
  (find (ascii "boundary=") contentType).map fun bpos => crlf ++ (ascii "--" ++ contentType.drop (bpos + 9))

theorem decodeChecked_ok {contentType body : Bytes} (htype : contentType.length ≤ MAXLINE - 1)
    (hmax : body.length < 2 ^ 64) :
    ∃ r, decodeChecked contentType body = some r ∧ decode contentType body = ⟨r.filename, r.bytes body⟩ ∧
      ((separator contentType = none ∧ r = ⟨[], 0, (body.length : Int)⟩) ∨
        ∃ sep, separator contentType = some sep ∧ r.Inside body sep) := by
  have hempty : ([] : Bytes).length < MAXLINE := by decide
  unfold decodeChecked decode separator
  cases hbpos : find (ascii "boundary=") contentType with
  | none => exact ⟨_, rfl, by rw [whole_bytes], .inl ⟨rfl, rfl⟩⟩
  | some bpos =>
    -- neither `snprintf` is cut: `boundary=` is longer than what is put in front
    have hb := find_le hbpos
    rw [show (ascii "boundary=").length = 9 from rfl] at hb
    have hfits : (crlf ++ (ascii "--" ++ contentType.drop (bpos + 9))).length < MAXLINE := by
      rw [List.length_append, List.length_append, List.length_drop, show crlf.length = 2 from rfl,
        show (ascii "--").length = 2 from rfl]
      unfold MAXLINE at htype ⊢
      omega
    have hfits' : (ascii "--" ++ contentType.drop (bpos + 9)).length < MAXLINE := by
      rw [List.length_append] at hfits
      omega
    simp only [snprintfAll_eq hfits', snprintf_eq hfits', snprintf_eq hfits, Option.bind_eq_bind, Option.bind_some,
      Option.map_some]
    generalize ascii "--" ++ contentType.drop (bpos + 9) = boundary at hfits
    have hfirst := memmem_eq (show 0 + body.length ≤ body.length by omega) boundary
    rw [List.drop_zero, List.take_length, Int.natCast_zero] at hfirst
    rw [hfirst]
    cases hi : find boundary body with
    | none => exact ⟨_, rfl, by rw [whole_bytes], .inr ⟨_, rfl, whole_inside hempty⟩⟩
    | some i =>
      have hp : ((0 + i : Nat) : Int) + (boundary.length : Int) = ((i + boundary.length : Nat) : Int) := by omega
      obtain ⟨r, hr, hinside, hdecode⟩ := partChecked_ok (find_le hi) hmax hfits
      refine ⟨r, ?_, hdecode, .inr ⟨_, rfl, hinside⟩⟩
      simp only [Option.map_some, Option.bind_some, hp]
      exact hr

/-- **The multipart parser stays inside of the received body**, and selects what `decode` does. -/
theorem multipart_in_bounds (contentType body : Bytes) (htype : contentType.length ≤ MAXLINE - 1)
    (hmax : (body.length : Int) ≤ MAX_UPLOAD) :
    ∃ r, decodeChecked contentType body = some r ∧ decode contentType body = ⟨r.filename, r.bytes body⟩ ∧
      r.filename.length < MAXLINE ∧ 0 ≤ r.content ∧ 0 ≤ r.contentLen ∧ r.content + r.contentLen ≤ body.length ∧
      (r.contentLen < body.length → ∃ sep, separator contentType = some sep ∧ ¬ sep <:+: r.bytes body) := by
  have hlt : body.length < 2 ^ 64 := by
    unfold MAX_UPLOAD at hmax
    omega
  obtain ⟨r, hr, hdecode, ⟨-, rfl⟩ | ⟨sep, hsep, hinside⟩⟩ := decodeChecked_ok htype hlt
  · have hempty : ([] : Bytes).length < MAXLINE := by decide
    refine ⟨_, hr, hdecode, hempty, Int.le_refl _, Int.natCast_nonneg _, by simp, fun hnarrow => ?_⟩
    exact absurd hnarrow (Int.lt_irrefl _)
  · exact ⟨r, hr, hdecode, hinside.filename, hinside.start, hinside.len, hinside.inside,
      fun hnarrow => ⟨sep, hsep, hinside.narrowed hnarrow⟩⟩

/-- One part, `hi`, with a delimiter behind it. -/
theorem multipart_in_bounds_hi : ∃ r,
    decodeChecked (ascii "multipart/form-data; boundary=X") (ascii "--X\r\n\r\nhi\r\n--X--") = some r ∧
    r.filename = [] ∧ r.bytes (ascii "--X\r\n\r\nhi\r\n--X--") = ascii "hi" := by
  obtain ⟨r, hr, hdecode, -⟩ := multipart_in_bounds (ascii "multipart/form-data; boundary=X")
    (ascii "--X\r\n\r\nhi\r\n--X--") (by decide) (by decide)
  have hvalue : decode (ascii "multipart/form-data; boundary=X") (ascii "--X\r\n\r\nhi\r\n--X--") = ⟨[], ascii "hi"⟩ := by
    decide +kernel
  rw [hvalue] at hdecode
  obtain ⟨hname, hbytes⟩ := Decoded.mk.inj hdecode
  exact ⟨r, hr, hname.symm, hbytes.symm⟩

/-! ## What the parser is given -/

/-- `content_type` fits into its array. -/
structure Fits (h : Headers) : Prop where
  type : h.contentType.length ≤ MAXLINE - 1
  rio  : h.rio.Ok

/-- It is cut to the array (`:161-162`). -/
theorem Fits.note {h : Headers} (hf : Fits h) : Fits (noteHeader h) := by
  obtain ⟨-, hrio, -⟩ := noteHeader_frame h
  refine ⟨?_, hrio ▸ hf.rio⟩
  unfold noteHeader
  simp only
  split
  · exact hf.type
  · split
    · refine Nat.le_trans (List.takeWhile_sublist _).length_le ?_
      rw [List.length_take]
      omega
    · exact hf.type

theorem Fits.next {h h' : Headers} (hf : Fits h) (hnext : nextHeader h = some h') : Fits h' := by
  have hcall := Rio.rioReadlineb_ok hf.rio h.fd MAXLINE
  unfold nextHeader at hnext
  generalize Rio.rioReadlineb h.rio h.fd MAXLINE = c at hcall hnext
  obtain ⟨ret, usrbuf, rp, fd⟩ := c
  cases ret with
  | none => cases hnext
  | some ret =>
    cases hnext
    exact ⟨hf.type, hcall.ok⟩

theorem Fits.read {turns : Nat} {h h' : Headers} (hf : Fits h) (hret : readRequesthdrs turns h = .returned h') : Fits h' :=
  readRequesthdrs_keeps (fun _ hf => hf.note) (fun _ _ hf hnext => hf.next hnext) turns hf hret

open Rio in
/-- The loop that receives the body does not write behind it. -/
theorem receiveLoop_le (contentLength rounds : Nat) : ∀ (body : Bytes) {rp : RioT} (fd : Fd) {got : Bytes}, rp.Ok →
    body.length ≤ contentLength → receiveLoop contentLength rounds body rp fd = some got → got.length ≤ contentLength := by
  induction rounds with
  | zero =>
    intro body rp fd got _ hle h
    cases h
    exact hle
  | succ rounds ih =>
    intro body rp fd got hok hle h
    simp only [receiveLoop] at h
    split at h
    · obtain ⟨hok', -⟩ := rioReadnb_ok hok fd (contentLength - body.length)
      obtain ⟨used, hlen, -⟩ := rioReadnb_spec hok fd (contentLength - body.length)
      generalize rioReadnb rp fd (contentLength - body.length) = c at h hok' hlen
      obtain ⟨ret, usrbuf, rp', fd'⟩ := c
      cases ret with
      | none => cases h
      | some n =>
        simp only at h hlen
        split at h
        · cases h
          exact hle
        · refine ih _ fd' hok' ?_ h
          rw [List.length_append, List.length_take]
          omega
    · cases h
      exact hle

/-- **A request**: what `read_requesthdrs` makes of `content_type`, and what of the body is received. -/
theorem request_in_bounds {turns : Nat} {h h' : Headers} (hf : Fits h) (hret : readRequesthdrs turns h = .returned h')
    (hmax : h'.contentLength ≤ MAX_UPLOAD) {body : Bytes}
    (hbody : receiveLoop h'.contentLength.toNat h'.contentLength.toNat [] h'.rio h'.fd = some body) :
    body.length ≤ h'.contentLength.toNat ∧ ∃ r, decodeChecked h'.contentType body = some r := by
  have hf' := hf.read hret
  have hle := receiveLoop_le _ _ [] h'.fd hf'.rio (Nat.zero_le _) hbody
  have hlt : body.length < 2 ^ 64 := by
    unfold MAX_UPLOAD at hmax
    omega
  obtain ⟨r, hr, -⟩ := decodeChecked_ok hf'.type hlt
  exact ⟨hle, r, hr⟩

end ComputerSystem.Tiny
