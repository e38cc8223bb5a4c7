import ComputerSystem.Rio.Lines
import ComputerSystem.Tiny.Upload
/-!
# A form with files, uploaded to Tiny

`encode` writes a `multipart/form-data` body from a boundary and the parts of a form; `serve_post`
(`Chapter11/tiny_web/tiny.c:338`) is to save the first part with a file name (`:331-332`). It takes
the first part apart correctly (`decode_encode`): the boundary is found at once, the first empty line
ends the headers, and no boundary is found before the end of the content. But it goes to no other
part, and it searches all headers of the part for `filename="`. `multipart_iff` says when that is the
file all the same.
-/

namespace ComputerSystem.Tiny

open Rio

/-! ## Forms -/

/-- No CR, no LF, no NUL. -/
def Text (l : Bytes) : Prop := (13 : UInt8) ∉ l ∧ (10 : UInt8) ∉ l ∧ (0 : UInt8) ∉ l

instance (l : Bytes) : Decidable (Text l) := inferInstanceAs (Decidable (_ ∧ _ ∧ _))

/-- What ends the content of a part. -/
def delimiter (B : Bytes) : Bytes := crlf ++ ascii "--" ++ B

/-- A part of a form: the parameters of its `Content-Disposition` (`name`, `filename`), the header
lines before and after it, and its content. -/
structure Part (B : Bytes) where
  before  : List Bytes
  params  : List (Bytes × Bytes)
  after   : List Bytes
  content : Bytes
  linesText   : ∀ l ∈ before ++ after, l ≠ [] ∧ Text l
  paramsText  : ∀ q ∈ params, Text q.1 ∧ Text q.2 ∧ quote ∉ q.1 ∧ quote ∉ q.2
  contentFree : ¬ delimiter B <:+: content

section
variable {B : Bytes}

def param (q : Bytes × Bytes) : Bytes := ascii "; " ++ q.1 ++ ascii "=\"" ++ q.2 ++ [quote]

def Part.disposition (p : Part B) : Bytes := ascii "Content-Disposition: form-data" ++ p.params.flatMap param

def Part.lines (p : Part B) : List Bytes := p.before ++ p.disposition :: p.after

/-- The file name; `[]` for a text field, and for a file field that was left empty. -/
def Part.filename (p : Part B) : Bytes := ((p.params.find? (·.1 = ascii "filename")).map (·.2)).getD []

def Part.encode (p : Part B) : Bytes :=
  ascii "--" ++ B ++ crlf ++ p.lines.flatMap (· ++ crlf) ++ crlf ++ p.content ++ crlf

def encode (parts : List (Part B)) : Bytes := parts.flatMap Part.encode ++ ascii "--" ++ B ++ ascii "--" ++ crlf

def contentType (B : Bytes) : Bytes := ascii "multipart/form-data; boundary=" ++ B

/-- A boundary that a `Content-Type` header has room for: `doit` keeps it in a `char [MAXLINE]`. -/
structure Token (B : Bytes) : Prop where
  text : Text B
  fits : (contentType B).length < MAXLINE

/-! ## One part taken apart -/

/-- The header lines of a part as `serve_post` sees them: from behind the boundary to `hdr_end`. -/
def Part.headers (p : Part B) : Bytes := p.lines.flatMap (crlf ++ ·)

theorem headers_shift (lines : List Bytes) :
    crlf ++ lines.flatMap (· ++ crlf) = lines.flatMap (crlf ++ ·) ++ crlf := by
  induction lines with
  | nil => rfl
  | cons l lines ih =>
    simp only [List.flatMap_cons, List.append_assoc]
    rw [ih]

theorem text_append {a b : Bytes} (ha : Text a) (hb : Text b) : Text (a ++ b) := by
  obtain ⟨ha1, ha2, ha3⟩ := ha
  obtain ⟨hb1, hb2, hb3⟩ := hb
  simp only [Text, List.mem_append, not_or]
  exact ⟨⟨ha1, hb1⟩, ⟨ha2, hb2⟩, ha3, hb3⟩

theorem disposition_text (p : Part B) : Text p.disposition := by
  have hparams : ∀ params : List (Bytes × Bytes), (∀ q ∈ params, Text q.1 ∧ Text q.2 ∧ quote ∉ q.1 ∧ quote ∉ q.2) →
      Text (params.flatMap param) := by
    intro params
    induction params with
    | nil => intro _; exact ⟨by simp, by simp, by simp⟩
    | cons q params ih =>
      intro h
      obtain ⟨hq1, hq2, -⟩ := h q (List.mem_cons_self ..)
      rw [List.flatMap_cons]
      apply text_append
      · exact text_append (text_append (text_append (text_append (by decide) hq1) (by decide)) hq2) (by decide)
      · exact ih fun q' hq' => h q' (List.mem_cons_of_mem _ hq')
  exact text_append (by decide) (hparams p.params p.paramsText)

theorem lines_text (p : Part B) : ∀ l ∈ p.lines, l ≠ [] ∧ Text l := by
  intro l hl
  rcases List.mem_append.1 hl with hl | hl
  · exact p.linesText l (List.mem_append_left _ hl)
  · rcases List.mem_cons.1 hl with rfl | hl
    · exact ⟨by simp [Part.disposition, ascii], disposition_text p⟩
    · exact p.linesText l (List.mem_append_right _ hl)

/-- No empty line starts at a header line. -/
theorem find_skip_line {l : Bytes} (hne : l ≠ []) (hcr : (13 : UInt8) ∉ l) (tail : Bytes) :
    find (crlf ++ crlf) (crlf ++ (l ++ tail)) = (find (crlf ++ crlf) tail).map (· + (crlf ++ l).length) := by
  have hline : find (crlf ++ crlf) (l ++ tail) = (find (crlf ++ crlf) tail).map (· + l.length) := find_skip tail hcr
  have hend : find (crlf ++ crlf) (crlf ++ (l ++ tail)) = (find (crlf ++ crlf) (l ++ tail)).map (· + crlf.length) := by
    obtain ⟨b, l', rfl⟩ := List.exists_cons_of_ne_nil hne
    apply find_skip_of
    rintro j hj ⟨post, hpost⟩
    match j, hj with
    | 0, _ =>
      simp only [crlf, List.drop_zero, List.cons_append, List.nil_append, List.cons.injEq] at hpost
      exact hcr (hpost.2.2.1 ▸ List.mem_cons_self ..)
    | 1, _ => simp [crlf] at hpost
  rw [hend, hline, Option.map_map]
  rfl

/-- The first empty line ends the headers. -/
theorem find_hdrEnd (lines : List Bytes) (content : Bytes) (h : ∀ l ∈ lines, l ≠ [] ∧ Text l) :
    find (crlf ++ crlf) (lines.flatMap (crlf ++ ·) ++ (crlf ++ crlf ++ content)) =
      some (lines.flatMap (crlf ++ ·)).length := by
  induction lines with
  | nil => exact find_of_prefix (List.prefix_append _ _)
  | cons l lines ih =>
    obtain ⟨hne, hcr, -⟩ := h l (List.mem_cons_self ..)
    have htail := ih fun l' hl' => h l' (List.mem_cons_of_mem _ hl')
    rw [List.flatMap_cons, List.append_assoc, List.append_assoc, find_skip_line hne hcr, htail]
    simp only [Option.map_some, List.length_append]
    congr 1
    omega

theorem encode_eq (p : Part B) (ps : List (Part B)) : ∃ next,
    encode (p :: ps) = ascii "--" ++ B ++ (p.headers ++ (crlf ++ crlf ++ (p.content ++ (delimiter B ++ next)))) := by
  have hnext : ∃ next, encode ps = ascii "--" ++ B ++ next := by
    cases ps with
    | nil => exact ⟨ascii "--" ++ crlf, by simp [encode]⟩
    | cons q qs =>
      refine ⟨crlf ++ (q.lines.flatMap (· ++ crlf) ++ (crlf ++ (q.content ++ (crlf ++ encode qs)))), ?_⟩
      simp only [encode, List.flatMap_cons, Part.encode, List.append_assoc]
  obtain ⟨next, hnext⟩ := hnext
  refine ⟨next, ?_⟩
  have hstep : encode (p :: ps) = p.encode ++ encode ps := by
    simp only [encode, List.flatMap_cons, List.append_assoc]
  have hshift := headers_shift p.lines
  calc encode (p :: ps)
      = ascii "--" ++ B ++ ((crlf ++ p.lines.flatMap (· ++ crlf)) ++ (crlf ++ (p.content ++ (crlf ++ encode ps)))) := by
        rw [hstep]
        simp only [Part.encode, List.append_assoc]
    _ = _ := by
        rw [hshift, hnext]
        simp only [Part.headers, delimiter, List.append_assoc]

/-- The content type is cut at its `boundary=`. -/
theorem find_boundary (B : Bytes) : find (ascii "boundary=") (contentType B) = some 21 := by
  have hct : contentType B = ascii "multipart/form-data; " ++ (ascii "boundary=" ++ B) := by
    simp only [contentType, ← List.append_assoc]
    rfl
  have hskip : find (ascii "boundary=") (ascii "multipart/form-data; " ++ (ascii "boundary=" ++ B)) =
      (find (ascii "boundary=") (ascii "boundary=" ++ B)).map (· + (ascii "multipart/form-data; ").length) :=
    find_skip _ (by decide)
  rw [hct, hskip, find_of_prefix (List.prefix_append _ _)]
  rfl

/-- **`serve_post` takes the first part**: its content, and what its headers give for a file name. -/
theorem decode_encode (hB : Token B) (p : Part B) (ps : List (Part B)) :
    decode (contentType B) (encode (p :: ps)) = ⟨headerFilename p.headers, p.content⟩ := by
  obtain ⟨next, henc⟩ := encode_eq p ps
  have hlen : (contentType B).length = 30 + B.length := by
    simp only [contentType, List.length_append]
    rfl
  have hfits := hB.fits
  rw [hlen] at hfits
  have hdrop : (contentType B).drop (21 + 9) = B := List.drop_left' rfl
  have hboundary : snprintf (ascii "--" ++ B) = ascii "--" ++ B := by
    apply snprintf_eq
    rw [List.length_append, show (ascii "--").length = 2 from rfl]
    omega
  have hsep : snprintf (crlf ++ (ascii "--" ++ B)) = delimiter B := by
    rw [← List.append_assoc]
    apply snprintf_eq
    rw [List.length_append, show (crlf ++ ascii "--").length = 4 from rfl]
    omega
  have hfirst : find (ascii "--" ++ B) (encode (p :: ps)) = some 0 := by
    rw [henc]
    exact find_of_prefix (List.prefix_append _ _)
  have hp : (encode (p :: ps)).drop (0 + (ascii "--" ++ B).length) =
      p.headers ++ (crlf ++ crlf ++ (p.content ++ (delimiter B ++ next))) := by
    rw [henc, Nat.zero_add]
    exact List.drop_left' rfl
  have hhdr := find_hdrEnd p.lines (p.content ++ (delimiter B ++ next)) (lines_text p)
  have hcend : find (delimiter B) (p.content ++ (delimiter B ++ next)) = some p.content.length := by
    apply find_append (r := 10 :: 45 :: 45 :: B)
    · intro hmem
      exact hB.text.1 (by simpa using hmem)
    · exact p.contentFree
  have hcstart : (p.headers ++ (crlf ++ crlf ++ (p.content ++ (delimiter B ++ next)))).drop (p.headers.length + 4) =
      p.content ++ (delimiter B ++ next) := by
    rw [← List.append_assoc]
    exact List.drop_left' (by rw [List.length_append]; rfl)
  simp only [decode, find_boundary, hdrop, hboundary, hfirst, hp, Part.headers] at hhdr hcstart ⊢
  rw [hhdr]
  simp only [hcstart, hsep, hcend]
  rw [List.take_left' rfl, List.take_left' rfl]

/-! ## The file name -/

/-- `name` stands behind the first `filename="` of the headers. -/
def Quoted (hdr name : Bytes) : Prop :=
  ∃ a b, find (ascii "filename=\"") hdr = some a.length ∧
    hdr = a ++ (ascii "filename=\"" ++ (name ++ ([quote] ++ b))) ∧ quote ∉ name ∧ name.length < MAXLINE

/-- What `headerFilename` finds is quoted. -/
theorem headerFilename_quoted {hdr : Bytes} (h : headerFilename hdr ≠ []) : Quoted hdr (headerFilename hdr) := by
  unfold headerFilename at h ⊢
  split at h
  · exact absurd rfl h
  · rename_i k hk
    obtain ⟨a, post, rfl, rfl⟩ := find_some hk
    have hfn : (a ++ (ascii "filename=\"" ++ post)).drop (a.length + 10) = post := by
      rw [← List.append_assoc]
      exact List.drop_left' (by rw [List.length_append]; rfl)
    simp only [hfn] at h ⊢
    split at h
    · exact absurd rfl h
    · rename_i n hn
      split at h
      · rename_i hlt
        obtain ⟨name, b, rfl, rfl⟩ := find_some hn
        simp only [if_pos hlt, List.take_left]
        exact ⟨a, b, hk, rfl, find_singleton hn, hlt⟩
      · exact absurd rfl h

theorem Quoted.headerFilename {hdr name : Bytes} (h : Quoted hdr name) : headerFilename hdr = name := by
  obtain ⟨a, b, hk, heq, hq, hlt⟩ := h
  have hfn : hdr.drop (a.length + 10) = name ++ ([quote] ++ b) := by
    rw [heq, ← List.append_assoc]
    exact List.drop_left' (by rw [List.length_append]; rfl)
  have hn : find [quote] (name ++ ([quote] ++ b)) = some name.length := by
    rw [find_skip _ hq, find_of_prefix (List.prefix_append _ _)]
    simp
  simp only [Tiny.headerFilename, hk, hfn, hn, if_pos hlt, List.take_left]

theorem headers_nul (p : Part B) : (0 : UInt8) ∉ p.headers := by
  intro hmem
  obtain ⟨l, hl, hmem⟩ := List.mem_flatMap.1 hmem
  obtain ⟨-, -, -, hnul⟩ := lines_text p l hl
  rcases List.mem_append.1 hmem with hmem | hmem
  · simp [crlf] at hmem
  · exact hnul hmem

/-- A file name from the headers of a part is a string. -/
theorem cstring_filename (p : Part B) : cstring (headerFilename p.headers) = headerFilename p.headers := by
  apply cstring_eq
  intro hmem
  have hne : headerFilename p.headers ≠ [] := List.ne_nil_of_mem hmem
  obtain ⟨a, b, -, heq, -⟩ := headerFilename_quoted hne
  apply headers_nul p
  rw [heq]
  simp [hmem]

/-! ## The whole request -/

theorem receiveLoop_prefix (contentLength rounds : Nat) : ∀ (body : Bytes) {rp : RioT} (fd : Fd) {got : Bytes}, rp.Ok →
    receiveLoop contentLength rounds body rp fd = some got → got <+: body ++ rest rp fd := by
  induction rounds with
  | zero =>
    intro body rp fd got _ h
    cases h
    exact List.prefix_append _ _
  | succ rounds ih =>
    intro body rp fd got hok h
    simp only [receiveLoop] at h
    split at h
    · have hcall := rioReadnb_ok hok fd (contentLength - body.length)
      have hcount := fun r => rioReadnb_count hok fd (contentLength - body.length) (r := r)
      generalize rioReadnb rp fd (contentLength - body.length) = c at h hcall hcount
      obtain ⟨ret, usrbuf, rp', fd'⟩ := c
      cases ret with
      | none => cases h
      | some n =>
        simp only at h
        split at h
        · cases h
          exact List.prefix_append _ _
        · rename_i hn
          have hlen := hcount n rfl (by omega)
          simp only at hlen
          have htake : usrbuf.take n.toNat = usrbuf := List.take_of_length_le (by omega)
          rw [htake] at h
          have hrest := ih _ fd' hcall.ok h
          rw [List.append_assoc, hcall.conserve] at hrest
          exact hrest
    · cases h
      exact List.prefix_append _ _

/-- The form is the body of the request; all of it is received, and nothing fails when it is stored. -/
structure FullyReceived (env : Env) (parts : List (Part B)) (rp : RioT) (fd : Fd) : Prop where
  fits     : (encode parts).length ≤ MAX_UPLOAD
  malloc   : env.malloc = true
  opened   : env.opened = true
  writes   : ∀ bs : Bytes, bs.length ≤ MAX_UPLOAD → (rioWriten env.writes bs).ret = some (bs.length : Int)
  rio      : rp.Ok
  stream   : encode parts <+: rest rp fd
  received : (receiveLoop (encode parts).length (encode parts).length [] rp fd).map List.length =
    some (encode parts).length

variable {env : Env} {rp : RioT} {fd : Fd}

theorem FullyReceived.body {parts : List (Part B)} (h : FullyReceived env parts rp fd) :
    receiveLoop (encode parts).length (encode parts).length [] rp fd = some (encode parts) := by
  obtain ⟨body, hloop, hlen⟩ := Option.map_eq_some_iff.1 h.received
  have hpre := receiveLoop_prefix _ _ [] fd h.rio hloop
  rw [List.nil_append] at hpre
  have heq : body <+: encode parts := List.prefix_of_prefix_length_le hpre h.stream (Nat.le_of_eq hlen)
  rw [hloop, heq.eq_of_length hlen]

/-- What a call of `serve_post` with the form does. -/
theorem servePost_eq (hB : Token B) {p : Part B} {ps : List (Part B)} (h : FullyReceived env (p :: ps) rp fd)
    (uri : Bytes) :
    servePost env uri (encode (p :: ps)).length (contentType B) rp fd =
      .saved (uploadPath (if headerFilename p.headers ≠ [] then headerFilename p.headers else uri)) p.content
        p.content.length := by
  have hfits := h.fits
  have hcontent : (p.content.length : Int) ≤ MAX_UPLOAD := by
    obtain ⟨next, henc⟩ := encode_eq p ps
    rw [henc] at hfits
    simp only [List.length_append] at hfits
    omega
  have hwrite := h.writes p.content hcontent
  have hsent : (rioWriten env.writes p.content).sent = p.content :=
    rioWritenLoop_sent p.content.length env.writes p.content [] hwrite (by omega)
  simp only [servePost, Int.toNat_natCast, h.body, h.malloc, h.opened, decode_encode hB, cstring_filename, hwrite,
    hsent]
  rw [if_neg (by omega), if_neg (by omega)]
  rfl

/-! ## When the first part is the file -/

/-- `upload_path` makes of `name` what it is to make of `filename`: the path has room for so many
bytes behind `./uploads/`. -/
def SameName (name filename : Bytes) : Prop := (uploadName name).take (MAXLINE - 11) = uploadName filename

instance (name filename : Bytes) : Decidable (SameName name filename) := inferInstanceAs (Decidable (_ = _))

theorem uploadPath_eq (name filename : Bytes) :
    uploadPath name = UPLOAD_DIR ++ [slash] ++ uploadName filename ↔ SameName name filename := by
  rw [uploadPath_cut, SameName]
  exact List.append_right_inj _

/-- The first part stands for the file `f`: it has the content, and the first quoted file name in its
headers is the name; the URI is, when there is none or it is empty or too long. -/
def StandsFor (uri : Bytes) (p f : Part B) : Prop :=
  p.content = f.content ∧
  ((∃ name, name ≠ [] ∧ Quoted p.headers name ∧ SameName name f.filename) ∨
    ((∀ name, Quoted p.headers name → name = []) ∧ SameName uri f.filename))

theorem standsFor_iff {uri : Bytes} {p f : Part B} : StandsFor uri p f ↔ p.content = f.content ∧
    SameName (if headerFilename p.headers ≠ [] then headerFilename p.headers else uri) f.filename := by
  unfold StandsFor
  by_cases hne : headerFilename p.headers ≠ []
  · rw [if_pos hne]
    constructor
    · rintro ⟨hc, ⟨name, -, hq, hsame⟩ | ⟨hno, -⟩⟩
      · exact ⟨hc, hq.headerFilename ▸ hsame⟩
      · exact absurd (hno _ (headerFilename_quoted hne)) hne
    · rintro ⟨hc, hsame⟩
      exact ⟨hc, .inl ⟨_, hne, headerFilename_quoted hne, hsame⟩⟩
  · rw [if_neg hne]
    have hnil : headerFilename p.headers = [] := not_not.1 hne
    constructor
    · rintro ⟨hc, ⟨name, hname, hq, -⟩ | ⟨-, hsame⟩⟩
      · exact absurd (hq.headerFilename.symm.trans hnil) hname
      · exact ⟨hc, hsame⟩
    · rintro ⟨hc, hsame⟩
      exact ⟨hc, .inr ⟨fun name hq => hq.headerFilename.symm.trans hnil, hsame⟩⟩

/-- The headers of `p` before the file name. -/
def Part.ahead (p : Part B) : Bytes :=
  p.before.flatMap (crlf ++ ·) ++ crlf ++ ascii "Content-Disposition: form-data" ++
    (p.params.takeWhile (·.1 ≠ ascii "filename")).flatMap param ++ ascii "; "

/-- The file name is the value of the first parameter `filename`. -/
theorem filename_param {p : Part B} (hne : p.filename ≠ []) :
    ∃ q, p.params.find? (·.1 = ascii "filename") = some q ∧ p.filename = q.2 := by
  cases hfind : p.params.find? (·.1 = ascii "filename") with
  | none => exact absurd (by simp [Part.filename, hfind]) hne
  | some q => exact ⟨q, rfl, by simp [Part.filename, hfind]⟩

theorem headers_split {p : Part B} (hne : p.filename ≠ []) :
    ∃ b, p.headers = p.ahead ++ (ascii "filename=\"" ++ (p.filename ++ ([quote] ++ b))) := by
  obtain ⟨q, hfind, hF⟩ := filename_param hne
  obtain ⟨hq, as, bs, hparams, has⟩ := List.find?_eq_some_iff_append.1 hfind
  have hattr : q.1 = ascii "filename" := by simpa using hq
  have htake : p.params.takeWhile (·.1 ≠ ascii "filename") = as := by
    rw [hparams, List.takeWhile_append_of_pos (by simpa using has), List.takeWhile_cons_of_neg (by simpa using hattr),
      List.append_nil]
  refine ⟨bs.flatMap param ++ p.after.flatMap (crlf ++ ·), ?_⟩
  rw [Part.ahead, htake, hF]
  simp only [Part.headers, Part.lines, Part.disposition, hparams, List.flatMap_append, List.flatMap_cons, param, hattr,
    List.append_assoc]
  rfl

/-- A part whose own file name is the first in its headers. -/
theorem quoted_own {p : Part B} (hne : p.filename ≠ []) (hfree : ¬ ascii "filename=\"" <:+: p.ahead)
    (hlen : p.filename.length < MAXLINE) : Quoted p.headers p.filename := by
  obtain ⟨b, hb⟩ := headers_split hne
  have hquote : quote ∉ p.filename := by
    obtain ⟨q, hfind, hF⟩ := filename_param hne
    rw [hF]
    exact (p.paramsText q (List.mem_of_find?_eq_some hfind)).2.2.2
  refine ⟨p.ahead, b, ?_, hb, hquote, hlen⟩
  rw [hb]
  exact find_append (c := 102) (r := ascii "ilename=\"") (by decide) _ hfree

/-- **A form whose first part is a file**: the file is stored under its name. -/
theorem first_part_saved (hB : Token B) {p : Part B} {ps : List (Part B)} (h : FullyReceived env (p :: ps) rp fd)
    (uri : Bytes) (hne : p.filename ≠ []) (hfree : ¬ ascii "filename=\"" <:+: p.ahead)
    (hlen : p.filename.length < MAXLINE) (hfits : (uploadName p.filename).length ≤ MAXLINE - 11) :
    servePost env uri (encode (p :: ps)).length (contentType B) rp fd =
      .saved (UPLOAD_DIR ++ [slash] ++ uploadName p.filename) p.content p.content.length := by
  have hsame : SameName p.filename p.filename := List.take_of_length_le hfits
  rw [servePost_eq hB h, (quoted_own hne hfree hlen).headerFilename, if_pos hne, (uploadPath_eq _ _).2 hsame]

/-- **A form is decoded if and only if its first part stands for its first file.** `f` is the first part
with a file name. -/
theorem multipart_iff (hB : Token B) {p : Part B} {ps : List (Part B)} {f : Part B}
    (_hf : (p :: ps).find? (·.filename ≠ []) = some f) (h : FullyReceived env (p :: ps) rp fd) (uri : Bytes) :
    servePost env uri (encode (p :: ps)).length (contentType B) rp fd =
      .saved (UPLOAD_DIR ++ [slash] ++ uploadName f.filename) f.content f.content.length ↔ StandsFor uri p f := by
  rw [servePost_eq hB h, standsFor_iff, ← uploadPath_eq]
  constructor
  · intro heq
    simp only [Posted.saved.injEq] at heq
    exact ⟨heq.2.1, heq.1⟩
  · rintro ⟨hc, hpath⟩
    rw [hpath, hc]

end

/-- A file `a` with the one byte `1`. -/
def filePart : Part (ascii "X") where
  before := []
  params := [(ascii "name", ascii "f"), (ascii "filename", ascii "a")]
  after := []
  content := ascii "1"
  linesText := by decide
  paramsText := by decide
  contentFree := by decide

/-- A text field `t` with the text `hi`. -/
def textPart : Part (ascii "X") where
  before := []
  params := [(ascii "name", ascii "t")]
  after := []
  content := ascii "hi"
  linesText := by decide
  paramsText := by decide
  contentFree := by decide

/-- Nothing fails, and one `write(2)` takes everything. -/
def calmEnv : Env := ⟨true, true, [.count (64 * 1024 * 1024)]⟩

/-- A body that comes with one `read(2)`. -/
def bodyFd (body : Bytes) : Fd := ⟨body, [.count RIO_BUFSIZE]⟩

theorem calmEnv_writes (bs : Bytes) (h : bs.length ≤ MAX_UPLOAD) :
    (rioWriten calmEnv.writes bs).ret = some (bs.length : Int) := by
  have hle : bs.length ≤ 64 * 1024 * 1024 := by
    unfold MAX_UPLOAD at h
    omega
  by_cases hne : bs = []
  · rw [hne]
    rfl
  · show (rioWritenLoop bs.length [.count (64 * 1024 * 1024)] bs []).ret = _
    rw [write_all (by decide) hne (List.drop_eq_nil_iff.2 hle)]

theorem stream_bodyFd (body : Bytes) : body <+: rest (rioInitb zeroRio) (bodyFd body) := by
  rw [rest, rioInitb_window]
  exact List.prefix_rfl

theorem multipart_iff_file :
    servePost calmEnv (ascii "/up") (encode [filePart]).length (contentType (ascii "X")) (rioInitb zeroRio)
      (bodyFd (encode [filePart])) = .saved (ascii "./uploads/a") (ascii "1") 1 := by
  have hreceived : FullyReceived calmEnv [filePart] (rioInitb zeroRio) (bodyFd (encode [filePart])) :=
    ⟨by decide +kernel, rfl, rfl, calmEnv_writes, rioInitb_ok zeroRio, stream_bodyFd _, by decide +kernel⟩
  have hstands : StandsFor (ascii "/up") filePart filePart :=
    ⟨rfl, .inl ⟨ascii "a", by decide, quoted_own (by decide) (by decide +kernel) (by decide), by decide +kernel⟩⟩
  exact (multipart_iff ⟨by decide, by decide +kernel⟩ rfl hreceived (ascii "/up")).2 hstands

/-- A text field in front of the file: the text is stored, under the name from the URI. -/
theorem text_field_first :
    FullyReceived calmEnv [textPart, filePart] (rioInitb zeroRio) (bodyFd (encode [textPart, filePart])) ∧
    [textPart, filePart].find? (·.filename ≠ []) = some filePart ∧
    servePost calmEnv (ascii "/up") (encode [textPart, filePart]).length (contentType (ascii "X")) (rioInitb zeroRio)
      (bodyFd (encode [textPart, filePart])) = .saved (ascii "./uploads/up") (ascii "hi") 2 ∧
    servePost calmEnv (ascii "/up") (encode [textPart, filePart]).length (contentType (ascii "X")) (rioInitb zeroRio)
      (bodyFd (encode [textPart, filePart])) ≠
        .saved (UPLOAD_DIR ++ [slash] ++ uploadName filePart.filename) filePart.content filePart.content.length :=
  ⟨⟨by decide +kernel, rfl, rfl, calmEnv_writes, rioInitb_ok zeroRio, stream_bodyFd _, by decide +kernel⟩, rfl,
    by decide +kernel, by decide +kernel⟩

end ComputerSystem.Tiny
