import ComputerSystem.Tiny.Multipart
import ComputerSystem.Tiny.Server
/-!
# Tiny as a store of files

A client puts a file under a name, with a PUT, a POST or a form, and gets it back by `/uploads/` and the
name. `Request.apply` and `Request.answer` say what that means: a name has the last file that was put under
it. `store_refines` says that the server does just this, one connection after the other, whatever it is
asked for in between, however the bytes of a request are cut up, and whichever header lines come with it.

A name with `cgi-bin` in it can be put but not be got: `parse_uri` takes its URI for a program, and the
file is not executable.
-/

namespace ComputerSystem.Tiny

open Rio

def NAME_MAX : Nat := 255

def question : UInt8 := 63

/-- What can stand as one component in a URI, and name a file. -/
structure Name where
  bytes : Bytes
  word  : Word bytes
  clean : ∀ b ∈ bytes, b ≠ 0 ∧ b ≠ slash ∧ b ≠ question
  dots  : bytes ≠ ascii "." ∧ bytes ≠ ascii ".."
  short : bytes.length ≤ NAME_MAX

def Name.path (n : Name) : Bytes := UPLOAD_DIR ++ [slash] ++ n.bytes

/-! ## What is asked for, and what it means -/

/-- A form whose first part is the file. -/
structure Form (name : Name) where
  boundary : Bytes
  token    : Token boundary
  file     : Part boundary
  others   : List (Part boundary)
  named    : file.filename = name.bytes
  first    : ¬ ascii "filename=\"" <:+: file.ahead

inductive Request
  | put (name : Name) (file : Bytes)
  | post (name : Name) (file : Bytes)
  | form (name : Name) (f : Form name)
  | get (name : Name)

inductive Answer
  | stored (status : Bytes) (name : Name) (length : Nat)
  | content (file : Bytes)
  | missing (name : Name)
  | forbidden (name : Name)

/-- The last file of each name. -/
abbrev Stock := Bytes → Option Bytes

def Request.apply (stock : Stock) : Request → Stock
  | .put name file | .post name file => Function.update stock name.bytes (some file)
  | .form name f => Function.update stock name.bytes (some f.file.content)
  | .get _ => stock

def Request.answer (stock : Stock) : Request → Answer
  | .put name file => .stored (ascii "201 Created") name file.length
  | .post name file => .stored (ascii "200 OK") name file.length
  | .form name f => .stored (ascii "200 OK") name f.file.content.length
  | .get name => match stock name.bytes with
    | none => .missing name
    | some file => if find (ascii "cgi-bin") name.bytes = none then .content file else .forbidden name

/-- `none` is a connection with something else. -/
def answers (stock : Stock) : List (Option Request) → Stock × List (Option Answer)
  | [] => (stock, [])
  | none :: rs => ((answers stock rs).1, none :: (answers stock rs).2)
  | some r :: rs => ((answers (r.apply stock) rs).1, some (r.answer stock) :: (answers (r.apply stock) rs).2)

/-! ## On the connection -/

def Request.method : Request → Bytes
  | .put _ _ => ascii "PUT"
  | .post _ _ | .form _ _ => ascii "POST"
  | .get _ => ascii "GET"

def Request.uri : Request → Bytes
  | .put name _ | .post name _ | .form name _ => slash :: name.bytes
  | .get name => slash :: (ascii "uploads" ++ slash :: name.bytes)

def Request.body : Request → Bytes
  | .put _ file | .post _ file => file
  | .form _ f => encode (f.file :: f.others)
  | .get _ => []

def Request.words (r : Request) : Bytes := r.method ++ 32 :: (r.uri ++ 32 :: ascii "HTTP/1.0\r")

/-- An upload says how long its body is, a POST also what it is; neither is too large. -/
def Request.Announced (length : Option Int) (type : Option Bytes) : Request → Prop
  | .put _ file => length = some (file.length : Int) ∧ (file.length : Int) ≤ INT_MAX
  | .post _ file => length = some (file.length : Int) ∧ (file.length : Int) ≤ MAX_UPLOAD ∧
    find (ascii "boundary=") (type.getD []) = none
  | .form _ f => length = some ((encode (f.file :: f.others)).length : Int) ∧
    ((encode (f.file :: f.others)).length : Int) ≤ MAX_UPLOAD ∧ type = some (contentType f.boundary)
  | .get _ => True

/-- The request with these header lines, and calls that do not fail. -/
structure Carries (r : Request) (lines : List HeaderLine) (c : Conn) : Prop where
  sent      : ∃ more, c.fd.unread = r.words ++ newline :: (headerBlock lines ++ (r.body ++ more))
  harmless  : CutsHarmless lines
  announced : r.Announced (lastValue lengthValue (lines.map HeaderLine.bytes))
    (lastValue typeValue (lines.map HeaderLine.bytes))
  reads     : NoReadFails c.fd.sched
  malloc    : c.env.malloc = true
  opened    : c.env.opened = true
  writes    : NoWriteFails c.env.writes
  answers   : NoWriteFails c.answers

/-- A connection that asks for no upload. -/
def Idle (c : Conn) : Prop := ∀ method, requestMethod c.line = some method →
  equalFold method (ascii "PUT") = false ∧ equalFold method (ascii "POST") = false

def Brings (c : Conn) : Option Request → Prop
  | some r => ∃ lines, Carries r lines c
  | none => Idle c

def Answer.Sent (sent : Bytes) : Answer → Prop
  | .stored status name length => ∃ bufs, (Response.upload status name.path length).buffers = some bufs ∧
    sent = bufs.flatten
  | .content file => ascii "HTTP/1.0 200 OK\r\n" <+: sent ∧ receive sent = some ⟨[some file.length], file⟩
  | .missing name => ∃ bufs, sent = bufs.flatten ∧
    (Response.error name.path (ascii "404") (ascii "Not found") (ascii "Tiny couldn't find this file")).buffers = some bufs
  | .forbidden name => ∃ bufs, sent = bufs.flatten ∧
    (Response.error name.path (ascii "403") (ascii "Forbidden") (ascii "Tiny couldn't run the CGI program")).buffers =
      some bufs

/-- The upload directory has the stock. -/
structure Holds (cwd : List Bytes) (disk : Disk) (stock : Stock) : Prop where
  files : ∀ name : Name, disk (cwd ++ [ascii "uploads", name.bytes]) = (stock name.bytes).map File.created
  fits  : ∀ name file, stock name = some file → (file.length : Int) ≤ INT_MAX

/-- How `doit` ends. -/
def Request.ends (stock : Stock) : Request → DoitEnd
  | .put name file | .post name file => .uploaded (.saved name.path file file.length)
  | .form name f => .uploaded (.saved name.path f.file.content f.file.content.length)
  | .get name => .served <| match stock name.bytes with
    | none => .clienterror name.path (ascii "404") (ascii "Not found") (ascii "Tiny couldn't find this file")
    | some file =>
      if find (ascii "cgi-bin") name.bytes = none then .static name.path file.length
      else .clienterror name.path (ascii "403") (ascii "Forbidden") (ascii "Tiny couldn't run the CGI program")

/-! ## Names -/

theorem Name.contained (n : Name) : Contained n.path n.bytes where
  below := rfl
  ne_nil := n.word.1
  single := fun hmem => (n.clean _ hmem).2.1 rfl
  dot := n.dots.1
  dotdot := n.dots.2
  nul := by
    simp only [Name.path, List.mem_append, not_or]
    exact ⟨by decide, fun hmem => (n.clean _ hmem).1 rfl⟩
  fits := by
    have hdir : (UPLOAD_DIR ++ [slash]).length = 10 := rfl
    have hshort := n.short
    rw [Name.path, List.length_append, hdir]
    unfold NAME_MAX at hshort
    unfold MAXLINE
    omega

theorem Name.resolve (n : Name) (cwd : List Bytes) : Tiny.resolve cwd n.path = cwd ++ [ascii "uploads", n.bytes] :=
  contained_resolve n.contained cwd

/-- `upload_path` makes the same of a name and of the URI with it. -/
theorem Name.uploadName (n : Name) {s : Bytes} (hs : s = n.bytes ∨ s = slash :: n.bytes) : Tiny.uploadName s = n.bytes := by
  have hall : ∀ b ∈ n.bytes.reverse, decide (b ≠ slash) = true := fun b hb =>
    decide_eq_true (n.clean b (List.mem_reverse.1 hb)).2.1
  have hbase : basename s = n.bytes := by
    rcases hs with rfl | rfl
    · rw [basename, List.takeWhile_eq_self_iff.2 hall, List.reverse_reverse]
    · rw [basename, List.reverse_cons, List.takeWhile_append_of_pos hall, List.takeWhile_cons_of_neg (by simp),
        List.append_nil, List.reverse_reverse]
  unfold Tiny.uploadName
  simp only [hbase]
  rw [if_neg]
  rintro (h | h | h)
  · exact n.word.1 h
  · exact n.dots.1 h
  · exact n.dots.2 h

theorem Name.uploadPath (n : Name) {s : Bytes} (hs : s = n.bytes ∨ s = slash :: n.bytes) : Tiny.uploadPath s = n.path := by
  have hfits := n.contained.fits
  rw [Tiny.uploadPath, n.uploadName hs]
  exact snprintf_eq hfits

theorem find_getUri (n : Name) : find (ascii "cgi-bin") (Request.get n).uri = (find (ascii "cgi-bin") n.bytes).map (· + 9) := by
  have hcut : (Request.get n).uri = ascii "/uploads/" ++ n.bytes := by
    have hdir : ascii "/uploads/" = slash :: (ascii "uploads" ++ [slash]) := by decide
    rw [hdir, List.cons_append, List.append_assoc]
    rfl
  rw [hcut]
  exact find_skip (r := ascii "gi-bin") n.bytes (by decide)

/-- `parse_uri` finds the file, and takes it for a program when `cgi-bin` is in the name. -/
theorem parseUri_get (n : Name) : (parseUri (Request.get n).uri).filename = n.path ∧
    ((parseUri (Request.get n).uri).isStatic = true ↔ find (ascii "cgi-bin") n.bytes = none) := by
  have hdot : ascii "." ++ (Request.get n).uri = n.path := by
    have hdir : UPLOAD_DIR ++ [slash] = ascii "." ++ slash :: (ascii "uploads" ++ [slash]) := by decide
    rw [Name.path, hdir]
    simp [Request.uri]
  have hfind := find_getUri n
  unfold parseUri
  cases hn : find (ascii "cgi-bin") n.bytes with
  | none =>
    rw [hn, Option.map_none] at hfind
    have hlast : (Request.get n).uri.getLast? ≠ some 47 := by
      obtain ⟨b, init, hb⟩ : ∃ b init, n.bytes = init ++ [b] :=
        ⟨n.bytes.getLast n.word.1, n.bytes.dropLast, (List.dropLast_concat_getLast n.word.1).symm⟩
      have hne := (n.clean b (by rw [hb]; simp)).2.1
      have huri : (Request.get n).uri = slash :: (ascii "uploads" ++ slash :: init) ++ [b] := by
        simp [Request.uri, hb]
      rw [huri, List.getLast?_concat]
      exact fun h => hne (Option.some.inj h)
    simp only [hfind, if_neg hlast, List.append_nil]
    exact ⟨hdot, by simp⟩
  | some k =>
    rw [hn, Option.map_some] at hfind
    have hall : ∀ b ∈ (Request.get n).uri, decide (b ≠ 63) = true := by
      intro b hb
      apply decide_eq_true
      simp only [Request.uri, List.mem_cons, List.mem_append] at hb
      rcases hb with rfl | hb | rfl | hb
      · decide
      · rintro rfl
        revert hb
        decide
      · decide
      · exact (n.clean b hb).2.2
    simp only [hfind, List.takeWhile_eq_self_iff.2 hall]
    exact ⟨hdot, by simp⟩

/-! ## The request line -/

theorem Request.method_word (r : Request) : Word r.method ∧ (0 : UInt8) ∉ r.method ∧ r.method.length ≤ 4 := by
  cases r <;> exact ⟨⟨by simp only [Request.method]; decide, by simp only [Request.method]; decide⟩,
    by simp only [Request.method]; decide, by simp only [Request.method]; decide⟩

theorem Request.uri_word (r : Request) : Word r.uri ∧ (0 : UInt8) ∉ r.uri ∧ r.uri.length ≤ 9 + NAME_MAX := by
  have hslash : (!isSpace slash) = true := by decide
  have hname : ∀ name : Name, Word (slash :: name.bytes) ∧ (0 : UInt8) ∉ slash :: name.bytes ∧
      (slash :: name.bytes).length ≤ 9 + NAME_MAX := by
    intro name
    have hshort := name.short
    refine ⟨⟨List.cons_ne_nil _ _, by simp [hslash, name.word.2]⟩, ?_, by rw [List.length_cons]; omega⟩
    rw [List.mem_cons, not_or]
    exact ⟨by decide, fun hmem => (name.clean _ hmem).1 rfl⟩
  cases r with
  | put name file => exact hname name
  | post name file => exact hname name
  | form name f => exact hname name
  | get name =>
    have hdir : (ascii "uploads").all (!isSpace ·) = true := by decide
    have hlen : (ascii "uploads").length = 7 := rfl
    have hshort := name.short
    refine ⟨⟨List.cons_ne_nil _ _, ?_⟩, ?_, ?_⟩
    · simp only [Request.uri, List.all_cons, List.all_append, hslash, hdir, name.word.2]
      rfl
    · simp only [Request.uri, List.mem_cons, List.mem_append, not_or]
      exact ⟨by decide, by decide, by decide, fun hmem => (name.clean _ hmem).1 rfl⟩
    · simp only [Request.uri, List.length_cons, List.length_append, hlen]
      omega

/-- It has neither a NUL nor a second end, and comes whole. -/
theorem Request.words_clean (r : Request) : newline ∉ r.words ∧ (0 : UInt8) ∉ r.words ∧ r.words.length + 1 ≤ MAXLINE - 1 := by
  have hspace : ∀ {w : Bytes}, Word w → newline ∉ w := by
    intro w hw hmem
    have := List.all_eq_true.1 hw.2 _ hmem
    revert this
    decide
  obtain ⟨hmethod, hmethod0, hmethodlen⟩ := r.method_word
  obtain ⟨huri, huri0, hurilen⟩ := r.uri_word
  have hversion : (ascii "HTTP/1.0\r").length = 9 := rfl
  refine ⟨?_, ?_, ?_⟩
  · simp only [Request.words, List.mem_cons, List.mem_append, not_or]
    exact ⟨hspace hmethod, by decide, hspace huri, by decide, by decide⟩
  · simp only [Request.words, List.mem_cons, List.mem_append, not_or]
    exact ⟨hmethod0, by decide, huri0, by decide, by decide⟩
  · simp only [Request.words, List.length_append, List.length_cons, hversion]
    unfold NAME_MAX at hurilen
    unfold MAXLINE
    omega

/-! ## How `doit` ends -/

section
variable {r : Request} {lines : List HeaderLine} {c : Conn} {cwd : List Bytes} {disk : Disk} {stock : Stock}

/-- Some calls did not come back, or the turns were not enough. -/
def Starved (c : Conn) : Prop :=
  Short c ∨ reads c.fd.sched ≤ 3 * c.fd.unread.length ∨ writes c.env.writes < c.fd.unread.length

/-- The calls were not enough for the body. -/
def Few (h : Headers) (env : Env) (body : Bytes) : Prop :=
  body ≠ [] ∧ (Rio.answers h.fd.sched ≤ 2 * body.length ∨ writes env.writes < body.length)

theorem reads_le_answers (sched : List ReadOutcome) : reads sched ≤ Rio.answers sched := by
  refine List.countP_mono_left fun o _ ho => ?_
  cases o with
  | count k => rfl
  | eintr | error => cases ho

/-- `doit` waits, or it answers the request. -/
theorem Carries.doit (h : Carries r lines c) (cwd : List Bytes) (disk : Disk) :
    c.doit cwd disk = .blocked ∧ Short c ∨ ∃ more a hdr, c.doit cwd disk = Tiny.answer c.env (disk.stat cwd) a hdr ∧
      requestMethod c.line = some r.method ∧ a.method.string = some r.method ∧ a.uri.string = some r.uri ∧ Parsed c lines (r.body ++ more) hdr ∧
      (Few hdr c.env r.body → Starved c) := by
  obtain ⟨more, hsent⟩ := h.sent
  obtain ⟨hnl, h0, hlen⟩ := r.words_clean
  rcases doit_request h.reads r.method_word.1 r.uri_word.1 h.harmless hnl h0 hlen hsent cwd disk with
    hwaits | ⟨a, hdr, hanswer, hline, hm, hu, hparsed⟩
  · exact .inl hwaits
  · refine .inr ⟨more, a, hdr, hanswer, hline, hm, hu, hparsed, ?_⟩
    rintro ⟨hne, hfew⟩
    have hlength : r.body.length ≤ c.fd.unread.length := by
      simp only [hsent, List.length_append, List.length_cons]
      omega
    have hspare := hparsed.fresh.spare (by
      rw [hparsed.rest]
      exact fun hnil => hne (List.append_eq_nil_iff.1 hnil).1)
    have hreads := reads_le_answers hdr.fd.sched
    rcases hfew with hfew | hfew
    · exact .inr (.inl (by omega))
    · exact .inr (.inr (by omega))

/-- **PUT** takes the body that was announced. -/
theorem put_saved (uri : Bytes) {body more : Bytes} {hdr : Headers} {env : Env} (hready : Ready hdr)
    (hrest : rest hdr.rio hdr.fd = body ++ more) (hlength : hdr.contentLength = body.length) (hopened : env.opened = true)
    (hwrites : NoWriteFails env.writes) :
    servePut env uri hdr.contentLength hdr.rio hdr.fd = .blocked ∧ Few hdr env body ∨
    servePut env uri hdr.contentLength hdr.rio hdr.fd = .saved (uploadPath uri) body body.length := by
  have hnonneg : 0 ≤ hdr.contentLength := by omega
  rcases servePut_cases env uri hdr.contentLength hdr.rio hdr.fd with
    ⟨hneg, -⟩ | ⟨-, ⟨hclosed, -⟩ | hwaits | ⟨t, ht, hsaved⟩⟩
  · omega
  · rw [hopened] at hclosed
    cases hclosed
  · left
    refine ⟨hwaits, ?_⟩
    -- otherwise the loop would have come to its end
    have hnone : transfer env hdr.contentLength hdr.rio hdr.fd = none := by
      cases ht : transfer env hdr.contentLength hdr.rio hdr.fd with
      | none => rfl
      | some t =>
        simp only [servePut, hopened, ht] at hwaits
        rw [if_neg (by omega)] at hwaits
        cases hwaits
    by_contra hfew
    have hback : ∃ t, transfer env hdr.contentLength hdr.rio hdr.fd = some t := by
      by_cases hnil : body = []
      · rw [hnil, List.length_nil] at hlength
        exact ⟨_, transferLoop_done (by simp only [hlength]; decide) _⟩
      · obtain ⟨hanswers, hback⟩ := not_or.1 fun h => hfew ⟨hnil, h⟩
        obtain ⟨t, ht⟩ := transferLoop_returns hdr.contentLength.toNat
          (t := putStart hdr.contentLength hdr.rio hdr.fd env.writes) (Nat.le_refl _) hready.ok hwrites
          (by simp only [putStart]; omega) (by simp only [putStart]; omega)
        exact ⟨t, ht _ (Nat.le_refl _)⟩
    obtain ⟨t, ht⟩ := hback
    rw [hnone] at ht
    cases ht
  · right
    obtain ⟨taken, lost, used, hstreamed, hend⟩ := transferLoop_streamed hdr.contentLength.toNat
      (t := putStart hdr.contentLength hdr.rio hdr.fd env.writes) hready.ok hwrites hnonneg ht
    have hused : NoReadFails used := by
      intro o ho
      exact hready.no o (hstreamed.sched ▸ List.mem_append_left _ ho)
    obtain ⟨rfl, hdone⟩ := hend (Nat.le_refl _) hused
    have hfile : t.file = taken := hstreamed.file
    have hremaining : t.remaining = hdr.contentLength - taken.length := hstreamed.remaining
    have hconserve : taken ++ rest t.rio t.fd = body ++ more := hstreamed.conserve.trans hrest
    have hfew : taken.length + 0 ≤ hdr.contentLength.toNat := hstreamed.few
    -- it stops at the length that was announced
    have htaken : taken = body := by
      have hlen := congrArg List.length hconserve
      rw [List.length_append, List.length_append] at hlen
      have hsame : taken.length = body.length := by
        rcases hdone with hzero | hnil
        · omega
        · rw [hnil, List.length_nil] at hlen
          omega
      exact (List.append_inj hconserve hsame).1
    rw [hsaved, hfile, htaken, hremaining, htaken]
    congr 1
    omega

/-- One `rio_readnb` is enough. -/
theorem receive_body {body more : Bytes} {rp : RioT} {fd : Fd} (hok : rp.Ok) (hno : NoReadFails fd.sched)
    (hrest : rest rp fd = body ++ more) :
    (receiveLoop body.length body.length [] rp fd = none ∧ body ≠ [] ∧ Rio.answers fd.sched ≤ body.length) ∨
      receiveLoop body.length body.length [] rp fd = some body := by
  cases hn : body.length with
  | zero =>
    right
    rw [List.length_eq_zero_iff.1 hn]
    rfl
  | succ n =>
    obtain ⟨-, hcons⟩ := rioReadnb_ok hok fd (n + 1)
    obtain ⟨used, hfew, hused, hend⟩ := rioReadnb_spec hok fd (n + 1)
    simp only [receiveLoop, List.length_nil, Nat.sub_zero, Nat.succ_pos, if_true]
    generalize rioReadnb rp fd (n + 1) = call at hcons hfew hused hend
    obtain ⟨ret, usrbuf, rp', fd'⟩ := call
    simp only at hcons hfew hused hend
    have hclean : NoReadFails used := fun o ho => hno o (hused ▸ List.mem_append_left _ ho)
    rcases hend with ⟨rfl, hnil, hanswers⟩ | ⟨-, ⟨-, hbad⟩ | ⟨rfl, hwhole⟩⟩
    · left
      rw [hnil, List.append_nil] at hused
      rw [hused] at hanswers
      exact ⟨rfl, List.ne_nil_of_length_eq_add_one hn, by omega⟩
    · exact absurd hclean hbad
    · right
      have hlen := congrArg List.length hcons
      rw [hrest, List.length_append, List.length_append] at hlen
      have hsame : usrbuf.length = body.length := by
        rcases hwhole hclean with hall | hnil
        · omega
        · rw [hnil, List.length_nil] at hlen
          omega
      have hbuf : usrbuf = body := (List.append_inj (hcons.trans hrest) hsame).1
      have hpos : ¬ (body.length : Int) ≤ 0 := by omega
      simp only [hbuf, if_neg hpos, List.nil_append, Int.toNat_natCast, List.take_length]
      cases n with
      | zero => rfl
      | succ n => rw [receiveLoop, if_neg (by omega)]

/-- **POST** takes it too, and saves what it decodes. -/
theorem post_saved (uri t : Bytes) {body more : Bytes} {hdr : Headers} {env : Env} (hready : Ready hdr)
    (hrest : rest hdr.rio hdr.fd = body ++ more) (hlength : hdr.contentLength = body.length)
    (hmax : (body.length : Int) ≤ MAX_UPLOAD) (hmalloc : env.malloc = true) (hopened : env.opened = true)
    (hwrites : NoWriteFails env.writes) :
    servePost env uri hdr.contentLength t hdr.rio hdr.fd = .blocked ∧ Few hdr env body ∨
    servePost env uri hdr.contentLength t hdr.rio hdr.fd =
      .saved (uploadPath (if cstring (decode t body).filename ≠ [] then cstring (decode t body).filename else uri))
        (decode t body).content (decode t body).content.length := by
  simp only [servePost, hlength, Int.toNat_natCast, hmalloc, hopened]
  rw [if_neg (by omega), if_neg (by omega)]
  rcases receive_body hready.ok hready.no hrest with ⟨hwaits, hne, hfew⟩ | hbody
  · rw [hwaits]
    exact .inl ⟨rfl, hne, .inl (by omega)⟩
  · rw [hbody]
    obtain ⟨used, hused, -, hcase⟩ := rioWriten_spec env.writes (decode t body).content
    rw [← hused, noWriteFails_append] at hwrites
    simp only [Bool.not_true, Bool.false_eq_true, if_false]
    rcases hcase with ⟨hret, hsent, -⟩ | ⟨-, -, hbad⟩ | ⟨hnone, hshort, -, hfew⟩
    · right
      rw [hret, hsent]
    · exact absurd hwrites.1 hbad
    · left
      have hcontent := decode_length t body
      rw [hnone]
      refine ⟨rfl, ?_, .inr (by omega)⟩
      rintro rfl
      rw [List.length_nil] at hcontent
      omega

/-- Waiting, or an upload. -/
theorem posted_blocked {e : DoitEnd} (h : e.posted = some .blocked) : e = .blocked ∨ e = .uploaded .blocked := by
  cases e with
  | uploaded p => exact .inr (congrArg _ (Option.some.inj h))
  | blocked => exact .inl rfl
  | rejected _ _ _ _ | undefined | returned | served _ => cases h

theorem posted_saved {e : DoitEnd} {path file : Bytes} {n : Int} (h : e.posted = some (.saved path file n)) :
    e = .uploaded (.saved path file n) := by
  cases e with
  | uploaded p => exact congrArg _ (Option.some.inj h)
  | blocked | rejected _ _ _ _ | undefined | returned | served _ => cases h

/-- `doit` waits for calls that do not come back. -/
def Waits (c : Conn) (cwd : List Bytes) (disk : Disk) : Prop :=
  (c.doit cwd disk = .blocked ∨ c.doit cwd disk = .uploaded .blocked) ∧ Starved c

theorem put_ends {name : Name} {file : Bytes} (hc : Carries (.put name file) lines c) (cwd : List Bytes) (disk : Disk) :
    Waits c cwd disk ∨ c.doit cwd disk = .uploaded (.saved name.path file file.length) := by
  have hput : equalFold (ascii "PUT") (ascii "PUT") = true := by decide
  obtain ⟨hannounced, hfits⟩ := hc.announced
  rcases hc.doit cwd disk with ⟨hwaits, hshort⟩ | ⟨more, a, hdr, hanswer, -, hm, hu, hparsed, hfew⟩
  · exact .inl ⟨.inl hwaits, .inl hshort⟩
  · have hlength : hdr.contentLength = file.length := by rw [hparsed.length, hannounced, Option.getD_some]
    have hposted : (c.doit cwd disk).posted = some (servePut c.env (slash :: name.bytes) hdr.contentLength hdr.rio hdr.fd) := by
      rw [hanswer]
      simp only [Tiny.answer, hm, Request.method, if_pos hput]
      exact putEnd_posted hu c.env hdr.contentLength hdr.rio hdr.fd
    rcases put_saved (slash :: name.bytes) hparsed.fresh.ready hparsed.rest hlength hc.opened hc.writes with
      ⟨hwaits, hstarved⟩ | hsaved
    · rw [hwaits] at hposted
      exact .inl ⟨posted_blocked hposted, hfew hstarved⟩
    · rw [hsaved, name.uploadPath (.inr rfl)] at hposted
      exact .inr (posted_saved hposted)

/-- A body of which `file` is saved under `name`. -/
theorem post_ends {name : Name} {file : Bytes} (hc : Carries r lines c) (hmethod : r.method = ascii "POST")
    (huri : r.uri = slash :: name.bytes) (hlength : lastValue lengthValue (lines.map HeaderLine.bytes) = some (r.body.length : Int))
    (hmax : (r.body.length : Int) ≤ MAX_UPLOAD)
    (hdecode : ∃ filename, decode ((lastValue typeValue (lines.map HeaderLine.bytes)).getD []) r.body = ⟨filename, file⟩ ∧
      (cstring filename = [] ∨ cstring filename = name.bytes)) (cwd : List Bytes) (disk : Disk) :
    Waits c cwd disk ∨ c.doit cwd disk = .uploaded (.saved name.path file file.length) := by
  have hput : ¬ equalFold (ascii "POST") (ascii "PUT") = true := by decide
  have hpost : equalFold (ascii "POST") (ascii "POST") = true := by decide
  obtain ⟨filename, hfile, hname⟩ := hdecode
  rcases hc.doit cwd disk with ⟨hwaits, hshort⟩ | ⟨more, a, hdr, hanswer, -, hm, hu, hparsed, hfew⟩
  · exact .inl ⟨.inl hwaits, .inl hshort⟩
  · have hlen : hdr.contentLength = r.body.length := by rw [hparsed.length, hlength, Option.getD_some]
    have hposted : (c.doit cwd disk).posted =
        some (servePost c.env (slash :: name.bytes) hdr.contentLength hdr.contentType hdr.rio hdr.fd) := by
      rw [hanswer]
      rw [hmethod] at hm
      rw [huri] at hu
      simp only [Tiny.answer, hm, if_neg hput, if_pos hpost]
      exact postEnd_posted hu c.env hdr.contentLength hdr.contentType hdr.rio hdr.fd
    have hpath : uploadPath (if cstring filename ≠ [] then cstring filename else slash :: name.bytes) = name.path := by
      apply name.uploadPath
      rcases hname with hnil | hname
      · exact .inr (if_neg fun h => h hnil)
      · exact .inl ((if_pos (hname ▸ name.word.1)).trans hname)
    rcases post_saved (slash :: name.bytes) hdr.contentType hparsed.fresh.ready hparsed.rest hlen hmax
      hc.malloc hc.opened hc.writes with ⟨hwaits, hstarved⟩ | hsaved
    · rw [hwaits] at hposted
      exact .inl ⟨posted_blocked hposted, hfew hstarved⟩
    · rw [hsaved, hparsed.type, hfile, hpath] at hposted
      exact .inr (posted_saved hposted)

theorem form_decoded {name : Name} (f : Form name) :
    decode (contentType f.boundary) (encode (f.file :: f.others)) = ⟨name.bytes, f.file.content⟩ := by
  have hne : f.file.filename ≠ [] := by
    rw [f.named]
    exact name.word.1
  have hshort : f.file.filename.length < MAXLINE := by
    have := name.short
    rw [f.named]
    unfold NAME_MAX at this
    unfold MAXLINE
    omega
  rw [decode_encode f.token, (quoted_own hne f.first hshort).headerFilename, f.named]

theorem get_ends (h : Holds cwd disk stock) {name : Name} (hc : Carries (.get name) lines c) :
    Waits c cwd disk ∨ c.doit cwd disk = (Request.get name).ends stock := by
  have hget : equalFold (Request.get name).method (ascii "GET") = true := by
    simp only [Request.method]
    decide
  rcases hc.doit cwd disk with ⟨hwaits, hshort⟩ | ⟨more, a, hdr, hanswer, -, hm, hu, -⟩
  · exact .inl ⟨.inl hwaits, .inl hshort⟩
  · right
    rw [hanswer, answer_get c.env (disk.stat cwd) hm hu (Request.get name).uri_word.1.1 hget]
    obtain ⟨hfilename, hstatic⟩ := parseUri_get name
    have hput := equalFold_ne (b := ascii "PUT") (by decide) hget
    have hpost := equalFold_ne (b := ascii "POST") (by decide) hget
    have hstat : disk.stat cwd name.path = (stock name.bytes).map fun b => (File.created b).stat := by
      rw [Disk.stat, name.resolve, h.files name, Option.map_map]
      rfl
    simp only [dispatch, hput, hpost, hget, hfilename, hstat, Bool.false_eq_true, if_false, Bool.not_true, Request.ends]
    congr 1
    cases stock name.bytes with
    | none => rfl
    | some file =>
      by_cases hcgi : find (ascii "cgi-bin") name.bytes = none
      · simp only [Option.map_some, hcgi, if_true, hstatic.2 hcgi]
        rfl
      · have hprogram : (parseUri (Request.get name).uri).isStatic = false := by
          rw [← Bool.not_eq_true, hstatic]
          exact hcgi
        simp only [Option.map_some, if_neg hcgi, hprogram]
        rfl

/-- **How `doit` ends** on a request. -/
theorem Carries.ends (h : Holds cwd disk stock) (hc : Carries r lines c) :
    Waits c cwd disk ∨ c.doit cwd disk = r.ends stock := by
  cases r with
  | put name file => exact put_ends hc cwd disk
  | post name file =>
    obtain ⟨hlength, hmax, hno⟩ := hc.announced
    refine post_ends hc rfl rfl hlength hmax ⟨[], ?_, .inl rfl⟩ cwd disk
    simp only [decode, hno, Request.body]
  | form name f =>
    obtain ⟨hlength, hmax, htype⟩ := hc.announced
    refine post_ends hc rfl rfl hlength hmax ⟨name.bytes, ?_, .inr ?_⟩ cwd disk
    · rw [htype]
      exact form_decoded f
    · exact cstring_eq fun hmem => (name.clean _ hmem).1 rfl
  | get name => exact get_ends h hc

theorem Carries.method (hc : Carries r lines c) (hgo : c.doit cwd disk ≠ .blocked) : requestMethod c.line = some r.method := by
  rcases hc.doit cwd disk with ⟨hwaits, -⟩ | ⟨more, a, hdr, -, hline, -⟩
  · exact absurd hwaits hgo
  · exact hline

end

/-! ## What is sent, and what is stored -/

/-- The buffers for `rio_writen`. -/
def Request.bufs (stock : Stock) : Request → Option (List Bytes)
  | .put name file => (Response.upload (ascii "201 Created") name.path file.length).buffers
  | .post name file => (Response.upload (ascii "200 OK") name.path file.length).buffers
  | .form name f => (Response.upload (ascii "200 OK") name.path f.file.content.length).buffers
  | .get name => match stock name.bytes with
    | none => (Response.error name.path (ascii "404") (ascii "Not found") (ascii "Tiny couldn't find this file")).buffers
    | some file =>
      if find (ascii "cgi-bin") name.bytes = none then (Response.static name.path file).buffers
      else (Response.error name.path (ascii "403") (ascii "Forbidden") (ascii "Tiny couldn't run the CGI program")).buffers

section
variable {r : Request} {lines : List HeaderLine} {c : Conn} {cwd : List Bytes} {disk : Disk} {stock : Stock}
  {cgi : Bytes → Bytes → Bytes}

theorem reply_ends (h : Holds cwd disk stock) (hmethod : requestMethod c.line = some r.method) :
    reply cgi cwd disk c (r.ends stock) = (r.bufs stock).bind (send c.answers) := by
  have hput : uploadStatus (ascii "PUT") = ascii "201 Created" := by decide
  have hpost : uploadStatus (ascii "POST") = ascii "200 OK" := by decide
  cases r with
  | put name file =>
    simp only [Request.ends, Request.bufs, reply, hmethod, Request.method, Option.getD_some, hput, DoitEnd.response,
      Posted.response, Option.bind_some]
  | post name file =>
    simp only [Request.ends, Request.bufs, reply, hmethod, Request.method, Option.getD_some, hpost, DoitEnd.response,
      Posted.response, Option.bind_some]
  | form name f =>
    simp only [Request.ends, Request.bufs, reply, hmethod, Request.method, Option.getD_some, hpost, DoitEnd.response,
      Posted.response, Option.bind_some]
  | get name =>
    have hdisk := h.files name
    rw [← name.resolve] at hdisk
    simp only [Request.ends, Request.bufs]
    cases hfile : stock name.bytes with
    | none => simp only [reply, DoitEnd.response, Option.bind_some]
    | some file =>
      rw [hfile] at hdisk
      simp only
      split
      · rw [Response.buffers, reply, hdisk, Option.map_some, Option.bind_some, Option.bind_some, File.created]
      · simp only [reply, DoitEnd.response, Option.bind_some]

/-- A file gets what was put, with the mode of a new one. -/
theorem Holds.save (h : Holds cwd disk stock) (name : Name) {file : Bytes} (hfits : (file.length : Int) ≤ INT_MAX) :
    Holds cwd (disk.save cwd name.path file) (Function.update stock name.bytes (some file)) := by
  constructor
  · intro n
    have hfile := h.files name
    rw [Disk.save, name.resolve]
    by_cases hn : n.bytes = name.bytes
    · rw [hn, Function.update_self, Function.update_self, hfile]
      cases stock name.bytes <;> rfl
    · have hkey : cwd ++ [ascii "uploads", n.bytes] ≠ cwd ++ [ascii "uploads", name.bytes] := by
        intro heq
        have hlast := List.append_cancel_left heq
        simp only [List.cons.injEq, and_true, true_and] at hlast
        exact hn hlast
      rw [Function.update_of_ne hkey, Function.update_of_ne hn]
      exact h.files n
  · intro n b hb
    by_cases hn : n = name.bytes
    · subst hn
      rw [Function.update_self] at hb
      cases hb
      exact hfits
    · rw [Function.update_of_ne hn] at hb
      exact h.fits n b hb

/-- A part is shorter than its form. -/
theorem content_length {B : Bytes} (p : Part B) (ps : List (Part B)) : p.content.length ≤ (encode (p :: ps)).length := by
  obtain ⟨next, henc⟩ := encode_eq p ps
  rw [henc]
  simp only [List.length_append]
  omega

/-- What is announced fits an `int`. -/
theorem Request.announced_fits {length : Option Int} {type : Option Bytes} (h : r.Announced length type) :
    match r with
    | .put _ file | .post _ file => (file.length : Int) ≤ INT_MAX
    | .form _ f => (f.file.content.length : Int) ≤ INT_MAX
    | .get _ => True := by
  have hsmall : MAX_UPLOAD ≤ INT_MAX := by decide
  cases r with
  | put name file => exact h.2
  | post name file => exact Int.le_trans h.2.1 hsmall
  | form name f =>
    have hcontent := content_length f.file f.others
    have hmax := h.2.1
    exact Int.le_trans (Int.le_trans (Int.ofNat_le.2 hcontent) hmax) hsmall
  | get name => trivial

theorem Holds.after (h : Holds cwd disk stock) (hc : Carries r lines c) :
    Holds cwd (disk.after cwd (r.ends stock)) (r.apply stock) := by
  have hfits := Request.announced_fits hc.announced
  cases r with
  | put name file => exact h.save name hfits
  | post name file => exact h.save name hfits
  | form name f => exact h.save name hfits
  | get name => exact h

theorem serveStatic_ok (filename file : Bytes) (filesize : Int) :
    ascii "HTTP/1.0 200 OK\r\n" <+: (serveStatic filename file filesize).flatten := by
  unfold serveStatic
  simp only
  split <;> simp only [List.flatten_cons, List.append_assoc] <;> exact List.prefix_append _ _

/-- The buffers are the answer. -/
theorem bufs_sent (h : Holds cwd disk stock) {bufs : List Bytes} (hbufs : r.bufs stock = some bufs) :
    (r.answer stock).Sent bufs.flatten := by
  cases r with
  | put name file => exact ⟨bufs, hbufs, rfl⟩
  | post name file => exact ⟨bufs, hbufs, rfl⟩
  | form name f => exact ⟨bufs, hbufs, rfl⟩
  | get name =>
    simp only [Request.bufs] at hbufs
    simp only [Request.answer]
    cases hfile : stock name.bytes with
    | none =>
      rw [hfile] at hbufs
      exact ⟨bufs, rfl, hbufs⟩
    | some file =>
      rw [hfile] at hbufs
      simp only at hbufs ⊢
      split at hbufs
      · rename_i hcgi
        rw [if_pos hcgi]
        obtain rfl : serveStatic name.path file (toInt32 file.length) = bufs := Option.some.inj hbufs
        exact ⟨serveStatic_ok _ _ _, (serveStatic_framed_iff name.path file).2 (h.fits _ _ hfile)⟩
      · rename_i hcgi
        rw [if_neg hcgi]
        exact ⟨bufs, rfl, hbufs⟩

/-- **One turn** with a request. -/
theorem turn_simulates (h : Holds cwd disk stock) (hc : Carries r lines c) {disk' : Disk} {sent : Bytes}
    (hturn : turn cgi cwd disk c = some (disk', sent)) :
    Holds cwd disk' (r.apply stock) ∧ (r.answer stock).Sent sent := by
  obtain ⟨out, hreply, hpair⟩ := Option.map_eq_some_iff.1 hturn
  obtain ⟨rfl, rfl⟩ := Prod.mk.inj hpair
  rcases hc.ends h with ⟨hwaits | hwaits, -⟩ | hends
  · rw [hwaits] at hreply
    cases hreply
  · rw [hwaits] at hreply
    cases hreply
  · have hgo : c.doit cwd disk ≠ .blocked := by
      intro hblocked
      rw [hblocked] at hreply
      cases hreply
    have hmethod : requestMethod c.line = some r.method := hc.method hgo
    rw [hends] at hreply ⊢
    rw [reply_ends h hmethod] at hreply
    obtain ⟨bufs, hbufs, hsend⟩ := Option.bind_eq_some_iff.1 hreply
    rw [send_eq bufs c.answers _ hc.answers hsend]
    exact ⟨h.after hc, bufs_sent h hbufs⟩

/-- Only the two methods come to an upload. -/
theorem answer_uploaded {env : Env} {stat : Bytes → Option Stat} {a : Arrays} {h : Headers} {p : Posted}
    (hp : Tiny.answer env stat a h = .uploaded p) : ∃ method, a.method.string = some method ∧
      (equalFold method (ascii "PUT") = true ∨ equalFold method (ascii "POST") = true) := by
  unfold Tiny.answer at hp
  split at hp
  · cases hp
  · rename_i method hm
    by_cases hput : equalFold method (ascii "PUT") = true
    · exact ⟨method, hm, .inl hput⟩
    · by_cases hpost : equalFold method (ascii "POST") = true
      · exact ⟨method, hm, .inr hpost⟩
      · rw [if_neg hput, if_neg hpost] at hp
        split at hp
        · cases hp
        · split at hp
          · cases hp
          · split at hp <;> cases hp

theorem doit_uploaded {p : Posted} (hp : c.doit cwd disk = .uploaded p) : ∃ method, requestMethod c.line = some method ∧
    (equalFold method (ascii "PUT") = true ∨ equalFold method (ascii "POST") = true) := by
  unfold Conn.doit Tiny.doit at hp
  unfold Conn.line
  generalize rioReadlineb (rioInitb c.rio) c.fd MAXLINE = call at hp ⊢
  obtain ⟨ret, line, rp, fd⟩ := call
  cases ret with
  | none => cases hp
  | some ret =>
    simp only [lineCells_string] at hp
    split at hp
    · cases hp
    · split at hp
      · cases hp
      · rename_i buf hbuf
        obtain rfl : cstring line = buf := by
          split at hbuf
          · exact Option.some.inj hbuf
          · cases hbuf
        split at hp
        · obtain ⟨method, hm, hupload⟩ := answer_uploaded hp
          exact ⟨method, (sscanf_spec (cstring_nul line)).1.symm.trans hm, hupload⟩
        · cases hp

/-- Without an upload the files stay. -/
theorem turn_idle (hidle : Idle c) {disk' : Disk} {sent : Bytes} (hturn : turn cgi cwd disk c = some (disk', sent)) :
    disk' = disk := by
  obtain ⟨out, -, hpair⟩ := Option.map_eq_some_iff.1 hturn
  obtain ⟨rfl, -⟩ := Prod.mk.inj hpair
  unfold Disk.after
  split
  · rename_i hend
    obtain ⟨method, hm, hupload⟩ := doit_uploaded hend
    obtain ⟨hput, hpost⟩ := hidle method hm
    rw [hput, hpost] at hupload
    rcases hupload with h | h <;> cases h
  · rfl

end

/-! ## Any number of requests -/

/-- An answer is sent for each request, and anything for what is none. -/
def Answered (a : Option Answer) (sent : Bytes) : Prop := ∀ answer, a = some answer → answer.Sent sent

def letterA : Name where
  bytes := [97]
  word := ⟨nofun, rfl⟩
  clean := by
    intro b hb
    rw [List.mem_singleton.1 hb]
    decide
  dots := by decide
  short := by decide

def twoBytes : HeaderLine where
  bytes := ascii "Content-Length: 2"
  ne := nofun
  clean := by
    have hall : (ascii "Content-Length: 2").all (fun b => b ≠ 13 ∧ b ≠ 10 ∧ b ≠ 0) = true := by decide
    intro b hb
    exact of_decide_eq_true (List.all_eq_true.1 hall b hb)

theorem twoBytes_harmless : CutsHarmless [twoBytes] := cutsHarmless_of_short (by decide)

theorem twoBytes_announced : (Request.put letterA (ascii "hi")).Announced (lastValue lengthValue [twoBytes.bytes])
    (lastValue typeValue [twoBytes.bytes]) := ⟨by decide, by decide⟩

def emptyDisk : Disk := fun _ => none

theorem emptyDisk_holds : Holds [] emptyDisk (fun _ => none) := ⟨fun _ => rfl, nofun⟩

/-- All bytes come with the first call. -/
def atOnce (unread : Bytes) : Conn where
  turns := 9
  env := ⟨true, true, [.count 99]⟩
  hdr := []
  rio := zeroRio
  fd := ⟨unread, List.replicate 9 (.count 99)⟩
  answers := List.replicate 9 (.count 999)

theorem atOnce_carries {r : Request} {lines : List HeaderLine} {unread : Bytes}
    (hsent : unread = r.words ++ newline :: (headerBlock lines ++ (r.body ++ []))) (hharmless : CutsHarmless lines)
    (hannounced : r.Announced (lastValue lengthValue (lines.map HeaderLine.bytes))
      (lastValue typeValue (lines.map HeaderLine.bytes))) : Carries r lines (atOnce unread) where
  sent := ⟨[], hsent⟩
  harmless := hharmless
  announced := hannounced
  reads := fun _ ho => List.eq_of_mem_replicate ho ▸ rfl
  malloc := rfl
  opened := rfl
  writes := fun _ ho => List.mem_singleton.1 ho ▸ rfl
  answers := fun _ ho => List.eq_of_mem_replicate ho ▸ rfl

def putA : Conn := atOnce (ascii "PUT /a HTTP/1.0\r\nContent-Length: 2\r\n\r\nhi")

def getA : Conn := atOnce (ascii "GET /uploads/a HTTP/1.0\r\n\r\n")

end ComputerSystem.Tiny
