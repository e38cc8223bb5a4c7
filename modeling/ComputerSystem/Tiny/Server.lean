import ComputerSystem.Tiny.Adder
import ComputerSystem.Tiny.Contained
import ComputerSystem.Tiny.Framing
import ComputerSystem.Tiny.Strings
import ComputerSystem.Tiny.Transfer
/-!
# The main loop of Tiny and the files it works on (`Chapter11/tiny_web/tiny.c:66-80`)

One connection after the other: what `doit` makes of it, the file it stores and what it sends.

| here           | there                                                                    |
|----------------|--------------------------------------------------------------------------|
| `Disk`         | the files by the components of their path, without symbolic links          |
| `Disk.stat`    | `stat(2)` (`:124`); `serve_static` opens what it has found (`:214`)         |
| `Disk.save`    | `open(path, O_WRONLY \| O_CREAT \| O_TRUNC, 0644)` and the writes (`:304`, `:402`) |
| `Conn`         | what a connection and the calls of its `doit` come to                      |
| `reply`        | what is sent until `close(connfd)`                                         |
| `turn`         | one turn of the loop; `none` when `doit` does not come back                |
| `mainLoop`     | the loop; an `accept` that fails leaves everything as it is                |

`cgi` is what a program prints; programs are taken to write no files, as `adder.c` does not, and the
`umask` to leave the owner's bits. What the server prints is left out.
-/

namespace ComputerSystem.Tiny

open Rio

structure File where
  regular   : Bool
  ownerRead : Bool
  ownerExec : Bool
  bytes     : Bytes
deriving DecidableEq, Repr

def File.stat (f : File) : Stat := ⟨f.regular, f.ownerRead, f.ownerExec, f.bytes.length⟩

/-- With mode `0644`. -/
def File.created (bytes : Bytes) : File := ⟨true, true, false, bytes⟩

abbrev Disk := List Bytes → Option File

def Disk.stat (disk : Disk) (cwd : List Bytes) (path : Bytes) : Option Stat := (disk (resolve cwd path)).map File.stat

/-- A file that is there keeps its mode. -/
def Disk.save (disk : Disk) (cwd : List Bytes) (path bytes : Bytes) : Disk :=
  Function.update disk (resolve cwd path) <| match disk (resolve cwd path) with
    | some f => some { f with bytes := bytes }
    | none => some (.created bytes)

structure Conn where
  turns   : Nat
  env     : Env
  hdr     : Bytes
  rio     : RioT
  fd      : Fd
  answers : List WriteOutcome

/-- The first line, as `doit` gets it. -/
def Conn.line (c : Conn) : Bytes := cstring (rioReadlineb (rioInitb c.rio) c.fd MAXLINE).usrbuf

def Conn.doit (c : Conn) (cwd : List Bytes) (disk : Disk) : DoitEnd :=
  Tiny.doit c.turns c.env (disk.stat cwd) c.hdr c.rio c.fd

def Disk.after (disk : Disk) (cwd : List Bytes) : DoitEnd → Disk
  | .uploaded (.saved path bytes _) => disk.save cwd path bytes
  | _ => disk

def reply (cgi : Bytes → Bytes → Bytes) (cwd : List Bytes) (disk : Disk) (c : Conn) : DoitEnd → Option Bytes
  | .undefined | .blocked => none
  | .returned => some []
  | .served (.static filename filesize) =>
    (disk (resolve cwd filename)).bind fun f => send c.answers (serveStatic filename f.bytes (toInt32 filesize))
  | .served (.dynamic filename cgiargs) => (send c.answers [statusLines]).map (· ++ cgi filename cgiargs)
  | e => (e.response (uploadStatus ((requestMethod c.line).getD []))).bind fun r => r.buffers.bind (send c.answers)

section
variable (cgi : Bytes → Bytes → Bytes) (cwd : List Bytes)

def turn (disk : Disk) (c : Conn) : Option (Disk × Bytes) :=
  (reply cgi cwd disk c (c.doit cwd disk)).map fun sent => (disk.after cwd (c.doit cwd disk), sent)

def mainLoop : Disk → List Conn → Option (Disk × List Bytes)
  | disk, [] => some (disk, [])
  | disk, c :: cs => match turn cgi cwd disk c with
    | none => none
    | some (disk, sent) => (mainLoop disk cs).map fun p => (p.1, sent :: p.2)

end

/-! ## The parts of a request -/

section
variable {c : Conn} {a more : Bytes}

/-- A line that fits comes whole, and only it. -/
theorem firstLine (hno : NoReadFails c.fd.sched) (hnl : newline ∉ a) (hlen : a.length + 1 ≤ MAXLINE - 1)
    (hunread : c.fd.unread = a ++ newline :: more) :
    ((rioReadlineb (rioInitb c.rio) c.fd MAXLINE).ret = none ∧ reads c.fd.sched ≤ c.fd.unread.length) ∨
    ∃ rp fd, rioReadlineb (rioInitb c.rio) c.fd MAXLINE = ⟨some (a.length + 1 : Nat), a ++ [newline], rp, fd⟩ ∧
      Ready ⟨-1, [], c.hdr, rp, fd⟩ ∧ rest rp fd = more ∧
      (more ≠ [] → reads c.fd.sched + fd.unread.length ≤ reads fd.sched + c.fd.unread.length) := by
  have hread := rioReadlineb_cases (rioInitb_ok c.rio) hno (MAXLINE - 1)
  have hrest : rest (rioInitb c.rio) c.fd = a ++ newline :: more := by
    rw [rest, rioInitb_window, List.nil_append, hunread]
  have hpiece : piece (MAXLINE - 1) (a ++ newline :: more) = a ++ [newline] := by
    rw [piece_line more hnl, if_pos (by omega)]
  rw [show MAXLINE - 1 + 1 = MAXLINE from rfl, hrest, hpiece] at hread
  rcases hread with hwaits | ⟨rp, fd, hcall, hok', hno', hleft, -, hmoved⟩
  · exact .inl hwaits
  · have hmore : rest rp fd = more := by
      rw [hleft, show a ++ newline :: more = (a ++ [newline]) ++ more by simp, List.drop_left]
    rw [List.length_append, List.length_singleton] at hcall
    rw [hmore] at hmoved
    exact .inr ⟨rp, fd, hcall, ⟨hok', hno'⟩, hmore, hmoved⟩

/-- As long as there are bytes left, a call of `read(2)` has brought one. -/
structure Fresh (c : Conn) (h : Headers) : Prop where
  ready : Ready h
  spare : rest h.rio h.fd ≠ [] → reads c.fd.sched + h.fd.unread.length ≤ reads h.fd.sched + c.fd.unread.length

theorem readRequesthdrs_fresh {turns : Nat} {h h' : Headers} (hf : Fresh c h) (hret : readRequesthdrs turns h = .returned h') :
    Fresh c h' := by
  refine readRequesthdrs_keeps (P := Fresh c) ?_ ?_ turns hf hret
  · intro h hf
    obtain ⟨-, hrio, hfd⟩ := noteHeader_frame h
    refine ⟨hf.ready.note, ?_⟩
    rw [hrio, hfd]
    exact hf.spare
  · intro h h' hf hnext
    rcases nextHeader_cases hf.ready.ok hf.ready.no with ⟨hnone, -⟩ | ⟨h₁, hsome, hok, hno, hcase⟩
    · rw [hnone] at hnext
      cases hnext
    · rw [hsome] at hnext
      cases hnext
      refine ⟨⟨hok, hno⟩, fun hne => ?_⟩
      rcases hcase with ⟨-, hnil, -⟩ | ⟨hbefore, -, -, hspent⟩
      · exact absurd hnil hne
      · have := hf.spare hbefore
        have := hspent hne
        omega

/-- What stands behind the header block is left for the upload. -/
structure Parsed (c : Conn) (lines : List HeaderLine) (body : Bytes) (h : Headers) : Prop where
  fresh  : Fresh c h
  rest   : rest h.rio h.fd = body
  length : h.contentLength = (lastValue lengthValue (lines.map HeaderLine.bytes)).getD (-1)
  type   : h.contentType = (lastValue typeValue (lines.map HeaderLine.bytes)).getD []

/-- The calls or the turns were not enough. -/
def Short (c : Conn) : Prop := c.turns < c.fd.unread.length ∨ reads c.fd.sched ≤ c.fd.unread.length

/-- **A request of two words**: `doit` waits, or it answers them. -/
theorem doit_request {method uri version : Bytes} {lines : List HeaderLine} {body : Bytes}
    (hno : NoReadFails c.fd.sched) (hm : Word method) (hu : Word uri) (hharmless : CutsHarmless lines)
    (hnl : newline ∉ method ++ 32 :: (uri ++ 32 :: version)) (h0 : (0 : UInt8) ∉ method ++ 32 :: (uri ++ 32 :: version))
    (hlen : (method ++ 32 :: (uri ++ 32 :: version)).length + 1 ≤ MAXLINE - 1)
    (hunread : c.fd.unread = method ++ 32 :: (uri ++ 32 :: version) ++ newline :: (headerBlock lines ++ body))
    (cwd : List Bytes) (disk : Disk) :
    c.doit cwd disk = .blocked ∧ Short c ∨ ∃ a h, c.doit cwd disk = answer c.env (disk.stat cwd) a h ∧
      requestMethod c.line = some method ∧ a.method.string = some method ∧ a.uri.string = some uri ∧ Parsed c lines body h := by
  rcases firstLine hno hnl hlen hunread with ⟨hret, hfew⟩ | ⟨rp, fd, hcall, hr, hmore, hmoved⟩
  · refine .inl ⟨?_, .inr hfew⟩
    unfold Conn.doit doit
    generalize rioReadlineb (rioInitb c.rio) c.fd MAXLINE = call at hret
    obtain ⟨ret, usrbuf, rp, fd⟩ := call
    cases hret
    rfl
  · have hret : (rioReadlineb (rioInitb c.rio) c.fd MAXLINE).ret =
        some (((method ++ 32 :: (uri ++ 32 :: version)).length + 1 : Nat) : Int) := by rw [hcall]
    have hpos : (0 : Int) < ((method ++ 32 :: (uri ++ 32 :: version)).length + 1 : Nat) := by omega
    have hblock : headerBlock lines ++ body ≠ [] := by
      intro hnil
      have hblank := (List.append_eq_nil_iff.1 (List.append_eq_nil_iff.1 hnil).1).2
      cases hblank
    by_cases hreturns : ∃ h, readRequesthdrs c.turns ⟨-1, [], c.hdr, rp, fd⟩ = .returned h
    · right
      obtain ⟨h, hhdr⟩ := hreturns
      have hline : c.line = method ++ 32 :: (uri ++ 32 :: version) ++ [newline] := by
        rw [Conn.line, hcall]
        refine cstring_eq fun hmem => ?_
        rcases List.mem_append.1 hmem with hmem | hmem
        · exact h0 hmem
        · exact absurd hmem (by decide)
      have hwords : requestLine c.line = some (method, uri) := by
        rw [hline]
        have hcut : method ++ 32 :: (uri ++ 32 :: version) ++ [newline] =
            method ++ 32 :: (uri ++ 32 :: (version ++ [newline])) := by simp
        rw [hcut]
        exact requestLine_words hm hu _
      have hnul : (0 : UInt8) ∉ c.line := cstring_nul _
      obtain ⟨hmethod, huri⟩ := sscanf_spec hnul
      have hfirst := (requestLine_uri hwords hnul).1
      obtain ⟨hrest, hlength, htype⟩ := readRequesthdrs_block hharmless.frame hr hmore hhdr
      have hfresh : Fresh c ⟨-1, [], c.hdr, rp, fd⟩ := ⟨hr, fun _ => hmoved hblock⟩
      have hhdr' : readRequesthdrs c.turns ⟨-1, [], c.hdr, (rioReadlineb (rioInitb c.rio) c.fd MAXLINE).rio,
          (rioReadlineb (rioInitb c.rio) c.fd MAXLINE).fd⟩ = .returned h := by
        rw [hcall]
        exact hhdr
      refine ⟨_, h, doit_answer hret hpos hhdr', hfirst, ?_, ?_, readRequesthdrs_fresh hfresh hhdr, hrest, ?_, ?_⟩
      · exact hmethod.trans hfirst
      · exact huri.trans (by rw [hwords]; rfl)
      · rw [hlength, hharmless.length]
      · rw [htype, hharmless.type]
    · left
      constructor
      · refine doit_waits hret hpos fun h hreturned => ?_
        rw [hcall] at hreturned
        exact hreturns ⟨h, hreturned⟩
      · by_contra hshort
        obtain ⟨hturns, hreads⟩ := not_or.1 hshort
        have hlength : (headerBlock lines ++ body).length ≤ c.fd.unread.length := by
          simp only [hunread, List.length_append, List.length_cons]
          omega
        have hends : Ends ⟨-1, [], c.hdr, rp, fd⟩ := by
          left
          simp only [hmore, segments_headerBlock]
          exact List.mem_append_right _ (List.mem_cons_self ..)
        have hspent := hmoved hblock
        exact hreturns (readRequesthdrs_returns c.turns hr (by simp only [hmore]; omega) hends (by simp only; omega))

end

end ComputerSystem.Tiny
