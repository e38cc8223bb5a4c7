import ComputerSystem.CTypes
import ComputerSystem.Lib.Search
/-!
# What Tiny does with a request

`Chapter11/tiny_web/tiny.c:106-195`: the part of `doit` after the request line and the headers are
read, and `parse_uri`. Strings are lists without their terminating NUL.
-/

namespace ComputerSystem.Tiny

/-- `tolower` in the C locale. -/
def toLower (c : UInt8) : UInt8 := if 65 ≤ c ∧ c ≤ 90 then c + 32 else c

/-- `!strcasecmp(a, b)`. -/
def equalFold (a b : Bytes) : Bool := a.map toLower = b.map toLower

structure ParsedUri where
  isStatic : Bool
  filename : Bytes
  cgiargs  : Bytes
deriving DecidableEq, Repr

/-- `parse_uri` (`:175`). -/
def parseUri (uri : Bytes) : ParsedUri :=
  match find (ascii "cgi-bin") uri with
  | none =>
    ⟨true, ascii "." ++ uri ++ (if uri.getLast? = some 47 then ascii "home.html" else []), []⟩
  | some _ =>
    -- `index(uri, '?')` cuts the URI in two; without one the arguments are empty
    ⟨false, ascii "." ++ uri.takeWhile (· ≠ 63), (uri.dropWhile (· ≠ 63)).drop 1⟩

/-- What `doit` reads of a `struct stat`. -/
structure Stat where
  regular   : Bool
  ownerRead : Bool
  ownerExec : Bool
  size      : Int
deriving DecidableEq, Repr

/-- The function that `doit` leaves the request to. -/
inductive Served
  | put (uri : Bytes)
  | post (uri : Bytes)
  | clienterror (cause errnum shortmsg longmsg : Bytes)
  | static (filename : Bytes) (filesize : Int)
  | dynamic (filename cgiargs : Bytes)
deriving DecidableEq, Repr

/-- The dispatch of `doit` (`:106-141`); `stat` is the outcome of `stat(filename, &sbuf)`. -/
def dispatch (method uri : Bytes) (stat : Option Stat) : Served :=
  if equalFold method (ascii "PUT") then .put uri
  else if equalFold method (ascii "POST") then .post uri
  else if !equalFold method (ascii "GET") then
    .clienterror method (ascii "501") (ascii "Not Implemented") (ascii "Tiny does not implement this method")
  else
    let parsed := parseUri uri
    match stat with
    | none =>
      .clienterror parsed.filename (ascii "404") (ascii "Not found") (ascii "Tiny couldn't find this file")
    | some sbuf =>
      if parsed.isStatic then
        if !sbuf.regular || !sbuf.ownerRead then
          .clienterror parsed.filename (ascii "403") (ascii "Forbidden") (ascii "Tiny couldn't read the file")
        else .static parsed.filename sbuf.size
      else if !sbuf.regular || !sbuf.ownerExec then
        .clienterror parsed.filename (ascii "403") (ascii "Forbidden") (ascii "Tiny couldn't run the CGI program")
      else .dynamic parsed.filename parsed.cgiargs

/-- **What becomes of a request**: an upload, a method that is not implemented, a missing file, one of the
two refusals, or an answer. -/
theorem dispatch_cases (method uri : Bytes) (stat : Option Stat) :
    dispatch method uri stat = .put uri ∨ dispatch method uri stat = .post uri ∨
    (equalFold method (ascii "GET") = false ∧ dispatch method uri stat =
      .clienterror method (ascii "501") (ascii "Not Implemented") (ascii "Tiny does not implement this method")) ∨
    (stat = none ∧ dispatch method uri stat =
      .clienterror (parseUri uri).filename (ascii "404") (ascii "Not found") (ascii "Tiny couldn't find this file")) ∨
    ∃ sbuf, stat = some sbuf ∧
      (((parseUri uri).isStatic = true ∧
        (dispatch method uri stat =
          .clienterror (parseUri uri).filename (ascii "403") (ascii "Forbidden") (ascii "Tiny couldn't read the file") ∨
        dispatch method uri stat = .static (parseUri uri).filename sbuf.size)) ∨
      ((parseUri uri).isStatic = false ∧
        (dispatch method uri stat =
          .clienterror (parseUri uri).filename (ascii "403") (ascii "Forbidden") (ascii "Tiny couldn't run the CGI program") ∨
        dispatch method uri stat = .dynamic (parseUri uri).filename (parseUri uri).cgiargs))) := by
  unfold dispatch
  by_cases hput : equalFold method (ascii "PUT") = true
  · exact .inl (if_pos hput)
  by_cases hpost : equalFold method (ascii "POST") = true
  · exact .inr (.inl (by rw [if_neg hput, if_pos hpost]))
  simp only [if_neg hput, if_neg hpost]
  cases hget : equalFold method (ascii "GET") with
  | false => exact .inr (.inr (.inl ⟨rfl, rfl⟩))
  | true =>
    simp only [Bool.not_true, Bool.false_eq_true, if_false]
    cases stat with
    | none => exact .inr (.inr (.inr (.inl ⟨rfl, rfl⟩)))
    | some sbuf =>
      refine .inr (.inr (.inr (.inr ⟨sbuf, rfl, ?_⟩)))
      cases hstatic : (parseUri uri).isStatic with
      | true =>
        refine .inl ⟨rfl, ?_⟩
        simp only [if_true]
        split
        · exact .inl rfl
        · exact .inr rfl
      | false =>
        refine .inr ⟨rfl, ?_⟩
        simp only [Bool.false_eq_true, if_false]
        split
        · exact .inl rfl
        · exact .inr rfl

/-! ## The parts of a URI -/

/-- What is behind the first `?`. -/
def queryOf (uri : Bytes) : Bytes := (uri.dropWhile (· ≠ 63)).drop 1

theorem queryOf_length (uri : Bytes) : (queryOf uri).length ≤ uri.length := by
  have hle := (List.dropWhile_suffix (l := uri) (· ≠ 63)).length_le
  rw [queryOf, List.length_drop]
  omega

/-- How long the path is behind its `.`. -/
def pathLength (uri : Bytes) : Nat :=
  match find (ascii "cgi-bin") uri with
  | none => uri.length + if uri.getLast? = some 47 then 9 else 0
  | some _ => (uri.takeWhile (· ≠ 63)).length

theorem filename_length (uri : Bytes) : (parseUri uri).filename.length = 1 + pathLength uri := by
  have hdot : (ascii ".").length = 1 := rfl
  have hhome : (ascii "home.html").length = 9 := rfl
  unfold parseUri pathLength
  cases find (ascii "cgi-bin") uri with
  | none =>
    simp only [List.length_append, hdot]
    split
    · rw [hhome, Nat.add_assoc]
    · rw [List.length_nil, Nat.add_assoc]
  | some k => simp only [List.length_append, hdot]

theorem filename_nul {uri : Bytes} (h0 : (0 : UInt8) ∉ uri) : (0 : UInt8) ∉ (parseUri uri).filename := by
  have hdot : (0 : UInt8) ∉ ascii "." := by decide
  have hhome : (0 : UInt8) ∉ ascii "home.html" := by decide
  unfold parseUri
  split
  · simp only [List.mem_append, not_or]
    refine ⟨⟨hdot, h0⟩, ?_⟩
    split
    · exact hhome
    · exact List.not_mem_nil
  · simp only [List.mem_append, not_or]
    exact ⟨hdot, fun hmem => h0 ((List.takeWhile_prefix _).subset hmem)⟩

/-- The arguments of a static file are empty. -/
theorem cgiargs_eq (uri : Bytes) : (parseUri uri).cgiargs = if (parseUri uri).isStatic then [] else queryOf uri := by
  unfold parseUri
  split <;> rfl

theorem cgiargs_length (uri : Bytes) : (parseUri uri).cgiargs.length ≤ uri.length := by
  rw [cgiargs_eq]
  split
  · exact Nat.zero_le _
  · exact queryOf_length uri

end ComputerSystem.Tiny
