import ComputerSystem.Tiny.Request
import ComputerSystem.Tiny.Response
/-!
# What Tiny hands to the CGI adder

`Chapter11/tiny_web/cgi-bin/adder.c:16`, behind `parse_uri` and `serve_dynamic` (`tiny.c:175`, `:240`). Tiny
passes on whatever is behind the `?` of a URI, and nothing where there is none; the adder takes for granted
that it has an `&` in it, and that what is in front of the `&` leaves room for the page. `adder_safe_iff`
says that these are the two things that can go wrong.

| here            | there                                                                    |
|-----------------|--------------------------------------------------------------------------|
| `Environ`       | `environ`, by name                                                       |
| `statusLines`   | what `serve_dynamic` sends itself (`tiny.c:244-247`)                       |
| `strchr`        | `p = strchr(buf, c); *p = '\0'`: `buf` and `p + 1` behind it; `none` for a `NULL` |
| `strcpy`        | into a `char [MAXLINE]`; `none` where it does not fit                      |
| `sprintfAt`     | `sprintf(content + strlen(content), ...)`; `none` where it does not fit    |
| `readArguments` | `adder.c:20-27`                                                            |
| `pageOf`        | `content` (`:30-34`)                                                       |
| `adder`         | `main`                                                                   |
-/

namespace ComputerSystem.Tiny

open Rio

/-! ## `serve_dynamic` -/

abbrev Environ := Bytes → Option Bytes

def setenv (environ : Environ) (name value : Bytes) : Environ := Function.update environ name (some value)

def QUERY_STRING : Bytes := ascii "QUERY_STRING"

/-- The environment of the program that `serve_dynamic` starts (`tiny.c:250-252`). -/
def childEnviron (environ : Environ) (cgiargs : Bytes) : Environ := setenv environ QUERY_STRING cgiargs

def statusLines : Bytes := ascii "HTTP/1.0 200 OK\r\n" ++ ascii "Server: Tiny Web Server\r\n"

/-! ## The adder -/

def ampersand : UInt8 := 38

def strchr (buf : Bytes) (c : UInt8) : Option (Bytes × Bytes) :=
  if c ∈ buf then some (buf.takeWhile (· ≠ c), (buf.dropWhile (· ≠ c)).drop 1) else none

def strcpy (s : Bytes) : Option Bytes := if s.length < MAXLINE then some s else none

def sprintfAt (content s : Bytes) : Option Bytes :=
  if (content ++ s).length < MAXLINE then some (content ++ s) else none

/-- `atoi`, a `strtol` cut to an `int`. -/
def atoi (s : Bytes) : Int := toInt32 (atol s)

inductive AdderEnd
  /-- `*p = '\0'` with a `p` that is `NULL` -/
  | null
  /-- a string has been written behind the end of its array -/
  | overflow
  | printed (contentLength : Int) (content : Bytes)
deriving DecidableEq, Repr

structure Arguments where
  buf : Bytes
  n1  : Int
  n2  : Int
deriving DecidableEq, Repr

def readArguments : Option Bytes → Except AdderEnd Arguments
  | none => .ok ⟨[], 0, 0⟩
  | some buf =>
    match strchr buf ampersand with
    | none => .error .null
    | some (buf, behind) =>
      match strcpy buf, strcpy behind with
      | some arg1, some arg2 => .ok ⟨buf, atoi arg1, atoi arg2⟩
      | _, _ => .error .overflow

/-- The texts that are appended to `content`. A sum that does not fit an `int` wraps. -/
def Arguments.pieces (a : Arguments) : List Bytes :=
  [ascii "QUERY_STRING=" ++ a.buf,
   ascii "Welcome to add.com: ",
   ascii "THE Internet addition portal.\r\n<p>",
   ascii "The answer is: " ++ showInt a.n1 ++ ascii " + " ++ showInt a.n2 ++ ascii " = " ++
     showInt (toInt32 (a.n1 + a.n2)) ++ ascii "\r\n<p>",
   ascii "Thanks for visiting!\r\n"]

def pageOf (a : Arguments) : Option Bytes := a.pieces.foldlM sprintfAt []

def adder (environ : Environ) : AdderEnd :=
  match readArguments (environ QUERY_STRING) with
  | .error e => e
  | .ok a =>
    match pageOf a with
    | none => .overflow
    | some content => .printed (toInt32 content.length) content

/-- What it prints (`:37-40`). -/
def adderOutput (contentLength : Int) (content : Bytes) : Bytes :=
  ascii "Connection: close\r\n" ++
  (ascii "Content-length: " ++ showInt contentLength ++ ascii "\r\n") ++
  ascii "Content-type: text/html\r\n\r\n" ++
  content

example : adder (childEnviron (fun _ => none) (ascii "15000&213")) = .printed 133
    (ascii "QUERY_STRING=15000Welcome to add.com: THE Internet addition portal.\r\n<p>The answer is: 15000 + 213 = 15213\r\n<p>Thanks for visiting!\r\n") := by
  decide +kernel

/-! ## The page -/

/-- The pieces are appended if and only if all of them fit. -/
theorem foldlM_sprintfAt (pieces : List Bytes) : ∀ {content : Bytes}, content.length < MAXLINE →
    pieces.foldlM sprintfAt content =
      if (content ++ pieces.flatten).length < MAXLINE then some (content ++ pieces.flatten) else none := by
  induction pieces with
  | nil =>
    intro content h
    rw [List.flatten_nil, List.append_nil, if_pos h]
    rfl
  | cons s pieces ih =>
    intro content h
    rw [List.foldlM_cons, List.flatten_cons, ← List.append_assoc]
    by_cases hs : (content ++ s).length < MAXLINE
    · have hstep : sprintfAt content s = some (content ++ s) := if_pos hs
      rw [hstep]
      exact ih hs
    · have hstep : sprintfAt content s = none := if_neg hs
      have hlong : ¬ (content ++ s ++ pieces.flatten).length < MAXLINE := by
        rw [List.length_append]
        omega
      rw [hstep, if_neg hlong]
      rfl

/-- How many characters the three numbers take. -/
def Arguments.digits (a : Arguments) : Nat :=
  (showInt a.n1).length + (showInt a.n2).length + (showInt (toInt32 (a.n1 + a.n2))).length

theorem pieces_length (a : Arguments) : a.pieces.flatten.length = 115 + a.buf.length + a.digits := by
  have hquery : (ascii "QUERY_STRING=").length = 13 := rfl
  have hwelcome : (ascii "Welcome to add.com: ").length = 20 := rfl
  have hportal : (ascii "THE Internet addition portal.\r\n<p>").length = 34 := rfl
  have hanswer : (ascii "The answer is: ").length = 15 := rfl
  have hplus : (ascii " + ").length = 3 := rfl
  have hequals : (ascii " = ").length = 3 := rfl
  have hparagraph : (ascii "\r\n<p>").length = 5 := rfl
  have hthanks : (ascii "Thanks for visiting!\r\n").length = 22 := rfl
  simp only [Arguments.pieces, Arguments.digits, List.flatten_cons, List.flatten_nil, List.length_append, List.length_nil,
    hquery, hwelcome, hportal, hanswer, hplus, hequals, hparagraph, hthanks]
  omega

theorem pageOf_eq (a : Arguments) :
    pageOf a = if 115 + a.buf.length + a.digits < MAXLINE then some a.pieces.flatten else none := by
  rw [pageOf, foldlM_sprintfAt a.pieces (by decide), List.nil_append, pieces_length]

/-- **What a client reads** of a page: its length, and then the page. -/
theorem receive_page (content : Bytes) :
    receive (statusLines ++ adderOutput content.length content) = some ⟨[some content.length], content⟩ := by
  have hblock : receive (block 13 10 (headerLines (ascii "200 OK") content.length (ascii "text/html")) content) =
      some ⟨[some content.length], content⟩ := by
    rw [receive_block _ (by simp [headerLines]) (headerLines_plain _ (by decide) (by decide)), headerLines_lengths]
  rw [← hblock]
  simp [statusLines, adderOutput, headerLines, block, line_ok, line_server, line_close, end_html, line_end]

/-! ## Which queries are safe -/

/-- No `NULL` and no array has been written through, the length printed is that of the page, and a client
that reads the lines of `serve_dynamic` and of the adder gets the page with this length. -/
def AdderEnd.Safe (e : AdderEnd) : Prop :=
  ∃ content : Bytes, e = .printed content.length content ∧
    receive (statusLines ++ adderOutput content.length content) = some ⟨[some content.length], content⟩

/-- What is in front of the first `&`, and the two numbers. -/
def addends (query : Bytes) : Arguments :=
  let first := query.takeWhile (· ≠ ampersand)
  ⟨first, atoi first, atoi ((query.dropWhile (· ≠ ampersand)).drop 1)⟩

/-- The query has an `&`, and what is in front of it leaves room for the texts of the page and the numbers. -/
structure Addable (query : Bytes) : Prop where
  separator : ampersand ∈ query
  room      : 115 + (addends query).buf.length + (addends query).digits < MAXLINE

theorem readArguments_eq {query : Bytes} (hlen : query.length < MAXLINE) :
    readArguments (some query) = if ampersand ∈ query then .ok (addends query) else .error .null := by
  have hfirst : (query.takeWhile (· ≠ ampersand)).length < MAXLINE :=
    Nat.lt_of_le_of_lt (List.takeWhile_prefix _).length_le hlen
  have hsecond : ((query.dropWhile (· ≠ ampersand)).drop 1).length < MAXLINE := by
    have hle := (List.dropWhile_suffix (l := query) (· ≠ ampersand)).length_le
    rw [List.length_drop]
    omega
  unfold readArguments strchr
  by_cases hamp : ampersand ∈ query
  · simp only [if_pos hamp, strcpy, if_pos hfirst, if_pos hsecond, addends]
  · simp only [if_neg hamp]

/-- A query that was cut out of a line. -/
theorem adder_query_iff {query : Bytes} (hlen : query.length < MAXLINE) (environ : Environ) :
    (adder (childEnviron environ query)).Safe ↔ Addable query := by
  have hget : childEnviron environ query QUERY_STRING = some query := by
    rw [childEnviron, setenv, Function.update_self]
  unfold adder
  rw [hget, readArguments_eq hlen]
  by_cases hamp : ampersand ∈ query
  · simp only [if_pos hamp, pageOf_eq]
    by_cases hroom : 115 + (addends query).buf.length + (addends query).digits < MAXLINE
    · simp only [if_pos hroom]
      refine ⟨fun _ => ⟨hamp, hroom⟩, fun _ => ⟨(addends query).pieces.flatten, ?_, receive_page _⟩⟩
      have hfits : (addends query).pieces.flatten.length < MAXBUF := by
        rw [pieces_length]
        exact hroom
      rw [toInt32_length hfits]
    · simp only [if_neg hroom]
      refine ⟨?_, fun h => absurd h.room hroom⟩
      rintro ⟨content, heq, -⟩
      cases heq
  · simp only [if_neg hamp]
    refine ⟨?_, fun h => absurd h.separator hamp⟩
    rintro ⟨content, heq, -⟩
    cases heq

/-! ## Which requests are safe -/

/-- `parse_uri` leaves the query in `cgiargs`. -/
theorem dispatch_dynamic {method uri : Bytes} {stat : Option Stat} {filename cgiargs : Bytes}
    (h : dispatch method uri stat = .dynamic filename cgiargs) : cgiargs = queryOf uri := by
  rcases dispatch_cases method uri stat with
    heq | heq | ⟨-, heq⟩ | ⟨-, heq⟩ | ⟨sbuf, -, ⟨-, heq | heq⟩ | ⟨hdynamic, heq | heq⟩⟩
  · rw [heq] at h
    cases h
  · rw [heq] at h
    cases h
  · rw [heq] at h
    cases h
  · rw [heq] at h
    cases h
  · rw [heq] at h
    cases h
  · rw [heq] at h
    cases h
  · rw [heq] at h
    cases h
  · rw [heq] at h
    cases h
    rw [cgiargs_eq, hdynamic]
    rfl

/-- **Dynamic requests.** The adder is safe with what Tiny passes on to it if and only if the part of the URI
behind the `?` has an `&`, and the part in front of the `&` leaves room for the rest of the page. -/
theorem adder_safe_iff {turns : Nat} {env : Env} {stat : Bytes → Option Stat} {hdr : Bytes} {rp : RioT} {fd : Fd}
    {method uri filename cgiargs : Bytes}
    (hline : requestLine (cstring (rioReadlineb (rioInitb rp) fd MAXLINE).usrbuf) = some (method, uri))
    (hdyn : doit turns env stat hdr rp fd = .served (.dynamic filename cgiargs)) (environ : Environ) :
    (adder (childEnviron environ cgiargs)).Safe ↔ Addable (queryOf uri) := by
  obtain ⟨method', uri', hline', hserved⟩ := doit_served hdyn
  rw [hline] at hline'
  cases hline'
  obtain rfl : cgiargs = queryOf uri := dispatch_dynamic hserved.symm
  apply adder_query_iff
  -- the query is a part of a line
  have hread := rioReadlineb_length (rioInitb_ok rp) fd MAXLINE
  have hstring := (List.takeWhile_prefix (l := (rioReadlineb (rioInitb rp) fd MAXLINE).usrbuf) (· ≠ 0)).length_le
  have hwords := requestLine_length hline
  have hquery := queryOf_length uri
  have hmax : MAXLINE - 1 < MAXLINE := by decide
  unfold cstring at hwords
  omega

/-- Anything that is there is an executable file. -/
def executable : Bytes → Option Stat := fun _ => some ⟨true, true, true, 0⟩

/-- `1 + 2`. -/
def sumFd : Fd := ⟨ascii "GET /cgi-bin/adder?1&2 HTTP/1.0\r\n\r\n", [.count 64]⟩

theorem adder_safe_iff_sum : (adder (childEnviron (fun _ => none) (ascii "1&2"))).Safe := by
  have hdyn : doit 0 ⟨true, true, []⟩ executable zeroBuf zeroRio sumFd =
      .served (.dynamic (ascii "./cgi-bin/adder") (ascii "1&2")) := by decide +kernel
  have hline : requestLine (cstring (rioReadlineb (rioInitb zeroRio) sumFd MAXLINE).usrbuf) =
      some (ascii "GET", ascii "/cgi-bin/adder?1&2") := by decide +kernel
  exact (adder_safe_iff hline hdyn _).2 ⟨by decide +kernel, by decide +kernel⟩

/-- The program asked for without a query. -/
def bareFd : Fd := ⟨ascii "GET /cgi-bin/adder HTTP/1.0\r\n\r\n", [.count 64]⟩

/-- `QUERY_STRING` is empty, `strchr` returns `NULL`, and the adder writes through it. -/
theorem adder_null : doit 0 ⟨true, true, []⟩ executable zeroBuf zeroRio bareFd =
      .served (.dynamic (ascii "./cgi-bin/adder") []) ∧
    adder (childEnviron (fun _ => none) []) = .null ∧ ¬ (adder (childEnviron (fun _ => none) [])).Safe := by
  have hnull : adder (childEnviron (fun _ => none) []) = .null := by decide +kernel
  refine ⟨by decide +kernel, hnull, ?_⟩
  rintro ⟨content, heq, -⟩
  rw [hnull] at heq
  cases heq

end ComputerSystem.Tiny
