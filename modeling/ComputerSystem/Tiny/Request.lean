import ComputerSystem.Tiny.Headers
import ComputerSystem.Tiny.Put
/-!
# The request line, and what `doit` does without one

`Chapter11/tiny_web/tiny.c:89-143`. `buf`, `method` and `uri` are arrays of the stack that nobody clears.
`rio_readlineb` stores into the first, without a NUL when it fails, and `sscanf` into the other two only
as far as it finds words; `doit` looks at neither result. `Cells` are such arrays: an element is `none`
until something of the connection has been assigned to it, and a string of them is `none` when it goes
on over such an element.

| here            | there                                                                    |
|-----------------|--------------------------------------------------------------------------|
| `Cells.string`  | a use of an array as a string (`%s`, `strcasecmp`, `strstr`, `strrchr`, ...) |
| `scanString`    | one `%s` of `sscanf`                                                      |
| `putEnd`, `postEnd` | `serve_put`, `serve_post` on the array `uri`                          |
| `parseUriIn`    | `parse_uri`, `none` for `uri[strlen(uri) - 1]` in front of the array       |
| `DoitEnd`         | how `doit` ends                                                           |

`doit_proper_iff` says for which first lines `doit` is right. What is printed is left out but for the
`%s` of `:99`.
-/

namespace ComputerSystem.Tiny

open Rio

/-! ## Arrays -/

abbrev Cells := List (Option UInt8)

/-- `char a[MAXLINE]`. -/
def unassigned : Cells := List.replicate MAXLINE none

def Cells.store (a : Cells) (bytes : Bytes) : Cells := bytes.map some ++ a.drop bytes.length

/-- The string in an array; `none` when an element without a value is looked at. -/
def Cells.string : Cells → Option Bytes
  | [] => none
  | none :: _ => none
  | some b :: a => if b = 0 then some [] else (Cells.string a).map (b :: ·)

theorem string_nul (a : Cells) (bytes : Bytes) (h : (0 : UInt8) ∈ bytes) :
    Cells.string (bytes.map some ++ a) = some (cstring bytes) := by
  induction bytes with
  | nil => cases h
  | cons b bytes ih =>
    rw [List.map_cons, List.cons_append, Cells.string]
    by_cases hb : b = 0
    · subst hb
      rw [if_pos rfl, cstring, List.takeWhile_cons_of_neg (by simp)]
    · have hmem : (0 : UInt8) ∈ bytes := (List.mem_cons.1 h).resolve_left (Ne.symm hb)
      rw [if_neg hb, ih hmem, Option.map_some, cstring, cstring, List.takeWhile_cons_of_pos (by simpa using hb)]

theorem string_unassigned {a : Cells} (ha : a.string = none) (bytes : Bytes) (h : (0 : UInt8) ∉ bytes) :
    Cells.string (bytes.map some ++ a) = none := by
  induction bytes with
  | nil => exact ha
  | cons b bytes ih =>
    rw [List.mem_cons, not_or] at h
    rw [List.map_cons, List.cons_append, Cells.string, if_neg (Ne.symm h.1), ih h.2]
    rfl

/-- An array that has been filled with a string. -/
theorem string_store (a : Cells) {s : Bytes} (h : (0 : UInt8) ∉ s) : (a.store (s ++ [0])).string = some s := by
  rw [Cells.store, string_nul _ _ (by simp), cstring_append_nul, cstring_eq h]

theorem string_drop_unassigned (n : Nat) : Cells.string (unassigned.drop n) = none := by
  rw [unassigned, List.drop_replicate]
  cases MAXLINE - n <;> rfl

/-! ## The request line -/

/-- One `%s`: the next word, and what is behind it. -/
def scanString (s : Bytes) : Option (Bytes × Bytes) :=
  let t := s.dropWhile (isSpace ·)
  if t = [] then none else some (t.takeWhile (!isSpace ·), t.dropWhile (!isSpace ·))

structure Arrays where
  method  : Cells
  uri     : Cells
  version : Cells

/-- `sscanf(buf, "%s %s %s", method, uri, version)` (`:100`). -/
def sscanf (buf : Bytes) (a : Arrays) : Arrays :=
  match scanString buf with
  | none => a
  | some (method, buf) =>
    let a := { a with method := a.method.store (method ++ [0]) }
    match scanString buf with
    | none => a
    | some (uri, buf) =>
      let a := { a with uri := a.uri.store (uri ++ [0]) }
      match scanString buf with
      | none => a
      | some (version, _) => { a with version := a.version.store (version ++ [0]) }

/-- The buffer of `doit` behind `rio_readlineb`. -/
def lineCells (ret : Int) (line : Bytes) : Cells := unassigned.store (if ret < 0 then line else line ++ [0])

/-! ## `doit` -/

inductive DoitEnd
  /-- an element that nothing was assigned to has been used, or `uri[-1]` -/
  | undefined
  /-- it waits in a system call -/
  | blocked
  /-- the `return` of `:98` -/
  | returned
  /-- `clienterror`, and no file has been asked for -/
  | rejected (cause errnum shortmsg longmsg : Bytes)
  /-- what came of a `stat` -/
  | served (s : Served)
  /-- what came of an `open` in the upload directory -/
  | uploaded (p : Posted)
deriving DecidableEq, Repr

/-- `serve_put` (`:294`): behind the test of the length `upload_path` uses the URI. -/
def putEnd (env : Env) (uri : Cells) (contentLength : Int) (rp : RioT) (fd : Fd) : DoitEnd :=
  if contentLength < 0 then
    .rejected (ascii "PUT") (ascii "411") (ascii "Length Required")
      (ascii "PUT requires a Content-Length header")
  else match uri.string with
  | none => .undefined
  | some uri => .uploaded (servePut env uri contentLength rp fd)

/-- `serve_post` (`:338`): the URI is used unless a part of the body has a file name (`:399-400`). -/
def postEnd (env : Env) (uri : Cells) (contentLength : Int) (contentType : Bytes) (rp : RioT) (fd : Fd) : DoitEnd :=
  if contentLength < 0 then
    .rejected (ascii "POST") (ascii "411") (ascii "Length Required")
      (ascii "POST requires a Content-Length header")
  else if contentLength > MAX_UPLOAD then
    .rejected (ascii "POST") (ascii "413") (ascii "Payload Too Large")
      (ascii "Tiny caps POST uploads (see MAX_UPLOAD)")
  else if !env.malloc then
    .rejected (ascii "POST") (ascii "500") (ascii "Internal Server Error") (ascii "out of memory")
  else match receiveLoop contentLength.toNat contentLength.toNat [] rp fd with
  | none => .blocked
  | some body =>
    let filename := cstring (decode contentType body).filename
    match if filename ≠ [] then some filename else uri.string with
    | none => .undefined
    | some name => .uploaded (servePost env name contentLength contentType rp fd)

/-- `parse_uri` (`:175`) with its index (`:180`). -/
def parseUriIn (uri : Bytes) : Option ParsedUri :=
  let last : Int := uri.length - 1
  if find (ascii "cgi-bin") uri = none ∧ last < 0 then none else some (parseUri uri)

/-- From the method on (`:107-142`). -/
def answer (env : Env) (stat : Bytes → Option Stat) (a : Arrays) (h : Headers) : DoitEnd :=
  match a.method.string with
  | none => .undefined
  | some method =>
    if equalFold method (ascii "PUT") then putEnd env a.uri h.contentLength h.rio h.fd
    else if equalFold method (ascii "POST") then postEnd env a.uri h.contentLength h.contentType h.rio h.fd
    else if !equalFold method (ascii "GET") then
      .rejected method (ascii "501") (ascii "Not Implemented") (ascii "Tiny does not implement this method")
    else match a.uri.string with
    | none => .undefined
    | some uri => match parseUriIn uri with
      | none => .undefined
      | some parsed => .served (dispatch method uri (stat parsed.filename))

/-- `doit` (`:89`). The header lines are read into an array of their own, `hdr`, for at most `turns` turns of
the loop of `read_requesthdrs`. -/
def doit (turns : Nat) (env : Env) (stat : Bytes → Option Stat) (hdr : Bytes) (rp : RioT) (fd : Fd) : DoitEnd :=
  match rioReadlineb (rioInitb rp) fd MAXLINE with
  | ⟨none, _, _, _⟩ => .blocked
  | ⟨some ret, line, rp, fd⟩ =>
    if ret = 0 then .returned
    else match (lineCells ret line).string with
    | none => .undefined
    | some buf =>
      let a := sscanf buf ⟨unassigned, unassigned, unassigned⟩
      match readRequesthdrs turns ⟨-1, [], hdr, rp, fd⟩ with
      | .returned h => answer env stat a h
      | _ => .blocked

/-- As an end of `serve_put` or `serve_post`. -/
def DoitEnd.posted : DoitEnd → Option Posted
  | .rejected cause errnum shortmsg longmsg => some (.clienterror cause errnum shortmsg longmsg)
  | .blocked => some .blocked
  | .uploaded p => some p
  | _ => none

/-- On a string the two are `serve_put` and `serve_post`. -/
theorem putEnd_posted {uri : Cells} {s : Bytes} (hs : uri.string = some s) (env : Env) (contentLength : Int) (rp : RioT)
    (fd : Fd) : (putEnd env uri contentLength rp fd).posted = some (servePut env s contentLength rp fd) := by
  unfold putEnd
  split
  · rename_i hneg
    rw [servePut, if_pos hneg]
    rfl
  · rw [hs]
    rfl

theorem postEnd_posted {uri : Cells} {s : Bytes} (hs : uri.string = some s) (env : Env) (contentLength : Int)
    (contentType : Bytes) (rp : RioT) (fd : Fd) :
    (postEnd env uri contentLength contentType rp fd).posted = some (servePost env s contentLength contentType rp fd) := by
  unfold postEnd servePost
  split
  · rfl
  · split
    · rfl
    · split
      · rfl
      · cases hbody : receiveLoop contentLength.toNat contentLength.toNat [] rp fd with
        | none => rfl
        | some body =>
          rw [hs]
          by_cases hname : cstring (decode contentType body).filename = []
          · simp only [hname, ne_eq, not_true_eq_false, if_false, DoitEnd.posted]
          · simp only [hname, ne_eq, not_false_eq_true, if_true, DoitEnd.posted]

/-! ## The words of a line -/

/-- The first word. -/
def requestMethod (s : Bytes) : Option Bytes := (scanString s).map (·.1)

/-- The first two. -/
def requestLine (s : Bytes) : Option (Bytes × Bytes) :=
  (scanString s).bind fun p => (scanString p.2).map fun q => (p.1, q.1)

theorem scanString_word {s w t : Bytes} (h : scanString s = some (w, t)) (h0 : (0 : UInt8) ∉ s) :
    w ≠ [] ∧ (0 : UInt8) ∉ w ∧ (0 : UInt8) ∉ t := by
  simp only [scanString] at h
  split at h
  · cases h
  · rename_i hne
    cases h
    have hsub : ∀ b ∈ s.dropWhile (isSpace ·), b ∈ s := fun b hb => (List.dropWhile_suffix _).subset hb
    refine ⟨?_, fun hb => h0 (hsub _ ((List.takeWhile_prefix _).subset hb)),
      fun hb => h0 (hsub _ ((List.dropWhile_suffix _).subset hb))⟩
    have hhead := List.head?_dropWhile_not (p := (isSpace ·)) s
    cases hs : s.dropWhile (isSpace ·) with
    | nil => exact absurd hs hne
    | cons b t =>
      rw [hs] at hhead
      rw [List.takeWhile_cons_of_pos (by simpa using hhead)]
      exact List.cons_ne_nil _ _

/-- **What `sscanf` leaves** in arrays without a value. -/
theorem sscanf_spec {buf : Bytes} (h0 : (0 : UInt8) ∉ buf) :
    (sscanf buf ⟨unassigned, unassigned, unassigned⟩).method.string = requestMethod buf ∧
      (sscanf buf ⟨unassigned, unassigned, unassigned⟩).uri.string = (requestLine buf).map (·.2) := by
  have hnone : Cells.string unassigned = none := string_drop_unassigned 0
  unfold sscanf requestMethod requestLine
  cases hm : scanString buf with
  | none => exact ⟨hnone, hnone⟩
  | some p =>
    obtain ⟨-, hm0, ht0⟩ := scanString_word hm h0
    simp only [Option.map_some, Option.bind_some]
    cases hu : scanString p.2 with
    | none => exact ⟨string_store _ hm0, hnone⟩
    | some q =>
      obtain ⟨-, hu0, -⟩ := scanString_word hu ht0
      simp only [Option.map_some]
      cases scanString q.2 with
      | none => exact ⟨string_store _ hm0, string_store _ hu0⟩
      | some r => exact ⟨string_store _ hm0, string_store _ hu0⟩

theorem requestLine_uri {buf m u : Bytes} (h : requestLine buf = some (m, u)) (h0 : (0 : UInt8) ∉ buf) :
    requestMethod buf = some m ∧ u ≠ [] := by
  unfold requestLine at h
  unfold requestMethod
  cases hm : scanString buf with
  | none =>
    rw [hm] at h
    cases h
  | some p =>
    rw [hm, Option.bind_some, Option.map_eq_some_iff] at h
    obtain ⟨q, hq, heq⟩ := h
    cases heq
    obtain ⟨-, -, ht0⟩ := scanString_word hm h0
    exact ⟨rfl, (scanString_word hq ht0).1⟩

/-- The words of a string are strings. -/
theorem requestLine_nul {buf m u : Bytes} (h : requestLine buf = some (m, u)) (h0 : (0 : UInt8) ∉ buf) :
    (0 : UInt8) ∉ m ∧ (0 : UInt8) ∉ u := by
  obtain ⟨p, hm, hmap⟩ := Option.bind_eq_some_iff.1 h
  obtain ⟨q, hu, heq⟩ := Option.map_eq_some_iff.1 hmap
  cases heq
  obtain ⟨-, hm0, ht0⟩ := scanString_word hm h0
  exact ⟨hm0, (scanString_word hu ht0).2.1⟩

/-- Both words lie in the line. -/
theorem requestLine_length {buf m u : Bytes} (h : requestLine buf = some (m, u)) : m.length + u.length ≤ buf.length := by
  have hword : ∀ {s w t : Bytes}, scanString s = some (w, t) → w.length + t.length ≤ s.length := by
    intro s w t hs
    simp only [scanString] at hs
    split at hs
    · cases hs
    · cases hs
      have hle := (List.dropWhile_suffix (isSpace ·) (l := s)).length_le
      have hsplit := congrArg List.length (List.takeWhile_append_dropWhile (p := (!isSpace ·)) (l := s.dropWhile (isSpace ·)))
      rw [List.length_append] at hsplit
      omega
  obtain ⟨p, hm, hmap⟩ := Option.bind_eq_some_iff.1 h
  obtain ⟨q, hu, heq⟩ := Option.map_eq_some_iff.1 hmap
  cases heq
  have hfirst := hword hm
  have hsecond := hword hu
  omega

/-! ## How it ends -/

/-- The method and the length get the request an error answer, whatever is in `uri`. -/
def Refused (env : Env) (method : Bytes) (contentLength : Int) : Prop :=
  equalFold method (ascii "GET") = false ∧
    (equalFold method (ascii "PUT") = true → contentLength < 0) ∧
    (equalFold method (ascii "POST") = true → contentLength < 0 ∨ contentLength > MAX_UPLOAD ∨ env.malloc = false)

def DoitEnd.IsRejected (e : DoitEnd) : Prop := ∃ cause errnum shortmsg longmsg, e = .rejected cause errnum shortmsg longmsg

theorem putEnd_rejected (env : Env) (uri : Cells) (contentLength : Int) (rp : RioT) (fd : Fd) :
    (putEnd env uri contentLength rp fd).IsRejected ↔ contentLength < 0 := by
  unfold putEnd
  split
  · rename_i h
    exact ⟨fun _ => h, fun _ => ⟨_, _, _, _, rfl⟩⟩
  · rename_i h
    refine ⟨?_, fun hneg => absurd hneg h⟩
    rintro ⟨_, _, _, _, heq⟩
    split at heq <;> cases heq

theorem postEnd_rejected (env : Env) (uri : Cells) (contentLength : Int) (contentType : Bytes) (rp : RioT) (fd : Fd) :
    (postEnd env uri contentLength contentType rp fd).IsRejected ↔
      contentLength < 0 ∨ contentLength > MAX_UPLOAD ∨ env.malloc = false := by
  unfold postEnd
  split
  · rename_i h
    exact ⟨fun _ => .inl h, fun _ => ⟨_, _, _, _, rfl⟩⟩
  · rename_i hlen
    split
    · rename_i h
      exact ⟨fun _ => .inr (.inl h), fun _ => ⟨_, _, _, _, rfl⟩⟩
    · rename_i hmax
      split
      · rename_i h
        exact ⟨fun _ => .inr (.inr (by simpa using h)), fun _ => ⟨_, _, _, _, rfl⟩⟩
      · rename_i hmalloc
        constructor
        · rintro ⟨_, _, _, _, heq⟩
          split at heq
          · cases heq
          · simp only at heq
            split at heq <;> cases heq
        · rintro (h | h | h)
          · exact absurd h hlen
          · exact absurd h hmax
          · rw [h] at hmalloc
            exact absurd rfl hmalloc

theorem equalFold_iff {a b : Bytes} : equalFold a b = true ↔ a.map toLower = b.map toLower := by
  rw [equalFold, decide_eq_true_eq]

/-- A method is one of the three at most. -/
theorem equalFold_ne {m a b : Bytes} (hab : a.map toLower ≠ b.map toLower) (ha : equalFold m a = true) :
    equalFold m b = false := by
  rw [← Bool.not_eq_true, equalFold_iff]
  rw [equalFold_iff] at ha
  rw [ha]
  exact hab

theorem answer_rejected (env : Env) (stat : Bytes → Option Stat) {a : Arrays} (h : Headers) {method : Bytes}
    (hm : a.method.string = some method) : (answer env stat a h).IsRejected ↔ Refused env method h.contentLength := by
  simp only [answer, hm]
  split
  · rename_i hput
    have hget := equalFold_ne (b := ascii "GET") (by decide) hput
    have hpost := equalFold_ne (b := ascii "POST") (by decide) hput
    rw [putEnd_rejected]
    refine ⟨fun hneg => ⟨hget, fun _ => hneg, fun h => ?_⟩, fun hr => hr.2.1 hput⟩
    rw [hpost] at h
    cases h
  · rename_i hput
    split
    · rename_i hpost
      have hget := equalFold_ne (b := ascii "GET") (by decide) hpost
      rw [postEnd_rejected]
      exact ⟨fun hc => ⟨hget, fun h => absurd h hput, fun _ => hc⟩, fun hr => hr.2.2 hpost⟩
    · rename_i hpost
      split
      · rename_i hget
        rw [Bool.not_eq_true'] at hget
        exact ⟨fun _ => ⟨hget, fun h => absurd h hput, fun h => absurd h hpost⟩, fun _ => ⟨_, _, _, _, rfl⟩⟩
      · rename_i hget
        rw [Bool.not_eq_true', Bool.not_eq_false] at hget
        constructor
        · rintro ⟨_, _, _, _, heq⟩
          split at heq
          · cases heq
          · split at heq <;> cases heq
        · rintro ⟨hno, -⟩
          rw [hget] at hno
          cases hno

/-- With both words nothing without a value is used. -/
theorem answer_defined {env : Env} {stat : Bytes → Option Stat} {a : Arrays} {h : Headers} {method uri : Bytes}
    (hm : a.method.string = some method) (hu : a.uri.string = some uri) (hne : uri ≠ []) :
    answer env stat a h ≠ .undefined := by
  simp only [answer, hm]
  split
  · intro heq
    have hput := putEnd_posted hu env h.contentLength h.rio h.fd
    rw [heq] at hput
    cases hput
  · split
    · intro heq
      have hpost := postEnd_posted hu env h.contentLength h.contentType h.rio h.fd
      rw [heq] at hpost
      cases hpost
    · split
      · simp
      · have hpos := List.length_pos_iff.2 hne
        have hlast : ¬ (find (ascii "cgi-bin") uri = none ∧ (uri.length : Int) - 1 < 0) := by
          rintro ⟨-, hneg⟩
          omega
        simp only [hu, parseUriIn, if_neg hlast]
        simp

/-- Neither of the two ends as a request without an upload does. -/
theorem putEnd_upload (env : Env) (uri : Cells) (contentLength : Int) (rp : RioT) (fd : Fd) :
    putEnd env uri contentLength rp fd ≠ .returned ∧ ∀ s, putEnd env uri contentLength rp fd ≠ .served s := by
  unfold putEnd
  split
  · simp
  · split <;> simp

theorem postEnd_upload (env : Env) (uri : Cells) (contentLength : Int) (contentType : Bytes) (rp : RioT) (fd : Fd) :
    postEnd env uri contentLength contentType rp fd ≠ .returned ∧
      ∀ s, postEnd env uri contentLength contentType rp fd ≠ .served s := by
  unfold postEnd
  split
  · simp
  · split
    · simp
    · split
      · simp
      · split
        · simp
        · simp only
          split <;> simp

theorem answer_ne_returned (env : Env) (stat : Bytes → Option Stat) (a : Arrays) (h : Headers) :
    answer env stat a h ≠ .returned := by
  unfold answer
  split
  · simp
  · split
    · exact (putEnd_upload _ _ _ _ _).1
    · split
      · exact (postEnd_upload _ _ _ _ _ _).1
      · split
        · simp
        · split
          · simp
          · split <;> simp

/-- What is served is what `dispatch` says of the two words. -/
theorem answer_served {env : Env} {stat : Bytes → Option Stat} {a : Arrays} {h : Headers} {s : Served}
    (hs : answer env stat a h = .served s) : ∃ method uri, a.method.string = some method ∧ a.uri.string = some uri ∧
      s = dispatch method uri (stat (parseUri uri).filename) := by
  unfold answer at hs
  split at hs
  · cases hs
  · rename_i method hm
    split at hs
    · exact absurd hs ((putEnd_upload _ _ _ _ _).2 s)
    · split at hs
      · exact absurd hs ((postEnd_upload _ _ _ _ _ _).2 s)
      · split at hs
        · cases hs
        · split at hs
          · cases hs
          · rename_i uri hu
            split at hs
            · cases hs
            · rename_i parsed hparsed
              have hparsed : parsed = parseUri uri := by
                unfold parseUriIn at hparsed
                simp only at hparsed
                split at hparsed
                · cases hparsed
                · exact (Option.some.inj hparsed).symm
              cases hs
              exact ⟨method, uri, hm, hu, by rw [hparsed]⟩

/-! ## First lines -/

/-- The string that `doit` finds in `buf`. -/
theorem lineCells_string (ret : Int) (line : Bytes) :
    (lineCells ret line).string = if 0 ≤ ret ∨ (0 : UInt8) ∈ line then some (cstring line) else none := by
  unfold lineCells Cells.store
  by_cases hneg : ret < 0
  · rw [if_pos hneg]
    by_cases h0 : (0 : UInt8) ∈ line
    · rw [string_nul _ _ h0, if_pos (.inr h0)]
    · rw [string_unassigned (string_drop_unassigned _) _ h0, if_neg]
      rintro (h | h)
      · omega
      · exact h0 h
  · rw [if_neg hneg, string_nul _ _ (by simp), cstring_append_nul, if_pos (.inl (by omega))]

/-- A line and a header block that `doit` comes to the end of. -/
theorem doit_answer {turns : Nat} {env : Env} {stat : Bytes → Option Stat} {hdr : Bytes} {rp : RioT} {fd : Fd}
    {ret : Int} {h : Headers} (hret : (rioReadlineb (rioInitb rp) fd MAXLINE).ret = some ret) (hpos : 0 < ret)
    (hhdr : readRequesthdrs turns ⟨-1, [], hdr, (rioReadlineb (rioInitb rp) fd MAXLINE).rio,
      (rioReadlineb (rioInitb rp) fd MAXLINE).fd⟩ = .returned h) :
    doit turns env stat hdr rp fd =
      answer env stat (sscanf (cstring (rioReadlineb (rioInitb rp) fd MAXLINE).usrbuf) ⟨unassigned, unassigned, unassigned⟩) h := by
  unfold doit
  generalize rioReadlineb (rioInitb rp) fd MAXLINE = c at hret hhdr ⊢
  obtain ⟨_, line, rp', fd'⟩ := c
  obtain rfl : _ = some ret := hret
  have hnonneg : 0 ≤ ret ∨ (0 : UInt8) ∈ line := .inl (by omega)
  simp only [if_neg (show ¬ ret = 0 by omega), lineCells_string, if_pos hnonneg, hhdr]

/-- A line, and no end of the header block. -/
theorem doit_waits {turns : Nat} {env : Env} {stat : Bytes → Option Stat} {hdr : Bytes} {rp : RioT} {fd : Fd}
    {ret : Int} (hret : (rioReadlineb (rioInitb rp) fd MAXLINE).ret = some ret) (hpos : 0 < ret)
    (hhdr : ∀ h, readRequesthdrs turns ⟨-1, [], hdr, (rioReadlineb (rioInitb rp) fd MAXLINE).rio,
      (rioReadlineb (rioInitb rp) fd MAXLINE).fd⟩ ≠ .returned h) :
    doit turns env stat hdr rp fd = .blocked := by
  unfold doit
  generalize rioReadlineb (rioInitb rp) fd MAXLINE = c at hret hhdr ⊢
  obtain ⟨_, line, rp', fd'⟩ := c
  obtain rfl : _ = some ret := hret
  have hnonneg : 0 ≤ ret ∨ (0 : UInt8) ∈ line := .inl (by omega)
  simp only [if_neg (show ¬ ret = 0 by omega), lineCells_string, if_pos hnonneg]

/-- The words of the line stand behind whatever is served. -/
theorem doit_served {turns : Nat} {env : Env} {stat : Bytes → Option Stat} {hdr : Bytes} {rp : RioT} {fd : Fd}
    {s : Served} (hs : doit turns env stat hdr rp fd = .served s) :
    ∃ method uri, requestLine (cstring (rioReadlineb (rioInitb rp) fd MAXLINE).usrbuf) = some (method, uri) ∧
      s = dispatch method uri (stat (parseUri uri).filename) := by
  unfold doit at hs
  generalize rioReadlineb (rioInitb rp) fd MAXLINE = c at hs ⊢
  obtain ⟨ret, line, rp', fd'⟩ := c
  cases ret with
  | none => cases hs
  | some ret =>
    simp only [lineCells_string] at hs
    split at hs
    · cases hs
    · split at hs
      · cases hs
      · rename_i buf hbuf
        obtain rfl : cstring line = buf := by
          split at hbuf
          · exact Option.some.inj hbuf
          · cases hbuf
        split at hs
        · obtain ⟨method, uri, hm, hu, rfl⟩ := answer_served hs
          have h0 := cstring_nul line
          obtain ⟨hmethod, huri⟩ := sscanf_spec h0
          rw [hmethod] at hm
          rw [huri, Option.map_eq_some_iff] at hu
          obtain ⟨⟨m, u⟩, hl, rfl⟩ := hu
          have hm' := (requestLine_uri hl h0).1
          rw [hm] at hm'
          cases hm'
          exact ⟨method, u, hl, rfl⟩
        · cases hs

/-- What is asked of `doit` when `rio_readlineb` returned `ret` and stored `line`: it uses no element without
a value and no negative index, and what is no line with a method and a URI ends in an error answer or in
the return at once, before any file is asked for. -/
structure Proper (ret : Int) (line : Bytes) (e : DoitEnd) : Prop where
  defined : e ≠ .undefined
  refuses : ret < 0 ∨ requestLine (cstring line) = none → e = .returned ∨ e.IsRejected

/-- The end of the file, a line with a method and a URI, or a string with a method that gets an error answer
whatever the URI is. -/
def Harmless (env : Env) (ret : Int) (line : Bytes) (contentLength : Int) : Prop :=
  ret = 0 ∨ 0 < ret ∧ requestLine (cstring line) ≠ none ∨
    (0 ≤ ret ∨ (0 : UInt8) ∈ line) ∧ ∃ method, requestMethod (cstring line) = some method ∧ Refused env method contentLength

theorem DoitEnd.IsRejected.ne_undefined {e : DoitEnd} (h : e.IsRejected) : e ≠ .undefined := by
  obtain ⟨_, _, _, _, rfl⟩ := h
  simp

/-- **Malformed requests.** For every outcome of the first `rio_readlineb`, followed by a header block that
`read_requesthdrs` comes to the end of. -/
theorem doit_proper_iff {turns : Nat} {env : Env} {stat : Bytes → Option Stat} {hdr : Bytes} {rp : RioT} {fd : Fd}
    {ret : Int} {h : Headers} (hret : (rioReadlineb (rioInitb rp) fd MAXLINE).ret = some ret)
    (hhdr : ret ≠ 0 → readRequesthdrs turns ⟨-1, [], hdr, (rioReadlineb (rioInitb rp) fd MAXLINE).rio,
      (rioReadlineb (rioInitb rp) fd MAXLINE).fd⟩ = .returned h) :
    Proper ret (rioReadlineb (rioInitb rp) fd MAXLINE).usrbuf (doit turns env stat hdr rp fd) ↔
      Harmless env ret (rioReadlineb (rioInitb rp) fd MAXLINE).usrbuf h.contentLength := by
  unfold doit
  generalize rioReadlineb (rioInitb rp) fd MAXLINE = c at hret hhdr ⊢
  obtain ⟨_, line, rp', fd'⟩ := c
  obtain rfl : _ = some ret := hret
  by_cases hzero : ret = 0
  · subst hzero
    exact ⟨fun _ => .inl rfl, fun _ => ⟨by simp, fun _ => .inl rfl⟩⟩
  · simp only [if_neg hzero, lineCells_string]
    by_cases hstring : 0 ≤ ret ∨ (0 : UInt8) ∈ line
    · simp only [if_pos hstring, hhdr hzero]
      have h0 := cstring_nul line
      obtain ⟨hmethod, huri⟩ := sscanf_spec h0
      cases hm : requestMethod (cstring line) with
      | none =>
        -- no word: the method itself has no value
        have hline : requestLine (cstring line) = none := by
          cases hl : requestLine (cstring line) with
          | none => rfl
          | some p =>
            rw [(requestLine_uri hl h0).1] at hm
            cases hm
        rw [hm] at hmethod
        constructor
        · intro hp
          exact absurd (by simp only [answer, hmethod]) hp.defined
        · rintro (h | ⟨-, h⟩ | ⟨-, m, h, -⟩)
          · exact absurd h hzero
          · exact absurd hline h
          · rw [hm] at h
            cases h
      | some method =>
        rw [hm] at hmethod
        have hrejected := answer_rejected env stat h hmethod
        by_cases hwhole : 0 < ret ∧ requestLine (cstring line) ≠ none
        · -- a line with both words
          obtain ⟨⟨m, u⟩, hl⟩ := Option.ne_none_iff_exists'.1 hwhole.2
          obtain ⟨-, hne⟩ := requestLine_uri hl h0
          rw [hl, Option.map_some] at huri
          refine ⟨fun _ => .inr (.inl hwhole), fun _ => ⟨answer_defined hmethod huri hne, ?_⟩⟩
          rintro (hneg | hnone)
          · omega
          · exact absurd hnone hwhole.2
        · -- only an error answer will do
          have hbad : ret < 0 ∨ requestLine (cstring line) = none := by
            by_contra hno
            rw [not_or] at hno
            exact hwhole ⟨by omega, hno.2⟩
          constructor
          · intro hp
            rcases hp.refuses hbad with hr | hr
            · exact absurd hr (answer_ne_returned _ _ _ _)
            · exact .inr (.inr ⟨hstring, method, hm, hrejected.1 hr⟩)
          · rintro (h | h | ⟨-, m, hm', hr⟩)
            · exact absurd h hzero
            · exact absurd h hwhole
            · rw [hm] at hm'
              cases hm'
              have hans := hrejected.2 hr
              exact ⟨hans.ne_undefined, fun _ => .inr hans⟩
    · -- a failed read without a NUL: `buf` has no end
      simp only [if_neg hstring]
      refine ⟨fun hp => absurd rfl hp.defined, ?_⟩
      rw [not_or] at hstring
      rintro (h | ⟨hpos, -⟩ | ⟨h | h, -⟩)
      · exact absurd h hzero
      · omega
      · exact absurd h hstring.1
      · exact absurd h hstring.2

/-- `GET / HTTP/1.0` and no header. -/
def getFd : Fd := ⟨ascii "GET / HTTP/1.0\r\n\r\n", [.count 64]⟩

theorem doit_proper_iff_get :
    Proper 16 (rioReadlineb (rioInitb zeroRio) getFd MAXLINE).usrbuf
        (doit 0 ⟨true, true, []⟩ (fun _ => none) zeroBuf zeroRio getFd) ↔
      Harmless ⟨true, true, []⟩ 16 (rioReadlineb (rioInitb zeroRio) getFd MAXLINE).usrbuf (-1) :=
  doit_proper_iff (h := ⟨-1, [], _, _, _⟩) (by decide +kernel) (fun _ => rfl)

/-- A blank first line, and no header. -/
def blankFd : Fd := ⟨ascii "\r\n\r\n", [.count 4]⟩

/-- The method that `doit` compares has never been assigned to. -/
theorem doit_blank : (rioReadlineb (rioInitb zeroRio) blankFd MAXLINE).ret = some 2 ∧
    (∃ h, readRequesthdrs 0 ⟨-1, [], zeroBuf, (rioReadlineb (rioInitb zeroRio) blankFd MAXLINE).rio,
      (rioReadlineb (rioInitb zeroRio) blankFd MAXLINE).fd⟩ = .returned h) ∧
    ¬ Proper 2 (rioReadlineb (rioInitb zeroRio) blankFd MAXLINE).usrbuf
      (doit 0 ⟨true, true, []⟩ (fun _ => none) zeroBuf zeroRio blankFd) := by
  refine ⟨by decide +kernel, ⟨_, rfl⟩, fun h => ?_⟩
  have hundefined : doit 0 ⟨true, true, []⟩ (fun _ => none) zeroBuf zeroRio blankFd = .undefined := by decide +kernel
  exact h.defined hundefined

end ComputerSystem.Tiny
