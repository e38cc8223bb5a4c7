import Mathlib.Data.List.TakeWhile
import ComputerSystem.Tiny.Put
/-!
# Uploads stay in the upload directory (`Chapter11/tiny_web/tiny.c:257-268`)

`upload_path` keeps what is behind the last `/` of a name, and takes `upload.bin` where that would be the
directory or the one above it; `uploadPath_contained` says so of every string, also of one that is cut.
The string is the URI or the file name of a part, and an array is read up to its first NUL (`cstring`).
`contained_resolve` is what it is for: such a path leads to an entry of the directory.

| here                    | there                                                               |
|-------------------------|---------------------------------------------------------------------|
| `putOpens`, `postOpens` | the path that is given to `open` (`:304`, `:402`); `none` without a call |
| `visit`, `resolve`      | where a path leads to, by its components                              |
-/

namespace ComputerSystem.Tiny

open Rio

/-! ## Paths -/

/-- One component of a path. -/
def visit (dir : List Bytes) (component : Bytes) : List Bytes :=
  if component = [] ∨ component = ascii "." then dir
  else if component = ascii ".." then dir.dropLast
  else dir ++ [component]

def resolve (dir : List Bytes) (path : Bytes) : List Bytes := (path.splitOn slash).foldl visit dir

/-- One component below the upload directory, and the path as a C string is whole. -/
structure Contained (path base : Bytes) : Prop where
  below  : path = UPLOAD_DIR ++ [slash] ++ base
  ne_nil : base ≠ []
  single : slash ∉ base
  dot    : base ≠ ascii "."
  dotdot : base ≠ ascii ".."
  nul    : (0 : UInt8) ∉ path
  fits   : path.length < MAXLINE

/-- **It leads to an entry of the directory**, wherever the server runs. -/
theorem contained_resolve {path base : Bytes} (h : Contained path base) (dir : List Bytes) :
    resolve dir path = dir ++ [ascii "uploads", base] := by
  have hpath : path = ascii "." ++ slash :: (ascii "uploads" ++ slash :: base) := h.below
  have hsplit : path.splitOn slash = [ascii ".", ascii "uploads", base] := by
    rw [hpath, List.splitOn_append_cons_self_of_not_mem (by decide), List.splitOn_append_cons_self_of_not_mem (by decide),
      List.splitOn_eq_singleton h.single]
  have hbase : ¬ (base = [] ∨ base = ascii ".") := fun hor => hor.elim h.ne_nil h.dot
  have hdir : ¬ (ascii "uploads" = [] ∨ ascii "uploads" = ascii ".") := by decide
  rw [resolve, hsplit]
  simp only [List.foldl_cons, List.foldl_nil, visit, if_neg hbase, if_neg h.dotdot, if_neg hdir,
    if_neg (show ¬ ascii "uploads" = ascii ".." by decide)]
  simp

/-! ## `upload_path` -/

theorem basename_slash (name : Bytes) : slash ∉ basename name := by
  intro hmem
  have hne := List.mem_takeWhile_imp (List.mem_reverse.1 hmem)
  simp at hne

theorem basename_subset {name : Bytes} {c : UInt8} (h : c ∈ basename name) : c ∈ name :=
  List.mem_reverse.1 ((List.takeWhile_sublist _).subset (List.mem_reverse.1 h))

/-- The name is one component, other than those that stand for a directory. -/
theorem uploadName_component (name : Bytes) :
    uploadName name ≠ [] ∧ slash ∉ uploadName name ∧ uploadName name ≠ ascii "." ∧ uploadName name ≠ ascii ".." := by
  unfold uploadName
  simp only
  split
  · decide
  · rename_i hbase
    rw [not_or, not_or] at hbase
    exact ⟨hbase.1, basename_slash name, hbase.2.1, hbase.2.2⟩

theorem uploadName_nul {name : Bytes} (h : (0 : UInt8) ∉ name) : (0 : UInt8) ∉ uploadName name := by
  unfold uploadName
  simp only
  split
  · decide
  · exact fun hmem => h (basename_subset hmem)

/-- What is cut is too long for a dot or two. -/
theorem take_ne {base short : Bytes} {n : Nat} (h : base ≠ short) (hn : short.length < n) : base.take n ≠ short := by
  intro heq
  have hlen := congrArg List.length heq
  rw [List.length_take] at hlen
  rw [List.take_of_length_le (by omega)] at heq
  exact h heq

/-- **`upload_path`** of any string. -/
theorem uploadPath_contained {name : Bytes} (h : (0 : UInt8) ∉ name) :
    Contained (uploadPath name) ((uploadName name).take (MAXLINE - 11)) := by
  obtain ⟨hne, hslash, hdot, hdotdot⟩ := uploadName_component name
  have hcut := uploadPath_cut name
  refine ⟨hcut, take_ne hne (by decide), fun hmem => hslash (List.mem_of_mem_take hmem), take_ne hdot (by decide),
    take_ne hdotdot (by decide), ?_, ?_⟩
  · rw [hcut, List.mem_append]
    rintro (hmem | hmem)
    · revert hmem
      decide
    · exact uploadName_nul h (List.mem_of_mem_take hmem)
  · unfold uploadPath snprintf
    rw [List.length_take]
    have hpos : 0 < MAXLINE := by decide
    omega

/-! ## The handlers -/

def putOpens (uri : Bytes) (contentLength : Int) : Option Bytes :=
  if contentLength < 0 then none else some (uploadPath uri)

def postOpens (env : Env) (uri : Bytes) (contentLength : Int) (contentType : Bytes) (rp : RioT) (fd : Fd) : Option Bytes :=
  if contentLength < 0 ∨ contentLength > MAX_UPLOAD ∨ env.malloc = false then none
  else (receiveLoop contentLength.toNat contentLength.toNat [] rp fd).map fun body =>
    let filename := cstring (decode contentType body).filename
    uploadPath (if filename ≠ [] then filename else uri)

section
variable {env : Env} {uri contentType : Bytes} {contentLength : Int} {rp : RioT} {fd : Fd} {savepath file : Bytes} {n : Int}

/-- What `serve_put` saves it saves to the file that it opened. -/
theorem put_saved_opens (h : servePut env uri contentLength rp fd = .saved savepath file n) :
    putOpens uri contentLength = some savepath := by
  obtain ⟨h0, rfl, -⟩ := servePut_saved h
  exact if_neg (Int.not_lt.2 h0)

theorem post_saved_opens (h : servePost env uri contentLength contentType rp fd = .saved savepath file n) :
    postOpens env uri contentLength contentType rp fd = some savepath := by
  obtain ⟨h0, hmax, hmalloc, body, -, hbody, rfl, -⟩ := servePost_saved h
  have hserved : ¬ (contentLength < 0 ∨ contentLength > MAX_UPLOAD ∨ env.malloc = false) := by
    rw [hmalloc]
    simp only [Bool.true_eq_false, or_false]
    omega
  rw [postOpens, if_neg hserved, hbody]
  rfl

end

theorem opens_contained {env : Env} {uri : Bytes} {contentLength : Int} {contentType : Bytes} {rp : RioT} {fd : Fd}
    {path : Bytes} (hopen : putOpens (cstring uri) contentLength = some path ∨
      postOpens env (cstring uri) contentLength contentType rp fd = some path) : ∃ base, Contained path base := by
  rcases hopen with hput | hpost
  · unfold putOpens at hput
    split at hput
    · cases hput
    · cases hput
      exact ⟨_, uploadPath_contained (cstring_nul uri)⟩
  · unfold postOpens at hpost
    split at hpost
    · cases hpost
    · obtain ⟨body, -, rfl⟩ := Option.map_eq_some_iff.1 hpost
      refine ⟨_, uploadPath_contained ?_⟩
      split
      · exact cstring_nul _
      · exact cstring_nul uri

/-- **Uploads stay in the upload directory**, for any bytes in the array `uri` and any body. -/
theorem uploads_contained (env : Env) (uri : Bytes) (contentLength : Int) (contentType : Bytes) (rp : RioT) (fd : Fd)
    (path : Bytes) (hopen : putOpens (cstring uri) contentLength = some path ∨
      postOpens env (cstring uri) contentLength contentType rp fd = some path) :
    ∃ base, path = ascii "./uploads/" ++ base ∧ base ≠ [] ∧ slash ∉ base ∧ base ≠ ascii "." ∧ base ≠ ascii ".." ∧
      cstring path = path ∧ path.length < MAXLINE := by
  obtain ⟨base, h⟩ := opens_contained hopen
  exact ⟨base, h.below, h.ne_nil, h.single, h.dot, h.dotdot, cstring_eq h.nul, h.fits⟩

/-- A URI that climbs, with more bytes behind its NUL. -/
theorem uploads_contained_climbing : ∃ base, ascii "./uploads/upload.bin" = ascii "./uploads/" ++ base ∧ slash ∉ base := by
  obtain ⟨base, hpath, -, hslash, -⟩ := uploads_contained ⟨true, true, []⟩ (ascii "/../.." ++ 0 :: ascii "/passwd") 5 []
    (rioInitb zeroRio) ⟨[], []⟩ (ascii "./uploads/upload.bin") (.inl (by decide))
  exact ⟨base, hpath, hslash⟩

/-- **What is saved is an entry of the directory**, wherever the server runs. -/
theorem saved_contained {env : Env} {uri : Bytes} {contentLength : Int} {contentType : Bytes} {rp : RioT} {fd : Fd}
    {savepath file : Bytes} {n : Int} (h : servePut env (cstring uri) contentLength rp fd = .saved savepath file n ∨
      servePost env (cstring uri) contentLength contentType rp fd = .saved savepath file n) (dir : List Bytes) :
    ∃ base, resolve dir savepath = dir ++ [ascii "uploads", base] := by
  obtain ⟨base, hcontained⟩ := opens_contained (h.imp put_saved_opens post_saved_opens)
  exact ⟨base, contained_resolve hcontained dir⟩

end ComputerSystem.Tiny
