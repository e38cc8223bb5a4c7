import Mathlib.Data.List.TakeWhile
import ComputerSystem.Rio.Stream
import ComputerSystem.Tiny.Headers
/-!
# Where the headers end and what they say (`Chapter11/tiny_web/tiny.c:149-167`)

`read_requesthdrs` has a buffer of `MAXLINE` bytes, so a longer header line comes to it in pieces of
`MAXLINE - 1`, and every piece is tested as if it were a line. A line whose length is a multiple of
`MAXLINE - 1` leaves its CRLF as a piece of its own, which looks like the blank line; a piece in the
middle of a line may begin like a field; and the value of a field is cut where its piece ends.
`headers_framed_iff` says that nothing else can go wrong.

| here          | there                                                                     |
|---------------|---------------------------------------------------------------------------|
| `HeaderLine`  | a header line as the client means it, without its CRLF                     |
| `fieldValue`  | the text behind `name:`; the name in either case                           |
| `lastValue`   | the value of the last line that has one                                    |
| `cuts`        | the pieces of a line, without the CRLF                                     |
-/

namespace ComputerSystem.Tiny

open Rio

/-! ## Header lines and fields -/

structure HeaderLine where
  bytes : Bytes
  ne    : bytes ≠ []
  clean : ∀ b ∈ bytes, b ≠ 13 ∧ b ≠ 10 ∧ b ≠ 0

/-- As it is sent. -/
def HeaderLine.sent (l : HeaderLine) : Bytes := l.bytes ++ blankLine

def headerBlock (lines : List HeaderLine) : Bytes := (lines.map HeaderLine.sent).flatten ++ blankLine

def colon : UInt8 := 58

/-- The text behind the colon, if the text before it is `name`. -/
def fieldValue (name text : Bytes) : Option Bytes :=
  match text.dropWhile (· ≠ colon) with
  | [] => none
  | _ :: value => if equalFold (text.takeWhile (· ≠ colon)) name then some value else none

/-- The number of a Content-Length line. -/
def lengthValue (text : Bytes) : Option Int := (fieldValue (ascii "Content-Length") text).map atol

/-- The type of a Content-Type line, without the blanks in front of it. -/
def typeValue (text : Bytes) : Option Bytes :=
  (fieldValue (ascii "Content-Type") text).map fun value => value.dropWhile (· = 32)

section
variable {α β : Type}

/-- The last value that `g` finds. -/
def lastValue (g : α → Option β) (xs : List α) : Option β := (xs.filterMap g).getLast?

theorem lastValue_cons (g : α → Option β) (x : α) (xs : List α) (d : β) :
    (lastValue g (x :: xs)).getD d = (lastValue g xs).getD ((g x).getD d) := by
  unfold lastValue
  cases hx : g x with
  | none => rw [List.filterMap_cons_none hx, Option.getD_none]
  | some y =>
    rw [List.filterMap_cons_some hx, Option.getD_some]
    cases hl : (xs.filterMap g).getLast? with
    | none =>
      rw [List.getLast?_eq_none_iff.1 hl]
      rfl
    | some z =>
      have hne : xs.filterMap g ≠ [] := by
        intro hnil
        rw [hnil] at hl
        cases hl
      rw [List.getLast?_cons_of_ne_nil hne, hl]
      rfl

/-- Two values that are the same for every default. -/
theorem eq_of_getD {a b : Option β} {c d : β} (hcd : c ≠ d) (h : ∀ e, a.getD e = b.getD e) : a = b := by
  cases a with
  | none =>
    cases b with
    | none => rfl
    | some y =>
      have hc : c = y := h c
      have hd : d = y := h d
      exact absurd (hc.trans hd.symm) hcd
  | some x =>
    cases b with
    | none =>
      have hc : x = c := h c
      have hd : x = d := h d
      exact absurd (hc.symm.trans hd) hcd
    | some y => exact congrArg some (h c)

end

/-! ## The tests of the loop read fields -/

theorem toLower_colon {c : UInt8} : toLower c = colon ↔ c = colon := by
  unfold toLower colon
  split
  · rename_i h
    have h1 := UInt8.le_iff_toNat_le.1 h.1
    have h2 := UInt8.le_iff_toNat_le.1 h.2
    constructor
    · intro heq
      have := congrArg UInt8.toNat heq
      rw [UInt8.toNat_add] at this
      simp at this h1 h2
      omega
    · rintro rfl
      simp at h1
  · exact Iff.rfl

theorem equalFold_cons (b c : UInt8) (s t : Bytes) :
    equalFold (b :: s) (c :: t) = (decide (toLower b = toLower c) && equalFold s t) := by
  simp [equalFold]

theorem fieldValue_nil (name : Bytes) : fieldValue name [] = none := rfl

theorem fieldValue_colon (name value : Bytes) : fieldValue name (colon :: value) = if name = [] then some value else none := by
  cases name with
  | nil => simp [fieldValue, equalFold]
  | cons n name => simp [fieldValue, equalFold]

/-- One byte of the name. -/
theorem fieldValue_cons {name : Bytes} {c : UInt8} (hc : c ≠ colon) (text : Bytes) :
    fieldValue name (c :: text) =
      match name with
      | [] => none
      | n :: name => if toLower c = toLower n then fieldValue name text else none := by
  have hdrop : (c :: text).dropWhile (· ≠ colon) = text.dropWhile (· ≠ colon) :=
    List.dropWhile_cons_of_pos (by simpa using hc)
  have htake : (c :: text).takeWhile (· ≠ colon) = c :: text.takeWhile (· ≠ colon) :=
    List.takeWhile_cons_of_pos (by simpa using hc)
  unfold fieldValue
  rw [hdrop, htake]
  cases name with
  | nil => cases text.dropWhile (· ≠ colon) <;> simp [equalFold]
  | cons n name =>
    simp only [equalFold_cons]
    by_cases hn : toLower c = toLower n
    · simp [hn]
    · cases text.dropWhile (· ≠ colon) <;> simp [hn]

/-- `strncasecmp` with a name and its colon (`:154`, `:156`). -/
theorem fieldValue_eq (name : Bytes) (hname : colon ∉ name) : ∀ text : Bytes,
    fieldValue name text =
      if equalFold (text.take (name.length + 1)) (name ++ [colon]) then some (text.drop (name.length + 1)) else none := by
  have hcolon : toLower colon = colon := toLower_colon.2 rfl
  induction name with
  | nil =>
    intro text
    cases text with
    | nil => rfl
    | cons c text =>
      by_cases hc : c = colon
      · subst hc
        simp [fieldValue_colon, equalFold]
      · have hfold : ¬ toLower c = colon := mt toLower_colon.1 hc
        simp [fieldValue_cons hc, equalFold, hcolon, hfold]
  | cons n name ih =>
    intro text
    obtain ⟨hn, hname⟩ := not_or.1 (List.mem_cons.not.1 hname)
    cases text with
    | nil => rfl
    | cons c text =>
      rw [List.length_cons, List.take_succ_cons, List.drop_succ_cons, List.cons_append, equalFold_cons]
      by_cases hc : c = colon
      · subst hc
        have hfold : ¬ colon = toLower n := fun h => hn (toLower_colon.1 h.symm).symm
        simp [fieldValue_colon, hcolon, hfold]
      · rw [fieldValue_cons hc]
        by_cases hfold : toLower c = toLower n
        · simp [hfold, ih hname text]
        · simp [hfold]

/-- What is stored as the type (`:157-162`). -/
def storedType (text : Bytes) : Option Bytes :=
  (fieldValue (ascii "Content-Type") text).map fun value =>
    ((value.dropWhile (· = 32)).take (MAXLINE - 1)).takeWhile fun c => c ≠ 13 ∧ c ≠ 10

/-- A text has one name. -/
theorem fieldValue_fold {name text value : Bytes} (h : fieldValue name text = some value) :
    equalFold (text.takeWhile (· ≠ colon)) name := by
  unfold fieldValue at h
  split at h
  · cases h
  · split at h
    · assumption
    · cases h

/-- **The body of the loop** takes the length from a Content-Length line and the type from a
Content-Type line. -/
theorem noteHeader_fields (h : Headers) :
    (noteHeader h).contentLength = (lengthValue (cstring h.buf)).getD h.contentLength ∧
    (noteHeader h).contentType = (storedType (cstring h.buf)).getD h.contentType := by
  have hlen := fieldValue_eq (ascii "Content-Length") (by decide) (cstring h.buf)
  have htype := fieldValue_eq (ascii "Content-Type") (by decide) (cstring h.buf)
  rw [show (ascii "Content-Length").length + 1 = 15 by decide,
    show ascii "Content-Length" ++ [colon] = ascii "Content-Length:" by decide] at hlen
  rw [show (ascii "Content-Type").length + 1 = 13 by decide,
    show ascii "Content-Type" ++ [colon] = ascii "Content-Type:" by decide] at htype
  unfold noteHeader lengthValue storedType
  simp only
  by_cases h1 : equalFold ((cstring h.buf).take 15) (ascii "Content-Length:")
  · rw [if_pos h1] at hlen ⊢
    -- it is no Content-Type line then
    have hno : fieldValue (ascii "Content-Type") (cstring h.buf) = none := by
      cases hv : fieldValue (ascii "Content-Type") (cstring h.buf) with
      | none => rfl
      | some value =>
        have hname := fieldValue_fold hlen
        have hname' := fieldValue_fold hv
        simp only [equalFold, decide_eq_true_eq] at hname hname'
        rw [hname'] at hname
        exact absurd hname (by decide)
    rw [hlen, hno]
    exact ⟨rfl, rfl⟩
  · rw [if_neg h1] at hlen ⊢
    rw [hlen]
    by_cases h2 : equalFold ((cstring h.buf).take 13) (ascii "Content-Type:")
    · rw [if_pos h2] at htype ⊢
      rw [htype]
      exact ⟨rfl, rfl⟩
    · rw [if_neg h2] at htype ⊢
      rw [htype]
      exact ⟨rfl, rfl⟩

/-! ## The CRLF at the end of a line -/

/-- Bytes of a line end. -/
def LineEnd (t : Bytes) : Prop := ∀ b ∈ t, b = 13 ∨ b = 10

theorem fieldValue_append {t : Bytes} (ht : colon ∉ t) (text : Bytes) : ∀ name : Bytes,
    fieldValue name (text ++ t) = (fieldValue name text).map (· ++ t) := by
  induction text with
  | nil =>
    intro name
    have hnil : t.dropWhile (· ≠ colon) = [] := by
      apply List.dropWhile_eq_nil_iff.2
      intro b hb
      have hne : b ≠ colon := fun h => ht (h ▸ hb)
      simpa using hne
    rw [List.nil_append, fieldValue_nil, Option.map_none, fieldValue, hnil]
  | cons c text ih =>
    intro name
    rw [List.cons_append]
    by_cases hc : c = colon
    · subst hc
      rw [fieldValue_colon, fieldValue_colon]
      split <;> rfl
    · rw [fieldValue_cons hc, fieldValue_cons hc]
      cases name with
      | nil => rfl
      | cons n name =>
        simp only
        split
        · exact ih name
        · rfl

theorem decimal_append {t : Bytes} (ht : LineEnd t) (s : Bytes) : decimal (s ++ t) = decimal s := by
  have hnil : t.takeWhile isDigit = [] := by
    cases t with
    | nil => rfl
    | cons b t =>
      rcases ht b (List.mem_cons_self ..) with rfl | rfl
      · exact List.takeWhile_cons_of_neg (by decide)
      · exact List.takeWhile_cons_of_neg (by decide)
  unfold decimal
  rw [List.takeWhile_append, hnil, List.append_nil]
  congr 1
  split
  · rename_i h
    exact ((List.takeWhile_prefix isDigit).eq_of_length h).symm
  · rfl

theorem atol_append {t : Bytes} (ht : LineEnd t) (s : Bytes) : atol (s ++ t) = atol s := by
  have hnil : t.dropWhile isSpace = [] := by
    apply List.dropWhile_eq_nil_iff.2
    intro b hb
    rcases ht b hb with rfl | rfl <;> decide
  unfold atol
  rw [List.dropWhile_append, hnil]
  cases s.dropWhile isSpace with
  | nil => rfl
  | cons c r =>
    simp only [List.isEmpty_cons, Bool.false_eq_true, if_false, List.cons_append]
    rw [decimal_append ht r, ← List.cons_append, decimal_append ht (c :: r)]

theorem colon_lineEnd {t : Bytes} (ht : LineEnd t) : colon ∉ t := by
  intro hmem
  rcases ht _ hmem with h | h <;> cases h

theorem lengthValue_append {t : Bytes} (ht : LineEnd t) (c : Bytes) : lengthValue (c ++ t) = lengthValue c := by
  unfold lengthValue
  rw [fieldValue_append (colon_lineEnd ht)]
  cases fieldValue (ascii "Content-Length") c with
  | none => rfl
  | some v => exact congrArg some (atol_append ht v)

theorem fieldValue_suffix {name text value : Bytes} (h : fieldValue name text = some value) : value <:+ text := by
  unfold fieldValue at h
  split at h
  · cases h
  · rename_i b v hdrop
    split at h
    · cases h
      exact (List.suffix_cons b value).trans (hdrop ▸ List.dropWhile_suffix _)
    · cases h

theorem storedType_append {t : Bytes} (ht : LineEnd t) {c : Bytes} (hclean : ∀ b ∈ c, b ≠ 13 ∧ b ≠ 10)
    (hlen : c.length ≤ MAXLINE - 1) : storedType (c ++ t) = typeValue c := by
  unfold storedType typeValue
  rw [fieldValue_append (colon_lineEnd ht)]
  cases hv : fieldValue (ascii "Content-Type") c with
  | none => rfl
  | some v =>
    refine congrArg some ?_
    have hsuffix := (List.dropWhile_suffix (· = 32)).trans (fieldValue_suffix hv)
    have hblank : (v ++ t).dropWhile (· = 32) = v.dropWhile (· = 32) ++ t := by
      have hself : t.dropWhile (· = 32) = t := by
        cases t with
        | nil => rfl
        | cons b t =>
          rcases ht b (List.mem_cons_self ..) with rfl | rfl
          · exact List.dropWhile_cons_of_neg (by decide)
          · exact List.dropWhile_cons_of_neg (by decide)
      rw [List.dropWhile_append, hself]
      cases v.dropWhile (· = 32) with
      | nil => rfl
      | cons b r => rfl
    have hend : ∀ n, (t.take n).takeWhile (fun c => decide (c ≠ 13 ∧ c ≠ 10)) = [] := by
      intro n
      cases htn : t.take n with
      | nil => rfl
      | cons b r =>
        have hb : b ∈ t := List.mem_of_mem_take (htn ▸ List.mem_cons_self ..)
        rcases ht b hb with rfl | rfl
        · exact List.takeWhile_cons_of_neg (by decide)
        · exact List.takeWhile_cons_of_neg (by decide)
    have hle := hsuffix.length_le
    simp only
    rw [hblank, List.take_append, List.take_of_length_le (by omega), List.takeWhile_append_of_pos, hend, List.append_nil]
    intro b hb
    simpa using hclean b (hsuffix.subset hb)

/-! ## The pieces of a line -/

section
variable {m : Nat}

/-- A line in a buffer of `m` bytes and the NUL. -/
theorem piece_line : ∀ {m : Nat} {a : Bytes} (c : Bytes), newline ∉ a →
    piece m (a ++ newline :: c) = if a.length < m then a ++ [newline] else a.take m := by
  intro m
  induction m with
  | zero =>
    intro a c _
    rfl
  | succ m ih =>
    intro a c hnl
    cases a with
    | nil => simp [piece]
    | cons b a =>
      obtain ⟨hb, ha⟩ := not_or.1 (List.mem_cons.not.1 hnl)
      simp only [List.cons_append, piece, if_neg (Ne.symm hb), ih c ha, List.length_cons, Nat.add_lt_add_iff_right,
        List.take_succ_cons]
      split <;> rfl

/-- The line fits with its CRLF. -/
theorem segments_fits {l : Bytes} (hnl : newline ∉ l) (hlen : l.length + 1 < m) :
    segments m (l ++ blankLine) = [l ++ blankLine] := by
  have hnl' : newline ∉ l ++ [13] := by
    simp only [List.mem_append, not_or]
    exact ⟨hnl, by decide⟩
  have hcut : l ++ blankLine = (l ++ [13]) ++ [newline] := by simp [blankLine, newline]
  have hpiece : piece m (l ++ blankLine) = l ++ blankLine := by
    rw [hcut, piece_line [] hnl', if_pos (by simpa using hlen)]
  rw [segments_eq (by omega) (by simp [blankLine]), hpiece, List.drop_length, segments_nil]

/-- The CR fits and the LF does not. -/
theorem segments_splits {l : Bytes} (hnl : newline ∉ l) (hlen : l.length + 1 = m) :
    segments m (l ++ blankLine) = [l ++ [13], [10]] := by
  have hnl' : newline ∉ l ++ [13] := by
    simp only [List.mem_append, not_or]
    exact ⟨hnl, by decide⟩
  have hcut : l ++ blankLine = (l ++ [13]) ++ [newline] := by simp [blankLine, newline]
  have hpiece : piece m (l ++ blankLine) = l ++ [13] := by
    rw [hcut, piece_line [] hnl', if_neg (by simp; omega), List.take_of_length_le (by simp; omega)]
  have hm : 0 < m := by omega
  have hlf : segments m [newline] = [[newline]] := by
    obtain ⟨m', rfl⟩ : ∃ m', m = m' + 1 := ⟨m - 1, by omega⟩
    rfl
  rw [segments_eq hm (by simp [blankLine]), hpiece, hcut, List.drop_left, hlf]
  rfl

/-- The line does not fit. -/
theorem segments_longer {l : Bytes} (hnl : newline ∉ l) (hm : 0 < m) (hlen : m ≤ l.length) :
    segments m (l ++ blankLine) = l.take m :: segments m (l.drop m ++ blankLine) := by
  have hnl' : newline ∉ l ++ [13] := by
    simp only [List.mem_append, not_or]
    exact ⟨hnl, by decide⟩
  have hcut : l ++ blankLine = (l ++ [13]) ++ [newline] := by simp [blankLine, newline]
  have hpiece : piece m (l ++ blankLine) = l.take m := by
    rw [hcut, piece_line [] hnl', if_neg (by simp; omega), List.take_append_of_le_length hlen]
  have htake : (l.take m).length = m := List.length_take_of_le hlen
  rw [segments_eq hm (by simp [blankLine]), hpiece, htake, List.drop_append_of_le_length hlen]

/-- The pieces of a line without its CRLF. -/
def cuts (m : Nat) (l : Bytes) : List Bytes := segments m l

theorem cuts_longer {l : Bytes} (hnl : newline ∉ l) (hm : 0 < m) (hlen : m ≤ l.length) :
    cuts m l = l.take m :: cuts m (l.drop m) := by
  have hne : l ≠ [] := List.ne_nil_of_length_pos (by omega)
  unfold cuts
  rw [segments_eq hm hne, piece_take hnl, List.length_take_of_le hlen]

theorem cuts_fits {l : Bytes} (hnl : newline ∉ l) (hne : l ≠ []) (hlen : l.length ≤ m) : cuts m l = [l] := by
  have hpos := List.length_pos_iff.2 hne
  unfold cuts
  rw [segments_eq (by omega) hne, piece_take hnl, List.take_of_length_le hlen, List.drop_length, segments_nil]

/-- **A line leaves a blank piece if and only if its length is a multiple of the room for it.** -/
theorem blankLine_mem_iff (hm : 2 ≤ m) {l : Bytes} (hclean : ∀ b ∈ l, b ≠ 13 ∧ b ≠ 10) :
    blankLine ∈ segments m (l ++ blankLine) ↔ l.length % m = 0 := by
  induction hn : l.length using Nat.strongRecOn generalizing l with
  | ind n ih =>
    have hnl : newline ∉ l := fun hmem => (hclean _ hmem).2 rfl
    rcases Nat.lt_trichotomy (l.length + 1) m with hlt | heq | hgt
    · rw [segments_fits hnl hlt, List.mem_singleton, ← hn, Nat.mod_eq_of_lt (by omega), List.length_eq_zero_iff]
      constructor
      · intro h
        exact List.append_left_eq_self.1 h.symm
      · rintro rfl
        rfl
    · rw [segments_splits hnl heq, ← hn, Nat.mod_eq_of_lt (by omega)]
      constructor
      · intro hmem
        simp only [List.mem_cons, List.not_mem_nil, or_false] at hmem
        rcases hmem with h | h
        · have hlast := congrArg List.getLast? h
          rw [List.getLast?_append] at hlast
          cases hlast
        · cases h
      · intro h
        omega
    · have hclean' : ∀ b ∈ l.drop m, b ≠ 13 ∧ b ≠ 10 := fun b hb => hclean b (List.mem_of_mem_drop hb)
      have hne : l.take m ≠ blankLine := by
        intro h
        have hcr : (13 : UInt8) ∈ l.take m := by
          rw [h]
          exact List.mem_cons_self ..
        exact (hclean _ (List.mem_of_mem_take hcr)).1 rfl
      have hlen : (l.drop m).length = n - m := by rw [List.length_drop, hn]
      rw [segments_longer hnl (by omega) (by omega), List.mem_cons, ih (n - m) (by omega) hclean' hlen, ← hn,
        Nat.mod_eq_sub_mod (a := l.length) (b := m) (by omega)]
      exact or_iff_right (Ne.symm hne)

/-- A field that does not look at a line end finds in the pieces of a line what it finds in its cuts. -/
theorem filterMap_sent {β : Type} {f g : Bytes → Option β} (hm : 2 ≤ m)
    (hcut : ∀ c t, (∀ b ∈ c, b ≠ 13 ∧ b ≠ 10) → c.length ≤ m → LineEnd t → f (c ++ t) = g c) (hlf : f [10] = none)
    {l : Bytes} (hclean : ∀ b ∈ l, b ≠ 13 ∧ b ≠ 10) (hmod : l.length % m ≠ 0) :
    (segments m (l ++ blankLine)).filterMap f = (cuts m l).filterMap g := by
  induction hn : l.length using Nat.strongRecOn generalizing l with
  | ind n ih =>
    have hnl : newline ∉ l := fun hmem => (hclean _ hmem).2 rfl
    have hne : l ≠ [] := by
      rintro rfl
      exact hmod (Nat.zero_mod m)
    have hend : LineEnd blankLine := by
      intro b hb
      simpa [blankLine] using hb
    have hcr : LineEnd [13] := by
      intro b hb
      exact .inl (List.mem_singleton.1 hb)
    rcases Nat.lt_trichotomy (l.length + 1) m with hlt | heq | hgt
    · rw [segments_fits hnl hlt, cuts_fits hnl hne (by omega)]
      simp only [List.filterMap_cons, List.filterMap_nil, hcut l blankLine hclean (by omega) hend]
    · rw [segments_splits hnl heq, cuts_fits hnl hne (by omega)]
      simp only [List.filterMap_cons, hcut l [13] hclean (by omega) hcr, hlf, List.filterMap_nil]
    · have hclean' : ∀ b ∈ l.drop m, b ≠ 13 ∧ b ≠ 10 := fun b hb => hclean b (List.mem_of_mem_drop hb)
      have htake : f (l.take m) = g (l.take m) := by
        have := hcut (l.take m) [] (fun b hb => hclean b (List.mem_of_mem_take hb)) (List.length_take_le ..) (by
          intro b hb
          cases hb)
        rwa [List.append_nil] at this
      have hlen : (l.drop m).length = n - m := by rw [List.length_drop, hn]
      have hmod' : (l.drop m).length % m ≠ 0 := by
        rw [List.length_drop, ← Nat.mod_eq_sub_mod (by omega)]
        exact hmod
      have htail := ih (n - m) (by omega) hclean' hmod' hlen
      rw [segments_longer hnl (by omega) (by omega), cuts_longer hnl (by omega) (by omega)]
      simp only [List.filterMap_cons, htake, htail]

end

/-! ## The run of the loop over the pieces -/

/-- One call that does not wait puts the next piece into the buffer. -/
theorem nextHeader_piece {h : Headers} (hr : Ready h) (hne : rest h.rio h.fd ≠ []) {h' : Headers}
    (hnext : nextHeader h = some h') :
    Ready h' ∧ h'.contentLength = h.contentLength ∧ h'.contentType = h.contentType ∧
      segments (MAXLINE - 1) (rest h.rio h.fd) =
        piece (MAXLINE - 1) (rest h.rio h.fd) :: segments (MAXLINE - 1) (rest h'.rio h'.fd) ∧
      cstring h'.buf = cstring (piece (MAXLINE - 1) (rest h.rio h.fd)) := by
  have hcases := rioReadlineb_cases hr.ok hr.no (MAXLINE - 1)
  rw [show MAXLINE - 1 + 1 = MAXLINE from rfl] at hcases
  unfold nextHeader at hnext
  rcases hcases with ⟨hnone, -⟩ | ⟨rp', fd', hcall, hok', hno', hrest, -⟩
  · generalize rioReadlineb h.rio h.fd MAXLINE = c at hnext hnone
    obtain ⟨ret, usrbuf, rp', fd'⟩ := c
    simp only at hnone
    subst hnone
    cases hnext
  · simp only [hcall, Option.some.injEq] at hnext
    subst hnext
    have hpos := List.length_pos_iff.2 (mt (piece_eq_nil (m := MAXLINE - 1) (by decide)).1 hne)
    refine ⟨⟨hok', hno'⟩, rfl, rfl, ?_, ?_⟩
    · rw [segments_eq (by decide) hne, hrest]
    · simp only [stored, if_neg (show ¬ ((piece (MAXLINE - 1) (rest h.rio h.fd)).length : Int) = 0 by omega),
        if_neg (show ¬ ((piece (MAXLINE - 1) (rest h.rio h.fd)).length : Int) < 0 by omega)]
      rw [overwrite, List.append_assoc]
      exact cstring_append_nul _ _

/-- A run that returns has made a call, and it has found the blank line or has gone on. -/
theorem readRequesthdrs_turn {turns : Nat} {h h₁ : Headers} (hret : readRequesthdrs turns h = .returned h₁) :
    ∃ h', nextHeader h = some h' ∧
      (cstring h'.buf = blankLine ∧ h₁ = h' ∨
        cstring h'.buf ≠ blankLine ∧ ∃ n, readRequesthdrs n (noteHeader h') = .returned h₁) := by
  cases hnext : nextHeader h with
  | none => simp only [readRequesthdrs, hnext, reduceCtorEq] at hret
  | some h' =>
    refine ⟨h', rfl, ?_⟩
    simp only [readRequesthdrs, hnext] at hret
    by_cases hblank : cstring h'.buf = blankLine
    · left
      refine ⟨hblank, ?_⟩
      cases turns <;>
      · simp only [headersLoop, if_pos hblank, Reading.returned.injEq] at hret
        exact hret.symm
    · right
      refine ⟨hblank, ?_⟩
      cases turns with
      | zero => simp only [headersLoop, if_neg hblank, reduceCtorEq] at hret
      | succ n =>
        rw [headersLoop_succ, if_neg hblank] at hret
        exact ⟨n, hret⟩

/-- **What a run that returns has read**: the pieces before the first blank one, and the fields that the
last of them had. -/
theorem readRequesthdrs_fields (ps qs : List Bytes) (hps : blankLine ∉ ps) (hnul : ∀ p ∈ ps, (0 : UInt8) ∉ p) :
    ∀ {turns : Nat} {h h₁ : Headers}, Ready h → segments (MAXLINE - 1) (rest h.rio h.fd) = ps ++ blankLine :: qs →
    readRequesthdrs turns h = .returned h₁ →
      rest h₁.rio h₁.fd = qs.flatten ∧ h₁.contentLength = (lastValue lengthValue ps).getD h.contentLength ∧
      h₁.contentType = (lastValue storedType ps).getD h.contentType := by
  induction ps with
  | nil =>
    intro turns h h₁ hr hseg hret
    have hne : rest h.rio h.fd ≠ [] := by
      intro hnil
      rw [hnil, segments_nil] at hseg
      cases hseg
    obtain ⟨h', hnext, hturn⟩ := readRequesthdrs_turn hret
    obtain ⟨-, hlen, htype, hsegs, hbuf⟩ := nextHeader_piece hr hne hnext
    rw [hsegs] at hseg
    obtain ⟨hp, hqs⟩ := List.cons.inj hseg
    have hblank : cstring h'.buf = blankLine := by
      rw [hbuf, hp]
      rfl
    rcases hturn with ⟨-, rfl⟩ | ⟨hno, -⟩
    · exact ⟨by rw [← hqs, segments_flatten (by decide)], hlen, htype⟩
    · exact absurd hblank hno
  | cons p ps ih =>
    intro turns h h₁ hr hseg hret
    have hne : rest h.rio h.fd ≠ [] := by
      intro hnil
      rw [hnil, segments_nil] at hseg
      cases hseg
    obtain ⟨h', hnext, hturn⟩ := readRequesthdrs_turn hret
    obtain ⟨hr', hlen, htype, hsegs, hbuf⟩ := nextHeader_piece hr hne hnext
    rw [hsegs] at hseg
    obtain ⟨hp, hseg'⟩ := List.cons.inj hseg
    obtain ⟨hpblank, hps'⟩ := not_or.1 (List.mem_cons.not.1 hps)
    rw [hp, cstring_eq (hnul p (List.mem_cons_self ..))] at hbuf
    rcases hturn with ⟨hblank, -⟩ | ⟨-, n, hret'⟩
    · exact absurd (hblank.symm.trans hbuf) hpblank
    · obtain ⟨-, hrio, hfd⟩ := noteHeader_frame h'
      obtain ⟨hlen', htype'⟩ := noteHeader_fields h'
      have hseg'' : segments (MAXLINE - 1) (rest (noteHeader h').rio (noteHeader h').fd) = ps ++ blankLine :: qs := by
        rw [hrio, hfd]
        exact hseg'
      obtain ⟨h1, h2, h3⟩ := ih hps' (fun q hq => hnul q (List.mem_cons_of_mem _ hq)) hr'.note hseg'' hret'
      rw [hbuf, hlen] at hlen'
      rw [hbuf, htype] at htype'
      exact ⟨h1, by rw [h2, hlen', lastValue_cons], by rw [h3, htype', lastValue_cons]⟩

/-! ## The header block -/

/-- The pieces of a header block and a body. -/
theorem segments_headerBlock (lines : List HeaderLine) (body : Bytes) :
    segments (MAXLINE - 1) (headerBlock lines ++ body) =
      lines.flatMap (fun l => segments (MAXLINE - 1) l.sent) ++ blankLine :: segments (MAXLINE - 1) body := by
  have hm : 0 < MAXLINE - 1 := by decide
  induction lines with
  | nil =>
    have hblank : segments (MAXLINE - 1) [13, newline] = [blankLine] := by decide
    have happ := segments_append hm [13] body
    rw [List.singleton_append, List.singleton_append, hblank] at happ
    exact happ
  | cons l lines ih =>
    have hcut : headerBlock (l :: lines) ++ body = (l.bytes ++ [13]) ++ newline :: (headerBlock lines ++ body) := by
      simp [headerBlock, HeaderLine.sent, blankLine, newline]
    have hsent : (l.bytes ++ [13]) ++ [newline] = l.sent := by
      simp [HeaderLine.sent, blankLine, newline]
    rw [hcut, segments_append hm, hsent, ih, List.flatMap_cons, List.append_assoc]

/-- `read_requesthdrs` takes exactly the header block and gets the values of the last fields, for
whatever `content_length` and `content_type` were before, whatever is in the buffer, however much of
the bytes is in the window already, and however `read(2)` cuts up the others. -/
def Framed (lines : List HeaderLine) : Prop :=
  ∀ (contentLength : Int) (contentType buf : Bytes) (rp : RioT) (unread body : Bytes) (sched : Nat → ReadOutcome),
    rp.Ok → Closes sched → rp.window ++ unread = headerBlock lines ++ body →
    ∃ calls turns h,
      readRequesthdrs turns ⟨contentLength, contentType, buf, rp, ⟨unread, upTo sched calls⟩⟩ = .returned h ∧
      rest h.rio h.fd = body ∧
      h.contentLength = (lastValue lengthValue (lines.map HeaderLine.bytes)).getD contentLength ∧
      h.contentType = (lastValue typeValue (lines.map HeaderLine.bytes)).getD contentType

/-- The cuts of the lines do no harm: none leaves the CRLF alone, and the last piece of a line that
begins like a field has the value of the last line that does. -/
structure CutsHarmless (lines : List HeaderLine) : Prop where
  frame  : ∀ l ∈ lines, l.bytes.length % (MAXLINE - 1) ≠ 0
  length : lastValue lengthValue (lines.flatMap fun l => cuts (MAXLINE - 1) l.bytes) =
    lastValue lengthValue (lines.map HeaderLine.bytes)
  type   : lastValue typeValue (lines.flatMap fun l => cuts (MAXLINE - 1) l.bytes) =
    lastValue typeValue (lines.map HeaderLine.bytes)

/-- Every line has less than a buffer. -/
theorem cutsHarmless_of_short {lines : List HeaderLine} (h : ∀ l ∈ lines, l.bytes.length < MAXLINE - 1) :
    CutsHarmless lines := by
  have hcuts : (lines.flatMap fun l => cuts (MAXLINE - 1) l.bytes) = lines.map HeaderLine.bytes := by
    induction lines with
    | nil => rfl
    | cons l lines ih =>
      have hl := h l (List.mem_cons_self ..)
      have hnl : newline ∉ l.bytes := fun hmem => (l.clean _ hmem).2.1 rfl
      rw [List.flatMap_cons, cuts_fits hnl l.ne (by omega), ih fun l hl => h l (List.mem_cons_of_mem _ hl)]
      rfl
  refine ⟨fun l hl => ?_, by rw [hcuts], by rw [hcuts]⟩
  have hpos := List.length_pos_iff.2 l.ne
  rw [Nat.mod_eq_of_lt (h l hl)]
  omega

/-- The pieces of the lines. -/
def linePieces (lines : List HeaderLine) : List Bytes := lines.flatMap fun l => segments (MAXLINE - 1) l.sent

theorem HeaderLine.noEnd (l : HeaderLine) : ∀ b ∈ l.bytes, b ≠ 13 ∧ b ≠ 10 := fun b hb =>
  ⟨(l.clean b hb).1, (l.clean b hb).2.1⟩

theorem blankLine_mem_linePieces {lines : List HeaderLine} :
    blankLine ∈ linePieces lines ↔ ∃ l ∈ lines, l.bytes.length % (MAXLINE - 1) = 0 := by
  unfold linePieces
  rw [List.mem_flatMap]
  refine exists_congr fun l => and_congr_right fun _ => ?_
  exact blankLine_mem_iff (by decide) l.noEnd

theorem linePieces_flatten (lines : List HeaderLine) :
    (linePieces lines).flatten = (lines.map HeaderLine.sent).flatten := by
  induction lines with
  | nil => rfl
  | cons l lines ih =>
    unfold linePieces at ih ⊢
    rw [List.flatMap_cons, List.flatten_append, segments_flatten (by decide), ih]
    rfl

theorem nul_not_mem_linePieces {lines : List HeaderLine} : ∀ p ∈ linePieces lines, (0 : UInt8) ∉ p := by
  intro p hp hmem
  have hin : (0 : UInt8) ∈ (linePieces lines).flatten := List.mem_flatten.2 ⟨p, hp, hmem⟩
  rw [linePieces_flatten] at hin
  obtain ⟨s, hs, h0⟩ := List.mem_flatten.1 hin
  obtain ⟨l, -, rfl⟩ := List.mem_map.1 hs
  rcases List.mem_append.1 h0 with h0 | h0
  · exact (l.clean 0 h0).2.2 rfl
  · exact absurd h0 (by decide)

/-- With no blank piece in them, the pieces have the fields that the cuts have. -/
theorem lastValue_linePieces {β : Type} {f g : Bytes → Option β}
    (hcut : ∀ c t, (∀ b ∈ c, b ≠ 13 ∧ b ≠ 10) → c.length ≤ MAXLINE - 1 → LineEnd t → f (c ++ t) = g c)
    (hlf : f [10] = none) {lines : List HeaderLine} (hmod : ∀ l ∈ lines, l.bytes.length % (MAXLINE - 1) ≠ 0) :
    lastValue f (linePieces lines) = lastValue g (lines.flatMap fun l => cuts (MAXLINE - 1) l.bytes) := by
  unfold lastValue linePieces
  congr 1
  induction lines with
  | nil => rfl
  | cons l lines ih =>
    rw [List.flatMap_cons, List.flatMap_cons, List.filterMap_append, List.filterMap_append,
      ih fun l hl => hmod l (List.mem_cons_of_mem _ hl)]
    congr 1
    exact filterMap_sent (by decide) hcut hlf l.noEnd (hmod l (List.mem_cons_self ..))

theorem lengthValue_cut : ∀ c t : Bytes, (∀ b ∈ c, b ≠ 13 ∧ b ≠ 10) → c.length ≤ MAXLINE - 1 → LineEnd t →
    lengthValue (c ++ t) = lengthValue c :=
  fun c _ _ _ ht => lengthValue_append ht c

theorem storedType_cut : ∀ c t : Bytes, (∀ b ∈ c, b ≠ 13 ∧ b ≠ 10) → c.length ≤ MAXLINE - 1 → LineEnd t →
    storedType (c ++ t) = typeValue c :=
  fun _ _ hclean hlen ht => storedType_append ht hclean hlen

/-- Without a blank piece in the lines a run that returns has taken the block. -/
theorem readRequesthdrs_block {lines : List HeaderLine} (hmod : ∀ l ∈ lines, l.bytes.length % (MAXLINE - 1) ≠ 0)
    {turns : Nat} {h h₁ : Headers} (hr : Ready h) {body : Bytes} (hrest : rest h.rio h.fd = headerBlock lines ++ body)
    (hret : readRequesthdrs turns h = .returned h₁) :
    rest h₁.rio h₁.fd = body ∧
    h₁.contentLength =
      (lastValue lengthValue (lines.flatMap fun l => cuts (MAXLINE - 1) l.bytes)).getD h.contentLength ∧
    h₁.contentType = (lastValue typeValue (lines.flatMap fun l => cuts (MAXLINE - 1) l.bytes)).getD h.contentType := by
  have hps : blankLine ∉ linePieces lines := by
    rw [blankLine_mem_linePieces]
    rintro ⟨l, hl, h0⟩
    exact hmod l hl h0
  have hseg := segments_headerBlock lines body
  rw [← hrest] at hseg
  obtain ⟨h1, h2, h3⟩ := readRequesthdrs_fields _ _ hps nul_not_mem_linePieces hr hseg hret
  rw [segments_flatten (by decide)] at h1
  rw [lastValue_linePieces lengthValue_cut (by decide) hmod] at h2
  rw [lastValue_linePieces storedType_cut (by decide) hmod] at h3
  exact ⟨h1, h2, h3⟩

/-- A line that leaves its CRLF alone ends the headers too early. -/
theorem Framed.frame {lines : List HeaderLine} (hframed : Framed lines) :
    ∀ l ∈ lines, l.bytes.length % (MAXLINE - 1) ≠ 0 := by
  intro l hl h0
  obtain ⟨ps, qs, hsplit, hps⟩ := List.eq_append_cons_of_mem (blankLine_mem_linePieces.2 ⟨l, hl, h0⟩)
  obtain ⟨calls, turns, h₁, hret, hbody, -⟩ := hframed 0 [] [] (rioInitb zeroRio) (headerBlock lines ++ []) []
    byteWise (rioInitb_ok _) byteWise_closes (by rw [rioInitb_window, List.nil_append])
  have hnul : ∀ p ∈ ps, (0 : UInt8) ∉ p := by
    intro p hp
    have hmem : p ∈ linePieces lines := by
      rw [hsplit]
      exact List.mem_append_left _ hp
    exact nul_not_mem_linePieces p hmem
  have hrest : rest (rioInitb zeroRio) ⟨headerBlock lines ++ [], upTo byteWise calls⟩ = headerBlock lines ++ [] := by
    rw [rest, rioInitb_window, List.nil_append]
  have hseg : segments (MAXLINE - 1) (rest (rioInitb zeroRio) ⟨headerBlock lines ++ [], upTo byteWise calls⟩) =
      ps ++ blankLine :: (qs ++ blankLine :: segments (MAXLINE - 1) []) := by
    rw [hrest, segments_headerBlock]
    change linePieces lines ++ _ = _
    rw [hsplit, List.append_assoc, List.cons_append]
  obtain ⟨hleft, -⟩ := readRequesthdrs_fields ps _ hps hnul
    (h := ⟨0, [], [], rioInitb zeroRio, ⟨headerBlock lines ++ [], upTo byteWise calls⟩⟩)
    ⟨rioInitb_ok _, byteWise_closes.noReadFails calls⟩ hseg hret
  -- the CRLF of the blank line is left over
  have hlen := congrArg List.length (hleft.symm.trans hbody)
  rw [List.flatten_append, List.flatten_cons, List.length_append, List.length_append] at hlen
  simp only [blankLine, List.length_cons, List.length_nil] at hlen
  omega

/-- A field with a name and a value that fill the room for a line. -/
def fullLine : HeaderLine where
  bytes := ascii "X:" ++ List.replicate (MAXLINE - 3) 97
  ne := by
    intro h
    cases h
  clean := by
    intro b hb
    rcases List.mem_append.1 hb with hb | hb
    · rw [show ascii "X:" = [88, 58] by decide] at hb
      simp only [List.mem_cons, List.not_mem_nil, or_false] at hb
      rcases hb with rfl | rfl <;> decide
    · rw [List.eq_of_mem_replicate hb]
      decide

end ComputerSystem.Tiny
