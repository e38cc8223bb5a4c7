import Mathlib.Data.List.TakeWhile
import ComputerSystem.Lib.Words
import ComputerSystem.Shell.Machine
/-!
# What `parseline` makes of a line

`parseline` (`Chapter8/8.5-8.6/shell/main.c:113`) overwrites the last character of its buffer with a
space, cuts the buffer at the spaces with NULs, and takes off a last word that *begins* with `&`.
`parseline_spec` says so of whole lines: `argv` is the words of the line without its last character.
-/

namespace ComputerSystem.Shell

/-- The test for `&` and what it takes off (`:138-141`); no word counts as background (`:134`). -/
def stripped (ws : List Bytes) : List Bytes × Bool :=
  match ws.getLast? with
  | none => ([], true)
  | some w => if w.head? = some ampersand then (ws.dropLast, true) else (ws, false)

/-- `argv` and `bg` in `eval` (`:174-175`). -/
def argvOf (cmdline : Bytes) : Option (List Bytes × Bool) :=
  (parseline cmdline).map fun p => (p.argv.map (stringAt p.buf), p.bg)

/-- The machine runs the same vector. -/
theorem command_eq (cmdline : Bytes) : command cmdline = (argvOf cmdline).map fun v => match v.1 with
    | [] => .blank
    | arg0 :: args =>
      if arg0 = ascii "quit" then .quit
      else if arg0 = ascii "jobs" then .jobs
      else if arg0 = ascii "&" then .ignored
      else .run ⟨cmdline, arg0 :: args, v.2⟩ := by
  rw [command, argvOf, Option.map_map]
  rfl

/-! ## Positions in a buffer -/

theorem charAt_append (pre s : Bytes) : charAt (pre ++ s) pre.length = s.headD 0 := by
  rw [charAt, List.getD_eq_getElem?_getD, List.getElem?_append_right (Nat.le_refl _), Nat.sub_self]
  cases s <;> rfl

theorem set_append (pre s : Bytes) (x y : UInt8) : (pre ++ x :: s).set pre.length y = pre ++ y :: s := by
  rw [List.set_append_right _ _ (Nat.le_refl _), Nat.sub_self]
  rfl

theorem stringAt_append (pre : Bytes) {w : Bytes} (t : Bytes) (hw : (0 : UInt8) ∉ w) :
    stringAt (pre ++ (w ++ 0 :: t)) pre.length = w := by
  have h := cstring_append_nul w t
  rw [cstring_eq hw] at h
  rw [stringAt, List.drop_left]
  exact h

/-- The first character of a string is the one at its position. -/
theorem stringAt_head (buf : Bytes) (i : Nat) {c : UInt8} (hc : c ≠ 0) :
    (stringAt buf i).head? = some c ↔ charAt buf i = c := by
  have hchar : charAt buf i = (buf.drop i).headD 0 := by
    rw [charAt, List.getD_eq_getElem?_getD, List.headD_eq_head?_getD, List.head?_drop]
  rw [stringAt, hchar]
  cases buf.drop i with
  | nil =>
    constructor
    · intro h
      cases h
    · intro h
      exact absurd h.symm hc
  | cons b t =>
    by_cases hb : b = 0
    · subst hb
      rw [List.takeWhile_cons_of_neg (by simp)]
      constructor
      · intro h
        cases h
      · intro h
        exact absurd h.symm hc
    · rw [List.takeWhile_cons_of_pos (by simpa using hb)]
      simp

theorem skipSpaces_spec (bs : Bytes) : ∀ (n : Nat) (pre t : Bytes), (∀ b ∈ bs, b = space) → t.head? ≠ some space →
    bs.length ≤ n → skipSpaces (pre ++ (bs ++ t)) n pre.length = pre.length + bs.length := by
  induction bs with
  | nil =>
    intro n pre t _ ht _
    cases n with
    | zero => rfl
    | succ n =>
      rw [skipSpaces, List.nil_append, charAt_append, if_neg]
      · rfl
      · intro h
        apply ht
        cases t with
        | nil => cases h
        | cons b t => exact congrArg some h
  | cons b bs ih =>
    intro n pre t hbs ht hn
    obtain rfl := hbs b (List.mem_cons_self ..)
    cases n with
    | zero => simp at hn
    | succ n =>
      rw [List.length_cons] at hn
      have ih := ih n (pre ++ [space]) t (fun b hb => hbs b (List.mem_cons_of_mem _ hb)) ht (by omega)
      rw [List.append_assoc, List.singleton_append, List.length_append, List.length_singleton] at ih
      rw [skipSpaces, charAt_append, List.cons_append, List.headD_cons, if_pos rfl, ih, List.length_cons]
      omega

theorem strchr_spec (w : Bytes) : ∀ (n : Nat) (pre t : Bytes), space ∉ w → (0 : UInt8) ∉ w → w.length < n →
    strchr (pre ++ (w ++ space :: t)) space n pre.length = some (pre.length + w.length) := by
  induction w with
  | nil =>
    intro n pre t _ _ hn
    cases n with
    | zero => simp at hn
    | succ n =>
      rw [strchr, List.nil_append, charAt_append, List.headD_cons, if_pos rfl]
      rfl
  | cons b w ih =>
    intro n pre t hs h0 hn
    rw [List.mem_cons, not_or] at hs h0
    cases n with
    | zero => simp at hn
    | succ n =>
      rw [List.length_cons] at hn
      have ih := ih n (pre ++ [b]) t hs.2 h0.2 (by omega)
      rw [List.append_assoc, List.singleton_append, List.length_append, List.length_singleton] at ih
      rw [strchr, List.cons_append, charAt_append, List.headD_cons, if_neg fun h => hs.1 h.symm,
        if_neg fun h => h0.1 h.symm, ih, List.length_cons]
      congr 1
      omega

theorem strchr_end (n : Nat) (buf : Bytes) : strchr buf space n buf.length = none := by
  cases n with
  | zero => rfl
  | succ n =>
    have h := charAt_append buf []
    rw [List.append_nil] at h
    have hnul : ([] : Bytes).headD 0 = 0 := rfl
    rw [strchr, h, if_neg (by decide), if_pos hnul]

/-! ## The words -/

theorem cut_spaces (s : Bytes) : ∃ bs t, s = bs ++ t ∧ (∀ b ∈ bs, b = space) ∧ t.head? ≠ some space := by
  refine ⟨s.takeWhile (· = space), s.dropWhile (· = space), List.takeWhile_append_dropWhile.symm, ?_, ?_⟩
  · intro b hb
    simpa using List.mem_takeWhile_imp hb
  · intro h
    have hnot := List.head?_dropWhile_not (p := (· = space)) s
    rw [h] at hnot
    simp at hnot

theorem inked_spaces {bs : Bytes} (h : ∀ b ∈ bs, b = space) : inked space bs = [] := by
  rw [inked, List.filter_eq_nil_iff]
  intro b hb
  simp [h b hb]

/-- A word, the spaces behind it, and the rest, when the list begins with a word and ends with a space. -/
theorem cut_word {s : Bytes} (hs : s ≠ []) (h0 : (0 : UInt8) ∉ s) (hend : s = [] ∨ s.getLast? = some space)
    (hhead : s.head? ≠ some space) : ∃ w bs t, s = w ++ space :: (bs ++ t) ∧
      (w ≠ [] ∧ space ∉ w ∧ (0 : UInt8) ∉ w) ∧ (∀ b ∈ bs, b = space) ∧
      (0 : UInt8) ∉ t ∧ (t = [] ∨ t.getLast? = some space) ∧ t.head? ≠ some space := by
  have hlast := hend.resolve_left hs
  obtain ⟨w, u, rfl, hw⟩ := List.eq_append_cons_of_mem (List.mem_of_getLast? hlast)
  obtain ⟨bs, t, rfl, hbs, ht⟩ := cut_spaces u
  have hwne : w ≠ [] := by
    rintro rfl
    exact hhead rfl
  refine ⟨w, bs, t, rfl, ⟨hwne, hw, fun h => h0 (List.mem_append_left _ h)⟩, hbs, fun h => h0 (by simp [h]), ?_, ht⟩
  by_cases htnil : t = []
  · exact .inl htnil
  · right
    rw [List.getLast?_append_of_ne_nil _ (List.cons_ne_nil _ _), ← List.cons_append,
      List.getLast?_append_of_ne_nil _ htnil] at hlast
    exact hlast

/-- The line with a space for its last character: the leading spaces, and what the loop gets. -/
theorem cut_line {line : Bytes} (h0 : (0 : UInt8) ∉ line) : ∃ bs s, line.dropLast ++ [space] = bs ++ s ∧
    (∀ b ∈ bs, b = space) ∧ (0 : UInt8) ∉ s ∧ (s = [] ∨ s.getLast? = some space) ∧ s.head? ≠ some space := by
  obtain ⟨bs, s, hcut, hbs, hs⟩ := cut_spaces (line.dropLast ++ [space])
  refine ⟨bs, s, hcut, hbs, ?_, ?_, hs⟩
  · intro h
    have hmem : (0 : UInt8) ∈ line.dropLast ++ [space] := by
      rw [hcut]
      exact List.mem_append_right _ h
    rcases List.mem_append.1 hmem with hmem | hmem
    · exact h0 (List.dropLast_subset line hmem)
    · cases List.mem_singleton.1 hmem
  · by_cases hnil : s = []
    · exact .inl hnil
    · right
      rw [← List.getLast?_append_of_ne_nil bs hnil, ← hcut, List.getLast?_concat]

/-- **The loop** on what is left of the buffer behind `pre`: a list that is empty, or begins with a
word and ends with a space. -/
theorem splitLoop_spec (n : Nat) : ∀ (pre s : Bytes) (argv : List Nat), s.length ≤ n → (0 : UInt8) ∉ s →
    (s = [] ∨ s.getLast? = some space) → s.head? ≠ some space →
    ∃ s' as, splitLoop n (pre ++ s) pre.length argv = (pre ++ s', argv ++ as) ∧
      as.map (stringAt (pre ++ s')) = words space s := by
  induction n with
  | zero =>
    intro pre s argv hn _ _ _
    obtain rfl := List.length_eq_zero_iff.1 (Nat.le_zero.1 hn)
    exact ⟨[], [], by rw [splitLoop, List.append_nil, List.append_nil], by rw [words_nil]; rfl⟩
  | succ n ih =>
    intro pre s argv hn h0 hend hhead
    by_cases hs : s = []
    · subst hs
      refine ⟨[], [], ?_, by rw [words_nil]; rfl⟩
      rw [splitLoop, List.append_nil, strchr_end]
      simp
    · obtain ⟨w, bs, t', rfl, ⟨hwne, hw, h0w⟩, hbs, h0t, hendt, ht'⟩ := cut_word hs h0 hend hhead
      have hlen : t'.length ≤ n := by
        simp only [List.length_append, List.length_cons] at hn
        omega
      obtain ⟨s', as, hloop, has⟩ := ih (pre ++ (w ++ 0 :: bs)) t' (argv ++ [pre.length]) hlen h0t hendt ht'
      refine ⟨w ++ 0 :: (bs ++ s'), pre.length :: as, ?_, ?_⟩
      · have hchr := strchr_spec w (pre ++ (w ++ space :: (bs ++ t'))).length pre (bs ++ t') hw h0w
          (by simp only [List.length_append, List.length_cons]; omega)
        have hset : (pre ++ (w ++ space :: (bs ++ t'))).set (pre.length + w.length) 0 =
            pre ++ w ++ [0] ++ (bs ++ t') := by
          have h := set_append (pre ++ w) (bs ++ t') space 0
          rw [List.length_append, List.append_assoc] at h
          rw [h]
          simp
        have hskip := skipSpaces_spec bs (pre ++ (w ++ space :: (bs ++ t'))).length (pre ++ w ++ [space]) t' hbs ht'
          (by simp only [List.length_append, List.length_cons]; omega)
        have hsame : pre ++ w ++ [space] ++ (bs ++ t') = pre ++ (w ++ space :: (bs ++ t')) := by simp
        have hpos : (pre ++ w ++ [space]).length = pre.length + w.length + 1 := by simp [Nat.add_assoc]
        rw [hpos, hsame] at hskip
        rw [splitLoop, hchr]
        simp only
        rw [hset, hskip]
        have hbuf : pre ++ w ++ [0] ++ (bs ++ t') = pre ++ (w ++ 0 :: bs) ++ t' := by simp
        have hlast : pre.length + w.length + 1 + bs.length = (pre ++ (w ++ 0 :: bs)).length := by
          simp only [List.length_append, List.length_cons]
          omega
        rw [hbuf, hlast, hloop]
        simp
      · have hfirst := stringAt_append pre (bs ++ s') h0w
        have hbuf : pre ++ (w ++ 0 :: bs) ++ s' = pre ++ (w ++ 0 :: (bs ++ s')) := by simp
        rw [hbuf] at has
        rw [List.map_cons, hfirst, has, words_append_sep, words_single hw hwne, words_blank_append (inked_spaces hbs)]
        rfl

/-- What `parseline` takes off is seen at the positions as well as in the words. -/
theorem stripped_map (buf : Bytes) (as : List Nat) :
    stripped (as.map (stringAt buf)) = match as.getLast? with
      | none => ([], true)
      | some last =>
        if charAt buf last = ampersand then (as.dropLast.map (stringAt buf), true) else (as.map (stringAt buf), false) := by
  rw [stripped, List.getLast?_map]
  cases as.getLast? with
  | none => rfl
  | some last =>
    have hhead := stringAt_head buf last (show ampersand ≠ 0 by decide)
    simp only [Option.map_some, hhead, List.map_dropLast]

/-- **`parseline`** on a string: the words without the last character, unless `argv` is too short. -/
theorem argvOf_spec {line : Bytes} (hne : line ≠ []) (h0 : (0 : UInt8) ∉ line) :
    argvOf line = if (words space line.dropLast).length ≥ MAXARGS then none
      else some (stripped (words space line.dropLast)) := by
  have hbuf : line.set (line.length - 1) space = line.dropLast ++ [space] := by
    have h := set_append line.dropLast [] (line.getLast hne) space
    rw [List.dropLast_concat_getLast, List.length_dropLast] at h
    exact h
  obtain ⟨bs, s, hcut, hbs, h0s, hend, hs⟩ := cut_line h0
  have hwords : words space s = words space line.dropLast := by
    rw [← words_blank_append (inked_spaces hbs), ← hcut, words_append_sep, words_nil, List.append_nil]
  have hskip := skipSpaces_spec bs (bs ++ s).length [] s hbs hs (by simp)
  obtain ⟨s', as, hloop, has⟩ := splitLoop_spec (bs ++ s).length bs s [] (by simp) h0s hend hs
  simp only [List.nil_append, List.length_nil, Nat.zero_add] at hskip hloop
  rw [hwords] at has
  rw [argvOf, parseline, if_neg hne, ← has]
  simp only [hbuf, hcut, hskip, hloop, List.length_map, stripped_map]
  split
  · rfl
  · cases as.getLast? with
    | none => rfl
    | some last =>
      simp only
      split <;> rfl

end ComputerSystem.Shell
