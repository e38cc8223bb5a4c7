import ComputerSystem.Rio.Segments
import ComputerSystem.Shell.Parse
/-!
# What the shell runs of what was typed

The loop of `main` (`Chapter8/8.5-8.6/shell/main.c:222-229`) with `try_gets` and `eval`. `fgets` cuts
the input into pieces of at most `MAXLINE - 1` bytes, `parseline` overwrites the last byte of each
piece, and `feof` is asked before a piece is looked at. So a line reaches `argv` only in `parts`, and
`typed_iff` says when that is enough: when all that is not a space is in one of them, there are fewer
than `MAXARGS` words, and the last word is `&` if it begins with `&`.

| here         | there                                                                         |
|--------------|-------------------------------------------------------------------------------|
| `tryGets`    | `try_gets(cmdline, MAXLINE, stdin)` and `feof(stdin)`; no read fails             |
| `eval`       | `eval`, up to where it runs what is in `argv`                                    |
| `mainLoop`   | at most so many turns of the loop                                                |
| `Ran.line`   | how many newlines were read before; it decides nothing                           |
| `typed`      | what should run: the words of each line, `&` taken off, up to a `quit`           |

A command that has nothing in `argv` runs nothing: a blank line, and the line `&` (`:159`).
-/

namespace ComputerSystem.Shell

open Rio

/-! ## The loop -/

structure Gets where
  line : Bytes
  rest : Bytes
  feof : Bool

/-- `fgets` meets the end of the file when it got neither a newline nor `MAXLINE - 1` bytes. -/
def tryGets (stdin : Bytes) : Gets :=
  let line := piece (MAXLINE - 1) stdin
  ⟨line, stdin.drop line.length, line.length < MAXLINE - 1 ∧ line.getLast? ≠ some newline⟩

/-- An argument vector that was run, a built-in command or a program. -/
structure Ran where
  line : Nat
  argv : List Bytes
  bg   : Bool
deriving DecidableEq, Repr

inductive How
  | exited
  /-- `parseline` stored outside of `argv` -/
  | undefined
  | running
deriving DecidableEq, Repr

structure Session where
  ran : List Ran
  how : How
deriving DecidableEq, Repr

def quit : Bytes := ascii "quit"

/-- One vector is run and then the rest of the session, unless the vector is a `quit`. -/
def act (line : Nat) (next : Session) : Option (List Bytes × Bool) → Session
  | none => ⟨[], .undefined⟩
  | some (argv, bg) =>
    if argv = [] then next
    else if argv.head? = some quit then ⟨[⟨line, argv, bg⟩], .exited⟩
    else ⟨⟨line, argv, bg⟩ :: next.ran, next.how⟩

/-- `eval` (`:166`), and what comes after it. -/
def eval (line : Nat) (cmdline : Bytes) (next : Session) : Session := act line next (argvOf cmdline)

/-- The `while` of `main` (`:222`). -/
def mainLoop : Nat → Nat → Bytes → Session
  | 0, _, _ => ⟨[], .running⟩
  | n + 1, line, stdin =>
    let g := tryGets stdin
    if g.feof then ⟨[], .exited⟩
    else eval line g.line (mainLoop n (if g.line.getLast? = some newline then line + 1 else line) g.rest)

/-- A session on `stdin`: each turn that goes on takes a byte. -/
def main (line : Nat) (stdin : Bytes) : Session := mainLoop (stdin.length + 1) line stdin

/-! ## What was typed -/

/-- A last word `&` makes a background command of the others. -/
def typedVector (ws : List Bytes) : List Bytes × Bool :=
  if ws.getLast? = some [ampersand] then (ws.dropLast, true) else (ws, false)

/-- The line is a `quit`. -/
def Quits (l : Bytes) : Prop := (typedVector (words space l)).1.head? = some quit

instance (l : Bytes) : Decidable (Quits l) := inferInstanceAs (Decidable (_ = _))

/-- The vectors of the lines, from line number `i` on. -/
def typed : Nat → List Bytes → List Ran
  | _, [] => []
  | i, l :: ls =>
    let (argv, bg) := typedVector (words space l)
    if argv = [] then typed (i + 1) ls
    else if Quits l then [⟨i, argv, bg⟩]
    else ⟨i, argv, bg⟩ :: typed (i + 1) ls

/-- What of a line is not lost: it comes in pieces of `MAXLINE - 1` bytes, the last byte of each is
overwritten, and the last piece counts only if a newline ends it. -/
def parts (ended : Bool) (l : Bytes) : List Bytes :=
  (List.range (l.length / (MAXLINE - 1) + if ended then 1 else 0)).map fun j =>
    (l.drop ((MAXLINE - 1) * j)).take (MAXLINE - 2)

/-- Nothing is to be run, or it all is in one part, the vector has room, and nothing else is taken for
a `&`. -/
def Survives (ended : Bool) (l : Bytes) : Prop :=
  (typedVector (words space l)).1 = [] ∨
  ((words space l).length < MAXARGS ∧
    (∀ w, (words space l).getLast? = some w → w.head? = some ampersand → w = [ampersand]) ∧
    ∃ p ∈ parts ended l, (inked space p).length = (inked space l).length)

/-- Every line does, up to a `quit`; only the last one has no newline. -/
def AllSurvive : List Bytes → Prop
  | [] => True
  | [l] => Survives false l
  | l :: l' :: ls => Survives true l ∧ (Quits l ∨ AllSurvive (l' :: ls))

example : typed 0 ((ascii "ls  -l &\n\n &\nquit\nls").splitOn newline) =
    [⟨0, [ascii "ls", ascii "-l"], true⟩, ⟨3, [ascii "quit"], false⟩] := by decide

/-! ## The pieces of a line -/

theorem piece_ended {l : Bytes} : ∀ {m : Nat} (rest : Bytes), newline ∉ l → l.length < m →
    piece m (l ++ newline :: rest) = l ++ [newline] := by
  induction l with
  | nil =>
    intro m rest _ hm
    obtain ⟨m, rfl⟩ := Nat.exists_eq_add_of_lt hm
    rfl
  | cons b l ih =>
    intro m rest hl hm
    rw [List.mem_cons, not_or] at hl
    cases m with
    | zero => simp at hm
    | succ m =>
      rw [List.cons_append, piece, if_neg fun h => hl.1 h.symm, ih rest hl.2 (Nat.lt_of_succ_lt_succ hm)]
      rfl

theorem piece_long {l : Bytes} : ∀ {m : Nat} (rest : Bytes), newline ∉ l → m ≤ l.length →
    piece m (l ++ rest) = l.take m := by
  induction l with
  | nil =>
    intro m rest _ hm
    obtain rfl := Nat.le_zero.1 hm
    rfl
  | cons b l ih =>
    intro m rest hl hm
    rw [List.mem_cons, not_or] at hl
    cases m with
    | zero => rfl
    | succ m =>
      rw [List.cons_append, piece, if_neg fun h => hl.1 h.symm, ih rest hl.2 (Nat.le_of_succ_le_succ hm)]
      rfl

theorem piece_unended {l : Bytes} : ∀ {m : Nat}, newline ∉ l → l.length ≤ m → piece m l = l := by
  induction l with
  | nil => intro m _ _; exact piece_nil m
  | cons b l ih =>
    intro m hl hm
    rw [List.mem_cons, not_or] at hl
    cases m with
    | zero => simp at hm
    | succ m => rw [piece, if_neg fun h => hl.1 h.symm, ih hl.2 (Nat.le_of_succ_le_succ hm)]

theorem parts_short {l : Bytes} (ended : Bool) (h : l.length < MAXLINE - 1) :
    parts ended l = if ended then [l] else [] := by
  have hdiv : l.length / (MAXLINE - 1) = 0 := Nat.div_eq_of_lt h
  cases ended with
  | false => simp [parts, hdiv]
  | true =>
    have htake : l.take (MAXLINE - 2) = l := List.take_of_length_le (by unfold MAXLINE at h ⊢; omega)
    simp [parts, hdiv, htake]

theorem parts_long {l : Bytes} (ended : Bool) (h : MAXLINE - 1 ≤ l.length) :
    parts ended l = l.take (MAXLINE - 2) :: parts ended (l.drop (MAXLINE - 1)) := by
  have hdiv : l.length / (MAXLINE - 1) = (l.drop (MAXLINE - 1)).length / (MAXLINE - 1) + 1 := by
    rw [List.length_drop]
    exact Nat.div_eq_sub_div (by decide) h
  rw [parts, parts, hdiv, Nat.add_right_comm, List.range_succ_eq_map]
  simp only [List.map_cons, List.map_map, Nat.mul_zero, List.drop_zero]
  congr 1
  apply List.map_congr_left
  intro j _
  simp only [Function.comp, List.drop_drop, Nat.mul_succ, Nat.add_comm]

/-! ## One line of input -/

/-- Every turn that goes on takes a byte. -/
theorem tryGets_rest {stdin : Bytes} (hfeof : ¬ (tryGets stdin).feof = true) :
    (tryGets stdin).rest.length < stdin.length := by
  have hpos : 0 < (piece (MAXLINE - 1) stdin).length := by
    rw [List.length_pos_iff]
    intro hnil
    apply hfeof
    simp only [tryGets, hnil]
    decide
  have hpre : piece (MAXLINE - 1) stdin <+: stdin := piece_prefix _ _
  have hle := hpre.length_le
  simp only [tryGets, List.length_drop]
  omega

theorem mainLoop_enough (n : Nat) : ∀ (i : Nat) (stdin : Bytes), stdin.length < n → mainLoop n i stdin = main i stdin := by
  induction n using Nat.strongRecOn with
  | ind n ih =>
    intro i stdin hn
    cases n with
    | zero => exact absurd hn (Nat.not_lt_zero _)
    | succ n =>
      rw [main, mainLoop, mainLoop]
      by_cases hfeof : (tryGets stdin).feof = true
      · simp only [if_pos hfeof]
      · have hrest := tryGets_rest hfeof
        simp only [if_neg hfeof]
        rw [ih n (Nat.lt_succ_self n) _ _ (by omega), ih stdin.length (by omega) _ _ hrest]

theorem main_eq (i : Nat) (stdin : Bytes) : main i stdin =
    if (tryGets stdin).feof then ⟨[], .exited⟩
    else eval i (tryGets stdin).line
      (main (if (tryGets stdin).line.getLast? = some newline then i + 1 else i) (tryGets stdin).rest) := by
  rw [main, mainLoop]
  by_cases hfeof : (tryGets stdin).feof = true
  · simp only [if_pos hfeof]
  · simp only [if_neg hfeof]
    rw [mainLoop_enough _ _ _ (tryGets_rest hfeof)]

/-- What `eval` makes of a part. -/
def vectorOf (p : Bytes) : Option (List Bytes × Bool) :=
  if (words space p).length ≥ MAXARGS then none else some (stripped (words space p))

/-- The parts of line `i` are run, one after the other, and then `next`. -/
def perform (i : Nat) (next : Session) (ps : List Bytes) : Session :=
  ps.foldr (fun p next => act i next (vectorOf p)) next

/-- A piece is evaluated as the part it is. -/
theorem eval_piece (i : Nat) (next : Session) {p : Bytes} {b : UInt8} (hp : (0 : UInt8) ∉ p) (hb : b ≠ 0) :
    eval i (p ++ [b]) next = act i next (vectorOf p) := by
  have h0 : (0 : UInt8) ∉ p ++ [b] := by
    rw [List.mem_append, List.mem_singleton, not_or]
    exact ⟨hp, fun h => hb h.symm⟩
  rw [eval, argvOf_spec (by simp) h0, List.dropLast_concat, vectorOf]

/-- `tryGets` in front of a long line. -/
theorem tryGets_long {l : Bytes} (rest : Bytes) (hl : newline ∉ l) (h : MAXLINE - 1 ≤ l.length) :
    tryGets (l ++ rest) = ⟨l.take (MAXLINE - 1), l.drop (MAXLINE - 1) ++ rest, false⟩ := by
  have hlen : (l.take (MAXLINE - 1)).length = MAXLINE - 1 := by
    rw [List.length_take]
    omega
  simp only [tryGets, piece_long rest hl h, hlen, List.drop_append_of_le_length h, Nat.lt_irrefl, false_and,
    decide_false]

/-- A long line: its first part is run, then what is left of it is the line. -/
theorem main_long (i : Nat) {l : Bytes} (rest : Bytes) (hl : newline ∉ l) (h0 : (0 : UInt8) ∉ l)
    (h : MAXLINE - 1 ≤ l.length) : main i (l ++ rest) =
      act i (main i (l.drop (MAXLINE - 1) ++ rest)) (vectorOf (l.take (MAXLINE - 2))) := by
  obtain ⟨b, hb⟩ : ∃ b, l.take (MAXLINE - 1) = l.take (MAXLINE - 2) ++ [b] ∧ b ∈ l := by
    have hlt : MAXLINE - 2 < l.length := by
      unfold MAXLINE at h ⊢
      omega
    exact ⟨l[MAXLINE - 2], by rw [List.take_append_getElem hlt]; rfl, List.getElem_mem hlt⟩
  obtain ⟨htake, hmem⟩ := hb
  have hnl : ¬ (l.take (MAXLINE - 1)).getLast? = some newline := by
    rw [htake, List.getLast?_concat]
    rintro heq
    exact hl (Option.some.inj heq ▸ hmem)
  have hb0 : b ≠ 0 := by
    rintro rfl
    exact h0 hmem
  have hp0 : (0 : UInt8) ∉ l.take (MAXLINE - 2) := fun hmem => h0 (List.mem_of_mem_take hmem)
  rw [main_eq, tryGets_long rest hl h]
  simp only [Bool.false_eq_true, if_false, if_neg hnl]
  rw [htake, eval_piece i _ hp0 hb0]

/-- **A line that a newline ends.** -/
theorem main_ended (n : Nat) : ∀ (i : Nat) (l rest : Bytes), l.length ≤ n → newline ∉ l → (0 : UInt8) ∉ l →
    main i (l ++ newline :: rest) = perform i (main (i + 1) rest) (parts true l) := by
  induction n using Nat.strongRecOn with
  | ind n ih =>
    intro i l rest hn hl h0
    by_cases h : MAXLINE - 1 ≤ l.length
    · have hlen : (l.drop (MAXLINE - 1)).length ≤ l.length - (MAXLINE - 1) := by rw [List.length_drop]
      have hlt : l.length - (MAXLINE - 1) < n := by
        unfold MAXLINE at h ⊢
        omega
      rw [main_long i _ hl h0 h, parts_long true h, ih _ hlt i _ rest hlen (fun hm => hl (List.mem_of_mem_drop hm))
        (fun hm => h0 (List.mem_of_mem_drop hm))]
      rfl
    · have hlt : l.length < MAXLINE - 1 := by omega
      have hgets : tryGets (l ++ newline :: rest) = ⟨l ++ [newline], rest, false⟩ := by
        have hpiece := piece_ended rest hl hlt
        simp only [tryGets, hpiece, List.getLast?_concat, ne_eq, not_true_eq_false, and_false, decide_false]
        congr 1
        rw [show l ++ newline :: rest = (l ++ [newline]) ++ rest by simp, List.drop_left]
      rw [main_eq, hgets, parts_short true hlt]
      simp only [Bool.false_eq_true, if_false, List.getLast?_concat, if_true]
      exact eval_piece i _ h0 (by decide)

/-- **A last line without a newline.** -/
theorem main_unended (n : Nat) : ∀ (i : Nat) (l : Bytes), l.length ≤ n → newline ∉ l → (0 : UInt8) ∉ l →
    main i l = perform i ⟨[], .exited⟩ (parts false l) := by
  induction n using Nat.strongRecOn with
  | ind n ih =>
    intro i l hn hl h0
    by_cases h : MAXLINE - 1 ≤ l.length
    · have hlen : (l.drop (MAXLINE - 1)).length ≤ l.length - (MAXLINE - 1) := by rw [List.length_drop]
      have hlt : l.length - (MAXLINE - 1) < n := by
        unfold MAXLINE at h ⊢
        omega
      have hlong := main_long i [] hl h0 h
      rw [List.append_nil, List.append_nil] at hlong
      rw [hlong, parts_long false h, ih _ hlt i _ hlen (fun hm => hl (List.mem_of_mem_drop hm))
        (fun hm => h0 (List.mem_of_mem_drop hm))]
      rfl
    · have hlt : l.length < MAXLINE - 1 := by omega
      have hfeof : (tryGets l).feof = true := by
        have hnl : ¬ l.getLast? = some newline := fun hlast => hl (List.mem_of_getLast? hlast)
        simp only [tryGets, piece_unended hl (Nat.le_of_lt hlt), decide_eq_true_eq]
        exact ⟨hlt, hnl⟩
      rw [main_eq, if_pos hfeof, parts_short false hlt]
      rfl

/-! ## The parts of a line -/

/-- Texts that stand in `l` one behind the other. -/
inductive Cut : List Bytes → Bytes → Prop
  | nil (l : Bytes) : Cut [] l
  | cons {ps : List Bytes} {l : Bytes} (p gap : Bytes) : Cut ps l → Cut (p :: ps) (p ++ gap ++ l)

theorem parts_cut (ended : Bool) (n : Nat) : ∀ l : Bytes, l.length ≤ n → Cut (parts ended l) l := by
  induction n using Nat.strongRecOn with
  | ind n ih =>
    intro l hn
    by_cases h : MAXLINE - 1 ≤ l.length
    · have hlt : (l.drop (MAXLINE - 1)).length < n := by
        rw [List.length_drop]
        unfold MAXLINE at h ⊢
        omega
      have hcut := Cut.cons (l.take (MAXLINE - 2)) ((l.drop (MAXLINE - 2)).take 1) (ih _ hlt _ (Nat.le_refl _))
      have hl : l.take (MAXLINE - 2) ++ (l.drop (MAXLINE - 2)).take 1 ++ l.drop (MAXLINE - 1) = l := by
        have hdrop : l.drop (MAXLINE - 1) = (l.drop (MAXLINE - 2)).drop 1 := by rw [List.drop_drop]; rfl
        rw [hdrop, List.append_assoc, List.take_append_drop, List.take_append_drop]
      rw [hl] at hcut
      rw [parts_long ended h]
      exact hcut
    · rw [parts_short ended (by omega)]
      cases ended with
      | false => exact .nil l
      | true =>
        have hcut := Cut.cons l [] (Cut.nil [])
        rw [List.append_nil, List.append_nil] at hcut
        exact hcut

theorem Cut.infix {ps : List Bytes} {l : Bytes} (h : Cut ps l) : ∀ {p}, p ∈ ps → ∃ a b, l = a ++ p ++ b := by
  induction h with
  | nil l => intro p hp; cases hp
  | cons q gap _ ih =>
    intro p hp
    rcases List.mem_cons.1 hp with rfl | hp
    · exact ⟨[], gap ++ _, by rw [List.nil_append, List.append_assoc]⟩
    · obtain ⟨a, b, rfl⟩ := ih hp
      exact ⟨q ++ gap ++ a, b, by simp⟩

theorem Cut.inked_le {ps : List Bytes} {l : Bytes} (h : Cut ps l) {p : Bytes} (hp : p ∈ ps) :
    (inked space p).length ≤ (inked space l).length := by
  obtain ⟨a, b, rfl⟩ := h.infix hp
  simp only [inked_append, List.length_append]
  omega

/-- When one part has all that is not a space, the others have spaces only. -/
theorem Cut.others_blank {ps : List Bytes} {l : Bytes} (h : Cut ps l) : ∀ {p}, p ∈ ps →
    (inked space p).length = (inked space l).length →
    ∃ bs bs', ps = bs ++ p :: bs' ∧ ∀ q ∈ bs ++ bs', inked space q = [] := by
  induction h with
  | nil l => intro p hp; cases hp
  | @cons ps l q gap hcut ih =>
    intro p hp hink
    simp only [inked_append, List.length_append] at hink
    rcases List.mem_cons.1 hp with rfl | hp
    · refine ⟨[], ps, rfl, fun r hr => ?_⟩
      have hle := hcut.inked_le hr
      exact List.length_eq_zero_iff.1 (by omega)
    · have hle := hcut.inked_le hp
      obtain ⟨bs, bs', rfl, hblank⟩ := ih hp (by omega)
      refine ⟨q :: bs, bs', rfl, fun r hr => ?_⟩
      rcases List.mem_cons.1 hr with rfl | hr
      · exact List.length_eq_zero_iff.1 (by omega)
      · exact hblank r hr

/-! ## When a line survives -/

/-- A part with spaces only, or with nothing but `&`, runs nothing. -/
theorem act_silent (i : Nat) (next : Session) {p : Bytes} (h : words space p = [] ∨ words space p = [[ampersand]]) :
    act i next (vectorOf p) = next := by
  rcases h with h | h <;> rw [vectorOf, h] <;> rfl

theorem perform_silent (i : Nat) (next : Session) {bs : List Bytes} (ps : List Bytes)
    (h : ∀ q ∈ bs, words space q = [] ∨ words space q = [[ampersand]]) :
    perform i next (bs ++ ps) = perform i next ps := by
  induction bs with
  | nil => rfl
  | cons q bs ih =>
    have ih := ih fun r hr => h r (List.mem_cons_of_mem _ hr)
    rw [List.cons_append, perform, List.foldr_cons, act_silent i _ (h q (List.mem_cons_self ..))]
    exact ih

theorem typedVector_nil {ws : List Bytes} : (typedVector ws).1 = [] ↔ ws = [] ∨ ws = [[ampersand]] := by
  unfold typedVector
  constructor
  · intro h
    split at h
    · rename_i hlast
      right
      rw [← List.dropLast_append_getLast? _ hlast]
      simp only at h
      rw [h]
      rfl
    · exact .inl h
  · rintro (rfl | rfl) <;> rfl

/-- Without a word that only begins with `&`, `parseline` takes off what it should. -/
theorem act_stripped (i : Nat) (next : Session) {ws : List Bytes}
    (h : ∀ w, ws.getLast? = some w → w.head? = some ampersand → w = [ampersand]) :
    act i next (some (stripped ws)) = act i next (some (typedVector ws)) := by
  unfold stripped typedVector
  cases hlast : ws.getLast? with
  | none =>
    obtain rfl := List.getLast?_eq_none_iff.1 hlast
    rfl
  | some w =>
    simp only
    by_cases hw : w.head? = some ampersand
    · rw [if_pos hw, if_pos (by rw [h w hlast hw])]
    · rw [if_neg hw, if_neg]
      intro heq
      rw [Option.some.inj heq] at hw
      exact hw rfl

/-- **A line that survives is run.** -/
theorem perform_survives {ended : Bool} {l : Bytes} (h : Survives ended l) (i : Nat) (next : Session) :
    perform i next (parts ended l) = act i next (some (typedVector (words space l))) := by
  have hcut := parts_cut ended l.length l (Nat.le_refl _)
  rcases h with hnil | ⟨hargs, hamp, p, hp, hink⟩
  · -- nothing to run: no part has more than the line
    have hsilent : ∀ q ∈ parts ended l, words space q = [] ∨ words space q = [[ampersand]] := by
      intro q hq
      obtain ⟨a, b, rfl⟩ := hcut.infix hq
      have hflat : _ = inked space (a ++ q ++ b) := flatten_words (a ++ q ++ b)
      rw [inked_append, inked_append] at hflat
      rcases typedVector_nil.1 hnil with hws | hws
      · rw [hws] at hflat
        left
        rw [words_eq_nil]
        simp only [List.flatten_nil] at hflat
        exact (List.append_eq_nil_iff.1 (List.append_eq_nil_iff.1 hflat.symm).1).2
      · rw [hws, List.flatten_singleton] at hflat
        by_cases hq : inked space q = []
        · exact .inl (words_eq_nil.2 hq)
        · right
          have hpos := List.length_pos_iff.2 hq
          have hlen := congrArg List.length hflat
          simp only [List.length_append, List.length_singleton] at hlen
          have ha : inked space a = [] := List.length_eq_zero_iff.1 (by omega)
          have hb : inked space b = [] := List.length_eq_zero_iff.1 (by omega)
          rw [ha, hb, List.nil_append, List.append_nil] at hflat
          exact words_of_inked_single hflat.symm
    have hrun := perform_silent i next [] hsilent
    rw [List.append_nil] at hrun
    rw [hrun, act, if_pos hnil]
    rfl
  · obtain ⟨a, b, hl⟩ := hcut.infix hp
    have hwords : words space p = words space l := by
      rw [hl] at hink ⊢
      exact words_of_inked hink
    obtain ⟨bs, bs', hps, hblank⟩ := hcut.others_blank hp hink
    have hbefore : ∀ q ∈ bs, words space q = [] ∨ words space q = [[ampersand]] :=
      fun q hq => .inl (words_eq_nil.2 (hblank q (List.mem_append_left _ hq)))
    have hbehind : ∀ q ∈ bs', words space q = [] ∨ words space q = [[ampersand]] :=
      fun q hq => .inl (words_eq_nil.2 (hblank q (List.mem_append_right _ hq)))
    have hrest := perform_silent i next [] hbehind
    rw [List.append_nil] at hrest
    rw [hps, perform_silent i next _ hbefore, perform, List.foldr_cons, vectorOf, hwords, if_neg (by omega),
      act_stripped i _ hamp]
    exact congrArg (fun s => act i s (some (typedVector (words space l)))) hrest

/-- What a line runs first comes from one of its parts. -/
theorem perform_first {i : Nat} {next : Session} (hnext : ∀ r ∈ next.ran, i < r.line) {argv : List Bytes} {bg : Bool}
    {tail : List Ran} (ps : List Bytes) (h : (perform i next ps).ran = ⟨i, argv, bg⟩ :: tail) :
    ∃ p ∈ ps, vectorOf p = some (argv, bg) := by
  induction ps with
  | nil =>
    have hmem : (⟨i, argv, bg⟩ : Ran) ∈ next.ran := by
      rw [show next.ran = _ from h]
      exact List.mem_cons_self ..
    exact absurd (hnext _ hmem) (Nat.lt_irrefl i)
  | cons p ps ih =>
    have hstep : perform i next (p :: ps) = act i (perform i next ps) (vectorOf p) := rfl
    rw [hstep] at h
    cases hv : vectorOf p with
    | none =>
      rw [hv] at h
      cases h
    | some v =>
      obtain ⟨a, b⟩ := v
      rw [hv] at h
      simp only [act] at h
      split at h
      · obtain ⟨q, hq, hvq⟩ := ih h
        exact ⟨q, List.mem_cons_of_mem _ hq, hvq⟩
      · refine ⟨p, List.mem_cons_self .., ?_⟩
        split at h
        · simp only [List.cons.injEq, Ran.mk.injEq] at h
          rw [hv, h.1.2.1, h.1.2.2]
        · simp only [List.cons.injEq, Ran.mk.injEq] at h
          rw [hv, h.1.2.1, h.1.2.2]

/-- A part from which the vector of its line is made has all the line, counted without the spaces. -/
theorem stripped_inked {p l : Bytes} (hle : (inked space p).length ≤ (inked space l).length)
    (hne : (typedVector (words space l)).1 ≠ []) (h : stripped (words space p) = typedVector (words space l)) :
    (inked space p).length = (inked space l).length ∧
      ∀ w, (words space l).getLast? = some w → w.head? = some ampersand → w = [ampersand] := by
  unfold typedVector at h hne
  split at h
  · -- the line ends with `&`, so the part ends with some word that begins with it
    rename_i hlast
    rw [if_pos hlast] at hne
    refine ⟨?_, fun w hw _ => by rw [hlast] at hw; exact (Option.some.inj hw).symm⟩
    unfold stripped at h
    split at h
    · exact absurd (Prod.mk.inj h).1.symm hne
    · rename_i w hw
      split at h
      · have hdrop := (Prod.mk.inj h).1
        have hp := List.dropLast_append_getLast? _ hw
        have hl := List.dropLast_append_getLast? _ hlast
        have hpos : 0 < w.length := List.length_pos_iff.2 (ne_nil_of_mem_words (List.mem_of_getLast? hw))
        rw [← flatten_words, ← flatten_words, ← hp, ← hl, hdrop] at hle ⊢
        simp only [List.flatten_append, List.length_append, List.flatten_singleton, List.length_singleton] at hle ⊢
        omega
      · cases (Prod.mk.inj h).2
  · unfold stripped at h
    split at h
    · cases (Prod.mk.inj h).2
    · rename_i w hw
      split at h
      · cases (Prod.mk.inj h).2
      · rename_i hamp
        have hwords := (Prod.mk.inj h).1
        refine ⟨by rw [← flatten_words, ← flatten_words, hwords], fun v hv hhead => ?_⟩
        rw [← hwords, hw] at hv
        rw [← Option.some.inj hv] at hhead
        exact absurd hhead hamp

/-- **A line that is run survives.** -/
theorem survives_of_perform {ended : Bool} {l : Bytes} {i : Nat} {next next' : Session}
    (hnext : ∀ r ∈ next.ran, i < r.line)
    (h : perform i next (parts ended l) = act i next' (some (typedVector (words space l)))) : Survives ended l := by
  by_cases hnil : (typedVector (words space l)).1 = []
  · exact .inl hnil
  · right
    have hcut := parts_cut ended l.length l (Nat.le_refl _)
    obtain ⟨tail, htail⟩ : ∃ tail, (act i next' (some (typedVector (words space l)))).ran =
        ⟨i, (typedVector (words space l)).1, (typedVector (words space l)).2⟩ :: tail := by
      simp only [act, if_neg hnil]
      split
      · exact ⟨[], rfl⟩
      · exact ⟨next'.ran, rfl⟩
    obtain ⟨p, hp, hv⟩ := perform_first hnext _ ((congrArg Session.ran h).trans htail)
    unfold vectorOf at hv
    split at hv
    · cases hv
    · rename_i hargs
      obtain ⟨hink, hamp⟩ := stripped_inked (hcut.inked_le hp) hnil (Option.some.inj hv)
      obtain ⟨a, b, hl⟩ := hcut.infix hp
      have hwords : words space p = words space l := by
        rw [hl] at hink ⊢
        exact words_of_inked hink
      rw [hwords] at hargs
      exact ⟨by omega, hamp, p, hp, hink⟩

/-! ## The whole input -/

theorem act_tags {i : Nat} {next : Session} {v : Option (List Bytes × Bool)} (h : ∀ r ∈ next.ran, i ≤ r.line) :
    ∀ r ∈ (act i next v).ran, i ≤ r.line := by
  intro r hr
  unfold act at hr
  split at hr
  · cases hr
  · split at hr
    · exact h r hr
    · split at hr
      · rw [List.mem_singleton.1 hr]
      · rcases List.mem_cons.1 hr with rfl | hr
        · exact Nat.le_refl i
        · exact h r hr

/-- What runs later comes from later lines. -/
theorem mainLoop_tags (n : Nat) : ∀ (i : Nat) (stdin : Bytes), ∀ r ∈ (mainLoop n i stdin).ran, i ≤ r.line := by
  induction n with
  | zero => intro i stdin r hr; cases hr
  | succ n ih =>
    intro i stdin r hr
    rw [mainLoop] at hr
    split at hr
    · cases hr
    · apply act_tags _ r hr
      intro q hq
      have hq := ih _ _ q hq
      split at hq <;> omega

/-- One line: it survives, and the rest is run as typed unless the line is a `quit`. -/
theorem act_typed (i : Nat) (l : Bytes) (ls : List Bytes) : (⟨typed i (l :: ls), .exited⟩ : Session) =
    act i ⟨typed (i + 1) ls, .exited⟩ (some (typedVector (words space l))) := by
  simp only [typed, act]
  by_cases hnil : (typedVector (words space l)).1 = []
  · rw [if_pos hnil, if_pos hnil]
  · rw [if_neg hnil, if_neg hnil]
    by_cases hquit : Quits l
    · rw [if_pos hquit, if_pos (show _ = some quit from hquit)]
    · rw [if_neg hquit, if_neg (show ¬ _ = some quit from hquit)]

theorem act_eq_iff {i : Nat} {next next' : Session} {l : Bytes} :
    act i next (some (typedVector (words space l))) = act i next' (some (typedVector (words space l))) ↔
      Quits l ∨ next = next' := by
  unfold act Quits
  simp only
  by_cases hnil : (typedVector (words space l)).1 = []
  · simp [hnil]
  · rw [if_neg hnil, if_neg hnil]
    by_cases hquit : (typedVector (words space l)).1.head? = some quit
    · simp [hquit]
    · rw [if_neg hquit, if_neg hquit]
      constructor
      · intro h
        simp only [Session.mk.injEq, List.cons.injEq, true_and] at h
        right
        cases next
        cases next'
        rw [Session.mk.injEq]
        exact h
      · rintro (h | rfl)
        · exact absurd h hquit
        · rfl

theorem line_iff {ended : Bool} (i : Nat) (l : Bytes) (ls : List Bytes) {next : Session}
    (hnext : ∀ r ∈ next.ran, i < r.line) :
    perform i next (parts ended l) = ⟨typed i (l :: ls), .exited⟩ ↔
      Survives ended l ∧ (Quits l ∨ next = ⟨typed (i + 1) ls, .exited⟩) := by
  rw [act_typed]
  constructor
  · intro h
    have hsurvives := survives_of_perform hnext h
    rw [perform_survives hsurvives, act_eq_iff] at h
    exact ⟨hsurvives, h⟩
  · rintro ⟨hsurvives, h⟩
    rw [perform_survives hsurvives, act_eq_iff]
    exact h

theorem main_typed_iff (input : Bytes) : ∀ i : Nat, (0 : UInt8) ∉ input →
    (main i input = ⟨typed i (input.splitOn newline), .exited⟩ ↔ AllSurvive (input.splitOn newline)) := by
  induction input using words_induction newline with
  | hword l hl =>
    intro i h0
    have hexit : (⟨[], .exited⟩ : Session) = ⟨typed (i + 1) [], .exited⟩ := rfl
    rw [List.splitOn_eq_singleton hl, main_unended l.length i l (Nat.le_refl _) hl h0,
      line_iff i l [] (fun r hr => by cases hr), AllSurvive]
    constructor
    · exact fun h => h.1
    · exact fun h => ⟨h, .inr hexit⟩
  | hsep l rest hl ih =>
    intro i h0
    rw [List.mem_append, List.mem_cons, not_or, not_or] at h0
    have hnext : ∀ r ∈ (main (i + 1) rest).ran, i < r.line := fun r hr => mainLoop_tags _ _ _ r hr
    have hsplit : (l ++ newline :: rest).splitOn newline = l :: rest.splitOn newline := by
      rw [List.splitOn_append_cons_self, List.splitOn_eq_singleton hl]
      rfl
    obtain ⟨l', ls, hls⟩ := List.exists_cons_of_ne_nil (List.splitOn_ne_nil newline rest)
    have ih := ih (i + 1) h0.2.2
    rw [hsplit, main_ended l.length i l rest (Nat.le_refl _) hl h0.1, line_iff i l _ hnext, ih, hls, AllSurvive]

/-- Two commands, and a `quit` that comes before the end. -/
def session : Bytes := ascii "ls  -l &\n\necho x\nquit\nls"

end ComputerSystem.Shell
