import ComputerSystem.Shell.Parse
/-!
# `parseline`'s accesses

`parseline` of the job-control shell (`Chapter8/8.5-8.6/shell/main.c:113`) and of the plain one
(`Chapter8/8.3-8.4/shell/main.c:9`), on the array `buf` and the vector `argv` of `eval`. `Mem` keeps,
beside the two, every position of `buf` that is read or written and every index of `argv` that is
stored to. A loop that is not over after `fuel` turns, or a position outside of the array, gives `none`.

| here         | there                                        |
|--------------|----------------------------------------------|
| `Mem.buf`    | `buf`, all of its bytes                      |
| `Slot.ptr i` | the pointer `buf + i`                        |
| `Slot.unset` | an element that nothing has been stored to   |
| `splitWords` | `parseline` before the test for `&`          |

`splitLoop_spec` has the invariant: what is behind `buf + i` is as it was in the line.
-/

namespace ComputerSystem.Shell.Traced

def MAXLINE : Nat := 8192

def newline : UInt8 := 10

/-- An element of `argv`. -/
inductive Slot
  | unset
  | null
  | ptr (i : Nat)
deriving DecidableEq, Repr

structure Mem where
  buf     : Bytes
  argv    : Nat → Slot
  touched : List Nat
  stored  : List Nat

namespace Mem

def touch (m : Mem) (l : List Nat) : Mem := { m with touched := m.touched ++ l }

/-- `buf[i]`. -/
def read (m : Mem) (i : Nat) : Option (UInt8 × Mem) := m.buf[i]?.map fun b => (b, m.touch [i])

/-- `buf[i] = b`. -/
def write (m : Mem) (i : Nat) (b : UInt8) : Option Mem :=
  if i < m.buf.length then some ({ m with buf := m.buf.set i b }.touch [i]) else none

/-- `argv[k] = v`. -/
def store (m : Mem) (k : Nat) (v : Slot) : Mem :=
  { m with argv := fun j => if j = k then v else m.argv j, stored := m.stored ++ [k] }

end Mem

/-- The memory of `eval` behind `strcpy(buf, cmdline)`; `junk` is what was in `buf`. -/
def strcpy (junk cmdline : Bytes) : Mem :=
  ⟨cmdline ++ 0 :: junk.drop (cmdline.length + 1), fun _ => .unset, [], []⟩

/-! ## The functions -/

/-- The position of the NUL, from `i` on. -/
def strlen : Nat → Mem → Nat → Option (Nat × Mem)
  | 0, _, _ => none
  | fuel + 1, m, i => do
    let (b, m) ← m.read i
    if b = 0 then some (i, m) else strlen fuel m (i + 1)

/-- `while (*buf && (*buf == ' ')) buf++` (`:119-121`, `:128-130`). -/
def skipSpaces : Nat → Mem → Nat → Option (Nat × Mem)
  | 0, _, _ => none
  | fuel + 1, m, i => do
    let (b, m) ← m.read i
    if b ≠ 0 ∧ b = space then skipSpaces fuel m (i + 1) else some (i, m)

def strchr (c : UInt8) : Nat → Mem → Nat → Option (Option Nat × Mem)
  | 0, _, _ => none
  | fuel + 1, m, i => do
    let (b, m) ← m.read i
    if b = c then some (some i, m)
    else if b = 0 then some (none, m)
    else strchr c fuel m (i + 1)

/-- `while ((delim = strchr(buf, ' ')))` (`:124-131`); the new `argc`. -/
def splitLoop (fuel : Nat) : Nat → Mem → Nat → Nat → Option (Nat × Mem)
  | 0, _, _, _ => none
  | n + 1, m, buf, argc => do
    let (delim, m) ← strchr space fuel m buf
    match delim with
    | none => some (argc, m)
    | some delim =>
      let m := m.store argc (.ptr buf)
      let m ← m.write delim 0
      let (buf, m) ← skipSpaces fuel m (delim + 1)
      splitLoop fuel n m buf (argc + 1)

/-- `parseline` to `argv[argc] = NULL` (`:118-132`). -/
def splitWords (fuel : Nat) (m : Mem) : Option (Nat × Mem) := do
  let (len, m) ← strlen fuel m 0
  let m ← m.write (sizeSub len 1) space
  let (buf, m) ← skipSpaces fuel m 0
  let (argc, m) ← splitLoop fuel fuel m buf 0
  some (argc, m.store argc .null)

/-- `parseline` (`Chapter8/8.5-8.6/shell/main.c:113`). -/
def parseline (fuel : Nat) (m : Mem) : Option (Bool × Mem) := do
  let (argc, m) ← splitWords fuel m
  if argc = 0 then some (true, m)
  else match m.argv (argc - 1) with
    | .ptr last => do
      let (b, m) ← m.read last
      if b = ampersand then some (true, m.store (argc - 1) .null) else some (false, m)
    | _ => none

namespace Plain

/-- `parseline` (`Chapter8/8.3-8.4/shell/main.c:9`), with its loop written out in the same words. -/
def parseline (fuel : Nat) (m : Mem) : Option (Bool × Mem) := do
  let (len, m) ← strlen fuel m 0
  let m ← m.write (sizeSub len 1) space
  let (buf, m) ← skipSpaces fuel m 0
  let (argc, m) ← splitLoop fuel fuel m buf 0
  let m := m.store argc .null
  if argc = 0 then some (true, m)
  else match m.argv (argc - 1) with
    | .ptr last => do
      let (b, m) ← m.read last
      if b = ampersand then some (true, m.store (argc - 1) .null) else some (false, m)
    | _ => none

end Plain

/-! ## What the loops read -/

namespace Mem

@[simp] theorem touch_buf (m : Mem) (l : List Nat) : (m.touch l).buf = m.buf := rfl
@[simp] theorem touch_stored (m : Mem) (l : List Nat) : (m.touch l).stored = m.stored := rfl
@[simp] theorem touch_touched (m : Mem) (l : List Nat) : (m.touch l).touched = m.touched ++ l := rfl
@[simp] theorem store_buf (m : Mem) (k : Nat) (v : Slot) : (m.store k v).buf = m.buf := rfl
@[simp] theorem store_stored (m : Mem) (k : Nat) (v : Slot) : (m.store k v).stored = m.stored ++ [k] := rfl
@[simp] theorem store_touched (m : Mem) (k : Nat) (v : Slot) : (m.store k v).touched = m.touched := rfl

theorem store_argv (m : Mem) (k : Nat) (v : Slot) (j : Nat) :
    (m.store k v).argv j = if j = k then v else m.argv j := rfl

theorem touch_touch (m : Mem) (l l' : List Nat) : (m.touch l).touch l' = m.touch (l ++ l') := by
  rw [touch, touch, touch, List.append_assoc]

theorem read_append {m : Mem} {pre s : Bytes} {b : UInt8} (h : m.buf = pre ++ b :: s) :
    m.read pre.length = some (b, m.touch [pre.length]) := by
  rw [read, h, List.getElem?_append_right (Nat.le_refl _), Nat.sub_self]
  rfl

theorem write_append {m : Mem} {pre s : Bytes} {x : UInt8} (h : m.buf = pre ++ x :: s) (b : UInt8) :
    m.write pre.length b = some ({ m with buf := pre ++ b :: s }.touch [pre.length]) := by
  rw [write, if_pos (by rw [h]; simp), h, set_append]

end Mem

/-- The rest of a walk that has taken one step. -/
theorem touch_range (m : Mem) (p n : Nat) :
    (m.touch [p]).touch (List.range' (p + 1) n) = m.touch (List.range' p (n + 1)) := by
  rw [Mem.touch_touch, List.singleton_append, List.range'_succ]

theorem strlen_spec (w : Bytes) : ∀ (n : Nat) (m : Mem) (pre t : Bytes), m.buf = pre ++ (w ++ 0 :: t) → (0 : UInt8) ∉ w →
    w.length < n → strlen n m pre.length = some (pre.length + w.length, m.touch (List.range' pre.length (w.length + 1))) := by
  induction w with
  | nil =>
    intro n m pre t hbuf _ hn
    obtain ⟨n, rfl⟩ := Nat.exists_eq_succ_of_ne_zero (show n ≠ 0 by rintro rfl; cases hn)
    rw [strlen, Mem.read_append hbuf]
    rfl
  | cons b w ih =>
    intro n m pre t hbuf h0 hn
    obtain ⟨n, rfl⟩ := Nat.exists_eq_succ_of_ne_zero (show n ≠ 0 by rintro rfl; cases hn)
    rw [List.mem_cons, not_or] at h0
    have ih := ih n (m.touch [pre.length]) (pre ++ [b]) t (by simp [hbuf]) h0.2 (Nat.lt_of_succ_lt_succ hn)
    rw [List.length_append, List.length_singleton, touch_range] at ih
    rw [strlen, Mem.read_append hbuf]
    simp only [Option.bind_eq_bind, Option.bind_some, if_neg (Ne.symm h0.1), ih, List.length_cons]
    rw [Nat.add_assoc, Nat.add_comm 1]

theorem skipSpaces_spec (bs : Bytes) : ∀ (n : Nat) (m : Mem) (pre : Bytes) (c : UInt8) (t : Bytes),
    m.buf = pre ++ (bs ++ c :: t) → (∀ b ∈ bs, b = space) → c ≠ space → bs.length < n →
    skipSpaces n m pre.length = some (pre.length + bs.length, m.touch (List.range' pre.length (bs.length + 1))) := by
  induction bs with
  | nil =>
    intro n m pre c t hbuf _ hc hn
    obtain ⟨n, rfl⟩ := Nat.exists_eq_succ_of_ne_zero (show n ≠ 0 by rintro rfl; cases hn)
    rw [skipSpaces, Mem.read_append hbuf]
    simp only [Option.bind_eq_bind, Option.bind_some, if_neg (show ¬ (c ≠ 0 ∧ c = space) from fun h => hc h.2)]
    rfl
  | cons b bs ih =>
    intro n m pre c t hbuf hbs hc hn
    obtain rfl := hbs b (List.mem_cons_self ..)
    obtain ⟨n, rfl⟩ := Nat.exists_eq_succ_of_ne_zero (show n ≠ 0 by rintro rfl; cases hn)
    have ih := ih n (m.touch [pre.length]) (pre ++ [space]) c t (by simp [hbuf])
      (fun b hb => hbs b (List.mem_cons_of_mem _ hb)) hc (Nat.lt_of_succ_lt_succ hn)
    rw [List.length_append, List.length_singleton, touch_range] at ih
    have hspace : space ≠ 0 ∧ True := by decide
    rw [skipSpaces, Mem.read_append hbuf]
    simp only [Option.bind_eq_bind, Option.bind_some, if_pos hspace, ih, List.length_cons]
    rw [Nat.add_assoc, Nat.add_comm 1]

theorem strchr_spec (w : Bytes) : ∀ (n : Nat) (m : Mem) (pre t : Bytes), m.buf = pre ++ (w ++ space :: t) → space ∉ w →
    (0 : UInt8) ∉ w → w.length < n → strchr space n m pre.length =
      some (some (pre.length + w.length), m.touch (List.range' pre.length (w.length + 1))) := by
  induction w with
  | nil =>
    intro n m pre t hbuf _ _ hn
    obtain ⟨n, rfl⟩ := Nat.exists_eq_succ_of_ne_zero (show n ≠ 0 by rintro rfl; cases hn)
    rw [strchr, Mem.read_append hbuf]
    rfl
  | cons b w ih =>
    intro n m pre t hbuf hs h0 hn
    rw [List.mem_cons, not_or] at hs h0
    obtain ⟨n, rfl⟩ := Nat.exists_eq_succ_of_ne_zero (show n ≠ 0 by rintro rfl; cases hn)
    have ih := ih n (m.touch [pre.length]) (pre ++ [b]) t (by simp [hbuf]) hs.2 h0.2 (Nat.lt_of_succ_lt_succ hn)
    rw [List.length_append, List.length_singleton, touch_range] at ih
    rw [strchr, Mem.read_append hbuf]
    simp only [Option.bind_eq_bind, Option.bind_some, if_neg (Ne.symm hs.1), if_neg (Ne.symm h0.1), ih, List.length_cons]
    rw [Nat.add_assoc, Nat.add_comm 1]

/-- At the end of the string there is no space. -/
theorem strchr_end {n : Nat} {m : Mem} {pre t : Bytes} (hbuf : m.buf = pre ++ 0 :: t) (hn : 0 < n) :
    strchr space n m pre.length = some (none, m.touch [pre.length]) := by
  obtain ⟨n, rfl⟩ := Nat.exists_eq_succ_of_ne_zero (Nat.ne_of_gt hn)
  have hspace : (0 : UInt8) ≠ space := by decide
  rw [strchr, Mem.read_append hbuf]
  simp only [Option.bind_eq_bind, Option.bind_some, if_neg hspace, if_true]

/-! ## The loop -/

/-- What has been done to the piece `s` of `buf` that begins behind `pre`, `argc` pointers being there. -/
structure Cut (m : Mem) (pre s t : Bytes) (argc : Nat) (m' : Mem) : Prop where
  buf     : ∃ s' : Bytes, s'.length = s.length ∧ m'.buf = pre ++ (s' ++ 0 :: t)
  strings : ∀ r ∈ runs space pre.length s, r.2 ++ [0] <+: m'.buf.drop r.1
  kept    : ∀ k, k < argc → m'.argv k = m.argv k
  put     : ∀ k r, (runs space pre.length s)[k]? = some r → m'.argv (argc + k) = .ptr r.1
  touched : ∃ l, m'.touched = m.touched ++ l ∧ ∀ i ∈ l, i ≤ pre.length + s.length
  stored  : m'.stored = m.stored ++ List.range' argc (runs space pre.length s).length

theorem cons_of_head_ne {t' : Bytes} (t : Bytes) (h : t'.head? ≠ some space) :
    ∃ c u, t' ++ 0 :: t = c :: u ∧ c ≠ space := by
  cases t' with
  | nil => exact ⟨0, t, rfl, by decide⟩
  | cons c u => exact ⟨c, u ++ 0 :: t, rfl, fun hc => h (congrArg some hc)⟩

/-- Behind one turn of the loop: the word `w` that begins behind `pre` is cut off, and the spaces `bs` behind it
are skipped. -/
def Mem.turn (m : Mem) (pre w bs u : Bytes) (argc : Nat) : Mem where
  buf     := pre ++ (w ++ 0 :: (bs ++ u))
  argv    := fun k => if k = argc then .ptr pre.length else m.argv k
  touched := m.touched ++ List.range' pre.length (w.length + 1) ++ [pre.length + w.length] ++
    List.range' (pre.length + w.length + 1) (bs.length + 1)
  stored  := m.stored ++ [argc]

/-- **One turn.** -/
theorem splitLoop_turn {fuel : Nat} (n : Nat) {m : Mem} {pre w bs u : Bytes} (argc : Nat)
    (hbuf : m.buf = pre ++ (w ++ space :: (bs ++ u))) (hw : space ∉ w) (h0w : (0 : UInt8) ∉ w) (hbs : ∀ b ∈ bs, b = space)
    (hu : ∃ c v, u = c :: v ∧ c ≠ space) (hfuel : w.length + bs.length < fuel) :
    splitLoop fuel (n + 1) m pre.length argc =
      splitLoop fuel n (m.turn pre w bs u argc) (pre ++ (w ++ 0 :: bs)).length (argc + 1) := by
  have hchr := strchr_spec w fuel m pre (bs ++ u) hbuf hw h0w (by omega)
  let m1 := (m.touch (List.range' pre.length (w.length + 1))).store argc (.ptr pre.length)
  have hbuf1 : m1.buf = pre ++ w ++ space :: (bs ++ u) := by simp [m1, hbuf]
  have hwrite := Mem.write_append hbuf1 0
  rw [List.length_append] at hwrite
  let m2 := { m1 with buf := pre ++ w ++ 0 :: (bs ++ u) }.touch [pre.length + w.length]
  obtain ⟨c, v, rfl, hc⟩ := hu
  have hskip := skipSpaces_spec bs fuel m2 (pre ++ w ++ [0]) c v (by simp [m2]) hbs hc (by omega)
  have hpos : (pre ++ w ++ [(0 : UInt8)]).length = pre.length + w.length + 1 := by simp [Nat.add_assoc]
  rw [hpos] at hskip
  have hplace : pre.length + w.length + 1 + bs.length = (pre ++ (w ++ (0 : UInt8) :: bs)).length := by
    simp only [List.length_append, List.length_cons]
    omega
  have hturn : m2.touch (List.range' (pre.length + w.length + 1) (bs.length + 1)) = m.turn pre w bs (c :: v) argc := by
    simp [m2, m1, Mem.turn, Mem.touch, Mem.store]
  rw [splitLoop, hchr]
  simp only [Option.bind_eq_bind, Option.bind_some]
  rw [hwrite]
  simp only [Option.bind_some]
  rw [hskip]
  simp only [Option.bind_some]
  rw [hplace, hturn]

/-- Nothing is left. -/
theorem Cut.nil {m : Mem} {pre t : Bytes} (argc : Nat) (hbuf : m.buf = pre ++ 0 :: t) :
    Cut m pre [] t argc (m.touch [pre.length]) := by
  refine ⟨⟨[], rfl, hbuf⟩, ?_, fun _ _ => rfl, ?_, ⟨[pre.length], rfl, by simp⟩, ?_⟩
  · simp [runs_nil]
  · simp [runs_nil]
  · simp [runs_nil]

theorem runs_word {pre w bs s : Bytes} (hwne : w ≠ []) (hw : space ∉ w) (hbs : ∀ b ∈ bs, b = space) :
    runs space pre.length (w ++ space :: (bs ++ s)) =
      (pre.length, w) :: runs space (pre ++ (w ++ (0 : UInt8) :: bs)).length s := by
  rw [runs_append_sep hw, runs_single hw, if_neg hwne, runs_blank_append bs _ _ hbs, List.singleton_append]
  congr 2
  simp only [List.length_append, List.length_cons]
  omega

/-- What one turn has done and what the others do. -/
theorem Cut.word {m m' : Mem} {pre w bs s t : Bytes} {argc : Nat} (hwne : w ≠ []) (hw : space ∉ w)
    (hbs : ∀ b ∈ bs, b = space)
    (h : Cut (m.turn pre w bs (s ++ 0 :: t) argc) (pre ++ (w ++ 0 :: bs)) s t (argc + 1) m') :
    Cut m pre (w ++ space :: (bs ++ s)) t argc m' := by
  have hruns : runs space pre.length (w ++ space :: (bs ++ s)) =
      (pre.length, w) :: runs space (pre ++ (w ++ (0 : UInt8) :: bs)).length s := runs_word hwne hw hbs
  obtain ⟨s', hlen, hbuf⟩ := h.buf
  obtain ⟨l, htouched, hl⟩ := h.touched
  refine ⟨⟨w ++ 0 :: (bs ++ s'), by simp [hlen], by simp [hbuf]⟩, ?_, ?_, ?_, ?_, ?_⟩
  · intro r hr
    rw [hruns, List.mem_cons] at hr
    rcases hr with rfl | hr
    · rw [hbuf, List.append_assoc, List.drop_left]
      exact ⟨bs ++ (s' ++ 0 :: t), by simp⟩
    · exact h.strings r hr
  · intro k hk
    rw [h.kept k (by omega)]
    exact if_neg (by omega)
  · intro k r hr
    rw [hruns] at hr
    cases k with
    | zero =>
      rw [List.getElem?_cons_zero] at hr
      injection hr with hr
      subst hr
      rw [h.kept (argc + 0) (by omega)]
      exact if_pos rfl
    | succ k =>
      rw [List.getElem?_cons_succ] at hr
      rw [← h.put k r hr]
      congr 1
      omega
  · refine ⟨List.range' pre.length (w.length + 1) ++ [pre.length + w.length] ++
      List.range' (pre.length + w.length + 1) (bs.length + 1) ++ l, by simp [htouched, Mem.turn], ?_⟩
    intro i hi
    simp only [List.mem_append, List.mem_singleton, List.mem_range'_1] at hi
    simp only [List.length_append, List.length_cons] at hl ⊢
    rcases hi with ((hi | hi) | hi) | hi
    · omega
    · omega
    · omega
    · have := hl i hi
      omega
  · rw [h.stored, hruns, List.length_cons, List.range'_succ]
    simp [Mem.turn]

/-- **The loop** (`:124-131`), a word in each turn. -/
theorem splitLoop_spec (fuel n : Nat) : ∀ (m : Mem) (pre s t : Bytes) (argc : Nat),
    m.buf = pre ++ (s ++ 0 :: t) → (0 : UInt8) ∉ s → (s = [] ∨ s.getLast? = some space) → s.head? ≠ some space →
    s.length < fuel → s.length < n →
    ∃ m', splitLoop fuel n m pre.length argc = some (argc + (runs space pre.length s).length, m') ∧
      Cut m pre s t argc m' := by
  induction n with
  | zero => intro m pre s t argc _ _ _ _ _ hn; cases hn
  | succ n ih =>
    intro m pre s t argc hbuf h0 hend hhead hfuel hn
    by_cases hs : s = []
    · subst hs
      refine ⟨m.touch [pre.length], ?_, Cut.nil argc hbuf⟩
      rw [splitLoop, strchr_end hbuf (Nat.zero_lt_of_lt hfuel), runs_nil]
      rfl
    · obtain ⟨w, bs, s, rfl, ⟨hwne, hw, h0w⟩, hbs, h0s, hends, hheads⟩ := cut_word hs h0 hend hhead
      simp only [List.length_append, List.length_cons] at hfuel hn
      have hbuf' : m.buf = pre ++ (w ++ space :: (bs ++ (s ++ 0 :: t))) := by simp [hbuf]
      have hturn := splitLoop_turn n argc hbuf' hw h0w hbs (cons_of_head_ne t hheads)
        (show w.length + bs.length < fuel by omega)
      obtain ⟨m', hloop, hcut⟩ := ih (m.turn pre w bs (s ++ 0 :: t) argc) (pre ++ (w ++ 0 :: bs)) s t (argc + 1)
        (by simp [Mem.turn]) h0s hends hheads (by omega) (by omega)
      refine ⟨m', ?_, hcut.word hwne hw hbs⟩
      rw [hturn, hloop, runs_word hwne hw hbs, List.length_cons]
      congr 2
      omega

/-! ## The whole function -/

/-- A line that `try_gets` can hand to `eval` (`:225-229`): at most `MAXLINE - 1` bytes, none of them NUL. -/
structure Line where
  bytes : Bytes
  ne    : bytes ≠ []
  nul   : (0 : UInt8) ∉ bytes
  short : bytes.length ≤ MAXLINE - 1

/-- What has been done to the line `line` in `buf`. -/
structure Split (junk : Bytes) (line : Line) (m : Mem) : Prop where
  buf     : ∃ s : Bytes, s.length = line.bytes.length ∧ m.buf = s ++ 0 :: junk.drop (line.bytes.length + 1)
  strings : ∀ r ∈ runs space 0 line.bytes.dropLast, r.2 ++ [0] <+: m.buf.drop r.1
  put     : ∀ k r, (runs space 0 line.bytes.dropLast)[k]? = some r → m.argv k = .ptr r.1
  null    : m.argv (runs space 0 line.bytes.dropLast).length = .null
  touched : ∀ i ∈ m.touched, i ≤ line.bytes.length
  stored  : m.stored = List.range ((runs space 0 line.bytes.dropLast).length + 1)

theorem splitWords_spec (junk : Bytes) (line : Line) {fuel : Nat} (hfuel : line.bytes.length < fuel) :
    ∃ m, splitWords fuel (strcpy junk line.bytes) = some ((runs space 0 line.bytes.dropLast).length, m) ∧
      Split junk line m := by
  obtain ⟨line, hne, hnul, hshort⟩ := line
  simp only at hfuel ⊢
  let t := junk.drop (line.length + 1)
  have hpos := List.length_pos_iff.2 hne
  have hlen := strlen_spec line fuel (strcpy junk line) [] t rfl hnul hfuel
  simp only [List.length_nil, Nat.zero_add] at hlen
  let m1 := (strcpy junk line).touch (List.range' 0 (line.length + 1))
  have hsub : sizeSub line.length 1 = line.dropLast.length := by
    rw [sizeSub_eq hpos (by simp only [MAXLINE] at hshort; omega), List.length_dropLast]
  have hbuf1 : m1.buf = line.dropLast ++ line.getLast hne :: (0 :: t) := by
    rw [List.append_cons, List.dropLast_concat_getLast]
    rfl
  have hwrite := Mem.write_append hbuf1 space
  obtain ⟨bs, s, hcut, hbs, h0s, hend, hs⟩ := cut_line hnul
  have hbuf2 : line.dropLast ++ space :: (0 :: t) = bs ++ (s ++ 0 :: t) := by
    rw [← List.append_assoc, ← hcut, List.append_assoc, List.singleton_append]
  have hsize : bs.length + s.length = line.length := by
    have h := congrArg List.length hcut
    simp only [List.length_append, List.length_dropLast, List.length_singleton] at h
    omega
  have hruns : runs space bs.length s = runs space 0 line.dropLast := by
    have h := runs_blank_append bs 0 s hbs
    rw [Nat.zero_add] at h
    rw [← h, ← hcut, runs_concat_sep]
  let m2 := { m1 with buf := line.dropLast ++ space :: (0 :: t) }.touch [line.dropLast.length]
  obtain ⟨c, v, hcv, hc⟩ := cons_of_head_ne t hs
  have hskip := skipSpaces_spec bs fuel m2 [] c v (by simp only [m2, Mem.touch_buf, hbuf2, hcv, List.nil_append]) hbs hc
    (by omega)
  simp only [List.length_nil, Nat.zero_add] at hskip
  let m3 := m2.touch (List.range' 0 (bs.length + 1))
  obtain ⟨m', hloop, hsplit⟩ := splitLoop_spec fuel fuel m3 bs s t 0 hbuf2 h0s hend hs (by omega) (by omega)
  rw [hruns, Nat.zero_add] at hloop
  refine ⟨m'.store (runs space 0 line.dropLast).length .null, ?_, ?_⟩
  · rw [splitWords, hlen]
    simp only [Option.bind_eq_bind, Option.bind_some]
    rw [hsub, hwrite]
    simp only [Option.bind_some]
    rw [hskip]
    simp only [Option.bind_some]
    rw [hloop]
    rfl
  · obtain ⟨s', hlen', hbuf'⟩ := hsplit.buf
    obtain ⟨l, htouched, hl⟩ := hsplit.touched
    refine ⟨⟨bs ++ s', by rw [List.length_append, hlen', hsize], by rw [Mem.store_buf, hbuf', List.append_assoc]⟩, ?_,
      ?_, if_pos rfl, ?_, ?_⟩
    · intro r hr
      rw [← hruns] at hr
      exact hsplit.strings r hr
    · intro k r hr
      have hk : k ≠ (runs space 0 line.dropLast).length := by
        rintro rfl
        rw [List.getElem?_eq_none (Nat.le_refl _)] at hr
        cases hr
      rw [← hruns] at hr
      rw [Mem.store_argv, if_neg hk, ← hsplit.put k r hr, Nat.zero_add]
    · intro i hi
      show i ≤ line.length
      rw [Mem.store_touched, htouched] at hi
      simp only [m3, m2, m1, strcpy, Mem.touch_touched, List.nil_append, List.mem_append, List.mem_singleton,
        List.mem_range'_1, List.length_dropLast] at hi
      rcases hi with ((hi | hi) | hi) | hi
      · omega
      · omega
      · omega
      · have := hl i hi
        omega
    · rw [Mem.store_stored, hsplit.stored, hruns, List.range_succ, List.range_eq_range']
      rfl

/-- `argv` in `m` is the vector `ws`. -/
structure Args (m : Mem) (ws : List Bytes) : Prop where
  word : ∀ k w, ws[k]? = some w → ∃ p, m.argv k = .ptr p ∧ stringAt m.buf p = w
  null : m.argv ws.length = .null

theorem stringAt_of_prefix {buf w : Bytes} {p : Nat} (h : w ++ [0] <+: buf.drop p) (hw : (0 : UInt8) ∉ w) :
    stringAt buf p = w := by
  obtain ⟨t, ht⟩ := h
  rw [stringAt, ← ht, List.append_assoc]
  have hcut := cstring_append_nul w t
  rw [cstring_eq hw] at hcut
  exact hcut

theorem Split.args {junk : Bytes} {line : Line} {m : Mem} (h : Split junk line m) :
    Args m (words space line.bytes.dropLast) := by
  have hmap := map_snd_runs space line.bytes.dropLast 0
  constructor
  · intro k w hw
    rw [← hmap, List.getElem?_map, Option.map_eq_some_iff] at hw
    obtain ⟨r, hr, rfl⟩ := hw
    have hmem := List.mem_of_getElem? hr
    refine ⟨r.1, h.put k r hr, stringAt_of_prefix (h.strings r hmem) ?_⟩
    obtain ⟨a, b, hcut, -⟩ := ((mem_runs space line.bytes.dropLast (i := 0) (p := r.1)).1 (by simpa using hmem)).cut
    intro h0
    apply line.nul
    apply List.dropLast_subset
    rw [hcut]
    simp [h0]
  · rw [← hmap, List.length_map]
    exact h.null

/-- **`parseline`**, the test for `&` included, has the vector that the machine runs. -/
theorem parseline_spec (junk : Bytes) (line : Line) {fuel : Nat} (hfuel : line.bytes.length < fuel) :
    ∃ m, parseline fuel (strcpy junk line.bytes) = some ((stripped (words space line.bytes.dropLast)).2, m) ∧
      Args m (stripped (words space line.bytes.dropLast)).1 ∧ (∀ i ∈ m.touched, i ≤ line.bytes.length) ∧
      ∀ k, k ∈ m.stored ↔ k ≤ (words space line.bytes.dropLast).length := by
  obtain ⟨m, hwords, hsplit⟩ := splitWords_spec junk line hfuel
  have hargs := hsplit.args
  have hmap := map_snd_runs space line.bytes.dropLast 0
  have hlen := congrArg List.length hmap
  rw [List.length_map] at hlen
  have hstored : ∀ k, k ∈ m.stored ↔ k ≤ (words space line.bytes.dropLast).length := by
    intro k
    rw [hsplit.stored, List.mem_range, hlen]
    omega
  rw [hlen] at hwords
  rw [parseline, hwords]
  simp only [Option.bind_eq_bind, Option.bind_some]
  generalize hws : words space line.bytes.dropLast = ws at *
  rcases List.eq_nil_or_concat ws with rfl | ⟨ws, w, rfl⟩
  · exact ⟨m, rfl, hargs, hsplit.touched, hstored⟩
  · rw [List.concat_eq_append] at *
    -- the last word, and its first character
    have hlast : (ws ++ [w])[(ws ++ [w]).length - 1]? = some w := by simp
    have hmem : w ∈ words space line.bytes.dropLast := by rw [hws]; simp
    obtain ⟨b, u, rfl⟩ := List.exists_cons_of_ne_nil (ne_nil_of_mem_words hmem)
    rw [← hmap, List.getElem?_map, Option.map_eq_some_iff] at hlast
    obtain ⟨r, hr, hrw⟩ := hlast
    have hptr := hsplit.put _ r hr
    obtain ⟨t, ht⟩ := hsplit.strings r (List.mem_of_getElem? hr)
    rw [hrw] at ht
    have hread : m.read r.1 = some (b, m.touch [r.1]) := by
      rw [Mem.read, ← List.head?_drop, ← ht]
      rfl
    have hbound := (runs_bounds line.bytes.dropLast 0 r (List.mem_of_getElem? hr)).2
    rw [hrw, List.length_cons, List.length_dropLast] at hbound
    have htouched : ∀ i ∈ (m.touch [r.1]).touched, i ≤ line.bytes.length := by
      intro i hi
      rw [Mem.touch_touched, List.mem_append, List.mem_singleton] at hi
      rcases hi with hi | rfl
      · exact hsplit.touched i hi
      · omega
    rw [hmap] at hptr
    rw [if_neg (by simp), hptr]
    simp only
    rw [hread]
    simp only [Option.bind_some, stripped, List.getLast?_concat, List.head?_cons, Option.some.injEq]
    by_cases hb : b = ampersand
    · rw [if_pos hb, if_pos hb, List.dropLast_concat]
      refine ⟨_, rfl, ⟨?_, ?_⟩, htouched, ?_⟩
      · intro k v hv
        have hk : k < ws.length := (List.getElem?_eq_some_iff.1 hv).1
        obtain ⟨p, hp, hstr⟩ := hargs.word k v (by rw [List.getElem?_append_left hk, hv])
        refine ⟨p, ?_, hstr⟩
        rw [Mem.store_argv, if_neg (by simp; omega)]
        exact hp
      · rw [Mem.store_argv, if_pos (by simp)]
      · intro k
        rw [Mem.store_stored, Mem.touch_stored, List.mem_append, hstored, List.mem_singleton]
        omega
    · rw [if_neg hb, if_neg hb]
      exact ⟨_, rfl, ⟨hargs.word, hargs.null⟩, htouched, hstored⟩

/-- The two levels: what `eval` of the machine goes by is what is in `argv`. -/
theorem parseline_argvOf (junk : Bytes) (line : Line) {fuel : Nat} (hfuel : line.bytes.length < fuel) {v : List Bytes × Bool}
    (hv : argvOf line.bytes = some v) : ∃ m, parseline fuel (strcpy junk line.bytes) = some (v.2, m) ∧ Args m v.1 := by
  rw [argvOf_spec line.ne line.nul] at hv
  split at hv
  · cases hv
  · injection hv with hv
    subst hv
    obtain ⟨m, hrun, hargs, -, -⟩ := parseline_spec junk line hfuel
    exact ⟨m, hrun, hargs⟩

/-- The two shells have one `parseline`. -/
theorem parseline_plain (fuel : Nat) (m : Mem) : Plain.parseline fuel m = parseline fuel m := by
  simp only [Plain.parseline, parseline, splitWords, Option.bind_eq_bind, Option.bind_assoc, Option.bind_some]

/-- **The split in place.** A line `text` with its newline is cut at exactly its maximal runs. -/
theorem splitWords_runs (junk text : Bytes) (hnul : (0 : UInt8) ∉ text) (hshort : (text ++ [newline]).length < MAXLINE)
    (hwords : (words space text).length < MAXARGS) {fuel : Nat} (hfuel : (text ++ [newline]).length < fuel) :
    ∃ (rs : List (Nat × Bytes)) (m m' : Mem) (bg : Bool),
      splitWords fuel (strcpy junk (text ++ [newline])) = some (rs.length, m) ∧
      (∀ p w, (p, w) ∈ rs ↔ Run space text p w) ∧
      rs.Pairwise (fun r r' => r.1 + r.2.length < r'.1) ∧
      (∀ k r, rs[k]? = some r → m.argv k = .ptr r.1 ∧ r.2 ++ [0] <+: m.buf.drop r.1) ∧
      m.argv rs.length = .null ∧
      parseline fuel (strcpy junk (text ++ [newline])) = some (bg, m') ∧
      Plain.parseline fuel (strcpy junk (text ++ [newline])) = some (bg, m') ∧
      (∀ i ∈ m'.touched, i ≤ (text ++ [newline]).length) ∧ (∀ k ∈ m'.stored, k < MAXARGS) := by
  have hline : (0 : UInt8) ∉ text ++ [newline] := by
    rw [List.mem_append, not_or]
    exact ⟨hnul, by decide⟩
  let line : Line := ⟨text ++ [newline], by simp, hline, Nat.le_sub_one_of_lt hshort⟩
  have htext : line.bytes.dropLast = text := List.dropLast_concat
  obtain ⟨m, hrun, hsplit⟩ := splitWords_spec junk line hfuel
  obtain ⟨m', hparse, -, htouched, hstored⟩ := parseline_spec junk line hfuel
  rw [htext] at hrun hparse hstored
  refine ⟨runs space 0 text, m, m', _, hrun, ?_, runs_pairwise text 0, ?_, ?_, hparse, ?_, htouched, ?_⟩
  · intro p w
    have h := mem_runs space text (i := 0) (p := p) (v := w)
    rw [Nat.zero_add] at h
    exact h
  · intro k r hr
    rw [← htext] at hr
    exact ⟨hsplit.put k r hr, hsplit.strings r (List.mem_of_getElem? hr)⟩
  · rw [← hsplit.null, htext]
  · rw [parseline_plain]
    exact hparse
  · intro k hk
    have := (hstored k).1 hk
    omega

theorem splitWords_runs_ls : ∃ (rs : List (Nat × Bytes)) (m m' : Mem) (bg : Bool),
    splitWords 9 (strcpy [] (ascii " ls  -l" ++ [newline])) = some (rs.length, m) ∧
    (∀ p w, (p, w) ∈ rs ↔ Run space (ascii " ls  -l") p w) ∧
    rs.Pairwise (fun r r' => r.1 + r.2.length < r'.1) ∧
    (∀ k r, rs[k]? = some r → m.argv k = .ptr r.1 ∧ r.2 ++ [0] <+: m.buf.drop r.1) ∧
    m.argv rs.length = .null ∧
    parseline 9 (strcpy [] (ascii " ls  -l" ++ [newline])) = some (bg, m') ∧
    Plain.parseline 9 (strcpy [] (ascii " ls  -l" ++ [newline])) = some (bg, m') ∧
    (∀ i ∈ m'.touched, i ≤ (ascii " ls  -l" ++ [newline]).length) ∧ (∀ k ∈ m'.stored, k < MAXARGS) :=
  splitWords_runs [] (ascii " ls  -l") (by decide) (by decide) (by decide) (by decide)

/-- **The vector of `eval`**, `argv[MAXARGS]`, takes every store of `parseline` exactly if the line has
fewer than `MAXARGS` words: the loop has no test of `argc`. -/
theorem parseline_stores_iff (junk : Bytes) (line : Line) {fuel : Nat} (hfuel : line.bytes.length < fuel) :
    ∃ bg m, parseline fuel (strcpy junk line.bytes) = some (bg, m) ∧
      Plain.parseline fuel (strcpy junk line.bytes) = some (bg, m) ∧
      ((∀ k ∈ m.stored, k < MAXARGS) ↔ (words space line.bytes.dropLast).length < MAXARGS) := by
  obtain ⟨m, hparse, -, -, hstored⟩ := parseline_spec junk line hfuel
  refine ⟨_, m, hparse, by rw [parseline_plain]; exact hparse, ?_⟩
  constructor
  · intro h
    exact h _ ((hstored _).2 (Nat.le_refl _))
  · intro h k hk
    have := (hstored k).1 hk
    omega

theorem parseline_stores_iff_ls : ∃ bg m, parseline 4 (strcpy [] (ascii "ls" ++ [newline])) = some (bg, m) ∧
    Plain.parseline 4 (strcpy [] (ascii "ls" ++ [newline])) = some (bg, m) ∧
    ((∀ k ∈ m.stored, k < MAXARGS) ↔ (words space (ascii "ls" ++ [newline]).dropLast).length < MAXARGS) :=
  parseline_stores_iff [] ⟨ascii "ls" ++ [newline], by decide, by decide, by decide⟩ (by decide)

/-! ### A line of 128 words -/

/-- `n` times the word `a`, each with the space behind it. -/
def aWords : Nat → Bytes
  | 0 => []
  | n + 1 => 97 :: space :: aWords n

theorem aWords_words (n : Nat) : (words space (aWords n)).length = n := by
  induction n with
  | zero => rfl
  | succ n ih =>
    have hcut : words space ([97] ++ space :: aWords n) = words space [97] ++ words space (aWords n) :=
      words_append_sep [97] (aWords n)
    have hone : words space [(97 : UInt8)] = [[97]] := words_single (by decide) (by decide)
    rw [hone, List.singleton_append] at hcut
    rw [aWords]
    exact (congrArg List.length hcut).trans (congrArg (· + 1) ih)

theorem aWords_length (n : Nat) : (aWords n).length = 2 * n := by
  induction n with
  | zero => rfl
  | succ n ih =>
    rw [aWords, List.length_cons, List.length_cons, ih]
    omega

theorem aWords_nul (n : Nat) : (0 : UInt8) ∉ aWords n := by
  induction n with
  | zero => exact List.not_mem_nil
  | succ n ih => simp [aWords, ih, space]

def line128 : Line :=
  ⟨aWords 128 ++ [newline], by simp, by simp [aWords_nul, newline], by rw [List.length_append, aWords_length]; decide⟩

/-- The 128 words of the line leave no element for the NULL. -/
theorem parseline_stores_128 : ∃ bg m, parseline MAXLINE (strcpy [] line128.bytes) = some (bg, m) ∧
    ¬ ∀ k ∈ m.stored, k < MAXARGS := by
  have hlen : line128.bytes.length < MAXLINE := Nat.lt_of_le_of_lt line128.short (by decide)
  obtain ⟨m, hparse, -, -, hstored⟩ := parseline_spec [] line128 hlen
  have htext : line128.bytes.dropLast = aWords 128 := List.dropLast_concat
  have hmem : MAXARGS ∈ m.stored := by
    rw [hstored, htext, aWords_words]
    decide
  exact ⟨_, m, hparse, fun h => absurd (h MAXARGS hmem) (Nat.lt_irrefl _)⟩

end ComputerSystem.Shell.Traced
