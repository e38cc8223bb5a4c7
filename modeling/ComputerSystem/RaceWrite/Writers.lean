import ComputerSystem.CTypes
import ComputerSystem.Lib.Machine
import ComputerSystem.Lib.Records
/-!
# Two writers on one file (`Chapter9/9.9-9.10/expirements/race_write.c`)

`main` empties the file, forks, and both processes run `writer`: each opens the file for itself, so each
has an offset of its own, and writes its line over and over. `append` is `use_append`; `count` are `M`
and `N`. The result of `write` is not looked at (`:20`), so a failed or short one is a lost or torn line.

| here              | there                                                          |
|-------------------|----------------------------------------------------------------|
| `Writer.fd`       | the offset behind `fd`; `none` after an `open` that failed       |
| `Label.write r`   | `write` (`:20`): the bytes it wrote, `none` for `-1`             |
| `State.forked`    | what `fork` (`:28`) returned: a child or `-1`; `none` before it  |
| `State.waited`    | `wait(NULL)` (`:33`) has returned                               |

With `O_APPEND` the kernel looks up the end of the file in the same call that writes; without it the
call writes at the offset of the descriptor. A call is one step.
-/

namespace ComputerSystem.RaceWrite

/-- `M`, the lines of the parent, and `N`, those of the child (`:10-11`). -/
def M : Nat := 40000
def N : Nat := 50000

inductive Who
  | parent
  | child
deriving DecidableEq, Repr

def Who.tag : Who → UInt8
  | .parent => 65
  | .child => 66

/-- `snprintf(line, sizeof line, "%c line\n", tag)` (`:18`). -/
def line (who : Who) : Bytes := who.tag :: ascii " line\n"

inductive WriterPc
  /-- at `open` (`:16`) -/
  | opening
  /-- in the loop (`:19`), after `i` calls of `write` -/
  | looping (i : Nat)
  | closed
deriving DecidableEq, Repr

structure Writer where
  pc : WriterPc
  fd : Option Nat
deriving DecidableEq, Repr

structure State where
  file   : Bytes
  forked : Option Bool
  writer : Who → Writer
  waited : Bool

/-- Behind `close(open(.., O_TRUNC))` (`:26`). -/
def start : State := ⟨[], none, fun _ => ⟨.opening, none⟩, false⟩

/-- The process is there and in `writer`. -/
def State.runs (s : State) : Who → Bool
  | .parent => s.forked.isSome
  | .child => s.forked == some true

def State.setWriter (s : State) (who : Who) (w : Writer) : State :=
  { s with writer := fun x => if x = who then w else s.writer x }

inductive Label
  | fork (ok : Bool)
  | open (who : Who) (ok : Bool)
  | write (who : Who) (r : Option Nat)
  | close (who : Who)
  | wait
deriving DecidableEq, Repr

/-- `write(fd, line, len)` that wrote `k` bytes (`:20`). -/
def State.put (s : State) (append : Bool) (who : Who) (i off k : Nat) : State :=
  let begin := if append then s.file.length else off
  let bs := (line who).take k
  { s with file := writeAt 0 begin bs s.file }.setWriter who ⟨.looping (i + 1), some (begin + bs.length)⟩

def step (append : Bool) (count : Who → Nat) (s : State) : Label → Option State
  | .fork ok => if s.forked = none then some { s with forked := some ok } else none
  | .open who ok =>
    if s.runs who ∧ (s.writer who).pc = .opening then
      some (s.setWriter who ⟨.looping 0, if ok then some 0 else none⟩)
    else none
  | .write who r => match (s.writer who).pc, (s.writer who).fd, r with
    | .looping i, some off, some k => if i < count who then some (s.put append who i off k) else none
    | .looping i, fd, none => if i < count who then some (s.setWriter who ⟨.looping (i + 1), fd⟩) else none
    | _, _, _ => none
  | .close who => match (s.writer who).pc with
    | .looping i => if i = count who then some (s.setWriter who ⟨.closed, none⟩) else none
    | _ => none
  | .wait =>
    if s.waited = false ∧ (s.writer .parent).pc = .closed ∧ (s.forked = some true → (s.writer .child).pc = .closed)
    then some { s with waited := true } else none

/-- `fork` and `open` succeed, and every `write` writes its line (`:20`). -/
def Complete (_ : State) : Label → Prop
  | .fork ok => ok = true
  | .open _ ok => ok = true
  | .write who r => r = some (line who).length
  | .close _ | .wait => True

@[simp] theorem line_length (who : Who) : (line who).length = 7 := by
  cases who <;> rfl

@[simp] theorem setWriter_file (s : State) (who : Who) (w : Writer) : (s.setWriter who w).file = s.file := rfl
@[simp] theorem setWriter_forked (s : State) (who : Who) (w : Writer) : (s.setWriter who w).forked = s.forked := rfl
@[simp] theorem setWriter_waited (s : State) (who : Who) (w : Writer) : (s.setWriter who w).waited = s.waited := rfl
@[simp] theorem setWriter_same (s : State) (who : Who) (w : Writer) : (s.setWriter who w).writer who = w := by
  simp only [State.setWriter, if_true]

theorem setWriter_other {s : State} {who x : Who} {w : Writer} (h : x ≠ who) :
    (s.setWriter who w).writer x = s.writer x := by
  simp only [State.setWriter, if_neg h]

/-! ## What a complete run keeps -/

/-- The lines that a writer has written. -/
def Writer.written (w : Writer) (count : Nat) : Nat :=
  match w.pc with
  | .opening => 0
  | .looping i => i
  | .closed => count

def State.written (s : State) (count : Who → Nat) (who : Who) : Nat := (s.writer who).written (count who)

/-- Where the two processes stand when nothing fails. -/
structure Sound (append : Bool) (count : Who → Nat) (s : State) : Prop where
  forked : s.forked ≠ some false
  idle   : ∀ who, s.runs who = false → (s.writer who).pc = .opening
  bound  : ∀ who i, (s.writer who).pc = .looping i → i ≤ count who
  fd     : ∀ who i, (s.writer who).pc = .looping i → ∃ off, (s.writer who).fd = some off ∧
    (append = false → off = 7 * i)
  waited : s.waited = true → ∀ who, (s.writer who).pc = .closed

/-- One more for `who`. -/
def bump (n : Who → Nat) (who : Who) : Who → Nat := fun x => if x = who then n x + 1 else n x

/-- One more line of `who` keeps what is said of the file and the numbers of lines written. -/
def Keeps (append : Bool) (count : Who → Nat) (I : Bytes → (Who → Nat) → Prop) : Prop :=
  ∀ who file n, n who < count who → I file n →
    I (writeAt 0 (if append then file.length else 7 * n who) (line who) file) (bump n who)

theorem written_setWriter (s : State) (count : Who → Nat) (who : Who) (w : Writer) :
    (s.setWriter who w).written count = fun x => if x = who then w.written (count who) else s.written count x := by
  funext x
  unfold State.written State.setWriter
  by_cases h : x = who
  · subst h
    simp only [if_true]
  · simp only [if_neg h]

/-- A writer that comes to where as many lines are written. -/
theorem written_keep {s : State} {count : Who → Nat} {who : Who} {w : Writer}
    (h : w.written (count who) = s.written count who) : (s.setWriter who w).written count = s.written count := by
  rw [written_setWriter]
  funext x
  by_cases hx : x = who
  · rw [if_pos hx, h, hx]
  · rw [if_neg hx]

/-- A running writer moves; the other one and the rest stay. -/
theorem Sound.setWriter {append : Bool} {count : Who → Nat} {s : State} {who : Who} {w : Writer}
    (h : Sound append count s) (hruns : s.runs who = true) (hw : s.waited = true → w.pc = .closed)
    (hbound : ∀ i, w.pc = .looping i → i ≤ count who)
    (hfd : ∀ i, w.pc = .looping i → ∃ off, w.fd = some off ∧ (append = false → off = 7 * i)) :
    Sound append count (s.setWriter who w) where
  forked := h.forked
  idle x hx := by
    have hne : x ≠ who := by
      rintro rfl
      exact absurd (hruns.symm.trans hx) (by decide)
    rw [setWriter_other hne]
    exact h.idle x hx
  bound x i hi := by
    by_cases hx : x = who
    · subst hx
      rw [setWriter_same] at hi
      exact hbound i hi
    · rw [setWriter_other hx] at hi
      exact h.bound x i hi
  fd x i hi := by
    by_cases hx : x = who
    · subst hx
      rw [setWriter_same] at hi ⊢
      exact hfd i hi
    · rw [setWriter_other hx] at hi ⊢
      exact h.fd x i hi
  waited hwait x := by
    by_cases hx : x = who
    · subst hx
      rw [setWriter_same]
      exact hw hwait
    · rw [setWriter_other hx]
      exact h.waited hwait x

/-- A writer past `open` runs. -/
theorem Sound.runs {append : Bool} {count : Who → Nat} {s : State} (h : Sound append count s) {who : Who}
    (hpc : (s.writer who).pc ≠ .opening) : s.runs who = true := by
  cases hr : s.runs who with
  | true => rfl
  | false => exact absurd (h.idle who hr) hpc

/-- **One step.** -/
theorem step_keeps {append : Bool} {count : Who → Nat} {I : Bytes → (Who → Nat) → Prop} (hI : Keeps append count I)
    {s s' : State} {l : Label} (h : Sound append count s ∧ I s.file (s.written count)) (hok : Complete s l)
    (hs : step append count s l = some s') : Sound append count s' ∧ I s'.file (s'.written count) := by
  obtain ⟨hsound, hfile⟩ := h
  cases l with
  | fork ok =>
    simp only [step] at hs
    split at hs <;> cases hs
    rename_i hf
    have hpc : ∀ who, (s.writer who).pc = .opening := by
      intro who
      apply hsound.idle
      cases who <;> simp [State.runs, hf]
    obtain rfl : ok = true := hok
    refine ⟨⟨(fun hf => by cases hf), fun who _ => hpc who, ?_, ?_, ?_⟩, hfile⟩
    · intro who i hi
      rw [hpc who] at hi
      cases hi
    · intro who i hi
      rw [hpc who] at hi
      cases hi
    · intro hw
      have := hsound.waited hw .parent
      rw [hpc .parent] at this
      cases this
  | «open» who ok =>
    simp only [step] at hs
    split at hs <;> cases hs
    rename_i hg
    have hwait : s.waited ≠ true := by
      intro hw
      have := hsound.waited hw who
      rw [hg.2] at this
      cases this
    refine ⟨hsound.setWriter hg.1 (fun hw => absurd hw hwait) ?_ ?_, ?_⟩
    · rintro i ⟨⟩
      exact Nat.zero_le _
    · rintro i ⟨⟩
      rw [show ok = true from hok]
      exact ⟨0, rfl, fun _ => rfl⟩
    · rw [setWriter_file, written_keep]
      · exact hfile
      · simp only [State.written, Writer.written, hg.2]
  | write who r =>
    simp only [step] at hs
    split at hs
    · rename_i i off k hpc hfd
      split at hs <;> cases hs
      rename_i hi
      obtain rfl : k = (line who).length := by simpa [Complete] using hok
      have hn : s.written count who = i := by simp only [State.written, Writer.written, hpc]
      obtain ⟨off', hoff', hseven⟩ := hsound.fd who i hpc
      obtain rfl : off = off' := Option.some.inj (hfd.symm.trans hoff')
      have hbegin : (if append = true then s.file.length else off) =
          if append = true then s.file.length else 7 * s.written count who := by
        cases append with
        | true => rfl
        | false => rw [hn, hseven rfl]
      have hwait : s.waited ≠ true := by
        intro hw
        have := hsound.waited hw who
        rw [hpc] at this
        cases this
      constructor
      · unfold State.put
        refine Sound.setWriter (s := { s with file := _ }) ⟨hsound.forked, hsound.idle, hsound.bound, hsound.fd, hsound.waited⟩
          (hsound.runs (by rw [hpc]; nofun)) (fun hw => absurd hw hwait) ?_ ?_
        · rintro j ⟨⟩
          exact hi
        · rintro j ⟨⟩
          refine ⟨_, rfl, ?_⟩
          rintro rfl
          rw [if_neg (by decide), hseven rfl, List.take_length, line_length, Nat.mul_succ]
      · have hnext := hI who s.file (s.written count) (hn ▸ hi) hfile
        rw [← hbegin] at hnext
        unfold State.put
        rw [setWriter_file, written_setWriter, List.take_length]
        convert hnext using 1
        funext x
        unfold bump
        by_cases hx : x = who
        · rw [if_pos hx, if_pos hx, hx, hn]
          rfl
        · rw [if_neg hx, if_neg hx]
          rfl
    · cases show (none : Option Nat) = some _ from hok
    · cases hs
  | close who =>
    simp only [step] at hs
    split at hs
    · rename_i i hpc
      split at hs <;> cases hs
      rename_i hi
      refine ⟨hsound.setWriter (hsound.runs (by rw [hpc]; nofun)) (fun _ => rfl) (fun _ h => by cases h)
        (fun _ h => by cases h), ?_⟩
      rw [setWriter_file, written_keep]
      · exact hfile
      · simp only [State.written, Writer.written, hpc, hi]
    · cases hs
  | wait =>
    simp only [step] at hs
    split at hs <;> cases hs
    rename_i hg
    refine ⟨⟨hsound.forked, hsound.idle, hsound.bound, hsound.fd, fun _ who => ?_⟩, hfile⟩
    cases who with
    | parent => exact hg.2.1
    | child =>
      apply hg.2.2
      have hruns : s.runs .parent = true := hsound.runs (by rw [hg.2.1]; nofun)
      cases hf : s.forked with
      | none => simp [State.runs, hf] at hruns
      | some ok =>
        cases ok with
        | true => rfl
        | false => exact absurd hf hsound.forked

/-- **Every complete run**: what each line keeps holds of the file at the end, with all lines written. -/
theorem final_file {append : Bool} {count : Who → Nat} {I : Bytes → (Who → Nat) → Prop} (hI : Keeps append count I)
    (h0 : I [] fun _ => 0) {s : State} (h : Reach (step append count) Complete start s) (hw : s.waited = true) :
    I s.file count := by
  have hinv : Sound append count s ∧ I s.file (s.written count) := by
    refine h.invariant ⟨⟨by decide, fun _ _ => rfl, ?_, ?_, ?_⟩, h0⟩ fun _ _ _ h hok hs => step_keeps hI h hok hs
    · intro who i hi
      cases hi
    · intro who i hi
      cases hi
    · intro hw
      cases hw
  have hcount : s.written count = count := by
    funext who
    simp only [State.written, Writer.written, hinv.1.waited hw who]
  exact hcount ▸ hinv.2

end ComputerSystem.RaceWrite
