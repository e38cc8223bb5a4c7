import ComputerSystem.Lib.Descriptors
import ComputerSystem.Lib.Progress
import ComputerSystem.CTypes
/-!
# A descriptor handed to another process (`Chapter10/experiments/uds_passfd.c:24-64`)

The parent opens a file and sends the descriptor through one end of a socket pair; the child receives it
and reads. `passfd_finishes` says that neither waits for the other for ever, whichever calls fail and
whichever process is killed, and when; that the child closes its copy of the parent's end first (`:36`) is
what lets its `recvmsg` see that the parent is gone. `passfd_content` says what is read when nothing fails.

| here          | there                                                                       |
|---------------|-----------------------------------------------------------------------------|
| `ParentPc`    | `:52-61`; `send` is `send_fd` of `uds.h:60-90`                              |
| `ChildPc`     | `:36-49`; `recv` is `recv_fd` of `uds.h:93-124`                             |
| `Desc.left`   | `sv[0]`, the parent's end                                                    |
| `message`     | what a descriptor that is sent refers to, until it is received or discarded    |
| `offset`      | of the open file, wherever its descriptors are                                |

Both start behind the `fork` (`:30`). A write to a socket whose other end is closed kills the parent by
`SIGPIPE`; the end of the stream comes when no process has the other end. What is printed, but for the
contents, is left out.
-/

namespace ComputerSystem.Uds.Passing

open ComputerSystem.Descriptors

inductive Proc
  | parent
  | child
deriving DecidableEq, Repr

inductive Desc
  | inherited (fd : Nat)
  | left
  | right
  | file
deriving DecidableEq, Repr

/-- The `status` of a process that was killed is `none`. -/
inductive ParentPc
  | closeRight
  | openFile
  | send (fd : Nat)
  | closeFile (fd : Nat)
  | closeLeft
  | wait
  | ended (status : Option Nat)
deriving DecidableEq, Repr

inductive ChildPc
  | closeLeft
  | recv
  | read (fd : Nat)
  | closeFile (fd : Nat)
  | closeRight
  | exit
  | ended (status : Option Nat)
deriving DecidableEq, Repr

/-- What the program is started with, where `socketpair` finds room, and the file. -/
structure Setup where
  inherited : Nat → Bool
  sv0       : Nat
  sv1       : Nat
  file      : Bytes
  ne        : sv0 ≠ sv1
  free      : inherited sv0 = false ∧ inherited sv1 = false

structure State where
  parent  : ParentPc
  child   : ChildPc
  tables  : Tables Proc Desc
  message : Option Desc
  offset  : Nat
  content : Option Bytes

inductive Label
  | parent
  | openFile (r : Option Nat)
  /-- `false` is a failing `sendmsg` -/
  | send (ok : Bool)
  | child
  /-- the message is received; `none` when there is no number left for what it brings -/
  | recv (r : Option Nat)
  /-- `recvmsg` returns 0 -/
  | eof
  | read (r : Option Nat)
  | kill (p : Proc)
deriving DecidableEq, Repr

section
variable (u : Setup)

def Setup.base : Table Desc := fun fd => if u.inherited fd then some (.inherited fd) else none

def Setup.withLeft : Table Desc := Function.update u.base u.sv0 (some .left)

def Setup.withRight : Table Desc := Function.update u.base u.sv1 (some .right)

def Setup.pair : Table Desc := Function.update u.withLeft u.sv1 (some .right)

def start : State := ⟨.closeRight, .closeLeft, fun _ => u.pair, none, 0, none⟩

def State.endParent (s : State) (status : Option Nat) : State :=
  { s with parent := .ended status, tables := s.tables.exit .parent }

/-- With the last descriptor of its end a message in the queue is discarded. -/
def State.endChild (s : State) (status : Option Nat) : State :=
  { s with child := .ended status, tables := s.tables.exit .child, message := none }

/-- `content[n] = '\0'` has room. -/
def contentMax : Nat := 255

def step (s : State) : Label → Option State
  | .parent => match s.parent with
    | .closeRight => some { s with parent := .openFile, tables := s.tables.close .parent u.sv1 }
    | .closeFile fd => some { s with parent := .closeLeft, tables := s.tables.close .parent fd }
    | .closeLeft => some { s with parent := .wait, tables := s.tables.close .parent u.sv0 }
    | .wait => match s.child with
      | .ended _ => some (s.endParent (some 0))
      | _ => none
    | _ => none
  | .openFile r => match s.parent, r with
    | .openFile, some fd =>
      if (s.tables .parent).Lowest fd then some { s with parent := .send fd, tables := s.tables.install .parent fd .file }
      else none
    | .openFile, none => some (s.endParent (some 1))
    | _, _ => none
  | .send ok => match s.parent with
    | .send fd =>
      if s.tables .child u.sv1 ≠ some .right then some (s.endParent none)
      else if ok then some { s with parent := .closeFile fd, message := s.tables .parent fd }
      else some (s.endParent (some 1))
    | _ => none
  | .child => match s.child with
    | .closeLeft => some { s with child := .recv, tables := s.tables.close .child u.sv0 }
    | .closeFile fd => some { s with child := .closeRight, tables := s.tables.close .child fd }
    | .closeRight => some { s with child := .exit, tables := s.tables.close .child u.sv1 }
    | .exit => some (s.endChild (some 0))
    | _ => none
  | .recv r => match s.child, s.message, r with
    | .recv, some d, some fd =>
      if (s.tables .child).Lowest fd then
        some { s with child := .read fd, tables := s.tables.install .child fd d, message := none }
      else none
    | .recv, some _, none => some (s.endChild (some 1))
    | _, _, _ => none
  | .eof => match s.child, s.message with
    | .recv, none =>
      if s.tables .parent u.sv0 = some .left ∨ s.tables .child u.sv0 = some .left then none else some (s.endChild (some 1))
    | _, _ => none
  | .read r => match s.child, r with
    | .read fd, some k =>
      if s.tables .child fd = some .file ∧ k ≤ contentMax ∧ k ≤ u.file.length - s.offset ∧ (k = 0 → u.file.length ≤ s.offset) then
        some { s with child := .closeFile fd, offset := s.offset + k, content := some ((u.file.drop s.offset).take k) }
      else none
    | .read _, none => some (s.endChild (some 1))
    | _, _ => none
  | .kill .parent => match s.parent with
    | .ended _ => none
    | _ => some (s.endParent none)
  | .kill .child => match s.child with
    | .ended _ => none
    | _ => some (s.endChild none)

/-! ## What each table has -/

def Setup.parentTable : ParentPc → Table Desc
  | .closeRight => u.pair
  | .openFile | .closeLeft => u.withLeft
  | .send fd | .closeFile fd => Function.update u.withLeft fd (some .file)
  | .wait => u.base
  | .ended _ => fun _ => none

def Setup.childTable : ChildPc → Table Desc
  | .closeLeft => u.pair
  | .recv | .closeRight => u.withRight
  | .read fd | .closeFile fd => Function.update u.withRight fd (some .file)
  | .exit => u.base
  | .ended _ => fun _ => none

/-- The parent's number for the file. -/
def ParentPc.fd : ParentPc → Option Nat
  | .send fd | .closeFile fd => some fd
  | _ => none

def ChildPc.fd : ChildPc → Option Nat
  | .read fd | .closeFile fd => some fd
  | _ => none

/-- The child has not received yet. -/
def ChildPc.waits : ChildPc → Bool
  | .closeLeft | .recv => true
  | _ => false

/-- The parent has sent, or does not send any more. -/
def ParentPc.sent : ParentPc → Bool
  | .closeRight | .openFile | .send _ => false
  | _ => true

/-- **What a step can do.** -/
inductive Moves (s : State) : Label → State → Prop
  | closeRight : s.parent = .closeRight →
    Moves s .parent { s with parent := .openFile, tables := s.tables.close .parent u.sv1 }
  | closeFile {fd : Nat} : s.parent = .closeFile fd →
    Moves s .parent { s with parent := .closeLeft, tables := s.tables.close .parent fd }
  | closeLeft : s.parent = .closeLeft → Moves s .parent { s with parent := .wait, tables := s.tables.close .parent u.sv0 }
  | wait {status : Option Nat} : s.parent = .wait → s.child = .ended status → Moves s .parent (s.endParent (some 0))
  | openFile {fd : Nat} : s.parent = .openFile → (s.tables .parent).Lowest fd →
    Moves s (.openFile (some fd)) { s with parent := .send fd, tables := s.tables.install .parent fd .file }
  | openFails : s.parent = .openFile → Moves s (.openFile none) (s.endParent (some 1))
  | sigpipe {fd : Nat} {ok : Bool} : s.parent = .send fd → s.tables .child u.sv1 ≠ some .right →
    Moves s (.send ok) (s.endParent none)
  | send {fd : Nat} : s.parent = .send fd → s.tables .child u.sv1 = some .right →
    Moves s (.send true) { s with parent := .closeFile fd, message := s.tables .parent fd }
  | sendFails {fd : Nat} : s.parent = .send fd → Moves s (.send false) (s.endParent (some 1))
  | closeCopy : s.child = .closeLeft → Moves s .child { s with child := .recv, tables := s.tables.close .child u.sv0 }
  | closeGot {fd : Nat} : s.child = .closeFile fd →
    Moves s .child { s with child := .closeRight, tables := s.tables.close .child fd }
  | closeEnd : s.child = .closeRight → Moves s .child { s with child := .exit, tables := s.tables.close .child u.sv1 }
  | exit : s.child = .exit → Moves s .child (s.endChild (some 0))
  | recv {d : Desc} {fd : Nat} : s.child = .recv → s.message = some d → (s.tables .child).Lowest fd →
    Moves s (.recv (some fd)) { s with child := .read fd, tables := s.tables.install .child fd d, message := none }
  | recvFails : s.child = .recv → Moves s (.recv none) (s.endChild (some 1))
  | eof : s.child = .recv → s.message = none → s.tables .parent u.sv0 ≠ some .left → Moves s .eof (s.endChild (some 1))
  | read {fd k : Nat} : s.child = .read fd → k ≤ contentMax → k ≤ u.file.length - s.offset →
    (k = 0 → u.file.length ≤ s.offset) → Moves s (.read (some k))
      { s with child := .closeFile fd, offset := s.offset + k, content := some ((u.file.drop s.offset).take k) }
  | readFails {fd : Nat} : s.child = .read fd → Moves s (.read none) (s.endChild (some 1))
  | killParent : (∀ status, s.parent ≠ .ended status) → Moves s (.kill .parent) (s.endParent none)
  | killChild : (∀ status, s.child ≠ .ended status) → Moves s (.kill .child) (s.endChild none)

structure Inv (s : State) : Prop where
  parent  : s.tables .parent = u.parentTable s.parent
  child   : s.tables .child = u.childTable s.child
  opened  : ∀ fd, s.parent.fd = some fd → u.withLeft fd = none
  got     : ∀ fd, s.child.fd = some fd → u.withRight fd = none
  message : ∀ d, s.message = some d → d = .file ∧ s.child.waits = true ∧ s.parent.sent = true
  before  : s.parent.sent = false → s.child.waits = true ∨ ∃ status, s.child = .ended status
  unread  : (∃ fd, s.child = .read fd) ∨ s.child.waits = true → s.offset = 0
  content : ∀ bytes, s.content = some bytes → bytes.length ≤ contentMax ∧ bytes <+: u.file ∧ (bytes = [] → u.file = [])

end

section
variable {u : Setup} {s s' : State} {l : Label}

theorem step_moves (hs : step u s l = some s') : Moves u s l s' := by
  cases l with
  | parent =>
    simp only [step] at hs
    split at hs
    · cases hs
      exact .closeRight ‹_›
    · cases hs
      exact .closeFile ‹_›
    · cases hs
      exact .closeLeft ‹_›
    · split at hs <;> cases hs
      exact .wait ‹_› ‹_›
    · cases hs
  | openFile r =>
    simp only [step] at hs
    split at hs
    · split at hs <;> cases hs
      exact .openFile ‹_› ‹_›
    · cases hs
      exact .openFails ‹_›
    · cases hs
  | send ok =>
    simp only [step] at hs
    split at hs
    · rename_i hpc
      split at hs
      · rename_i hgone
        cases hs
        exact .sigpipe hpc hgone
      · rename_i hright
        cases ok with
        | true =>
          cases hs
          exact .send hpc (not_not.1 hright)
        | false =>
          cases hs
          exact .sendFails hpc
    · cases hs
  | child =>
    simp only [step] at hs
    split at hs
    · cases hs
      exact .closeCopy ‹_›
    · cases hs
      exact .closeGot ‹_›
    · cases hs
      exact .closeEnd ‹_›
    · cases hs
      exact .exit ‹_›
    · cases hs
  | recv r =>
    simp only [step] at hs
    split at hs
    · split at hs <;> cases hs
      exact .recv ‹_› ‹_› ‹_›
    · cases hs
      exact .recvFails ‹_›
    · cases hs
  | eof =>
    simp only [step] at hs
    split at hs
    · split at hs <;> cases hs
      rename_i hleft
      exact .eof ‹_› ‹_› fun h => hleft (.inl h)
    · cases hs
  | read r =>
    simp only [step] at hs
    split at hs
    · split at hs <;> cases hs
      rename_i hread
      exact .read ‹_› hread.2.1 hread.2.2.1 hread.2.2.2
    · cases hs
      exact .readFails ‹_›
    · cases hs
  | kill p =>
    cases p with
    | parent =>
      simp only [step] at hs
      split at hs <;> cases hs
      rename_i hpc
      exact .killParent hpc
    | child =>
      simp only [step] at hs
      split at hs <;> cases hs
      rename_i hpc
      exact .killChild hpc

/-! ## The tables -/

theorem Setup.base_free (u : Setup) {fd : Nat} (h : u.inherited fd = false) : u.base fd = none := by
  rw [Setup.base, h]
  rfl

theorem Setup.withLeft_sv1 (u : Setup) : u.withLeft u.sv1 = none := by
  rw [Setup.withLeft, Function.update_of_ne u.ne.symm, u.base_free u.free.2]

theorem Setup.pair_close_right (u : Setup) : Function.update u.pair u.sv1 none = u.withLeft := by
  rw [Setup.pair, Function.update_idem, ← u.withLeft_sv1, Function.update_eq_self]

theorem Setup.pair_close_left (u : Setup) : Function.update u.pair u.sv0 none = u.withRight := by
  rw [Setup.pair, Setup.withLeft, Function.update_comm u.ne.symm, Function.update_idem, ← u.base_free u.free.1,
    Function.update_eq_self, Setup.withRight]

theorem Setup.left_close (u : Setup) : Function.update u.withLeft u.sv0 none = u.base := by
  rw [Setup.withLeft, Function.update_idem, ← u.base_free u.free.1, Function.update_eq_self]

theorem Setup.right_close (u : Setup) : Function.update u.withRight u.sv1 none = u.base := by
  rw [Setup.withRight, Function.update_idem, ← u.base_free u.free.2, Function.update_eq_self]

/-- A descriptor that was the lowest, opened and closed. -/
theorem close_opened {t : Table Desc} {fd : Nat} (hfree : t fd = none) (d : Desc) :
    Function.update (Function.update t fd (some d)) fd none = t := by
  rw [Function.update_idem, ← hfree, Function.update_eq_self]

theorem start_inv (u : Setup) : Inv u (start u) where
  parent := rfl
  child := rfl
  opened := nofun
  got := nofun
  message := nofun
  before _ := .inl rfl
  unread _ := rfl
  content := nofun

theorem Inv.endParent (h : Inv u s) (status : Option Nat) : Inv u (s.endParent status) where
  parent := show s.tables.exit .parent .parent = _ from exit_self
  child := show s.tables.exit .parent .child = _ from (exit_other (by decide)).trans h.child
  opened := nofun
  got := h.got
  message d hd := ⟨(h.message d hd).1, (h.message d hd).2.1, rfl⟩
  before := nofun
  unread := h.unread
  content := h.content

theorem Inv.endChild (h : Inv u s) (status : Option Nat) : Inv u (s.endChild status) where
  parent := show s.tables.exit .child .parent = _ from (exit_other (by decide)).trans h.parent
  child := show s.tables.exit .child .child = _ from exit_self
  opened := h.opened
  got := nofun
  message := nofun
  before _ := .inr ⟨status, rfl⟩
  unread := by rintro (⟨fd, hfd⟩ | hw) <;> cases ‹_›
  content := h.content

/-- The parent goes on without the message. -/
theorem Inv.parentMove (h : Inv u s) {pc : ParentPc} {tables : Tables Proc Desc} (hself : tables .parent = u.parentTable pc)
    (hother : tables .child = s.tables .child) (hfd : ∀ fd, pc.fd = some fd → u.withLeft fd = none)
    (hsent : s.parent.sent = pc.sent) : Inv u { s with parent := pc, tables := tables } where
  parent := hself
  child := hother.trans h.child
  opened := hfd
  got := h.got
  message d hd := ⟨(h.message d hd).1, (h.message d hd).2.1, hsent ▸ (h.message d hd).2.2⟩
  before hpc := h.before (hsent.trans hpc)
  unread := h.unread
  content := h.content

/-- The child goes on with its descriptors. -/
theorem Inv.childMove (h : Inv u s) {pc : ChildPc} {tables : Tables Proc Desc} (hself : tables .child = u.childTable pc)
    (hother : tables .parent = s.tables .parent) (hfd : ∀ fd, pc.fd = some fd → u.withRight fd = none)
    (hwaits : s.child.waits = pc.waits) (hread : ∀ fd, pc ≠ .read fd) (hends : ∀ status, s.child ≠ .ended status) :
    Inv u { s with child := pc, tables := tables } where
  parent := hother.trans h.parent
  child := hself
  opened := h.opened
  got := hfd
  message d hd := ⟨(h.message d hd).1, hwaits ▸ (h.message d hd).2.1, (h.message d hd).2.2⟩
  before hsent := .inl (hwaits ▸ (h.before hsent).resolve_right fun ⟨status, hended⟩ => hends status hended)
  unread := by
    rintro (⟨fd, hfd⟩ | hw)
    · exact absurd hfd (hread fd)
    · exact h.unread (.inr (hwaits.trans hw))
  content := h.content

theorem moves_inv (h : Inv u s) (hm : Moves u s l s') : Inv u s' := by
  have hchild : Proc.child ≠ .parent := by decide
  have hparent : Proc.parent ≠ .child := by decide
  cases hm with
  | closeRight hpc =>
    refine h.parentMove ?_ (close_other hchild) nofun (by rw [hpc]; rfl)
    rw [close_self, h.parent, hpc]
    exact u.pair_close_right
  | closeFile hpc =>
    refine h.parentMove ?_ (close_other hchild) nofun (by rw [hpc]; rfl)
    rw [close_self, h.parent, hpc]
    exact close_opened (h.opened _ (by rw [hpc]; rfl)) _
  | closeLeft hpc =>
    refine h.parentMove ?_ (close_other hchild) nofun (by rw [hpc]; rfl)
    rw [close_self, h.parent, hpc]
    exact u.left_close
  | openFile hpc hlow =>
    rw [h.parent, hpc] at hlow
    refine h.parentMove ?_ (install_other hchild) ?_ (by rw [hpc]; rfl)
    · rw [install_self, h.parent, hpc]
      rfl
    · rintro _ ⟨⟩
      exact hlow.1
  | @send fd hpc hright =>
    have hfd : s.tables .parent fd = some .file := by
      rw [h.parent, hpc]
      exact Function.update_self ..
    have hwaits : s.child.waits = true := by
      refine (h.before (by rw [hpc]; rfl)).resolve_right ?_
      rintro ⟨status, hended⟩
      rw [h.child, hended] at hright
      cases hright
    refine { h with parent := ?_, opened := ?_, message := ?_, before := nofun }
    · rw [h.parent, hpc]
      rfl
    · rintro _ ⟨⟩
      exact h.opened fd (by rw [hpc]; rfl)
    · intro d hd
      rw [hfd] at hd
      exact ⟨(Option.some.inj hd).symm, hwaits, rfl⟩
  | closeCopy hpc =>
    refine h.childMove ?_ (close_other hparent) nofun (by rw [hpc]; rfl) nofun (by rw [hpc]; nofun)
    rw [close_self, h.child, hpc]
    exact u.pair_close_left
  | closeGot hpc =>
    refine h.childMove ?_ (close_other hparent) nofun (by rw [hpc]; rfl) nofun (by rw [hpc]; nofun)
    rw [close_self, h.child, hpc]
    exact close_opened (h.got _ (by rw [hpc]; rfl)) _
  | closeEnd hpc =>
    refine h.childMove ?_ (close_other hparent) nofun (by rw [hpc]; rfl) nofun (by rw [hpc]; nofun)
    rw [close_self, h.child, hpc]
    exact u.right_close
  | @recv d fd hpc hmsg hlow =>
    obtain ⟨rfl, -, hsent⟩ := h.message d hmsg
    rw [h.child, hpc] at hlow
    refine { h with parent := ?_, child := ?_, got := ?_, message := nofun, before := ?_, unread := ?_ }
    · exact (install_other (T := s.tables) (n := fd) (o := .file) hparent).trans h.parent
    · simp only [install_self, h.child, hpc]
      rfl
    · rintro _ ⟨⟩
      exact hlow.1
    · intro hnot
      rw [hsent] at hnot
      cases hnot
    · exact fun _ => h.unread (.inr (by rw [hpc]; rfl))
  | @read fd k hpc hmax hlen hzero =>
    have hoff : s.offset = 0 := h.unread (.inl ⟨fd, hpc⟩)
    have hnomsg : ∀ d, s.message ≠ some d := by
      intro d hd
      have hwaits := (h.message d hd).2.1
      rw [hpc] at hwaits
      cases hwaits
    refine { h with
      child := ?_, got := ?_, message := fun d hd => absurd hd (hnomsg d), before := ?_, unread := nofun, content := ?_ }
    · rw [h.child, hpc]
      rfl
    · rintro _ ⟨⟩
      exact h.got fd (by rw [hpc]; rfl)
    · intro hsent
      rcases h.before hsent with hwaits | ⟨status, hended⟩
      · rw [hpc] at hwaits
        cases hwaits
      · rw [hpc] at hended
        cases hended
    · rintro _ ⟨⟩
      rw [hoff] at hlen hzero ⊢
      rw [List.drop_zero]
      refine ⟨(List.length_take_le _ _).trans hmax, List.take_prefix _ _, fun hnil => ?_⟩
      rcases List.take_eq_nil_iff.1 hnil with hk | hfile
      · exact List.length_eq_zero_iff.1 (Nat.le_zero.1 (hzero hk))
      · exact hfile
  | wait | openFails | sigpipe | sendFails | killParent => exact h.endParent _
  | exit | recvFails | eof | readFails | killChild => exact h.endChild _

theorem reach_inv {ok : State → Label → Prop} (h : Reach (step u) ok (start u) s) : Inv u s :=
  h.invariant (start_inv u) fun _ _ _ hi _ hs => moves_inv hi (step_moves hs)

/-! ## Both processes end -/

def ParentPc.rank : ParentPc → Nat
  | .closeRight => 6
  | .openFile => 5
  | .send _ => 4
  | .closeFile _ => 3
  | .closeLeft => 2
  | .wait => 1
  | .ended _ => 0

def ChildPc.rank : ChildPc → Nat
  | .closeLeft => 6
  | .recv => 5
  | .read _ => 4
  | .closeFile _ => 3
  | .closeRight => 2
  | .exit => 1
  | .ended _ => 0

def rank (s : State) : Nat := s.parent.rank + s.child.rank

theorem step_lowers (u : Setup) : Lowers (step u) rank fun _ => 0 := by
  intro s l s' hs
  have hended : ∀ {pc : ParentPc}, (∀ status, pc ≠ .ended status) → 1 ≤ pc.rank := by
    rintro (_ | _ | _ | _ | _ | _ | status) hpc <;> first | exact Nat.succ_pos _ | exact absurd rfl (hpc status)
  have hgone : ∀ {pc : ChildPc}, (∀ status, pc ≠ .ended status) → 1 ≤ pc.rank := by
    rintro (_ | _ | _ | _ | _ | _ | status) hpc <;> first | exact Nat.succ_pos _ | exact absurd rfl (hpc status)
  unfold rank
  cases step_moves hs with
  | closeRight hpc | closeFile hpc | closeLeft hpc | openFile hpc | send hpc | closeCopy hpc | closeGot hpc | closeEnd hpc
  | recv hpc | read hpc =>
    simp only [hpc, ParentPc.rank, ChildPc.rank]
    omega
  | wait hpc | openFails hpc | sigpipe hpc | sendFails hpc =>
    simp only [State.endParent, hpc, ParentPc.rank]
    omega
  | exit hpc | recvFails hpc | eof hpc | readFails hpc =>
    simp only [State.endChild, hpc, ChildPc.rank]
    omega
  | killParent hpc =>
    have := hended hpc
    show 0 + s.child.rank + 1 ≤ s.parent.rank + s.child.rank + 0
    omega
  | killChild hpc =>
    have := hgone hpc
    show s.parent.rank + 0 + 1 ≤ s.parent.rank + s.child.rank + 0
    omega

/-- No system call can be made. -/
def Quiescent (u : Setup) (s : State) : Prop := ∀ l, (∀ p, l ≠ .kill p) → step u s l = none

theorem Setup.withLeft_sv0 (u : Setup) : u.withLeft u.sv0 = some .left := Function.update_self ..

/-- The parent's end is the parent's until it waits. -/
theorem Inv.left (h : Inv u s) : (∃ status, s.parent = .ended status) ∨ s.parent = .wait ∨
    s.tables .parent u.sv0 = some .left := by
  rw [h.parent]
  have hopened : ∀ {fd : Nat}, u.withLeft fd = none → Function.update u.withLeft fd (some .file) u.sv0 = some .left := by
    intro fd hfree
    have hne : u.sv0 ≠ fd := by
      rintro rfl
      rw [u.withLeft_sv0] at hfree
      cases hfree
    rw [Function.update_of_ne hne, u.withLeft_sv0]
  cases hpc : s.parent with
  | ended status => exact .inl ⟨status, rfl⟩
  | wait => exact .inr (.inl rfl)
  | closeRight => exact .inr (.inr ((Function.update_of_ne u.ne ..).trans u.withLeft_sv0))
  | openFile | closeLeft => exact .inr (.inr u.withLeft_sv0)
  | send fd | closeFile fd => exact .inr (.inr (hopened (h.opened fd (by rw [hpc]; rfl))))

/-- When the child has closed its copy, the end of the stream comes with the parent's close. -/
theorem Inv.eof (h : Inv u s) (hchild : s.child = .recv) (hmsg : s.message = none)
    (hparent : (∃ status, s.parent = .ended status) ∨ s.parent = .wait) : step u s .eof = some (s.endChild (some 1)) := by
  have hbase : u.base u.sv0 = none := u.base_free u.free.1
  have hleft : ¬ (s.tables .parent u.sv0 = some .left ∨ s.tables .child u.sv0 = some .left) := by
    rw [h.parent, h.child, hchild]
    rintro (hleft | hleft)
    · rcases hparent with ⟨status, hpc⟩ | hpc
      · rw [hpc] at hleft
        cases hleft
      · rw [hpc, Setup.parentTable, hbase] at hleft
        cases hleft
    · rw [Setup.childTable, Setup.withRight, Function.update_of_ne u.ne, hbase] at hleft
      cases hleft
  simp only [step, hchild, hmsg, if_neg hleft]

theorem Inv.quiescent (h : Inv u s) (hq : Quiescent u s) : (∃ status, s.parent = .ended status) ∧ ∃ status, s.child = .ended status := by
  have hchild := hq .child nofun
  have hparent : (∃ status, s.parent = .ended status) ∨ s.parent = .wait := by
    have hown := hq .parent nofun
    cases hpc : s.parent with
    | ended status => exact .inl ⟨status, rfl⟩
    | wait => exact .inr rfl
    | closeRight | closeFile | closeLeft =>
      simp only [step, hpc] at hown
      cases hown
    | openFile =>
      have hopen := hq (.openFile none) nofun
      simp only [step, hpc] at hopen
      cases hopen
    | send fd =>
      have hsend := hq (.send false) nofun
      simp only [step, hpc] at hsend
      split at hsend <;> cases hsend
  have hended : ∃ status, s.child = .ended status := by
    cases hpc : s.child with
    | ended status => exact ⟨status, rfl⟩
    | closeLeft | closeFile | closeRight | exit =>
      simp only [step, hpc] at hchild
      cases hchild
    | read fd =>
      have hread := hq (.read none) nofun
      simp only [step, hpc] at hread
      cases hread
    | recv =>
      cases hmsg : s.message with
      | some d =>
        have hrecv := hq (.recv none) nofun
        simp only [step, hpc, hmsg] at hrecv
        cases hrecv
      | none =>
        have heof := hq .eof nofun
        rw [h.eof hpc hmsg hparent] at heof
        cases heof
  refine ⟨hparent.resolve_right fun hwait => ?_, hended⟩
  obtain ⟨status, hended⟩ := hended
  have hown := hq .parent nofun
  simp only [step, hwait, hended] at hown
  cases hown

/-- **Neither process waits for ever**: no run has more than twelve steps, and where no system call can be made
both processes have ended, and the socket pair and the file are closed. -/
theorem passfd_finishes (u : Setup) : (∀ ls s, runFrom (step u) (start u) ls = some s → ls.length ≤ 12) ∧
    ∀ s, Reach (step u) always (start u) s → Quiescent u s →
      (∃ status, s.parent = .ended status) ∧ (∃ status, s.child = .ended status) ∧ s.message = none ∧ ∀ d, ¬ s.tables.Held d := by
  constructor
  · intro ls s hrun
    have hbound := runFrom_bound (step_lowers u) ls hrun
    have hstart : rank (start u) = 12 := rfl
    rw [List.map_const', List.sum_replicate_nat, hstart] at hbound
    omega
  · intro s h hq
    have hinv := reach_inv h
    obtain ⟨⟨status, hparent⟩, ⟨status', hchild⟩⟩ := hinv.quiescent hq
    refine ⟨⟨status, hparent⟩, ⟨status', hchild⟩, ?_, ?_⟩
    · cases hmsg : s.message with
      | none => rfl
      | some d =>
        have hwaits := (hinv.message d hmsg).2.1
        rw [hchild] at hwaits
        cases hwaits
    · rintro d ⟨p, hrefers⟩
      cases p with
      | parent =>
        rw [hinv.parent, hparent] at hrefers
        exact refers_none hrefers
      | child =>
        rw [hinv.child, hchild] at hrefers
        exact refers_none hrefers

def hostname : Setup := ⟨fun fd => decide (fd < 3), 3, 4, ascii "csapp\n", by decide, by decide⟩

/-- The parent is killed before it has sent, and the child sees it. -/
def killedRun : List Label := [.child, .parent, .openFile (some 4), .kill .parent, .eof]

theorem ended_quiescent {status status' : Option Nat} (hparent : s.parent = .ended status) (hchild : s.child = .ended status') :
    Quiescent u s := by
  intro l hl
  cases l with
  | kill p => exact absurd rfl (hl p)
  | parent | openFile | send => simp only [step, hparent]
  | child | recv | eof | read => simp only [step, hchild]

theorem passfd_finishes_killed : ∃ s, runFrom (step hostname) (start hostname) killedRun = some s ∧
    killedRun.length ≤ 12 ∧ s.child = .ended (some 1) ∧ ¬ s.tables.Held .left := by
  have hend : (runFrom (step hostname) (start hostname) killedRun).map (fun s => (s.parent, s.child)) =
      some (.ended none, .ended (some 1)) := rfl
  obtain ⟨s, hrun, hpcs⟩ := Option.map_eq_some_iff.1 hend
  obtain ⟨hparent, hchild⟩ := Prod.mk.inj hpcs
  have hfinishes := passfd_finishes hostname
  have hfree := (hfinishes.2 s (runFrom_reach hrun) (ended_quiescent hparent hchild)).2.2.2
  exact ⟨s, hrun, hfinishes.1 _ s hrun, hchild, hfree .left⟩

/-! ## When nothing fails -/

/-- No call fails, and nobody is killed. -/
def Succeeds (_ : State) : Label → Prop
  | .openFile none | .send false | .recv none | .read none | .kill _ => False
  | _ => True

instance (s : State) : (l : Label) → Decidable (Succeeds s l)
  | .openFile none | .send false | .recv none | .read none | .kill _ => .isFalse id
  | .parent | .openFile (some _) | .send true | .child | .recv (some _) | .eof | .read (some _) => .isTrue trivial

structure Sound (s : State) : Prop where
  sends   : s.child.waits = true → s.parent.sent = true → s.message = some .file
  first   : s.child.waits = false → s.parent.sent = true
  parent  : ∀ status, s.parent = .ended status → status = some 0 ∧ ∃ status, s.child = .ended status
  child   : ∀ status, s.child = .ended status → status = some 0
  content : s.child.waits = false → (∀ fd, s.child ≠ .read fd) → ∃ bytes, s.content = some bytes

theorem start_sound (u : Setup) : Sound (start u) := ⟨nofun, nofun, nofun, nofun, nofun⟩

theorem Sound.parentMove (h : Sound s) {pc : ParentPc} {tables : Tables Proc Desc} (hsent : s.parent.sent = pc.sent)
    (hends : ∀ status, pc ≠ .ended status) : Sound { s with parent := pc, tables := tables } where
  sends hw hs := h.sends hw (hsent.trans hs)
  first hw := hsent ▸ h.first hw
  parent status hpc := absurd hpc (hends status)
  child := h.child
  content := h.content

theorem Sound.childMove (h : Sound s) {pc : ChildPc} {tables : Tables Proc Desc} (hwaits : s.child.waits = pc.waits)
    (hruns : ∀ status, s.child ≠ .ended status) (hread : ∀ fd, s.child ≠ .read fd) (hends : ∀ status, pc ≠ .ended status) :
    Sound { s with child := pc, tables := tables } where
  sends hw hs := h.sends (hwaits.trans hw) hs
  first hw := h.first (hwaits.trans hw)
  parent status hpc := by
    obtain ⟨-, status', hended⟩ := h.parent status hpc
    exact absurd hended (hruns status')
  child status hpc := absurd hpc (hends status)
  content hw _ := h.content (hwaits.trans hw) hread

/-- While it waits the child has its end. -/
theorem Inv.right (h : Inv u s) (hw : s.child.waits = true) : s.tables .child u.sv1 = some .right := by
  rw [h.child]
  cases hpc : s.child with
  | closeLeft | recv => exact Function.update_self ..
  | read | closeFile | closeRight | exit | ended =>
    rw [hpc] at hw
    cases hw

theorem sound_step (hi : Inv u s) (h : Sound s) (hok : Succeeds s l) (hm : Moves u s l s') : Sound s' := by
  cases hm with
  | openFails | sendFails | recvFails | readFails | killParent | killChild => cases hok
  | closeRight hpc | openFile hpc | closeFile hpc | closeLeft hpc => exact h.parentMove (by rw [hpc]; rfl) nofun
  | wait hpc hended =>
    refine { h with sends := ?_, first := fun _ => rfl, parent := ?_ }
    · intro hw
      rw [show (s.endParent (some 0)).child = s.child from rfl, hended] at hw
      cases hw
    · rintro _ ⟨⟩
      exact ⟨rfl, _, hended⟩
  | sigpipe hpc hgone =>
    -- the child has not received, so it is there
    have hw : s.child.waits = true := by
      by_contra hw
      have hsent := h.first (Bool.eq_false_iff.2 hw)
      rw [hpc] at hsent
      cases hsent
    exact absurd (hi.right hw) hgone
  | @send fd hpc hright =>
    refine { h with sends := fun _ _ => ?_, first := fun _ => rfl, parent := nofun }
    show s.tables .parent fd = some .file
    rw [hi.parent, hpc]
    exact Function.update_self ..
  | closeCopy hpc => exact h.childMove (by rw [hpc]; rfl) (by rw [hpc]; nofun) (by rw [hpc]; nofun) nofun
  | closeGot hpc => exact h.childMove (by rw [hpc]; rfl) (by rw [hpc]; nofun) (by rw [hpc]; nofun) nofun
  | closeEnd hpc => exact h.childMove (by rw [hpc]; rfl) (by rw [hpc]; nofun) (by rw [hpc]; nofun) nofun
  | exit hpc =>
    refine ⟨nofun, fun _ => h.first (by rw [hpc]; rfl), ?_, ?_, ?_⟩
    · intro status hended
      exact ⟨(h.parent status hended).1, some 0, rfl⟩
    · rintro _ ⟨⟩
      rfl
    · exact fun _ _ => h.content (by rw [hpc]; rfl) (by rw [hpc]; nofun)
  | @recv d fd hpc hmsg =>
    refine ⟨nofun, fun _ => (hi.message d hmsg).2.2, ?_, nofun, fun _ hread => absurd rfl (hread fd)⟩
    intro status hended
    obtain ⟨-, status', hgone⟩ := h.parent status hended
    rw [hpc] at hgone
    cases hgone
  | eof hpc hmsg hleft =>
    -- the parent has sent before it closed its end
    have hw : s.child.waits = true := by rw [hpc]; rfl
    have hsent : s.parent.sent = true := by
      rcases hi.left with ⟨status, hpc⟩ | hpc | hleft'
      · rw [hpc]
        rfl
      · rw [hpc]
        rfl
      · exact absurd hleft' hleft
    rw [h.sends hw hsent] at hmsg
    cases hmsg
  | @read fd k hpc =>
    refine ⟨nofun, fun _ => h.first (by rw [hpc]; rfl), ?_, nofun, fun _ _ => ⟨_, rfl⟩⟩
    intro status hended
    obtain ⟨-, status', hgone⟩ := h.parent status hended
    rw [hpc] at hgone
    cases hgone

/-- **The child reads the parent's file**, at whatever times the parent closes it and ends: in a run in which
nothing fails both processes end with 0, and what the child has read is the file's beginning. -/
theorem passfd_content (u : Setup) {s : State} (h : Reach (step u) Succeeds (start u) s) (hq : Quiescent u s) :
    s.parent = .ended (some 0) ∧ s.child = .ended (some 0) ∧
      ∃ bytes, s.content = some bytes ∧ bytes.length ≤ contentMax ∧ bytes <+: u.file ∧ (bytes = [] → u.file = []) := by
  have hboth : Inv u s ∧ Sound s := by
    refine Reach.invariant (I := fun s => Inv u s ∧ Sound s) ⟨start_inv u, start_sound u⟩ ?_ h
    intro s l s' hi hok hs
    exact ⟨moves_inv hi.1 (step_moves hs), sound_step hi.1 hi.2 hok (step_moves hs)⟩
  obtain ⟨hinv, hsound⟩ := hboth
  obtain ⟨⟨status, hparent⟩, ⟨status', hchild⟩⟩ := hinv.quiescent hq
  obtain ⟨rfl, -⟩ := hsound.parent status hparent
  obtain rfl := hsound.child status' hchild
  obtain ⟨bytes, hbytes⟩ := hsound.content (by rw [hchild]; rfl) (by rw [hchild]; nofun)
  exact ⟨hparent, hchild, bytes, hbytes, hinv.content bytes hbytes⟩

/-- The parent has closed the file and its end before the child receives. -/
def passedRun : List Label :=
  [.parent, .openFile (some 4), .child, .send true, .parent, .parent, .recv (some 3), .read (some 6), .child, .child, .child,
    .parent]

theorem passfd_content_read : ∃ s, runWhile (step hostname) Succeeds (start hostname) passedRun = some s ∧
    s.child = .ended (some 0) ∧ ∃ bytes, s.content = some bytes ∧ bytes <+: hostname.file := by
  have hend : (runWhile (step hostname) Succeeds (start hostname) passedRun).map (fun s => (s.parent, s.child)) =
      some (.ended (some 0), .ended (some 0)) := rfl
  obtain ⟨s, hrun, hpcs⟩ := Option.map_eq_some_iff.1 hend
  obtain ⟨hparent, hchild⟩ := Prod.mk.inj hpcs
  obtain ⟨-, -, bytes, hbytes, -, hprefix, -⟩ :=
    passfd_content hostname (runWhile_reach hrun) (ended_quiescent hparent hchild)
  exact ⟨s, hrun, hchild, bytes, hbytes, hprefix⟩

end

end ComputerSystem.Uds.Passing
