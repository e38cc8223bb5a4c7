import ComputerSystem.CTypes
import ComputerSystem.Lib.Custody
import ComputerSystem.Lib.Machine
/-!
# `uds::Fd` and the factories of `uds::UnixSocket`

`Chapter10/experiments/unix_socket.hpp`. An `Fd` is an object at some address with an `int fd_`; a
`UnixSocket` has no member but an `Fd`, and its special members are those of the `Fd`, so it is one
too. The factories are written as the calls of `Fd`'s members they make, with the lifetimes of their
locals and parameters; an exception ends the lifetimes of the locals on its way out.

| here                | there                                                                |
|---------------------|----------------------------------------------------------------------|
| `World.objs`        | the objects alive, and their `fd_`                                     |
| `World.opened`      | the descriptors of the process that are open                           |
| `World.log`         | what was handed to an `Fd` (`acquired`), and the calls of `release` and `close` |
| `construct` ... `destroy` | the members of `Fd` (`:38-70`)                                   |
| `opens`, `shut`     | the kernel opens a descriptor; other code closes one                   |
| `Script`            | code that may throw                                                    |
| `Sys`               | what the system calls of a factory do                                  |
| `listen`, `connect`, `accept` | the factories (`:78-105`)                                    |

`close` is taken to free its number whatever it returns, as on Linux. `Inv` is the invariant of one step
(`prim_inv`); that it holds in whole programs is in `Ownership`.
-/

namespace ComputerSystem.Uds

open Custody

/-! ## `Fd` -/

structure World where
  objs   : Nat → Option Int
  opened : Nat → Bool
  log    : List (Event Nat)

/-- No object is alive, and the three standard descriptors are open. -/
def World.init : World := ⟨fun _ => none, fun n => decide (n ≤ 2), []⟩

def World.store (w : World) (o : Nat) (fd : Int) : World := { w with objs := Function.update w.objs o (some fd) }

/-- `::close(fd)`. -/
def World.close (w : World) (fd : Int) : World :=
  { w with opened := Function.update w.opened fd.toNat false, log := w.log ++ [.closed fd.toNat] }

/-- The caller hands `fd` over; a negative one is no descriptor. -/
def World.handOver (w : World) (fd : Int) : World :=
  if 0 ≤ fd then { w with log := w.log ++ [.acquired fd.toNat] } else w

/-- What `fd_` holds is given to the caller. -/
def World.giveUp (w : World) (fd : Int) : World :=
  if 0 ≤ fd then { w with log := w.log ++ [.released fd.toNat] } else w

/-- `if (fd_ >= 0) ::close(fd_)` (`:63`). -/
def World.closeOld (w : World) (fd_ : Int) : World := if 0 ≤ fd_ then w.close fd_ else w

inductive Prim
  /-- `Fd()` -/
  | default (o : Nat)
  /-- `Fd(fd)` -/
  | construct (o : Nat) (fd : Int)
  | moveConstruct (o src : Nat)
  | moveAssign (o src : Nat)
  | reset (o : Nat) (fd : Int)
  | release (o : Nat)
  | destroy (o : Nat)
  /-- the kernel gives out a number that is not in use -/
  | opens (n : Nat)
  /-- other code closes a descriptor -/
  | shut (n : Nat)
deriving DecidableEq, Repr

/-- One step; `none` for a member of an object that is not alive, or a second one at an address. -/
def prim (w : World) : Prim → Option World
  | .default o => match w.objs o with
    | some _ => none
    | none => some (w.store o (-1))
  | .construct o fd => match w.objs o with
    | some _ => none
    | none => some ((w.handOver fd).store o fd)
  | .moveConstruct o src => match w.objs o, w.objs src with
    | none, some fd => some ((w.store o fd).store src (-1))
    | _, _ => none
  | .moveAssign o src => match w.objs o, w.objs src with
    | some old, some fd =>
      if o ≠ src then some (((w.closeOld old).store o fd).store src (-1)) else some w
    | _, _ => none
  | .reset o fd => match w.objs o with
    | some old => some (((w.closeOld old).handOver fd).store o fd)
    | none => none
  | .release o => match w.objs o with
    | some old => some ((w.giveUp old).store o (-1))
    | none => none
  | .destroy o => match w.objs o with
    | some old =>
      let w := w.closeOld old
      some { w with objs := Function.update w.objs o none }
    | none => none
  | .opens n => if w.opened n then none else some { w with opened := Function.update w.opened n true }
  | .shut n => if w.opened n then some { w with opened := Function.update w.opened n false } else none

/-! ## The factories -/

/-- The steps of some code, and whether it ends in an exception. -/
structure Script where
  code  : List Prim
  threw : Bool

def Script.ok (code : List Prim) : Script := ⟨code, false⟩

/-- `throw_errno`, and every other `throw`. -/
def Script.throws : Script := ⟨[], true⟩

/-- `b` behind `a`. -/
def Script.next (a b : Script) : Script := if a.threw then a else ⟨a.code ++ b.code, b.threw⟩

/-- The scope of the object `s`, which ends with the scope or with an exception. -/
def Script.scope (s : Nat) (body : Script) : Script := ⟨body.code ++ [.destroy s], body.threw⟩

/-- The scope of `s` that ends in `return s`: `s` is moved into the result, or with `elided` it is the
result. -/
def Script.returning (elided : Bool) (s ret : Nat) (body : Script) : Script :=
  if body.threw then Script.scope s body
  else if elided then body
  else Script.scope s (body.next (.ok [.moveConstruct ret s]))

/-- The addresses of the parameter of the constructor, of `s` and of the result. -/
structure Temps where
  param  : Nat
  s      : Nat
  ret    : Nat
  elided : Bool

/-- Each system call of a factory, and the copy of the path. -/
structure Sys where
  socket  : Option Nat
  copied  : Bool
  bind    : Bool
  listen  : Bool
  connect : Bool
  accept  : Option Nat

/-- `Fd(c)` for a new descriptor, or a `throw_errno` when there is none (`:200-203`, `:101-104`). -/
def newFd (c : Option Nat) (o : Nat) : Script :=
  match c with
  | none => .throws
  | some c => .ok [.opens c, .construct o c]

/-- `make_socket` (`:199`), its result in `o`. -/
def makeSocket (sys : Sys) (o : Nat) : Script := newFd sys.socket o

/-- `UnixSocket(Fd fd) : fd_(std::move(fd))` at `o`, its parameter made by `arg` (`:76`). -/
def unixSocket (o param : Nat) (arg : Nat → Script) : Script :=
  (arg param).next (.scope param (.ok [.moveConstruct o param]))

/-- `sizeof(addr.sun_path)`. -/
def sunPath : Nat := 108

/-- `make_addr` (`:208`). -/
def makeAddr (path : Bytes) : Script := if path.length ≥ sunPath then .throws else .ok []

/-- A call that throws when it fails. -/
def succeeds (ok : Bool) : Script := if ok then .ok [] else .throws

/-- `UnixSocket::listen` (`:79`). -/
def listen (path : Bytes) (sys : Sys) (t : Temps) : Script :=
  (unixSocket t.s t.param (makeSocket sys)).next <|
    Script.returning t.elided t.s t.ret <|
      (makeAddr path).next <| (succeeds sys.copied).next <| (succeeds sys.bind).next (succeeds sys.listen)

/-- `UnixSocket::connect` (`:91`). -/
def connect (path : Bytes) (sys : Sys) (t : Temps) : Script :=
  (unixSocket t.s t.param (makeSocket sys)).next <|
    Script.returning t.elided t.s t.ret <| (makeAddr path).next (succeeds sys.connect)

/-- `UnixSocket::accept` (`:100`). -/
def accept (sys : Sys) (t : Temps) : Script := unixSocket t.ret t.param (newFd sys.accept)

/-! ## Programs -/

inductive Op
  | prim (p : Prim)
  | listen (path : Bytes) (sys : Sys) (t : Temps)
  | connect (path : Bytes) (sys : Sys) (t : Temps)
  | accept (sys : Sys) (t : Temps)

def Op.code : Op → List Prim
  | .prim p => [p]
  | .listen path sys t => (Uds.listen path sys t).code
  | .connect path sys t => (Uds.connect path sys t).code
  | .accept sys t => (Uds.accept sys t).code

def step (w : World) (op : Op) : Option World := runFrom Uds.prim w op.code

/-- `fd` is open and no `Fd` has it. -/
def World.Unowned (w : World) (fd : Int) : Prop := w.opened fd.toNat = true ∧ ∀ o, w.objs o ≠ some fd

/-- A descriptor handed to a constructor or to `reset` is open and unowned, and other code closes only
descriptors that no `Fd` has. -/
def Careful (w : World) : Op → Prop
  | .prim (.construct _ fd) | .prim (.reset _ fd) => 0 ≤ fd → w.Unowned fd
  | .prim (.shut n) => w.Unowned n
  | _ => True

/-- A point of a run: between two operations, or inside of a factory. -/
def Point (w : World) : Prop :=
  ∃ w₀ op code, Reach step Careful World.init w₀ ∧ Careful w₀ op ∧ code <+: op.code ∧ runFrom prim w₀ code = some w

/-! ## Objects as slots -/

/-- The descriptor that a value of `fd_` stands for. -/
def descriptor (fd : Int) : Option Nat := if 0 ≤ fd then some fd.toNat else none

def World.slot (w : World) (o : Nat) : Option Nat := (w.objs o).bind descriptor

theorem descriptor_eq {fd : Int} {n : Nat} : descriptor fd = some n ↔ fd = n := by
  unfold descriptor
  split
  · constructor
    · intro h
      rw [← Option.some.inj h]
      omega
    · rintro rfl
      rfl
  · constructor
    · intro h
      cases h
    · rintro rfl
      omega

theorem slot_eq {w : World} {o n : Nat} : w.slot o = some n ↔ w.objs o = some (n : Int) := by
  unfold World.slot
  cases h : w.objs o with
  | none => simp
  | some fd => simp [descriptor_eq]

theorem slot_alive {w : World} {o : Nat} {fd : Int} (h : w.objs o = some fd) : w.slot o = descriptor fd := by
  rw [World.slot, h]
  rfl

theorem slot_dead {w : World} {o : Nat} (h : w.objs o = none) : w.slot o = none := by
  rw [World.slot, h]
  rfl

/-- A store changes one slot. -/
theorem slot_update (w : World) (o : Nat) (v : Option Int) :
    (World.mk (Function.update w.objs o v) w.opened w.log).slot = Function.update w.slot o (v.bind descriptor) := by
  funext p
  by_cases hp : p = o
  · subst hp
    simp [World.slot]
  · simp [World.slot, hp]

/-- Each open descriptor that was handed over is in one object, and what an object has is open. -/
structure Inv (w : World) : Prop where
  linear : Linear w.slot w.log
  opened : ∀ o n, w.slot o = some n → w.opened n = true

/-- Only the slots, the open descriptors and the log count. -/
theorem Inv.congr {w w' : World} (h : Inv w) (hs : w'.slot = w.slot) (ho : w'.opened = w.opened) (hl : w'.log = w.log) :
    Inv w' := by
  constructor
  · rw [hs, hl]
    exact h.linear
  · rw [hs, ho]
    exact h.opened

theorem Inv.init : Inv World.init := ⟨Linear.init, fun _ _ h => by cases h⟩

/-! ## The members keep it -/

/-- `o` is emptied, by a close if it had a descriptor. -/
theorem Inv.closeOld {w : World} (h : Inv w) {o : Nat} {old : Int} (ho : w.objs o = some old) {v : Option Int}
    (hv : v.bind descriptor = none) :
    Inv ⟨Function.update w.objs o v, (w.closeOld old).opened, (w.closeOld old).log⟩ := by
  have hslot := slot_alive ho
  have hempty : (World.mk (Function.update w.objs o v) (w.closeOld old).opened (w.closeOld old).log).slot =
      Function.update w.slot o none := by
    have hup := slot_update w o v
    rw [hv] at hup
    exact hup
  unfold World.closeOld at hempty ⊢
  unfold descriptor at hslot
  split
  · rename_i hold
    rw [if_pos hold] at hslot hempty
    have hdrop := h.linear.drop (e := .closed old.toNat) hslot rfl
    constructor
    · rw [hempty]
      exact hdrop
    · -- another object does not have the number just closed
      intro p n hp
      rw [hempty] at hp
      by_cases hpo : p = o
      · subst hpo
        rw [Function.update_self] at hp
        cases hp
      · rw [Function.update_of_ne hpo] at hp
        have hn : n ≠ old.toNat := by
          rintro rfl
          exact hpo (h.linear.one hp hslot)
        show Function.update w.opened old.toNat false n = true
        rw [Function.update_of_ne hn]
        exact h.opened p n hp
  · rename_i hold
    rw [if_neg hold] at hslot hempty
    rw [← hslot, Function.update_eq_self] at hempty
    exact h.congr hempty rfl rfl

/-- An object without a descriptor is given one, or a negative number. -/
theorem Inv.handOver {w : World} (h : Inv w) {o : Nat} {fd : Int} (ho : w.slot o = none)
    (hfd : 0 ≤ fd → w.Unowned fd) : Inv ((w.handOver fd).store o fd) := by
  have hup : ((w.handOver fd).store o fd).slot = Function.update w.slot o (descriptor fd) := by
    have hup := slot_update w o (some fd)
    unfold World.handOver
    split <;> exact hup
  unfold World.handOver at hup ⊢
  unfold descriptor at hup
  split
  · rename_i hpos
    rw [if_pos hpos, if_pos hpos] at hup
    obtain ⟨hopen, hfree⟩ := hfd hpos
    have hnone : ∀ p, w.slot p ≠ some fd.toNat := by
      intro p hp
      apply hfree p
      rw [slot_eq.1 hp]
      congr 1
      omega
    constructor
    · rw [hup]
      exact h.linear.take ho hnone
    · intro p n hp
      rw [hup] at hp
      by_cases hpo : p = o
      · subst hpo
        rw [Function.update_self] at hp
        rw [← Option.some.inj hp]
        exact hopen
      · rw [Function.update_of_ne hpo] at hp
        exact h.opened p n hp
  · rename_i hneg
    rw [if_neg hneg, if_neg hneg, ← ho, Function.update_eq_self] at hup
    exact h.congr hup rfl rfl

/-- `fd_ = std::exchange(src.fd_, -1)` in an object without a descriptor. -/
theorem Inv.exchange {w : World} (h : Inv w) {o src : Nat} {fd : Int} (hne : o ≠ src) (ho : w.slot o = none)
    (hsrc : w.objs src = some fd) : Inv ((w.store o fd).store src (-1)) := by
  have hup : ((w.store o fd).store src (-1)).slot =
      Function.update (Function.update w.slot o (w.slot src)) src none := by
    have h1 := slot_update w o (some fd)
    have h2 := slot_update (w.store o fd) src (some (-1))
    rw [slot_alive hsrc, ← show (w.store o fd).slot = Function.update w.slot o (descriptor fd) from h1]
    exact h2
  constructor
  · rw [hup]
    exact h.linear.pass hne ho
  · intro p n hp
    rw [hup] at hp
    by_cases hps : p = src
    · subst hps
      rw [Function.update_self] at hp
      cases hp
    · rw [Function.update_of_ne hps] at hp
      by_cases hpo : p = o
      · subst hpo
        rw [Function.update_self] at hp
        exact h.opened src n hp
      · rw [Function.update_of_ne hpo] at hp
        exact h.opened p n hp

/-- `release`. -/
theorem Inv.giveUp {w : World} (h : Inv w) {o : Nat} {old : Int} (ho : w.objs o = some old) :
    Inv ((w.giveUp old).store o (-1)) := by
  have hslot := slot_alive ho
  have hup : ((w.giveUp old).store o (-1)).slot = Function.update w.slot o none := by
    have hup := slot_update w o (some (-1))
    unfold World.giveUp
    split <;> exact hup
  unfold World.giveUp at hup ⊢
  unfold descriptor at hslot
  split
  · rename_i hold
    rw [if_pos hold] at hslot hup
    constructor
    · rw [hup]
      exact h.linear.drop (e := .released old.toNat) hslot rfl
    · intro p n hp
      rw [hup] at hp
      by_cases hpo : p = o
      · subst hpo
        rw [Function.update_self] at hp
        cases hp
      · rw [Function.update_of_ne hpo] at hp
        exact h.opened p n hp
  · rename_i hold
    rw [if_neg hold] at hslot hup
    rw [← hslot, Function.update_eq_self] at hup
    exact h.congr hup rfl rfl

theorem closeOld_objs (w : World) (old : Int) : (w.closeOld old).objs = w.objs := by
  unfold World.closeOld
  split <;> rfl

/-- `reset()`. -/
def World.emptied (w : World) (o : Nat) (old : Int) : World := (w.closeOld old).store o (-1)

theorem Inv.emptied {w : World} (h : Inv w) {o : Nat} {old : Int} (ho : w.objs o = some old) : Inv (w.emptied o old) := by
  have hempty := h.closeOld ho (v := some (-1)) rfl
  rw [← closeOld_objs w old] at hempty
  exact hempty

theorem emptied_slot (w : World) (o : Nat) (old : Int) : (w.emptied o old).slot o = none := by
  have ho : (w.emptied o old).objs o = some (-1) := Function.update_self ..
  rw [slot_alive ho]
  rfl

theorem emptied_objs (w : World) {o p : Nat} (old : Int) (hpo : p ≠ o) : (w.emptied o old).objs p = w.objs p := by
  rw [← closeOld_objs w old]
  exact Function.update_of_ne hpo ..

/-- What is handed to `reset` is still open when the old descriptor is closed. -/
theorem emptied_unowned {w : World} {o : Nat} {old fd : Int} (ho : w.objs o = some old) (hfd : 0 ≤ fd)
    (h : w.Unowned fd) : (w.emptied o old).Unowned fd := by
  obtain ⟨hopen, hfree⟩ := h
  constructor
  · show (w.closeOld old).opened fd.toNat = true
    unfold World.closeOld
    split
    · have hne : fd.toNat ≠ old.toNat := by
        intro heq
        have : old = fd := by omega
        exact hfree o (this ▸ ho)
      show Function.update w.opened old.toNat false fd.toNat = true
      rw [Function.update_of_ne hne]
      exact hopen
    · exact hopen
  · intro p
    by_cases hpo : p = o
    · subst hpo
      have hneg : (w.emptied p old).objs p = some (-1) := Function.update_self ..
      rw [hneg]
      intro heq
      have := Option.some.inj heq
      omega
    · rw [emptied_objs w old hpo]
      exact hfree p

/-- The store that follows is the only one that counts. -/
theorem store_emptied (w : World) (o : Nat) (old fd : Int) : (w.emptied o old).store o fd = (w.closeOld old).store o fd := by
  simp only [World.emptied, World.store, Function.update_idem]

theorem handOver_emptied (w : World) (o : Nat) (old fd : Int) :
    ((w.emptied o old).handOver fd).store o fd = ((w.closeOld old).handOver fd).store o fd := by
  unfold World.handOver
  split <;> simp only [World.emptied, World.store, Function.update_idem]

/-- **One step.** -/
theorem prim_inv {w w' : World} {p : Prim} (h : Inv w) (hc : Careful w (.prim p)) (hs : prim w p = some w') : Inv w' := by
  cases p with
  | default o =>
    simp only [prim] at hs
    split at hs
    · cases hs
    · rename_i hdead
      cases hs
      exact h.handOver (slot_dead hdead) (fun hpos => absurd hpos (by decide))
  | construct o fd =>
    simp only [prim] at hs
    split at hs
    · cases hs
    · rename_i hdead
      cases hs
      exact h.handOver (slot_dead hdead) hc
  | moveConstruct o src =>
    simp only [prim] at hs
    split at hs
    · rename_i fd hdead hsrc
      cases hs
      apply h.exchange _ (slot_dead hdead) hsrc
      rintro rfl
      rw [hdead] at hsrc
      cases hsrc
    · cases hs
  | moveAssign o src =>
    simp only [prim] at hs
    split at hs
    · rename_i old fd ho hsrc
      split at hs
      · rename_i hne
        cases hs
        have hsrc' : (w.emptied o old).objs src = some fd := by
          rw [emptied_objs w old (Ne.symm hne), hsrc]
        have hmoved := (h.emptied ho).exchange hne (emptied_slot w o old) hsrc'
        rw [store_emptied] at hmoved
        exact hmoved
      · cases hs
        exact h
    · cases hs
  | reset o fd =>
    simp only [prim] at hs
    split at hs
    · rename_i old ho
      cases hs
      have hgiven := (h.emptied ho).handOver (emptied_slot w o old)
        fun hpos => emptied_unowned ho hpos (hc hpos)
      rw [handOver_emptied] at hgiven
      exact hgiven
    · cases hs
  | release o =>
    simp only [prim] at hs
    split at hs
    · rename_i old ho
      cases hs
      exact h.giveUp ho
    · cases hs
  | destroy o =>
    simp only [prim] at hs
    split at hs
    · rename_i old ho
      cases hs
      have hemptied := h.closeOld ho (v := none) rfl
      rw [closeOld_objs]
      exact hemptied
    · cases hs
  | opens n =>
    simp only [prim] at hs
    split at hs
    · cases hs
    · cases hs
      refine ⟨h.linear, fun o m hm => ?_⟩
      show Function.update w.opened n true m = true
      by_cases hmn : m = n
      · rw [hmn, Function.update_self]
      · rw [Function.update_of_ne hmn]
        exact h.opened o m hm
  | shut n =>
    simp only [prim] at hs
    split at hs
    · cases hs
      refine ⟨h.linear, fun o m hm => ?_⟩
      have hmn : m ≠ n := by
        rintro rfl
        exact hc.2 o (slot_eq.1 hm)
      show Function.update w.opened n false m = true
      rw [Function.update_of_ne hmn]
      exact h.opened o m hm
    · cases hs

end ComputerSystem.Uds
