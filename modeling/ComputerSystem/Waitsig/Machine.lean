import ComputerSystem.Lib.Machine
import Mathlib.Data.List.Basic
/-!
# Waiting for a signal (`Chapter8/8.5-8.6/waitsig/waitforsignal.c:36-75`)

`main` forks a child at a time and waits in `sigsuspend` until `sigchld_handler` has stored its pid.
`mask` of `main` has only `SIGCHLD`; both handlers are installed with an empty `sa_mask`, so a handler
runs with its own signal blocked and can be interrupted by the other one. `waitpid` is called without
`WNOHANG` and restarted by `SA_RESTART`: it waits for a child to end.

| here                | there                                                             |
|---------------------|-------------------------------------------------------------------|
| `State.pid`         | the global `pid`                                                  |
| `State.left`        | the rounds of the loop (`:49`) still to begin                      |
| `State.mask`        | the signal mask in force                                          |
| `Frame.saved`       | the mask that the return from the handler restores                 |
| `MainPc.suspended`  | inside `sigsuspend(&prev)`, which restores `saved` when it returns |
| `Label.raise`       | a signal from outside: `SIGINT`, or a `SIGCHLD` of no child        |

`printed` are the pids of the lines of `:67`, and `forked` the children, which decides nothing.
-/

namespace ComputerSystem.Waitsig

abbrev Pid := Nat

inductive Sig
  | chld
  | int
deriving DecidableEq, Repr

abbrev Mask := Sig → Bool

/-- The set and one more signal. -/
def Mask.add (mask : Mask) (sig : Sig) : Mask := fun x => if x = sig then true else mask x

inductive MainPc
  /-- the test of the loop (`:49`) -/
  | loop
  /-- `sigprocmask(SIG_BLOCK, &mask, &prev)` (`:50`) -/
  | block
  /-- `fork` (`:52`) -/
  | fork (prev : Mask)
  /-- `pid = 0` (`:60`) -/
  | clear (prev : Mask)
  /-- `while (!pid)` (`:61`) -/
  | test (prev : Mask)
  | suspended (prev saved : Mask)
  /-- `sigprocmask(SIG_SETMASK, &prev, NULL)` (`:65`) -/
  | restore (prev : Mask)
  /-- `printf` (`:67`) -/
  | print
  /-- `exit(0)` (`:70`) -/
  | finished
  /-- `fork` failed, and `try_fork` has exited -/
  | died

/-- Where a handler stands: at `waitpid` (`:41`), or at its end. -/
inductive HandlerPc
  | waitpid
  | ret
deriving DecidableEq, Repr

structure Frame where
  pc    : HandlerPc
  saved : Mask

structure Kid where
  pid    : Pid
  zombie : Bool
deriving DecidableEq, Repr

structure State where
  pc      : MainPc
  left    : Nat
  pid     : Int
  mask    : Mask
  pending : Sig → Bool
  frames  : List Frame
  kids    : List Kid
  printed : List Int
  forked  : List Pid

/-- Before the loop, in a process that was started with this mask and without children. -/
def start (mask : Mask) (rounds : Nat) : State :=
  ⟨.loop, rounds, 0, mask, fun _ => false, [], [], [], []⟩

inductive Label
  | main
  /-- `fork` returned this pid, `none` when it failed -/
  | fork (r : Option Pid)
  /-- the kernel starts the handler of this signal -/
  | deliver (sig : Sig)
  /-- `waitpid` reaped this child, `none` when it failed with `ECHILD` -/
  | waitpid (r : Option Pid)
  /-- the handler returns -/
  | ret
  /-- a child ends -/
  | exit (pid : Pid)
  | raise (sig : Sig)
deriving DecidableEq, Repr

/-- The next instruction of `main` that needs no outcome. -/
def State.main (s : State) : Option State :=
  match s.pc with
  | .loop => some (if s.left = 0 then { s with pc := .finished } else { s with pc := .block, left := s.left - 1 })
  | .block => some { s with pc := .fork s.mask, mask := s.mask.add .chld }
  | .clear prev => some { s with pc := .test prev, pid := 0 }
  | .test prev =>
    some (if s.pid = 0 then { s with pc := .suspended prev s.mask, mask := prev } else { s with pc := .restore prev })
  | .restore prev => some { s with pc := .print, mask := prev }
  | .print => some { s with pc := .loop, printed := s.printed ++ [s.pid] }
  | _ => none

/-- The process has exited. -/
def MainPc.gone : MainPc → Bool
  | .finished | .died => true
  | _ => false

/-- What a `sigsuspend` that was interrupted will restore, else the mask in force. -/
def MainPc.resumeMask (mask : Mask) : MainPc → Mask
  | .suspended _ saved => saved
  | _ => mask

/-- Behind an interrupted `sigsuspend`. -/
def MainPc.resume : MainPc → MainPc
  | .suspended prev _ => .test prev
  | pc => pc

/-- `sigchld_handler` begins with `waitpid`; `sigint_handler` is empty. -/
def Sig.handler : Sig → HandlerPc
  | .chld => .waitpid
  | .int => .ret

def step (s : State) : Label → Option State
  | .main => match s.frames with
    | [] => s.main
    | _ :: _ => none
  | .fork r => match s.frames, s.pc, r with
    | [], .fork prev, some pid =>
      if pid = 0 ∨ pid ∈ s.kids.map (·.pid) then none
      else some { s with pc := .clear prev, kids := ⟨pid, false⟩ :: s.kids, forked := s.forked ++ [pid] }
    | [], .fork _, none => some { s with pc := .died }
    | _, _, _ => none
  | .deliver sig =>
    if s.pc.gone = false ∧ s.pending sig = true ∧ s.mask sig = false then
      some { s with
        pc := s.pc.resume
        mask := s.mask.add sig
        pending := fun x => if x = sig then false else s.pending x
        frames := ⟨sig.handler, s.pc.resumeMask s.mask⟩ :: s.frames }
    else none
  | .waitpid r => match s.frames, r with
    | ⟨.waitpid, saved⟩ :: fs, some pid =>
      if ⟨pid, true⟩ ∈ s.kids then
        some { s with pid := pid, kids := s.kids.filter (·.pid ≠ pid), frames := ⟨.ret, saved⟩ :: fs }
      else none
    | ⟨.waitpid, saved⟩ :: fs, none =>
      if s.kids = [] then some { s with pid := -1, frames := ⟨.ret, saved⟩ :: fs } else none
    | _, _ => none
  | .ret => match s.frames with
    | ⟨.ret, saved⟩ :: fs => some { s with mask := saved, frames := fs }
    | _ => none
  | .exit pid =>
    if ⟨pid, false⟩ ∈ s.kids then
      some { s with
        kids := s.kids.map fun k => if k.pid = pid then { k with zombie := true } else k
        pending := fun x => if x = .chld then true else s.pending x }
    else none
  | .raise sig =>
    if s.pc.gone = false then some { s with pending := fun x => if x = sig then true else s.pending x } else none

/-- Only the end of a child sends `SIGCHLD`. -/
def NoSpurious (_ : State) (l : Label) : Prop := l ≠ .raise .chld

instance (s : State) (l : Label) : Decidable (NoSpurious s l) := inferInstanceAs (Decidable (l ≠ .raise .chld))

end ComputerSystem.Waitsig
