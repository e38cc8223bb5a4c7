import ComputerSystem.Shell.Jobs
import ComputerSystem.Lib.Machine
/-!
# The job-control shell as a machine

`Chapter8/8.5-8.6/shell/main.c:79-231`. The shell is one thread with one signal handler. `MainPc` says
where `main` and `eval` stand, a `Frame` where an activation of `sigchld_handler` stands; while there
is a frame only the handler moves. `SIGCHLD` is one pending bit, taken whenever it is not blocked.

| here            | there                                                            |
|-----------------|------------------------------------------------------------------|
| `Mask`          | a `sigset_t`                                                     |
| `State.mask`    | the mask in force                                                |
| `Frame.saved`   | the mask that the return from the handler restores               |
| `Kid`           | a child that was forked and not yet reaped, a zombie included    |
| `Label.deliver` | the kernel starts the handler (`SIGCHLD` unblocked and pending)   |

What is printed, and `errno`, are left out. `waitpid` with `WNOHANG` fails only with `ECHILD`, so the
`sio_error` of `:105` is never called.
-/

namespace ComputerSystem.Shell

/-! ## The command line -/

def space : UInt8 := 32
def ampersand : UInt8 := 38

/-- `buf[i]`, the terminating NUL included. -/
def charAt (buf : Bytes) (i : Nat) : UInt8 := buf.getD i 0

/-- `while (*buf && (*buf == ' ')) buf++` from `i` on (`:119-121`). -/
def skipSpaces (buf : Bytes) : Nat → Nat → Nat
  | 0, i => i
  | n + 1, i => if charAt buf i = space then skipSpaces buf n (i + 1) else i

/-- `strchr(buf + i, c)`. -/
def strchr (buf : Bytes) (c : UInt8) : Nat → Nat → Option Nat
  | 0, _ => none
  | n + 1, i =>
    if charAt buf i = c then some i
    else if charAt buf i = 0 then none
    else strchr buf c n (i + 1)

/-- The loop that cuts `buf` into words (`:124-131`); `argv` holds their positions in `buf`. -/
def splitLoop : Nat → Bytes → Nat → List Nat → Bytes × List Nat
  | 0, buf, _, argv => (buf, argv)
  | n + 1, buf, i, argv => match strchr buf space buf.length i with
    | none => (buf, argv)
    | some delim => splitLoop n (buf.set delim 0) (skipSpaces buf buf.length (delim + 1)) (argv ++ [i])

structure Parsed where
  buf  : Bytes
  argv : List Nat
  bg   : Bool
deriving DecidableEq, Repr

/-- `parseline` (`:113`); `none` where it stores outside of `buf` or `argv`. -/
def parseline (buf : Bytes) : Option Parsed :=
  if buf = [] then none
  else
    let buf := buf.set (buf.length - 1) space
    let (buf, argv) := splitLoop buf.length buf (skipSpaces buf buf.length 0) []
    if argv.length ≥ MAXARGS then none
    else match argv.getLast? with
      | none => some ⟨buf, [], true⟩
      | some last =>
        if charAt buf last = ampersand then some ⟨buf, argv.dropLast, true⟩ else some ⟨buf, argv, false⟩

/-- The string that starts at `i`. -/
def stringAt (buf : Bytes) (i : Nat) : Bytes := (buf.drop i).takeWhile (· ≠ 0)

/-- A command to run: what `eval` was given and what `parseline` made of it. -/
structure Cmd where
  cmdline : Bytes
  argv    : List Bytes
  bg      : Bool
deriving DecidableEq, Repr

inductive Command
  | blank
  | quit
  | jobs
  | ignored
  | run (c : Cmd)
deriving DecidableEq, Repr

/-- The first lines of `eval` and the tests of `builtin_command` (`:173-180`, `:148-164`). -/
def command (cmdline : Bytes) : Option Command :=
  (parseline cmdline).map fun p => match p.argv.map (stringAt p.buf) with
    | [] => .blank
    | arg0 :: args =>
      if arg0 = ascii "quit" then .quit
      else if arg0 = ascii "jobs" then .jobs
      else if arg0 = ascii "&" then .ignored
      else .run ⟨cmdline, arg0 :: args, p.bg⟩

/-! ## Signals and processes -/

abbrev Mask := Nat → Bool

def SIGCHLD : Nat := 17

/-- `sigprocmask(SIG_BLOCK, set)`. -/
def Mask.block (mask set : Mask) : Mask := fun n => mask n || set n

def maskAll : Mask := fun _ => true
def maskChld : Mask := fun n => n == SIGCHLD

/-- Where a child stands: at `:190`, at `:191`, in the program it executes, ended. -/
inductive KidPc
  | setmask
  | execve
  | running
  | zombie
deriving DecidableEq, Repr

/-- A child, with the mask it has and the value of `prev` it was forked with. -/
structure Kid where
  pid  : Pid
  bg   : Bool
  argv : List Bytes
  mask : Mask
  prev : Mask
  pc   : KidPc

def Kid.key (k : Kid) : Pid × Bool := (k.pid, k.bg)

inductive KidStep
  | setmask
  | execve
  | exit
deriving DecidableEq, Repr

/-- A step of a child (`:189-195`); it can end at any time, also because its `execve` failed. -/
def kidStep (k : Kid) : KidStep → Option Kid
  | .setmask => if k.pc = .setmask then some { k with mask := k.prev, pc := .execve } else none
  | .execve => if k.pc = .execve then some { k with pc := .running } else none
  | .exit => if k.pc = .zombie then none else some { k with pc := .zombie }

/-! ## The two program counters -/

/-- Where `main` and `eval` stand, with the locals that are alive there. -/
inductive MainPc
  /-- at `try_gets` (`:225`) -/
  | prompt
  /-- `sigprocmask(SIG_BLOCK, &mask_chld, &prev)` (`:187`) -/
  | sigBlock (c : Cmd)
  /-- `try_fork()` (`:189`) -/
  | fork (c : Cmd) (prev : Mask)
  /-- `sigprocmask(SIG_BLOCK, &mask_all, NULL)` (`:198`) -/
  | blockAll (c : Cmd) (pid : Pid) (prev : Mask)
  /-- `add_job(pid, bg, cmdline)` (`:199`) -/
  | addJob (c : Cmd) (pid : Pid) (prev : Mask)
  /-- `sigprocmask(SIG_SETMASK, &mask_chld, NULL)` (`:200`) -/
  | setChld (c : Cmd) (pid : Pid) (prev : Mask)
  /-- `fg_done = 0` (`:205`) -/
  | fgClear (pid : Pid) (prev : Mask)
  /-- `while (!fg_done)` (`:206`) -/
  | waitTest (pid : Pid) (prev : Mask)
  /-- inside `sigsuspend(&prev)` (`:207`), which will restore `saved` -/
  | suspended (pid : Pid) (prev saved : Mask)
  /-- `sigprocmask(SIG_SETMASK, &prev, NULL)` (`:209`, `:212`) -/
  | restore (prev : Mask)
  /-- the three steps of the builtin `jobs` (`:155-157`) -/
  | jobsBlock
  | jobsList (prev : Mask)
  | jobsRestore (prev : Mask)
  | exited

/-- What the return from a handler makes of the mask that was interrupted: a `sigsuspend` restores the
one it found. -/
def MainPc.resumeMask (mask : Mask) : MainPc → Mask
  | .suspended _ _ saved => saved
  | _ => mask

/-- Where `main` goes on after a handler: a `sigsuspend` has returned. -/
def MainPc.resume : MainPc → MainPc
  | .suspended pid prev _ => .waitTest pid prev
  | pc => pc

/-- Where `sigchld_handler` stands. -/
inductive HandlerPc
  /-- `waitpid(-1, &status, WNOHANG)` (`:91`) -/
  | waitpid
  /-- `sigprocmask(SIG_BLOCK, &mask_all, &prev)` (`:92`) -/
  | block (pid : Pid)
  /-- `delete_job(pid)` (`:93`) -/
  | delete (pid : Pid) (prev : Mask)
  /-- `sigprocmask(SIG_SETMASK, &prev, NULL)` (`:94`) -/
  | setmask (pid : Pid) (bg : Option Bool) (prev : Mask)
  /-- the test of `bg` (`:96`) -/
  | notify (pid : Pid) (bg : Option Bool)
  /-- the return (`:108`) -/
  | ret

structure Frame where
  pc    : HandlerPc
  saved : Mask

structure State where
  pc      : MainPc
  frames  : List Frame
  mask    : Mask
  pending : Bool
  jobs    : List Job
  fgDone  : Bool
  kids    : List Kid

/-- The children forked and not yet reaped, each with the flag of its command. -/
def State.children (s : State) : List (Pid × Bool) := s.kids.map Kid.key

/-- At the first prompt (`:219-225`), with the mask the shell was started with. -/
def start (mask : Mask) : State := ⟨.prompt, [], mask, false, initJobs, false, []⟩

inductive Label
  /-- `main` or `eval` executes its next instruction -/
  | main
  /-- `fgets` returned this line, and whether it met the end of the input -/
  | gets (line : Bytes) (feof : Bool)
  /-- `fork` returned this pid, `none` when it failed -/
  | fork (r : Option Pid)
  /-- the handler executes its next instruction -/
  | handler
  /-- `waitpid` reaped this child, `none` when it returned 0 or failed with `ECHILD` -/
  | waitpid (r : Option Pid)
  | deliver
  | kid (pid : Pid) (k : KidStep)
  /-- a `SIGCHLD` that no ended child caused -/
  | spurious
deriving DecidableEq, Repr

/-- The loop of `main` with a line in hand (`:225-230`, `:173-180`); NUL ends the line. -/
def State.gets (s : State) (line : Bytes) (feof : Bool) : Option State :=
  if feof then some { s with pc := .exited }
  else (command (line.takeWhile (· ≠ 0))).map fun
    | .blank | .ignored => s
    | .quit => { s with pc := .exited }
    | .jobs => { s with pc := .jobsBlock }
    | .run c => { s with pc := .sigBlock c }

/-- An instruction of `eval` or of the builtin `jobs` that needs no outcome. -/
def State.main (s : State) : Option State :=
  match s.pc with
  | .sigBlock c => some { s with pc := .fork c s.mask, mask := s.mask.block maskChld }
  | .blockAll c pid prev => some { s with pc := .addJob c pid prev, mask := s.mask.block maskAll }
  | .addJob c pid prev =>
    some { s with pc := .setChld c pid prev, jobs := addJob pid c.bg c.cmdline s.jobs }
  | .setChld c pid prev =>
    some { s with pc := if c.bg then .restore prev else .fgClear pid prev, mask := maskChld }
  | .fgClear pid prev => some { s with pc := .waitTest pid prev, fgDone := false }
  | .waitTest pid prev =>
    if s.fgDone then some { s with pc := .restore prev }
    else some { s with pc := .suspended pid prev s.mask, mask := prev }
  | .restore prev => some { s with pc := .prompt, mask := prev }
  | .jobsBlock => some { s with pc := .jobsList s.mask, mask := s.mask.block maskAll }
  | .jobsList prev => some { s with pc := .jobsRestore prev }
  | .jobsRestore prev => some { s with pc := .prompt, mask := prev }
  | _ => none

/-- `fork` (`:189`); the kernel hands out no pid that is still in use. -/
def State.fork (s : State) : Option Pid → Option State
  | none => match s.pc with
    | .fork _ _ => some { s with pc := .exited }
    | _ => none
  | some pid => match s.pc with
    | .fork c prev =>
      if pid = 0 ∨ pid ∈ s.children.map (·.1) then none
      else some { s with
        pc := .blockAll c pid prev
        kids := ⟨pid, c.bg, c.argv, s.mask, prev, .setmask⟩ :: s.kids }
    | _ => none

/-- The kernel interrupts `main` and runs the handler with the signal itself blocked. -/
def State.deliver (s : State) : Option State :=
  match s.pc with
  | .exited => none
  | pc =>
    if s.pending ∧ s.mask SIGCHLD = false then
      some { s with
        pending := false
        mask := s.mask.block maskChld
        frames := ⟨.waitpid, pc.resumeMask s.mask⟩ :: s.frames }
    else none

/-- An instruction of `sigchld_handler` that needs no outcome. -/
def State.handler (s : State) : Option State :=
  match s.frames with
  | [] => none
  | f :: fs => match f.pc with
    | .waitpid => none
    | .block pid =>
      some { s with mask := s.mask.block maskAll, frames := ⟨.delete pid s.mask, f.saved⟩ :: fs }
    | .delete pid prev =>
      some { s with
        jobs := (deleteJob pid s.jobs).2
        frames := ⟨.setmask pid (deleteJob pid s.jobs).1 prev, f.saved⟩ :: fs }
    | .setmask pid bg prev => some { s with mask := prev, frames := ⟨.notify pid bg, f.saved⟩ :: fs }
    | .notify _ bg =>
      some { s with fgDone := if bg = some false then true else s.fgDone, frames := ⟨.waitpid, f.saved⟩ :: fs }
    | .ret => some { s with pc := s.pc.resume, mask := f.saved, frames := fs }

/-- `waitpid(-1, &status, WNOHANG)` (`:91`). -/
def State.waitpid (s : State) (r : Option Pid) : Option State :=
  match s.frames with
  | ⟨.waitpid, saved⟩ :: fs => match r with
    | some pid =>
      if ∃ k ∈ s.kids, k.pid = pid ∧ k.pc = .zombie then
        some { s with kids := s.kids.filter (·.pid ≠ pid), frames := ⟨.block pid, saved⟩ :: fs }
      else none
    | none => if ∃ k ∈ s.kids, k.pc = .zombie then none else some { s with frames := ⟨.ret, saved⟩ :: fs }
  | _ => none

/-- A child moves; its end makes `SIGCHLD` pending. -/
def State.kid (s : State) (pid : Pid) (i : KidStep) : Option State :=
  if ∃ k ∈ s.kids, k.pid = pid ∧ (kidStep k i).isSome then
    some { s with
      kids := s.kids.map fun k => if k.pid = pid then (kidStep k i).getD k else k
      pending := s.pending || decide (i = .exit) }
  else none

def step (s : State) : Label → Option State
  | .main => if s.frames.isEmpty then s.main else none
  | .gets line feof => match s.frames, s.pc with
    | [], .prompt => s.gets line feof
    | _, _ => none
  | .fork r => if s.frames.isEmpty then s.fork r else none
  | .handler => s.handler
  | .waitpid r => s.waitpid r
  | .deliver => s.deliver
  | .kid pid i => s.kid pid i
  | .spurious => some { s with pending := true }

/-! `main` moves only with no handler active, and reads its line at the prompt. -/

theorem step_main {s s' : State} (hs : step s .main = some s') : s.frames = [] ∧ s.main = some s' := by
  simp only [step] at hs
  split at hs
  · rename_i hf
    exact ⟨List.isEmpty_iff.1 hf, hs⟩
  · cases hs

theorem step_gets {s s' : State} {line : Bytes} {feof : Bool} (hs : step s (.gets line feof) = some s') :
    s.frames = [] ∧ s.pc = .prompt ∧ s.gets line feof = some s' := by
  simp only [step] at hs
  split at hs
  · rename_i hf hpc
    exact ⟨hf, hpc, hs⟩
  · cases hs

theorem step_fork {s s' : State} {r : Option Pid} (hs : step s (.fork r) = some s') :
    s.frames = [] ∧ s.fork r = some s' := by
  simp only [step] at hs
  split at hs
  · rename_i hf
    exact ⟨List.isEmpty_iff.1 hf, hs⟩
  · cases hs

/-- The signal is taken only while it is not blocked. -/
theorem deliver_eq {s s' : State} (hs : s.deliver = some s') :
    s.pc ≠ .exited ∧ s.pending = true ∧ s.mask SIGCHLD = false ∧
      s' = { s with
        pending := false
        mask := s.mask.block maskChld
        frames := ⟨.waitpid, s.pc.resumeMask s.mask⟩ :: s.frames } := by
  unfold State.deliver at hs
  split at hs
  · cases hs
  · rename_i hpc
    split at hs <;> cases hs
    rename_i hg
    exact ⟨hpc, hg.1, hg.2, rfl⟩

/-- A child's step changes `kids` and `pending` only. -/
theorem kid_eq {s s' : State} {pid : Pid} {i : KidStep} (hs : s.kid pid i = some s') :
    s' = { s with
      kids := s.kids.map fun k => if k.pid = pid then (kidStep k i).getD k else k
      pending := s.pending || decide (i = .exit) } := by
  unfold State.kid at hs
  split at hs <;> cases hs
  rfl

end ComputerSystem.Shell
