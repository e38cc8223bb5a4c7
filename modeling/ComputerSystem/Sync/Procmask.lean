import ComputerSystem.Lib.Custody
import ComputerSystem.Lib.Machine
import ComputerSystem.Shell.Machine
import ComputerSystem.Sync.JobList
/-!
# The program that blocks `SIGCHLD` around `addjob` (`Chapter8/8.5-8.6/sync/procmask.c:17-66`)

`main` forks its children with `SIGCHLD` blocked and enters each of them with everything blocked;
`handler` reaps until there is no child left, and takes each one out with everything blocked. Its
`waitpid` has no `WNOHANG`: while there are children it waits for one to end, and then `errno` is
`ECHILD` (`:29`). `SIGCHLD` is one pending bit, blocked while `handler` runs.

| here            | there                                                                    |
|-----------------|--------------------------------------------------------------------------|
| `State.left`    | the rounds of the loop (`:45`) still to begin                             |
| `State.log`     | the lines of `addjob` and of a successful `deletejob` (`joblist.c:22`, `:30`) |
| `State.bugs`    | the lines of a `deletejob` that found nothing (`joblist.c:37`)              |
| `Label.sleep`   | a turn of `while (jobs_remaining() > 0) sleep(1)` (`:60`)                  |
| `Label.raise`   | a `SIGCHLD` that no ended child caused                                    |

Children run `/bin/true`; one whose `execve` fails ends as well.
-/

namespace ComputerSystem.Sync

open Shell (Pid Mask SIGCHLD maskAll maskChld)

namespace Procmask

inductive MainPc
  | loop
  /-- `sigprocmask(SIG_BLOCK, &mask_one, &prev_one)` (`:46`) -/
  | block
  /-- `fork` (`:48`) -/
  | fork (prev : Mask)
  /-- `sigprocmask(SIG_BLOCK, &mask_all, NULL)` (`:55`) -/
  | blockAll (pid : Pid) (prev : Mask)
  /-- `addjob(pid)` (`:56`) -/
  | addJob (pid : Pid) (prev : Mask)
  /-- `sigprocmask(SIG_SETMASK, &prev_one, NULL)` (`:57`) -/
  | restore (prev : Mask)
  /-- the test of `jobs_remaining` (`:60`) -/
  | wait
  /-- `exit(0)` (`:63`) -/
  | finished
  /-- `fork` failed, and `try_fork` has exited -/
  | died

inductive HandlerPc
  /-- `waitpid(-1, NULL, 0)` (`:24`) -/
  | waitpid
  /-- `sigprocmask(SIG_BLOCK, &mask_all, &prev_all)` (`:25`) -/
  | block (pid : Pid)
  /-- `deletejob(pid)` (`:26`) -/
  | delete (pid : Pid) (prev : Mask)
  /-- `sigprocmask(SIG_SETMASK, &prev_all, NULL)` (`:27`) -/
  | restore (prev : Mask)
  | ret

structure Frame where
  pc    : HandlerPc
  saved : Mask

/-- Where a child stands: at `:49`, at `:50`, in `/bin/true`, ended. -/
inductive KidPc
  | setmask
  | execve
  | running
  | zombie
deriving DecidableEq, Repr

structure Kid where
  pid  : Pid
  pc   : KidPc
  mask : Mask
  prev : Mask

inductive KidStep
  | setmask
  | execve
  | exit
deriving DecidableEq, Repr

def Kid.step (k : Kid) : KidStep → Option Kid
  | .setmask => if k.pc = .setmask then some { k with mask := k.prev, pc := .execve } else none
  | .execve => if k.pc = .execve then some { k with pc := .running } else none
  | .exit => if k.pc = .zombie then none else some { k with pc := .zombie }

structure State where
  pc      : MainPc
  left    : Nat
  mask    : Mask
  pending : Bool
  frames  : List Frame
  jobs    : JobList
  kids    : List Kid
  forked  : List Pid
  log     : List (Custody.Event Pid)
  bugs    : List Pid

/-- Behind `initjobs` (`:43`), in a process that was started with this mask and without children. -/
def start (mask : Mask) (rounds : Nat) : State := ⟨.loop, rounds, mask, false, [], initjobs, [], [], [], []⟩

inductive Label
  | main
  | fork (r : Option Pid)
  | sleep
  | deliver
  /-- `waitpid` reaped this child, `none` when it failed with `ECHILD` -/
  | waitpid (r : Option Pid)
  | handler
  | kid (pid : Pid) (i : KidStep)
  | raise
deriving DecidableEq, Repr

/-- The process has exited. -/
def MainPc.gone : MainPc → Bool
  | .finished | .died => true
  | _ => false

/-- The next instruction of `main` that needs no outcome. -/
def State.main (s : State) : Option State :=
  match s.pc with
  | .loop => some (if s.left = 0 then { s with pc := .wait } else { s with pc := .block, left := s.left - 1 })
  | .block => some { s with pc := .fork s.mask, mask := s.mask.block maskChld }
  | .blockAll pid prev => some { s with pc := .addJob pid prev, mask := s.mask.block maskAll }
  | .addJob pid prev => some { s with
      pc := .restore prev
      jobs := addjob pid s.jobs
      log := if s.jobs.njobs ≥ MAXJOBS then s.log else s.log ++ [.acquired pid] }
  | .restore prev => some { s with pc := .loop, mask := prev }
  | .wait => if jobsRemaining s.jobs = 0 then some { s with pc := .finished } else none
  | _ => none

/-- The next instruction of the handler that needs no outcome. -/
def State.handler (s : State) : Option State :=
  match s.frames with
  | ⟨.block pid, saved⟩ :: fs => some { s with
      frames := ⟨.delete pid s.mask, saved⟩ :: fs, mask := s.mask.block maskAll }
  | ⟨.delete pid prev, saved⟩ :: fs =>
    let (found, jobs) := deletejob pid s.jobs
    some { s with
      frames := ⟨.restore prev, saved⟩ :: fs
      jobs := jobs
      log := if found then s.log ++ [.closed pid] else s.log
      bugs := if found then s.bugs else s.bugs ++ [pid] }
  | ⟨.restore prev, saved⟩ :: fs => some { s with frames := ⟨.waitpid, saved⟩ :: fs, mask := prev }
  | ⟨.ret, saved⟩ :: fs => some { s with frames := fs, mask := saved }
  | _ => none

def step (s : State) : Label → Option State
  | .main => match s.frames with
    | [] => s.main
    | _ :: _ => none
  | .fork r => match s.frames, s.pc, r with
    | [], .fork prev, some pid =>
      if pid = 0 ∨ pid ∈ s.kids.map (·.pid) then none
      else some { s with
        pc := .blockAll pid prev, kids := ⟨pid, .setmask, s.mask, prev⟩ :: s.kids, forked := s.forked ++ [pid] }
    | [], .fork _, none => some { s with pc := .died }
    | _, _, _ => none
  | .sleep => match s.frames, s.pc with
    | [], .wait => if jobsRemaining s.jobs = 0 then none else some s
    | _, _ => none
  | .deliver =>
    if s.pc.gone = false ∧ s.pending = true ∧ s.mask SIGCHLD = false then
      some { s with
        pending := false, mask := s.mask.block maskChld, frames := ⟨.waitpid, s.mask⟩ :: s.frames }
    else none
  | .waitpid r => match s.frames, r with
    | ⟨.waitpid, saved⟩ :: fs, some pid =>
      if ∃ k ∈ s.kids, k.pid = pid ∧ k.pc = .zombie then
        some { s with kids := s.kids.filter (·.pid ≠ pid), frames := ⟨.block pid, saved⟩ :: fs }
      else none
    | ⟨.waitpid, saved⟩ :: fs, none => if s.kids = [] then some { s with frames := ⟨.ret, saved⟩ :: fs } else none
    | _, _ => none
  | .handler => s.handler
  | .kid pid i =>
    if ∃ k ∈ s.kids, k.pid = pid ∧ (k.step i).isSome then
      some { s with
        kids := s.kids.map fun k => if k.pid = pid then (k.step i).getD k else k
        pending := s.pending || decide (i = .exit) }
    else none
  | .raise => if s.pc.gone = false then some { s with pending := true } else none

end Procmask

end ComputerSystem.Sync
