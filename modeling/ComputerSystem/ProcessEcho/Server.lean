import ComputerSystem.Lib.Sweep
import ComputerSystem.Shell.Zombies
/-!
# The process-per-client echo server (`Chapter12/12.1/experiments/process_echo_server.c:16-26`, `:82-117`)

The parent accepts, forks and closes; `sigchld_handler` reaps. The handler is installed with an empty
`sa_mask` and without `SA_NODEFER`, so `SIGCHLD` itself is blocked while it runs and nothing else
blocks it (`:28-35`). What a child does before it ends is not part of this machine.

| here              | there                                                       |
|-------------------|-------------------------------------------------------------|
| `State.blocked`   | whether `SIGCHLD` is in the parent's signal mask            |
| `Frame.saved`     | what the return from the handler makes of that              |
| `Label.accept none` | `accept` failed; both branches of `:87-93` go on            |
| `Label.exit`      | a child ends, by `_exit(0)` (`:106`) or by a signal         |
-/

namespace ComputerSystem.ProcessEcho

abbrev Pid := Nat

/-- Where the loop of `main` stands. -/
inductive ParentPc
  /-- at `accept` (`:86`) -/
  | accept
  /-- at `fork` (`:100`), with a client on `connfd` -/
  | fork (connfd : Nat)
  /-- at `close(connfd)` (`:112`, `:116`) -/
  | close (connfd : Nat)
deriving DecidableEq, Repr

/-- Where `sigchld_handler` stands: at `waitpid` (`:21`), or after it has returned no child. -/
inductive HandlerPc
  | waitpid
  | ret
deriving DecidableEq, Repr

structure Frame where
  pc    : HandlerPc
  saved : Bool
deriving DecidableEq, Repr

structure Kid where
  pid    : Pid
  connfd : Nat
  zombie : Bool
deriving DecidableEq, Repr

structure State where
  pc      : ParentPc
  frames  : List Frame
  blocked : Bool
  pending : Bool
  kids    : List Kid
deriving DecidableEq, Repr

/-- At the first `accept`, with the mask the server was started with. -/
def start (blocked : Bool) : State := ⟨.accept, [], blocked, false, []⟩

inductive Label
  | accept (r : Option Nat)
  | fork (r : Option Pid)
  | close
  | deliver
  /-- `waitpid` reaped this child, `none` when it returned 0 or failed with `ECHILD` -/
  | waitpid (r : Option Pid)
  /-- the handler returns (`:25`) -/
  | ret
  | exit (pid : Pid)
  /-- a `SIGCHLD` that no ended child caused -/
  | spurious
deriving DecidableEq, Repr

def step (s : State) : Label → Option State
  | .accept r => match s.frames, s.pc, r with
    | [], .accept, some connfd => some { s with pc := .fork connfd }
    | [], .accept, none => some s
    | _, _, _ => none
  | .fork r => match s.frames, s.pc, r with
    | [], .fork connfd, some pid =>
      if pid = 0 ∨ pid ∈ s.kids.map (·.pid) then none
      else some { s with pc := .close connfd, kids := ⟨pid, connfd, false⟩ :: s.kids }
    | [], .fork connfd, none => some { s with pc := .close connfd }
    | _, _, _ => none
  | .close => match s.frames, s.pc with
    | [], .close _ => some { s with pc := .accept }
    | _, _ => none
  | .deliver =>
    if s.pending ∧ s.blocked = false then
      some { s with pending := false, blocked := true, frames := ⟨.waitpid, s.blocked⟩ :: s.frames }
    else none
  | .waitpid r => match s.frames, r with
    | ⟨.waitpid, saved⟩ :: fs, some pid =>
      if ∃ k ∈ s.kids, k.pid = pid ∧ k.zombie = true then
        some { s with kids := s.kids.filter (·.pid ≠ pid), frames := ⟨.waitpid, saved⟩ :: fs }
      else none
    | ⟨.waitpid, saved⟩ :: fs, none =>
      if ∃ k ∈ s.kids, k.zombie = true then none else some { s with frames := ⟨.ret, saved⟩ :: fs }
    | _, _ => none
  | .ret => match s.frames with
    | ⟨.ret, saved⟩ :: fs => some { s with blocked := saved, frames := fs }
    | _ => none
  | .exit pid =>
    if ∃ k ∈ s.kids, k.pid = pid ∧ k.zombie = false then
      some { s with
        kids := s.kids.map fun k => if k.pid = pid then { k with zombie := true } else k
        pending := true }
    else none
  | .spurious => some { s with pending := true }

/-! ## Every step is a move of the sweep -/

/-- The activation will call `waitpid` again. -/
def HandlerPc.sweeping : HandlerPc → Bool
  | .ret => false
  | .waitpid => true

def sweep (s : State) : Sweep := ⟨s.kids.any (·.zombie), s.pending, s.frames.any (·.pc.sweeping)⟩

theorem waitpid_sweep {s s' : State} {r : Option Pid} (hs : step s (.waitpid r) = some s') :
    (sweep s).Move (sweep s') := by
  simp only [step] at hs
  split at hs
  · rename_i saved fs pid hf
    have hview : sweep s = ⟨s.kids.any (·.zombie), s.pending, true⟩ := by
      simp only [sweep, hf, List.any_cons, HandlerPc.sweeping, Bool.true_or]
    rw [hview]
    split at hs <;> cases hs
    exact .takeFrom fun k hk => List.mem_of_mem_filter hk
  · rename_i saved fs hf
    have hview : sweep s = ⟨s.kids.any (·.zombie), s.pending, true⟩ := by
      simp only [sweep, hf, List.any_cons, HandlerPc.sweeping, Bool.true_or]
    rw [hview]
    split at hs <;> cases hs
    rename_i hnone
    exact .findNone _ fun k hk hz => hnone ⟨k, hk, hz⟩
  · cases hs

theorem step_sweep (s : State) (l : Label) (s' : State) (hs : step s l = some s') :
    (sweep s).Move (sweep s') := by
  cases l with
  | accept r =>
    simp only [step] at hs
    split at hs <;> cases hs
    · exact .idle
    · exact .idle
  | fork r =>
    simp only [step] at hs
    split at hs
    · split at hs <;> cases hs
      exact .idle
    · cases hs
      exact .idle
    · cases hs
  | close =>
    simp only [step] at hs
    split at hs <;> cases hs
    exact .idle
  | deliver =>
    simp only [step] at hs
    split at hs <;> cases hs
    rename_i hg
    exact .start hg.1
  | waitpid r => exact waitpid_sweep hs
  | ret =>
    simp only [step] at hs
    split at hs <;> cases hs
    rename_i saved fs hf
    have hview : sweep s = ⟨s.kids.any (·.zombie), s.pending, fs.any (·.pc.sweeping)⟩ := by
      simp only [sweep, hf, List.any_cons, HandlerPc.sweeping, Bool.false_or]
    rw [hview]
    exact .idle
  | exit pid =>
    simp only [step] at hs
    split at hs <;> cases hs
    exact .raise _
  | spurious =>
    cases hs
    exact .raise _

/-- **The server strands no zombie**, whether or not it was started with `SIGCHLD` blocked. -/
theorem zombies_seen {blocked : Bool} {s : State} (h : Reach step always (start blocked) s) : (sweep s).Seen :=
  h.sweep sweep (by intro hw; cases hw) fun s l s' _ hs => step_sweep s l s' hs

/-! ## Both programs -/

/-- **No zombie is stranded** by signals that coalesce. In every reachable state of the job-control
shell and of this server, a zombie means that `SIGCHLD` is pending or that an activation of the
handler will call `waitpid` again; so with `SIGCHLD` not blocked, not pending and no handler active,
there is none. -/
theorem no_zombie_stranded :
    (∀ m0 s, Reach Shell.step always (Shell.start m0) s →
      ((∃ k ∈ s.kids, k.pc = .zombie) → s.pending = true ∨ ∃ f ∈ s.frames, f.pc ≠ .ret) ∧
      (s.mask Shell.SIGCHLD = false → s.pending = false → s.frames = [] → ∀ k ∈ s.kids, k.pc ≠ .zombie)) ∧
    (∀ blocked s, Reach step always (start blocked) s →
      ((∃ k ∈ s.kids, k.zombie = true) → s.pending = true ∨ ∃ f ∈ s.frames, f.pc ≠ .ret) ∧
      (s.blocked = false → s.pending = false → s.frames = [] → ∀ k ∈ s.kids, k.zombie ≠ true)) := by
  constructor
  · intro m0 s h
    have hseen := Shell.zombies_seen h
    constructor
    · intro hz
      rcases hseen (Shell.any_isZombie.2 hz) with hp | hsw
      · exact .inl hp
      · exact .inr (Shell.any_sweeping.1 hsw)
    · intro _ hp hf
      exact Shell.any_isZombie_false.1 (hseen.quiet hp (by simp only [Shell.sweep, hf, List.any_nil]))
  · intro blocked s h
    have hseen := zombies_seen h
    constructor
    · intro hz
      rcases hseen (List.any_eq_true.2 hz) with hp | hsw
      · exact .inl hp
      · refine .inr ?_
        obtain ⟨f, hf, hsw⟩ := List.any_eq_true.1 hsw
        refine ⟨f, hf, ?_⟩
        rintro hpc
        rw [hpc] at hsw
        cases hsw
    · intro _ hp hf
      exact List.any_eq_false.1 (hseen.quiet hp (by simp only [sweep, hf, List.any_nil]))

/-- Two children end while the handler has seen its last `waitpid`: one bit, one more activation. -/
def coalescedRun : List Label :=
  [.accept (some 4), .fork (some 11), .close, .accept (some 4), .fork (some 12), .close, .accept (some 4),
    .fork (some 13), .exit 11, .deliver, .waitpid (some 11), .waitpid none, .exit 12, .exit 13, .ret]

theorem no_zombie_stranded_coalesced : ∃ s, runFrom step (start false) coalescedRun = some s ∧
    (s.kids.map fun k => (k.pid, k.zombie)) = [(13, true), (12, true)] ∧ s.frames = [] ∧ s.pending = true := by
  have hend : (runFrom step (start false) coalescedRun).map
      (fun s => (s.kids.map fun k => (k.pid, k.zombie), s.frames)) = some ([(13, true), (12, true)], []) := by
    decide +kernel
  obtain ⟨s, hs, heq⟩ := Option.map_eq_some_iff.1 hend
  obtain ⟨hkids, hframes⟩ := Prod.mk.inj heq
  refine ⟨s, hs, hkids, hframes, ?_⟩
  have hz : ∃ k ∈ s.kids, k.zombie = true := by
    have hmem : (13, true) ∈ s.kids.map fun k => (k.pid, k.zombie) := by rw [hkids]; exact List.mem_cons_self ..
    obtain ⟨k, hk, hkey⟩ := List.mem_map.1 hmem
    exact ⟨k, hk, congrArg Prod.snd hkey⟩
  rcases (no_zombie_stranded.2 false s (runFrom_reach hs)).1 hz with hp | ⟨f, hf, -⟩
  · exact hp
  · rw [hframes] at hf
    cases hf

end ComputerSystem.ProcessEcho
