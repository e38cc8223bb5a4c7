import ComputerSystem.Tiny.Dispatch
import ComputerSystem.Lib.Machine
import Mathlib.Data.List.Nodup
/-!
# The processes of Tiny

`Chapter11/tiny_web/tiny.c:65-80,129-141,240-255`. `serve_dynamic` forks; nothing after the `execve` of
the child branch keeps the child from going on to `wait`, out of `serve_dynamic` and back to `accept`.
A state is the list of the processes that exist, each with its own program counter; a label names a
process and the outcome of its next system call. Requests other than dynamic ones touch no process
and are one step.

Only one process serves as long as no `execve` fails (`one_server`); a failing one makes the child a
second server (`second_server`).
-/

namespace ComputerSystem.Tiny

/-- Where a process stands, with the locals that are alive there. -/
inductive Pc
  /-- `accept` in `main` (`:68`) -/
  | accept
  /-- `doit(connfd)` before its dispatch (`:78`, `:88-104`) -/
  | doit (fd : Nat)
  /-- `serve_dynamic` writes the first two response lines (`:244-247`) -/
  | header (fd : Nat) (filename cgiargs : Bytes)
  /-- `fork()` (`:249`) -/
  | fork (fd : Nat) (filename cgiargs : Bytes)
  /-- `setenv("QUERY_STRING", cgiargs, 1)` in the child branch (`:250`) -/
  | setenv (fd : Nat) (filename cgiargs : Bytes)
  /-- `dup2(fd, STDOUT_FILENO)` (`:251`) -/
  | dup2 (fd : Nat) (filename query : Bytes)
  /-- `execve(filename, emptylist, environ)` (`:252`) -/
  | execve (fd : Nat) (filename query : Bytes)
  /-- `wait(NULL)` (`:254`) -/
  | wait (fd : Nat)
  /-- `serve_dynamic` and `doit` have returned, `close(connfd)` (`:79`) -/
  | close (fd : Nat)
  /-- the CGI program, with its `QUERY_STRING` and its standard output -/
  | program (filename query : Bytes) (out : Nat)
  /-- ended and not waited for -/
  | ended
deriving DecidableEq, Repr

/-- Tiny's own code outside of the child branch of `serve_dynamic`. -/
def Pc.inServer : Pc → Bool
  | .accept | .doit _ | .header .. | .fork .. | .wait _ | .close _ => true
  | .setenv .. | .dup2 .. | .execve .. | .program .. | .ended => false

structure Proc where
  pid    : Nat
  parent : Nat
  pc     : Pc
deriving DecidableEq, Repr

/-- The server as `main` enters its loop. -/
def start (root : Nat) : List Proc := [⟨root, 0, .accept⟩]

/-- The next step of a process with the outcome of its system call. -/
inductive Move
  | tau
  /-- `accept` returned this descriptor, `none` when it failed -/
  | accept (r : Option Nat)
  /-- the method and the URI of the request read, `none` for no request, and what `stat` finds -/
  | request (r : Option (Bytes × Bytes)) (stat : Option Stat)
  /-- `fork` made this child, `none` when it failed -/
  | fork (r : Option Nat)
  /-- whether `execve` started the program -/
  | execve (ok : Bool)
  /-- `wait` reaped this child, `none` when it failed because there is none -/
  | wait (r : Option Nat)
  | exit
deriving DecidableEq, Repr

def setPc (procs : List Proc) (pid : Nat) (pc : Pc) : List Proc :=
  procs.map fun p => if p.pid = pid then { p with pc := pc } else p

/-- The pids in use. -/
def pids (procs : List Proc) : List Nat := procs.map (·.pid)

/-- The step of a process that concerns only itself. -/
def localStep : Pc → Move → Option Pc
  | .accept, .accept none => some .accept
  | .accept, .accept (some fd) => some (.doit fd)
  | .doit fd, .request none _ => some (.close fd)
  | .doit fd, .request (some (method, uri)) stat => match dispatch method uri stat with
    | .dynamic filename cgiargs => some (.header fd filename cgiargs)
    | _ => some (.close fd)
  | .header fd filename cgiargs, .tau => some (.fork fd filename cgiargs)
  | .fork fd _ _, .fork none => some (.wait fd)
  | .setenv fd filename cgiargs, .tau => some (.dup2 fd filename cgiargs)
  | .dup2 fd filename query, .tau => some (.execve fd filename query)
  | .execve fd filename query, .execve true => some (.program filename query fd)
  | .execve fd _ _, .execve false => some (.wait fd)
  | .close _, .tau => some .accept
  | .program _ _ _, .exit => some .ended
  | _, _ => none

def step (procs : List Proc) (l : Nat × Move) : Option (List Proc) :=
  match procs.find? (·.pid = l.1) with
  | none => none
  | some p => match p.pc, l.2 with
    | .fork fd filename cgiargs, .fork (some child) =>
      if child ∈ pids procs then none
      else some (⟨child, p.pid, .setenv fd filename cgiargs⟩ :: setPc procs p.pid (.wait fd))
    | .wait fd, .wait (some child) =>
      if ∃ q ∈ procs, q.pid = child ∧ q.parent = p.pid ∧ q.pc = .ended then
        some ((setPc procs p.pid (.close fd)).filter (·.pid ≠ child))
      else none
    | .wait fd, .wait none =>
      if ∃ q ∈ procs, q.parent = p.pid then none else some (setPc procs p.pid (.close fd))
    | pc, i => (localStep pc i).map (setPc procs p.pid)

/-- The processes that execute Tiny's server code. -/
def serving (procs : List Proc) : List Nat := pids (procs.filter (·.pc.inServer))

/-- The step is not a failing `execve`. -/
def ExecSucceeds (_ : List Proc) (l : Nat × Move) : Prop := l.2 ≠ .execve false

instance (procs : List Proc) (l : Nat × Move) : Decidable (ExecSucceeds procs l) :=
  inferInstanceAs (Decidable (l.2 ≠ .execve false))

/-! ## One server -/

/-- The pids are distinct, and the process that executes server code is the first one. -/
structure OneServer (root : Nat) (procs : List Proc) : Prop where
  distinct : (pids procs).Nodup
  alive    : root ∈ pids procs
  only     : ∀ p ∈ procs, p.pc.inServer = true ↔ p.pid = root

theorem start_one (root : Nat) : OneServer root (start root) :=
  ⟨by simp [pids, start], by simp [pids, start], fun p hp => by
    obtain rfl := List.mem_singleton.1 hp
    simp [Pc.inServer]⟩

theorem setPc_pids (procs : List Proc) (pid : Nat) (pc : Pc) : pids (setPc procs pid pc) = pids procs := by
  simp only [pids, setPc, List.map_map]
  refine List.map_congr_left fun p _ => ?_
  simp only [Function.comp_apply]
  split <;> rfl

/-- A process that stays in server code, or stays out of it, changes nothing. -/
theorem OneServer.setPc {root : Nat} {procs : List Proc} (h : OneServer root procs) {p : Proc} (hp : p ∈ procs) {pc : Pc}
    (hpc : pc.inServer = p.pc.inServer) : OneServer root (setPc procs p.pid pc) := by
  refine ⟨by rw [setPc_pids]; exact h.distinct, by rw [setPc_pids]; exact h.alive, fun q hq => ?_⟩
  obtain ⟨q₀, hq₀, rfl⟩ := List.mem_map.1 hq
  split
  · rename_i heq
    have := h.only p hp
    rw [← heq, ← hpc] at this
    exact this
  · exact h.only q₀ hq₀

/-- A child starts in the child branch. -/
theorem OneServer.fork {root : Nat} {procs : List Proc} (h : OneServer root procs) {child : Nat}
    (hfresh : child ∉ pids procs) (parent : Nat) {pc : Pc} (hpc : pc.inServer = false) :
    OneServer root (⟨child, parent, pc⟩ :: procs) := by
  refine ⟨List.nodup_cons.2 ⟨hfresh, h.distinct⟩, List.mem_cons_of_mem _ h.alive, fun q hq => ?_⟩
  rcases List.mem_cons.1 hq with rfl | hq
  · refine ⟨fun ht => ?_, fun heq => ?_⟩
    · rw [hpc] at ht
      cases ht
    · have heq' : child = root := heq
      exact absurd (heq' ▸ h.alive) hfresh
  · exact h.only q hq

/-- An ended process is reaped; the server is not ended. -/
theorem OneServer.reap {root : Nat} {procs : List Proc} (h : OneServer root procs) {child : Nat} (hne : child ≠ root) :
    OneServer root (procs.filter (·.pid ≠ child)) := by
  refine ⟨h.distinct.sublist (List.filter_sublist.map _), ?_, fun q hq => h.only q (List.mem_filter.1 hq).1⟩
  obtain ⟨p, hp, heq⟩ := List.mem_map.1 h.alive
  exact List.mem_map.2 ⟨p, List.mem_filter.2 ⟨hp, by simpa [heq] using hne.symm⟩, heq⟩

/-- Only a failing `execve` leads a process from the child branch to server code. -/
theorem localStep_inServer {pc pc' : Pc} {i : Move} (hok : i ≠ .execve false) (h : localStep pc i = some pc') :
    pc'.inServer = pc.inServer := by
  unfold localStep at h
  split at h
  case h_4 => split at h <;> cases h <;> rfl
  case h_10 => exact absurd rfl hok
  case h_13 => cases h
  all_goals
    cases h
    rfl

theorem step_one {root : Nat} (procs : List Proc) (l : Nat × Move) (procs' : List Proc) (h : OneServer root procs)
    (hok : ExecSucceeds procs l) (hs : step procs l = some procs') : OneServer root procs' := by
  unfold step at hs
  split at hs
  · cases hs
  · rename_i p hfind
    have hp : p ∈ procs := List.mem_of_find?_eq_some hfind
    split at hs <;> rename_i hpc hmove
    · split at hs <;> cases hs
      rename_i hfresh
      refine OneServer.fork (h.setPc hp (by rw [hpc]; rfl)) ?_ _ rfl
      rw [setPc_pids]
      exact hfresh
    · split at hs <;> cases hs
      rename_i hz
      obtain ⟨q, hq, rfl, -, hended⟩ := hz
      refine OneServer.reap (h.setPc hp (by rw [hpc]; rfl)) fun hroot => ?_
      have := (h.only q hq).2 hroot
      rw [hended] at this
      cases this
    · split at hs <;> cases hs
      exact h.setPc hp (by rw [hpc]; rfl)
    · obtain ⟨pc', hl, rfl⟩ := Option.map_eq_some_iff.1 hs
      exact h.setPc hp (localStep_inServer hok hl)

/-- With distinct pids, the processes with a given pid are one. -/
theorem filter_pid {root : Nat} : ∀ {procs : List Proc}, (pids procs).Nodup → root ∈ pids procs →
    pids (procs.filter (·.pid = root)) = [root]
  | [], _, h => nomatch h
  | p :: procs, hnodup, h => by
    obtain ⟨hp, hrest⟩ : p.pid ∉ pids procs ∧ (pids procs).Nodup := List.nodup_cons.1 hnodup
    by_cases heq : p.pid = root
    · have hnone : procs.filter (·.pid = root) = [] := by
        refine List.filter_eq_nil_iff.2 fun q hq hqr => hp ?_
        rw [heq, ← of_decide_eq_true hqr]
        exact List.mem_map.2 ⟨q, hq, rfl⟩
      simp [heq, hnone, pids]
    · have hmem : root ∈ pids procs := by
        rcases List.mem_cons.1 h with h | h
        · exact absurd h.symm heq
        · exact h
      simp only [heq, decide_false, Bool.false_eq_true, not_false_eq_true, List.filter_cons_of_neg]
      exact filter_pid hrest hmem

theorem OneServer.serving {root : Nat} {procs : List Proc} (h : OneServer root procs) : serving procs = [root] := by
  have heq : procs.filter (·.pc.inServer) = procs.filter (·.pid = root) :=
    List.filter_congr fun p hp => by
      rw [Bool.eq_iff_iff, decide_eq_true_eq]
      exact h.only p hp
  rw [Tiny.serving, heq]
  exact filter_pid h.distinct h.alive

/-- **Tiny is a single server** in every run whose `execve` calls all start their program: exactly one
process executes server code, the one that was started; no child gets out of the child branch of
`serve_dynamic`. -/
theorem one_server {root : Nat} {procs : List Proc} (h : Reach step ExecSucceeds (start root) procs) :
    serving procs = [root] :=
  (h.invariant (start_one root) fun procs l procs' hi hok hs => step_one procs l procs' hi hok hs).serving

/-- The condition is exact: after the first failing `execve` there is a second server. -/
theorem exec_failure {root pid : Nat} {procs procs' : List Proc} (h : Reach step ExecSucceeds (start root) procs)
    (hs : step procs (pid, .execve false) = some procs') : serving procs' ≠ [root] := by
  have hone := h.invariant (start_one root) fun procs l procs' hi hok hs => step_one procs l procs' hi hok hs
  simp only [step] at hs
  split at hs
  · cases hs
  · rename_i p hfind
    have hp : p ∈ procs := List.mem_of_find?_eq_some hfind
    have hl : (localStep p.pc (.execve false)).map (setPc procs p.pid) = some procs' := by
      split at hs <;> first | exact hs | rename_i hmove; cases hmove
    cases hpc : p.pc <;> rw [hpc] at hl <;> cases hl
    rename_i fd _ _
    -- the child is in server code now, and it is not the first process
    have hne : p.pid ≠ root := fun heq => by
      have := (hone.only p hp).2 heq
      rw [hpc] at this
      cases this
    have hmem : p.pid ∈ serving (setPc procs p.pid (.wait fd)) :=
      List.mem_map.2 ⟨{ p with pc := .wait fd }, List.mem_filter.2 ⟨List.mem_map.2 ⟨p, hp, if_pos rfl⟩, rfl⟩, rfl⟩
    intro heq
    rw [heq] at hmem
    exact hne (List.mem_singleton.1 hmem)

/-- A `GET /cgi-bin/a?1` up to the `execve` of the child. -/
def dynamicRequest (root child : Nat) : List (Nat × Move) :=
  [(root, .accept (some 4)), (root, .request (some (ascii "GET", ascii "/cgi-bin/a?1")) (some ⟨true, true, true, 10⟩)),
    (root, .tau), (root, .fork (some child)), (child, .tau), (child, .tau)]

theorem one_server_request : ∃ procs, runWhile step ExecSucceeds (start 1)
    (dynamicRequest 1 2 ++ [(2, .execve true), (2, .exit), (1, .wait (some 2)), (1, .tau)]) = some procs ∧
    serving procs = [1] := by
  have hrun : (runWhile step ExecSucceeds (start 1)
      (dynamicRequest 1 2 ++ [(2, .execve true), (2, .exit), (1, .wait (some 2)), (1, .tau)])).isSome = true := by
    decide
  obtain ⟨procs, hs⟩ := Option.isSome_iff_exists.1 hrun
  exact ⟨procs, hs, one_server (runWhile_reach hs)⟩

/-- **A failing `execve` makes a second server**: the child goes through `wait`, returns from
`serve_dynamic` and calls `accept`, while its parent is still in `serve_dynamic`. -/
theorem second_server : ¬ ∀ procs, Reach step always (start 1) procs → serving procs = [1] := by
  intro hall
  have hend : (runFrom step (start 1) (dynamicRequest 1 2 ++ [(2, .execve false), (2, .wait none), (2, .tau)])).map
      serving = some [2, 1] := by decide
  obtain ⟨procs, hs, heq⟩ := Option.map_eq_some_iff.1 hend
  have := hall procs (runFrom_reach hs)
  rw [heq] at this
  cases this

end ComputerSystem.Tiny
