import ComputerSystem.Lib.Sweep
import ComputerSystem.Shell.Machine
/-!
# Zombies in the job-control shell (`Chapter8/8.5-8.6/shell/main.c:81-109`, `:186-214`)

The children that ended are the events and `SIGCHLD` is the bit; an activation of `sigchld_handler`
sweeps until its `waitpid` returns no child (`:91`). Every step of the machine is a move of that
sweep, whatever is blocked and whenever.
-/

namespace ComputerSystem.Shell

/-- The activation will call `waitpid` again. -/
def HandlerPc.sweeping : HandlerPc → Bool
  | .ret => false
  | _ => true

def Kid.isZombie (k : Kid) : Bool := decide (k.pc = .zombie)

def sweep (s : State) : Sweep := ⟨s.kids.any Kid.isZombie, s.pending, s.frames.any (·.pc.sweeping)⟩

theorem any_isZombie {kids : List Kid} : kids.any Kid.isZombie = true ↔ ∃ k ∈ kids, k.pc = .zombie := by
  simp [Kid.isZombie]

theorem any_isZombie_false {kids : List Kid} : kids.any Kid.isZombie = false ↔ ∀ k ∈ kids, k.pc ≠ .zombie := by
  simp [Kid.isZombie]

theorem any_sweeping {frames : List Frame} :
    frames.any (·.pc.sweeping) = true ↔ ∃ f ∈ frames, f.pc ≠ .ret := by
  rw [List.any_eq_true]
  refine exists_congr fun f => and_congr_right fun _ => ?_
  cases f.pc <;> simp [HandlerPc.sweeping]

/-- A step that leaves the children, the bit and the handler alone. -/
theorem sweep_same {s s' : State} (hkids : s'.kids = s.kids) (hpend : s'.pending = s.pending)
    (hframes : s'.frames = s.frames) : (sweep s).Move (sweep s') := by
  have heq : sweep s' = sweep s := by simp only [sweep, hkids, hpend, hframes]
  rw [heq]
  exact .idle

theorem main_sweep {s s' : State} (hs : s.main = some s') : (sweep s).Move (sweep s') := by
  unfold State.main at hs
  split at hs
  case h_6 =>
    split at hs <;> cases hs
    · exact sweep_same rfl rfl rfl
    · exact sweep_same rfl rfl rfl
  case h_11 => cases hs
  all_goals
    cases hs
    exact sweep_same rfl rfl rfl

theorem gets_sweep {s s' : State} {line : Bytes} {feof : Bool} (hs : s.gets line feof = some s') :
    (sweep s).Move (sweep s') := by
  unfold State.gets at hs
  split at hs
  · cases hs
    exact sweep_same rfl rfl rfl
  · obtain ⟨c, -, rfl⟩ := Option.map_eq_some_iff.1 hs
    cases c <;> exact sweep_same rfl rfl rfl

/-- A new child is no zombie. -/
theorem fork_sweep {s s' : State} {r : Option Pid} (hs : s.fork r = some s') : (sweep s).Move (sweep s') := by
  cases r with
  | none =>
    simp only [State.fork] at hs
    split at hs <;> cases hs
    exact sweep_same rfl rfl rfl
  | some pid =>
    simp only [State.fork] at hs
    split at hs
    · split at hs <;> cases hs
      exact .idle
    · cases hs

theorem deliver_sweep {s s' : State} (hs : s.deliver = some s') : (sweep s).Move (sweep s') := by
  obtain ⟨-, hpending, -, rfl⟩ := deliver_eq hs
  exact .start hpending

theorem handler_sweep {s s' : State} (hs : s.handler = some s') : (sweep s).Move (sweep s') := by
  unfold State.handler at hs
  split at hs
  · cases hs
  · rename_i f fs hf
    have hview : sweep s = ⟨s.kids.any Kid.isZombie, s.pending, f.pc.sweeping || fs.any (·.pc.sweeping)⟩ := by
      simp only [sweep, hf, List.any_cons]
    split at hs <;> rename_i hpc <;> cases hs <;> rw [hview, hpc]
    · exact .idle
    · exact .idle
    · exact .idle
    · exact .idle
    · -- the return: the activation had seen that no child is left
      exact .idle

/-- `waitpid` reaps a zombie, or there is none. -/
theorem waitpid_sweep {s s' : State} {r : Option Pid} (hs : s.waitpid r = some s') :
    (sweep s).Move (sweep s') := by
  unfold State.waitpid at hs
  split at hs
  · rename_i saved fs hf
    have hview : sweep s = ⟨s.kids.any Kid.isZombie, s.pending, true⟩ := by
      simp only [sweep, hf, List.any_cons, HandlerPc.sweeping, Bool.true_or]
    rw [hview]
    split at hs
    · rename_i pid
      split at hs <;> cases hs
      exact .takeFrom fun k hk => List.mem_of_mem_filter hk
    · split at hs <;> cases hs
      rename_i hnone
      exact .findNone _ fun k hk hz => hnone ⟨k, hk, of_decide_eq_true hz⟩
  · cases hs

theorem kidStep_isZombie {k : Kid} {i : KidStep} (hi : i ≠ .exit) :
    ((kidStep k i).getD k).isZombie = k.isZombie := by
  cases i with
  | exit => exact absurd rfl hi
  | setmask =>
    by_cases hk : k.pc = .setmask <;> simp [kidStep, Kid.isZombie, hk]
  | execve =>
    by_cases hk : k.pc = .execve <;> simp [kidStep, Kid.isZombie, hk]

/-- Only its end makes a child a zombie, and that sets the bit. -/
theorem kid_sweep {s s' : State} {pid : Pid} {i : KidStep} (hs : s.kid pid i = some s') :
    (sweep s).Move (sweep s') := by
  obtain rfl := kid_eq hs
  by_cases hi : i = .exit
  · subst hi
    simpa only [sweep, decide_true, Bool.or_true] using Sweep.Move.raise (m := sweep s) _
  · have hkids : ∀ kids : List Kid,
        (kids.map fun k => if k.pid = pid then (kidStep k i).getD k else k).any Kid.isZombie =
          kids.any Kid.isZombie := by
      intro kids
      rw [List.any_map]
      refine congrArg kids.any (funext fun k => ?_)
      simp only [Function.comp]
      split
      · exact kidStep_isZombie hi
      · rfl
    simp only [sweep, hkids, hi, decide_false, Bool.or_false]
    exact .idle

theorem step_sweep (s : State) (l : Label) (s' : State) (hs : step s l = some s') :
    (sweep s).Move (sweep s') := by
  cases l with
  | main => exact main_sweep (step_main hs).2
  | gets line feof => exact gets_sweep (step_gets hs).2.2
  | fork r => exact fork_sweep (step_fork hs).2
  | handler => exact handler_sweep hs
  | waitpid r => exact waitpid_sweep hs
  | deliver => exact deliver_sweep hs
  | kid pid i => exact kid_sweep hs
  | spurious =>
    cases hs
    exact .raise _

/-- **The shell strands no zombie**, under any mask it was started with. -/
theorem zombies_seen {m0 : Mask} {s : State} (h : Reach step always (start m0) s) : (sweep s).Seen :=
  h.sweep sweep (by intro hw; cases hw) fun s l s' _ hs => step_sweep s l s' hs

end ComputerSystem.Shell
