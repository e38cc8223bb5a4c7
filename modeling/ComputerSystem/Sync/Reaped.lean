import ComputerSystem.Lib.Progress
import ComputerSystem.Lib.Sweep
import ComputerSystem.Sync.NoRace
import Mathlib.Algebra.Order.BigOperators.Group.List
import Mathlib.Algebra.Order.Group.Nat
/-!
# The loop that waits for `jobs_remaining`

A job that is left is a child that will end, or a zombie that the pending bit or the running handler will
see (`sweep`). So `while (jobs_remaining() > 0)` is left, unless signals keep coming from outside or
nothing but the loop itself is run; the one condition is that `main` was not started with `SIGCHLD` blocked.
-/

namespace ComputerSystem.Sync.Procmask

open Shell (Pid Mask SIGCHLD maskAll maskChld)

/-! ## Every step is a move of the sweep -/

def HandlerPc.sweeping : HandlerPc → Bool
  | .ret => false
  | _ => true

def Kid.isZombie (k : Kid) : Bool := decide (k.pc = .zombie)

def sweep (s : State) : Sweep := ⟨s.kids.any Kid.isZombie, s.pending, s.frames.any (·.pc.sweeping)⟩

theorem main_sweep {s s' : State} (hs : s.main = some s') : (sweep s).Move (sweep s') := by
  unfold State.main at hs
  split at hs
  case h_1 => split at hs <;> cases hs <;> exact .idle
  case h_6 => split at hs <;> cases hs; exact .idle
  case h_7 => cases hs
  all_goals
    cases hs
    exact .idle

theorem handler_sweep {s s' : State} (hs : s.handler = some s') : (sweep s).Move (sweep s') := by
  have hview : ∀ {f : Frame} {fs : List Frame}, s.frames = f :: fs →
      sweep s = ⟨s.kids.any Kid.isZombie, s.pending, f.pc.sweeping || fs.any (·.pc.sweeping)⟩ := by
    intro f fs hf
    simp only [sweep, hf, List.any_cons]
  unfold State.handler at hs
  split at hs
  · rename_i hf
    cases hs
    rw [hview hf]
    exact .idle
  · rename_i hf
    cases hs
    rw [hview hf]
    exact .idle
  · rename_i hf
    cases hs
    rw [hview hf]
    exact .idle
  · rename_i hf
    cases hs
    rw [hview hf]
    exact .idle
  · cases hs

theorem waitpid_sweep {s s' : State} {r : Option Pid} (hs : step s (.waitpid r) = some s') :
    (sweep s).Move (sweep s') := by
  have hview : ∀ {saved : Mask} {fs : List Frame}, s.frames = ⟨.waitpid, saved⟩ :: fs →
      sweep s = ⟨s.kids.any Kid.isZombie, s.pending, true⟩ := by
    intro saved fs hf
    simp only [sweep, hf, List.any_cons, HandlerPc.sweeping, Bool.true_or]
  simp only [step] at hs
  split at hs
  · rename_i hf
    split at hs <;> cases hs
    rw [hview hf]
    exact .takeFrom fun k hk => List.mem_of_mem_filter hk
  · rename_i hf
    split at hs <;> cases hs
    rename_i hnone
    rw [hview hf]
    refine .findNone _ fun k hk => ?_
    rw [hnone] at hk
    cases hk
  · cases hs

theorem kid_sweep {s s' : State} {pid : Pid} {i : KidStep} (hs : step s (.kid pid i) = some s') :
    (sweep s).Move (sweep s') := by
  simp only [step] at hs
  split at hs <;> cases hs
  by_cases hi : i = .exit
  · subst hi
    simpa only [sweep, decide_true, Bool.or_true] using Sweep.Move.raise (m := sweep s) _
  · have hsame : ∀ k : Kid, ((k.step i).getD k).isZombie = k.isZombie := by
      intro k
      cases i with
      | exit => exact absurd rfl hi
      | setmask => by_cases hk : k.pc = .setmask <;> simp [Kid.step, Kid.isZombie, hk]
      | execve => by_cases hk : k.pc = .execve <;> simp [Kid.step, Kid.isZombie, hk]
    have hkids : (s.kids.map fun k => if k.pid = pid then (k.step i).getD k else k).any Kid.isZombie =
        s.kids.any Kid.isZombie := by
      rw [List.any_map]
      refine congrArg s.kids.any (funext fun k => ?_)
      simp only [Function.comp]
      split
      · exact hsame k
      · rfl
    simp only [sweep, hkids, hi, decide_false, Bool.or_false]
    exact .idle

theorem step_sweep (s : State) (l : Label) (s' : State) (hs : step s l = some s') : (sweep s).Move (sweep s') := by
  cases l with
  | main =>
    simp only [step] at hs
    split at hs
    · exact main_sweep hs
    · cases hs
  | fork r =>
    simp only [step] at hs
    split at hs
    · split at hs <;> cases hs
      exact .idle
    · cases hs
      exact .idle
    · cases hs
  | sleep =>
    simp only [step] at hs
    split at hs
    · split at hs <;> cases hs
      exact .idle
    · cases hs
  | deliver =>
    simp only [step] at hs
    split at hs <;> cases hs
    rename_i hg
    exact .start hg.2.1
  | waitpid r => exact waitpid_sweep hs
  | handler => exact handler_sweep hs
  | kid pid i => exact kid_sweep hs
  | raise =>
    simp only [step] at hs
    split at hs <;> cases hs
    exact .raise _

theorem zombies_seen {m0 : Mask} {rounds : Nat} {s : State} (h : Reach step always (start m0 rounds) s) :
    (sweep s).Seen :=
  h.sweep sweep (by intro hw; cases hw) fun s l s' _ hs => step_sweep s l s' hs

/-! ## What is left to do -/

def MainPc.work : MainPc → Nat
  | .loop => 2
  | .block => 19
  | .fork _ => 18
  | .blockAll _ _ => 5
  | .addJob _ _ => 4
  | .restore _ => 3
  | .wait => 1
  | .finished | .died => 0

def HandlerPc.work : HandlerPc → Nat
  | .waitpid => 3
  | .block _ => 6
  | .delete _ _ => 5
  | .restore _ => 4
  | .ret => 2

def KidPc.work : KidPc → Nat
  | .setmask => 12
  | .execve => 11
  | .running => 10
  | .zombie => 4

/-- A measure of what the program, its children and its handler have to do. -/
def State.work (s : State) : Nat :=
  18 * s.left + s.pc.work + (s.frames.map (·.pc.work)).sum + (s.kids.map (·.pc.work)).sum + if s.pending then 5 else 0

/-- A signal from outside, and a turn of the waiting loop. -/
def Label.credit : Label → Nat
  | .raise => 6
  | .sleep => 1
  | _ => 0

theorem work_filter (pid : Pid) : ∀ (kids : List Kid) {k : Kid}, k ∈ kids → k.pid = pid →
    ((kids.filter (·.pid ≠ pid)).map (·.pc.work)).sum + k.pc.work ≤ (kids.map (·.pc.work)).sum
  | [], k, hk, _ => by cases hk
  | a :: kids, k, hk, hpid => by
    have hle : ((kids.filter (·.pid ≠ pid)).map (·.pc.work)).sum ≤ (kids.map (·.pc.work)).sum :=
      (List.filter_sublist.map _).sum_le_sum fun _ _ => Nat.zero_le _
    rcases List.mem_cons.1 hk with rfl | hk
    · rw [List.filter_cons_of_neg (by simpa using hpid), List.map_cons, List.sum_cons]
      omega
    · have ih := work_filter pid kids hk hpid
      rw [List.filter_cons, List.map_cons, List.sum_cons]
      split
      · rw [List.map_cons, List.sum_cons]
        omega
      · omega

/-- What a child's step adds for the signal. -/
def KidStep.cost : KidStep → Nat
  | .exit => 5
  | _ => 0

theorem Kid.step_work {k k' : Kid} {i : KidStep} (h : k.step i = some k') : k'.pc.work + i.cost + 1 ≤ k.pc.work := by
  cases i <;> simp only [Kid.step] at h <;> split at h <;> cases h
  · rename_i hpc
    rw [hpc]
    exact Nat.le_refl 12
  · rename_i hpc
    rw [hpc]
    exact Nat.le_refl 11
  · rename_i hpc
    cases hk : k.pc with
    | zombie => exact absurd hk hpc
    | setmask | execve | running =>
      simp only [KidPc.work, KidStep.cost]
      omega

theorem work_kid (pid : Pid) (i : KidStep) : ∀ kids : List Kid,
    ((kids.map fun k => if k.pid = pid then (k.step i).getD k else k).map (·.pc.work)).sum +
      (if ∃ k ∈ kids, k.pid = pid ∧ (k.step i).isSome then i.cost + 1 else 0) ≤ (kids.map (·.pc.work)).sum
  | [] => by simp
  | a :: kids => by
    have ih := work_kid pid i kids
    simp only [List.map_cons, List.sum_cons]
    by_cases ha : a.pid = pid ∧ (a.step i).isSome
    · obtain ⟨k', hk'⟩ := Option.isSome_iff_exists.1 ha.2
      have hone := Kid.step_work hk'
      have hany : ∃ k ∈ a :: kids, k.pid = pid ∧ (k.step i).isSome := ⟨a, List.mem_cons_self .., ha⟩
      rw [if_pos ha.1, if_pos hany, hk', Option.getD_some]
      omega
    · have hone : (if a.pid = pid then (a.step i).getD a else a) = a := by
        split
        · rename_i hpid
          cases hk : a.step i with
          | none => rfl
          | some k' => exact absurd ⟨hpid, by rw [hk]; rfl⟩ ha
        · rfl
      have hiff : (∃ k ∈ a :: kids, k.pid = pid ∧ (k.step i).isSome) ↔ ∃ k ∈ kids, k.pid = pid ∧ (k.step i).isSome := by
        constructor
        · rintro ⟨k, hk, h⟩
          rcases List.mem_cons.1 hk with rfl | hk
          · exact absurd h ha
          · exact ⟨k, hk, h⟩
        · rintro ⟨k, hk, h⟩
          exact ⟨k, List.mem_cons_of_mem _ hk, h⟩
      rw [hone]
      simp only [hiff]
      omega

theorem step_work : Lowers step State.work Label.credit := by
  intro s l s' hs
  cases l with
  | main =>
    simp only [step] at hs
    split at hs
    · unfold State.main at hs
      split at hs
      case h_1 hpc =>
        split at hs <;> cases hs <;> simp only [State.work, hpc, MainPc.work, Label.credit] <;> omega
      case h_6 hpc =>
        split at hs <;> cases hs
        simp only [State.work, hpc, MainPc.work, Label.credit]
        omega
      case h_7 => cases hs
      all_goals
        rename_i hpc
        cases hs
        simp only [State.work, hpc, MainPc.work, Label.credit]
        omega
    · cases hs
  | fork r =>
    simp only [step] at hs
    split at hs
    · rename_i hpc
      split at hs <;> cases hs
      simp only [State.work, hpc, MainPc.work, Label.credit, List.map_cons, List.sum_cons, KidPc.work]
      omega
    · rename_i hpc
      cases hs
      simp only [State.work, hpc, MainPc.work, Label.credit]
      omega
    · cases hs
  | sleep =>
    simp only [step] at hs
    split at hs
    · split at hs <;> cases hs
      exact Nat.le_refl _
    · cases hs
  | deliver =>
    simp only [step] at hs
    split at hs <;> cases hs
    rename_i hg
    simp only [State.work, Label.credit, List.map_cons, List.sum_cons, HandlerPc.work, hg.2.1, if_true, Bool.false_eq_true,
      if_false]
    omega
  | waitpid r =>
    simp only [step] at hs
    split at hs
    · rename_i hf
      split at hs <;> cases hs
      rename_i hz
      obtain ⟨k, hk, rfl, hpc⟩ := hz
      have hkids := work_filter k.pid s.kids hk rfl
      rw [hpc, show KidPc.zombie.work = 4 from rfl] at hkids
      simp only [State.work, Label.credit, hf, List.map_cons, List.sum_cons, HandlerPc.work]
      omega
    · rename_i hf
      split at hs <;> cases hs
      simp only [State.work, Label.credit, hf, List.map_cons, List.sum_cons, HandlerPc.work]
      omega
    · cases hs
  | handler =>
    simp only [step, State.handler] at hs
    split at hs
    case h_5 => cases hs
    all_goals
      rename_i hf
      cases hs
      simp only [State.work, Label.credit, hf, List.map_cons, List.sum_cons, HandlerPc.work]
      omega
  | kid pid i =>
    simp only [step] at hs
    split at hs <;> cases hs
    rename_i hk
    have hkids := work_kid pid i s.kids
    rw [if_pos hk] at hkids
    simp only [State.work, Label.credit]
    cases i <;> simp only [KidStep.cost, reduceCtorEq, decide_false, decide_true, Bool.or_false, Bool.or_true, if_true] at * <;>
      (try split) <;> omega
  | raise =>
    simp only [step] at hs
    split at hs <;> cases hs
    simp only [State.work, Label.credit, if_true]
    split <;> omega

/-! ## Something can go on -/

/-- A step of the program, of a child, or of the kernel with a signal that is pending. -/
def Own (l : Label) : Prop := l.credit = 0 ∧ l ≠ .fork none

theorem kid_next {s : State} {k : Kid} (hk : k ∈ s.kids) (hpc : k.pc ≠ .zombie) :
    ∃ l, Own l ∧ (step s l).isSome = true := by
  refine ⟨.kid k.pid .exit, ⟨rfl, nofun⟩, ?_⟩
  have hstep : ∃ x ∈ s.kids, x.pid = k.pid ∧ (x.step .exit).isSome :=
    ⟨k, hk, rfl, by simp only [Kid.step, if_neg hpc, Option.isSome_some]⟩
  simp only [step, if_pos hstep, Option.isSome_some]

theorem inv_next {m0 : Mask} (hm0 : m0 SIGCHLD = false) {rounds : Nat} {s : State} (h : Inv m0 rounds s)
    (hseen : (sweep s).Seen) : s.pc.gone = true ∨ ∃ l, Own l ∧ (step s l).isSome = true := by
  have hzombie : (∀ k ∈ s.kids, k.pc = .zombie) → ∀ k ∈ s.kids, (sweep s).waiting = true := by
    intro hall k hk
    exact List.any_eq_true.2 ⟨k, hk, decide_eq_true (hall k hk)⟩
  by_cases hruns : ∃ k ∈ s.kids, k.pc ≠ .zombie
  · obtain ⟨k, hk, hpc⟩ := hruns
    exact .inr (kid_next hk hpc)
  have hall : ∀ k ∈ s.kids, k.pc = .zombie := fun k hk => by
    by_contra hpc
    exact hruns ⟨k, hk, hpc⟩
  cases hf : s.frames with
  | cons f fs =>
    right
    obtain ⟨pc, saved⟩ := f
    cases pc with
    | waitpid =>
      cases hkids : s.kids with
      | nil => exact ⟨.waitpid none, ⟨rfl, by rintro ⟨⟩⟩, by simp only [step, hf, hkids, if_true, Option.isSome_some]⟩
      | cons k ks =>
        have hz : ∃ x ∈ s.kids, x.pid = k.pid ∧ x.pc = .zombie := by
          have hk : k ∈ s.kids := by
            rw [hkids]
            exact List.mem_cons_self ..
          exact ⟨k, hk, rfl, hall k hk⟩
        exact ⟨.waitpid (some k.pid), ⟨rfl, by rintro ⟨⟩⟩, by simp only [step, hf, if_pos hz, Option.isSome_some]⟩
    | block _ | delete _ _ | restore _ | ret =>
      exact ⟨.handler, ⟨rfl, by rintro ⟨⟩⟩, by simp only [step, State.handler, hf, Option.isSome_some]⟩
  | nil =>
    have hat := h.at_main hf
    unfold AtMain at hat
    cases hpc : s.pc with
    | loop | block | blockAll _ _ | addJob _ _ | restore _ =>
      exact .inr ⟨.main, ⟨rfl, by rintro ⟨⟩⟩, by simp only [step, hf, State.main, hpc, Option.isSome_some]⟩
    | fork prev =>
      obtain ⟨pid, hpid⟩ : ∃ pid, ¬ (pid = 0 ∨ pid ∈ s.kids.map (·.pid)) := by
        refine ⟨(s.kids.map (·.pid)).sum + 1, ?_⟩
        rintro (h | h)
        · exact absurd h (Nat.succ_ne_zero _)
        · exact absurd (List.single_le_sum (fun _ _ => Nat.zero_le _) _ h) (Nat.not_succ_le_self _)
      exact .inr ⟨.fork (some pid), ⟨rfl, by rintro ⟨⟩⟩, by simp only [step, hf, hpc, if_neg hpid, Option.isSome_some]⟩
    | wait =>
      simp only [hpc] at hat
      right
      by_cases hnone : jobsRemaining s.jobs = 0
      · exact ⟨.main, ⟨rfl, by rintro ⟨⟩⟩, by simp only [step, hf, State.main, hpc, if_pos hnone, Option.isSome_some]⟩
      · -- a job is left, so a zombie is
        have hlen := hat.2.length_eq
        rw [JobList.members_length, State.pids, List.length_map] at hlen
        obtain ⟨k, ks, hkids⟩ := List.exists_cons_of_length_pos (l := s.kids) (by
          simp only [jobsRemaining] at hnone
          omega)
        have hwaiting := hzombie hall k (by rw [hkids]; exact List.mem_cons_self ..)
        have hpending : s.pending = true := by
          rcases hseen hwaiting with hp | hsw
          · exact hp
          · simp only [sweep, hf, List.any_nil] at hsw
            cases hsw
        have hguard : s.pc.gone = false ∧ s.pending = true ∧ s.mask SIGCHLD = false :=
          ⟨by rw [hpc]; rfl, hpending, by rw [hat.1, hm0]⟩
        exact ⟨.deliver, ⟨rfl, by rintro ⟨⟩⟩, by simp only [step, if_pos hguard, Option.isSome_some]⟩
    | finished | died => exact .inl rfl

/-! ## Results -/

theorem credit_sum (ls : List Label) :
    (ls.map Label.credit).sum = 6 * ls.count .raise + ls.count .sleep := by
  induction ls with
  | nil => rfl
  | cons l ls ih =>
    rw [List.map_cons, List.sum_cons, ih, List.count_cons, List.count_cons]
    cases l <;> simp [Label.credit] <;> omega

/-- `SIGCHLD` blocked all the time: no child is reaped. -/
structure Deaf (s : State) : Prop where
  frames : s.frames = []
  mask   : s.mask SIGCHLD = true
  kids   : s.kids.length = s.forked.length
  prev   : match s.pc with
    | .fork prev | .blockAll _ prev | .addJob _ prev | .restore prev => prev SIGCHLD = true
    | _ => True

theorem Deaf.step {s s' : State} {l : Label} (h : Deaf s) (hs : step s l = some s') : Deaf s' := by
  obtain ⟨hf, hmask, hkids, hprev⟩ := h
  cases l with
  | main =>
    simp only [Procmask.step, hf] at hs
    unfold State.main at hs
    split at hs
    case h_1 => split at hs <;> cases hs <;> exact ⟨hf, hmask, hkids, trivial⟩
    case h_2 =>
      cases hs
      refine ⟨hf, ?_, hkids, hmask⟩
      show (s.mask SIGCHLD || maskChld SIGCHLD) = true
      rw [hmask, Bool.true_or]
    case h_3 hpc =>
      cases hs
      simp only [hpc] at hprev
      refine ⟨hf, ?_, hkids, hprev⟩
      show (s.mask SIGCHLD || maskAll SIGCHLD) = true
      rw [hmask, Bool.true_or]
    case h_4 hpc =>
      cases hs
      simp only [hpc] at hprev
      exact ⟨hf, hmask, hkids, hprev⟩
    case h_5 hpc =>
      cases hs
      simp only [hpc] at hprev
      exact ⟨hf, hprev, hkids, trivial⟩
    case h_6 =>
      split at hs <;> cases hs
      exact ⟨hf, hmask, hkids, trivial⟩
    case h_7 => cases hs
  | fork r =>
    simp only [Procmask.step] at hs
    split at hs
    · rename_i prev pid _ hpc
      simp only [hpc] at hprev
      split at hs <;> cases hs
      refine ⟨hf, hmask, ?_, hprev⟩
      show s.kids.length + 1 = (s.forked ++ [pid]).length
      rw [hkids, List.length_append, List.length_singleton]
    · cases hs
      exact ⟨hf, hmask, hkids, trivial⟩
    · cases hs
  | sleep =>
    simp only [Procmask.step] at hs
    split at hs
    · split at hs <;> cases hs
      exact ⟨hf, hmask, hkids, hprev⟩
    · cases hs
  | deliver =>
    simp only [Procmask.step] at hs
    split at hs <;> cases hs
    rename_i hg
    exact absurd (hmask.symm.trans hg.2.2) (by decide)
  | waitpid r => simp only [Procmask.step, hf, reduceCtorEq] at hs
  | handler => simp only [Procmask.step, State.handler, hf, reduceCtorEq] at hs
  | kid pid i =>
    simp only [Procmask.step] at hs
    split at hs <;> cases hs
    refine ⟨hf, hmask, ?_, hprev⟩
    show (s.kids.map _).length = _
    rw [List.length_map, hkids]
  | raise =>
    simp only [Procmask.step] at hs
    split at hs <;> cases hs
    exact ⟨hf, hmask, hkids, hprev⟩

/-- Only a `fork` that fails ends the program early. -/
theorem not_died {s s' : State} {l : Label} (h : s.pc ≠ .died) (hl : l ≠ .fork none) (hs : step s l = some s') :
    s'.pc ≠ .died := by
  cases l with
  | main =>
    simp only [step] at hs
    split at hs
    · unfold State.main at hs
      split at hs
      case h_1 => split at hs <;> cases hs <;> rintro ⟨⟩
      case h_6 => split at hs <;> cases hs; rintro ⟨⟩
      case h_7 => cases hs
      all_goals cases hs; rintro ⟨⟩
    · cases hs
  | fork r =>
    simp only [step] at hs
    split at hs
    · split at hs <;> cases hs
      rintro ⟨⟩
    · exact absurd rfl hl
    · cases hs
  | sleep =>
    simp only [step] at hs
    split at hs
    · split at hs <;> cases hs
      exact h
    · cases hs
  | deliver | kid | raise =>
    simp only [step] at hs
    split at hs <;> cases hs
    exact h
  | waitpid r =>
    simp only [step] at hs
    split at hs
    · split at hs <;> cases hs
      exact h
    · split at hs <;> cases hs
      exact h
    · cases hs
  | handler =>
    simp only [step, State.handler] at hs
    split at hs <;> cases hs <;> exact h

/-- **The one condition**: `main` can leave its last loop if and only if it was not started with `SIGCHLD`
blocked. -/
theorem exits_iff (m0 : Mask) {rounds : Nat} (hpos : 0 < rounds) (hrounds : rounds ≤ MAXJOBS) :
    (∃ s, Reach step always (start m0 rounds) s ∧ s.pc = .finished) ↔ m0 SIGCHLD = false := by
  constructor
  · rintro ⟨s, hr, hpc⟩
    cases hm0 : m0 SIGCHLD with
    | false => rfl
    | true =>
      have hdeaf : Deaf s := hr.invariant ⟨rfl, hm0, rfl, trivial⟩ fun _ _ _ h _ hs => h.step hs
      have hinv := inv_reach hrounds hr
      have hat := hinv.at_main hdeaf.frames
      simp only [AtMain, hpc] at hat
      have hcount := hinv.rounds.resolve_left (by rw [hpc]; rintro ⟨⟩)
      have hleft := hinv.last (.inr hpc)
      have hkids := hdeaf.kids
      rw [hat.1, List.length_nil] at hkids
      rw [hpc, ← hkids, hleft] at hcount
      simp only [MainPc.begun] at hcount
      omega
  · intro hm0
    have hkeep : ∀ s l s', ((Inv m0 rounds s ∧ (sweep s).Seen) ∧ s.pc ≠ .died) → Own l → step s l = some s' →
        (Inv m0 rounds s' ∧ (sweep s').Seen) ∧ s'.pc ≠ .died :=
      fun s l s' h hown hs => ⟨⟨step_keeps hrounds h.1.1 hs, h.1.2.move (step_sweep s l s' hs)⟩, not_died h.2 hown.2 hs⟩
    have hnext : ∀ s, ((Inv m0 rounds s ∧ (sweep s).Seen) ∧ s.pc ≠ .died) → s.pc = .finished ∨
        ∃ l, Own l ∧ l.credit = 0 ∧ (step s l).isSome = true := by
      intro s h
      rcases inv_next hm0 h.1.1 h.1.2 with hgone | ⟨l, hown, hsome⟩
      · left
        cases hpc : s.pc <;> simp only [hpc, MainPc.gone, reduceCtorEq] at hgone
        · rfl
        · exact absurd hpc h.2
      · exact .inr ⟨l, hown, hown.1, hsome⟩
    have h0 : (Inv m0 rounds (start m0 rounds) ∧ (sweep (start m0 rounds)).Seen) ∧ (start m0 rounds).pc ≠ .died :=
      ⟨⟨start_inv m0 rounds, by intro hw; cases hw⟩, by rintro ⟨⟩⟩
    obtain ⟨s, hr, hdone⟩ := Reach.reaches step_work hkeep hnext h0
    exact ⟨s, hr.invariant (I := Reach step always (start m0 rounds)) .refl fun _ _ _ h _ hs => h.tail trivial hs, hdone⟩

/-- The five rounds of `:45`. -/
theorem exits_five : ∃ s, Reach step always (start (fun _ => false) 5) s ∧ s.pc = .finished :=
  (exits_iff (fun _ => false) (by decide) (by decide)).2 rfl

end ComputerSystem.Sync.Procmask
