import ComputerSystem.Lib.Custody
import ComputerSystem.Shell.Reachable
/-!
# What the shell says about its background jobs (`Chapter8/8.5-8.6/shell/main.c:98-103`, `:211`)

`eval` prints `[bg] (pid) cmdline` when it has started a background job, and `sigchld_handler`
`[bg] (pid) 已结束` when it has found one ended. The handler may run at any time after the `fork`, and pids
are used again; `job_lines` says that the lines are in order all the same, because `SIGCHLD` stays blocked
from before the `fork` until the first line is printed. The log has the lines in the order of the calls
that print them.
-/

namespace ComputerSystem.Shell

open Custody

def MainPc.lines : MainPc → List (Event Pid)
  | .setChld c pid _ => if c.bg then [.acquired pid] else []
  | _ => []

def HandlerPc.lines : HandlerPc → List (Event Pid)
  | .notify pid (some true) => [.closed pid]
  | _ => []

/-- The lines of one step: the `printf` of `:211` goes with the step before it. -/
def State.lines (s : State) : Label → List (Event Pid)
  | .main => s.pc.lines
  | .handler => s.frames.head?.elim [] (·.pc.lines)
  | _ => []

structure Terminal where
  state : State
  log   : List (Event Pid)

def Terminal.start (m0 : Mask) : Terminal := ⟨Shell.start m0, []⟩

def Terminal.step (t : Terminal) (l : Label) : Option Terminal :=
  (Shell.step t.state l).map fun s => ⟨s, t.log ++ t.state.lines l⟩

/-! ## Which jobs have been announced -/

/-- The background job that is in the table and not announced. -/
def MainPc.announcing : MainPc → Option Pid
  | .setChld c pid _ => if c.bg then some pid else none
  | _ => none

/-- The background job that was deleted from the table, and whose end is not printed. -/
def HandlerPc.ending : HandlerPc → Option Pid
  | .setmask pid (some true) _ | .notify pid (some true) => some pid
  | _ => none

def State.ending (s : State) : Option Pid := s.frames.head?.bind (·.pc.ending)

/-- Between its two lines. -/
def State.Announced (s : State) (pid : Pid) : Prop :=
  (pid, true) ∈ entries s.jobs ∧ s.pc.announcing ≠ some pid ∨ s.ending = some pid

structure Lines (s : State) (log : List (Event Pid)) : Prop where
  disciplined : Disciplined log
  held        : ∀ pid, held pid log = true ↔ s.Announced pid
  entered     : ∀ pid, s.pc.announcing = some pid → (pid, true) ∈ entries s.jobs
  gone        : ∀ pid, s.ending = some pid → pid ∉ pids (entries s.jobs)

section
variable {s s' : State} {log : List (Event Pid)}

theorem ending_nil (h : s.frames = []) : s.ending = none := by simp [State.ending, h]

theorem Lines.same (h : Lines s log) (hjobs : s'.jobs = s.jobs) (hpc : s'.pc.announcing = s.pc.announcing)
    (hending : s'.ending = s.ending) : Lines s' log where
  disciplined := h.disciplined
  held pid := by
    rw [h.held, State.Announced, State.Announced, hjobs, hpc, hending]
  entered := by
    rw [hpc, hjobs]
    exact h.entered
  gone := by
    rw [hending, hjobs]
    exact h.gone

theorem Lines.quiet (h : Lines s log) : Lines s (log ++ []) := by
  rwa [List.append_nil]

theorem start_full (m0 : Mask) : FullInv (start m0) := ⟨nofun, nofun⟩

theorem start_lines (m0 : Mask) : Lines (start m0) [] where
  disciplined := .nil
  held pid := by
    constructor
    · intro hheld
      cases hheld
    · rintro (⟨hin, -⟩ | hending)
      · rw [show (start m0).jobs = initJobs from rfl, initJobs_entries] at hin
        cases hin
      · cases hending
  entered := nofun
  gone := nofun

/-- The job just entered is not announced yet. -/
theorem add_lines (hf : s.frames = []) (ht : TableInv s) (h : Lines s log) {c : Cmd} {pid : Pid} {prev : Mask}
    (hpc : s.pc = .addJob c pid prev) (hroom : Room s.jobs) :
    Lines { s with pc := .setChld c pid prev, jobs := addJob pid c.bg c.cmdline s.jobs } log := by
  obtain ⟨hkid, hnot⟩ := ht.newborn (pid, c.bg) (by rw [hpc]; rfl)
  have hpid : pid ≠ 0 := fun h0 => ht.kidsPos (h0 ▸ mem_pids hkid)
  have hperm := addJob_spec hpid c.bg c.cmdline hroom
  have hending : s.ending = none := ending_nil hf
  refine ⟨h.disciplined, fun p => ?_, fun p hp => ?_, fun p hp => ?_⟩
  · have hbefore : s.Announced p ↔ (p, true) ∈ entries s.jobs := by
      rw [State.Announced, hending, hpc]
      simp [MainPc.announcing]
    rw [h.held, hbefore]
    constructor
    · intro hin
      refine .inl ⟨hperm.mem_iff.2 (List.mem_cons_of_mem _ hin), fun hsame => ?_⟩
      simp only [MainPc.announcing] at hsame
      split at hsame
      · cases hsame
        exact hnot (mem_pids hin)
      · cases hsame
    · rintro (⟨hin, hother⟩ | hp)
      · rcases List.mem_cons.1 (hperm.mem_iff.1 hin) with heq | hin
        · obtain ⟨rfl, hbg⟩ := Prod.mk.inj heq
          refine absurd ?_ hother
          simp only [MainPc.announcing, ← hbg, if_true]
        · exact hin
      · rw [show ({ s with pc := .setChld c pid prev, jobs := addJob pid c.bg c.cmdline s.jobs } : State).ending = s.ending from rfl,
          hending] at hp
        cases hp
  · simp only [MainPc.announcing] at hp
    split at hp
    · rename_i hbg
      cases hp
      exact hperm.mem_iff.2 (by rw [hbg]; exact List.mem_cons_self ..)
    · cases hp
  · rw [show ({ s with pc := .setChld c pid prev, jobs := addJob pid c.bg c.cmdline s.jobs } : State).ending = s.ending from rfl,
      hending] at hp
    cases hp

/-- The line is printed. -/
theorem announce_lines (hf : s.frames = []) (h : Lines s log) {c : Cmd} {pid : Pid} {prev : Mask}
    (hpc : s.pc = .setChld c pid prev) :
    Lines { s with pc := if c.bg then .restore prev else .fgClear pid prev, mask := maskChld } (log ++ s.lines .main) := by
  cases hbg : c.bg with
  | false =>
    have hlines : s.lines .main = [] := by simp [State.lines, MainPc.lines, hpc, hbg]
    rw [hlines, List.append_nil]
    exact h.same rfl (by rw [hpc]; simp [MainPc.announcing, hbg]) rfl
  | true =>
    have hlines : s.lines .main = [.acquired pid] := by simp [State.lines, MainPc.lines, hpc, hbg]
    have hannouncing : s.pc.announcing = some pid := by simp [MainPc.announcing, hpc, hbg]
    have hending : s.ending = none := ending_nil hf
    have hfree : held pid log = false := by
      rw [Bool.eq_false_iff, ne_eq, h.held]
      rintro (⟨-, hother⟩ | hp)
      · exact hother hannouncing
      · rw [hending] at hp
        cases hp
    rw [hlines]
    refine ⟨.snoc h.disciplined hfree, fun p => ?_, nofun, fun p hp => h.gone p hp⟩
    rw [held_snoc]
    by_cases hp : pid = p
    · subst hp
      rw [if_pos (show Event.key (.acquired pid) = pid from rfl)]
      exact ⟨fun _ => .inl ⟨h.entered pid hannouncing, nofun⟩, fun _ => rfl⟩
    · rw [if_neg (show ¬ Event.key (.acquired pid) = p from hp), h.held, State.Announced, State.Announced, hannouncing]
      have hne : some pid ≠ some p := fun heq => hp (Option.some.inj heq)
      simp only [ne_eq, hne, not_false_eq_true, and_true, if_true, MainPc.announcing, reduceCtorEq]
      rfl

theorem main_lines (hf : s.frames = []) (ht : TableInv s) (h : Lines s log) (hle : s.children.length ≤ MAXJOBS)
    (hs : s.main = some s') : Lines s' (log ++ s.lines .main) := by
  have hquiet : (∀ c pid prev, s.pc ≠ .setChld c pid prev) → log ++ s.lines .main = log := by
    intro hpc
    have hnone : s.pc.lines = [] := by
      cases hs : s.pc with
      | setChld c pid prev => exact absurd hs (hpc c pid prev)
      | _ => rfl
    rw [State.lines, hnone, List.append_nil]
  unfold State.main at hs
  split at hs <;> rename_i hpc
  case h_3 =>
    cases hs
    rw [hquiet (by rw [hpc]; nofun)]
    exact add_lines hf ht h hpc (newborn_room hf ht (by rw [hpc]; rfl) hle)
  case h_4 =>
    cases hs
    exact announce_lines hf h hpc
  case h_6 =>
    rw [hquiet (by rw [hpc]; nofun)]
    split at hs <;> cases hs <;> exact h.same rfl (by rw [hpc]; rfl) rfl
  case h_11 => cases hs
  all_goals
    cases hs
    rw [hquiet (by rw [hpc]; nofun)]
    exact h.same rfl (by rw [hpc]; rfl) rfl

theorem gets_lines (hpc : s.pc = .prompt) (h : Lines s log) {line : Bytes} {feof : Bool}
    (hs : s.gets line feof = some s') : Lines s' log := by
  unfold State.gets at hs
  split at hs
  · cases hs
    exact h.same rfl (by rw [hpc]; rfl) rfl
  · obtain ⟨c, -, rfl⟩ := Option.map_eq_some_iff.1 hs
    cases c with
    | blank => exact h
    | ignored => exact h
    | _ => exact h.same rfl (by rw [hpc]; rfl) rfl

theorem fork_lines (h : Lines s log) {r : Option Pid} (hs : s.fork r = some s') : Lines s' log := by
  cases r with
  | none =>
    simp only [State.fork] at hs
    split at hs <;> cases hs
    rename_i hpc
    exact h.same rfl (by rw [hpc]; rfl) rfl
  | some pid =>
    simp only [State.fork] at hs
    split at hs
    · rename_i hpc
      split at hs <;> cases hs
      exact h.same rfl (by rw [hpc]; rfl) rfl
    · cases hs

/-- `SIGCHLD` is blocked where a job is entered and not announced. -/
theorem FrameOk.announcing {m0 : Mask} {pc : MainPc} {mask : Mask} {f : Frame} (h : FrameOk m0 pc mask f) :
    pc.announcing = none := by
  obtain ⟨m, hm, hopen, -⟩ := h.under
  cases pc with
  | setChld c pid prev =>
    rw [hm.2] at hopen
    cases hopen
  | _ => rfl

theorem resume_announcing (pc : MainPc) : pc.resume.announcing = pc.announcing := by
  cases pc <;> rfl

/-- The handler takes a job out of the table and remembers whether to print its end. -/
theorem delete_lines (ht : TableInv s) (hfull : FullInv s) (h : Lines s log) (hannouncing : s.pc.announcing = none)
    {f : Frame} {fs : List Frame} (hf : s.frames = f :: fs) {pid : Pid} {prev : Mask} (hpc : f.pc = .delete pid prev) :
    Lines { s with
      jobs := (deleteJob pid s.jobs).2
      frames := ⟨.setmask pid (deleteJob pid s.jobs).1 prev, f.saved⟩ :: fs } log := by
  have hhold : s.holding = some pid := by simp [State.holding, hf, hpc, HandlerPc.holding]
  have hending : s.ending = none := by simp [State.ending, hf, hpc, HandlerPc.ending]
  obtain ⟨⟨p, bg⟩, hmem, rfl⟩ := List.mem_map.1 (hfull.held pid hhold)
  obtain ⟨hbg, hperm⟩ := deleteJob_spec ht.jobsNodup hmem
  have hnot : p ∉ pids (entries (deleteJob p s.jobs).2) :=
    (List.nodup_cons.1 ((hperm.map Prod.fst).nodup_iff.1 ht.jobsNodup)).1
  have hbefore : ∀ q, held q log = true ↔ (q, true) = (p, bg) ∨ (q, true) ∈ entries (deleteJob p s.jobs).2 := by
    intro q
    rw [h.held, State.Announced, hannouncing, hending, hperm.mem_iff, List.mem_cons]
    simp
  simp only [hbg]
  refine ⟨h.disciplined, fun q => ?_, fun q hq => ?_, fun q hq => ?_⟩
  · rw [hbefore, State.Announced]
    cases bg with
    | false => simp [hannouncing, State.ending, HandlerPc.ending]
    | true =>
      simp only [hannouncing, State.ending, HandlerPc.ending, List.head?_cons, Option.bind_some, Prod.mk.injEq,
        and_true, Option.some.injEq, ne_eq, reduceCtorEq, not_false_eq_true]
      rw [or_comm, eq_comm]
  · rw [show s.pc.announcing = some q from hq] at hannouncing
    cases hannouncing
  · cases bg with
    | false => simp [State.ending, HandlerPc.ending] at hq
    | true =>
      obtain rfl : p = q := by simpa [State.ending, HandlerPc.ending] using hq
      exact hnot

/-- The end is printed. -/
theorem notify_lines (h : Lines s log) {saved : Mask} {fs : List Frame} {pid : Pid} {bg : Option Bool}
    (hf : s.frames = ⟨.notify pid bg, saved⟩ :: fs) {done : Bool} :
    Lines { s with fgDone := done, frames := ⟨.waitpid, saved⟩ :: fs } (log ++ s.lines .handler) := by
  by_cases hbg : bg = some true
  · subst hbg
    have hlines : s.lines .handler = [.closed pid] := by simp [State.lines, HandlerPc.lines, hf]
    have hending : s.ending = some pid := by simp [State.ending, hf, HandlerPc.ending]
    rw [hlines]
    refine ⟨.snoc h.disciplined ((h.held pid).2 (.inr hending)), fun p => ?_, h.entered, nofun⟩
    rw [held_snoc]
    by_cases hp : pid = p
    · subst hp
      rw [if_pos (show Event.key (.closed pid) = pid from rfl)]
      constructor
      · intro hheld
        cases hheld
      · rintro (⟨hin, -⟩ | hp)
        · exact absurd (mem_pids hin) (h.gone pid hending)
        · cases hp
    · rw [if_neg (show ¬ Event.key (.closed pid) = p from hp), h.held, State.Announced, State.Announced, hending]
      have hne : some pid ≠ some p := fun heq => hp (Option.some.inj heq)
      simp only [hne, or_false]
      exact (or_iff_left (nofun : ¬ (none : Option Pid) = some p)).symm
  · have hlines : s.lines .handler = [] := by
      rcases bg with _ | _ | _
      · simp [State.lines, HandlerPc.lines, hf]
      · simp [State.lines, HandlerPc.lines, hf]
      · exact absurd rfl hbg
    rw [hlines, List.append_nil]
    refine h.same rfl rfl ?_
    rcases bg with _ | _ | _
    · simp [State.ending, hf, HandlerPc.ending]
    · simp [State.ending, hf, HandlerPc.ending]
    · exact absurd rfl hbg

theorem handler_lines {m0 : Mask} (hsig : SigInv m0 s) (ht : TableInv s) (hfull : FullInv s) (h : Lines s log)
    (hs : s.handler = some s') : Lines s' (log ++ s.lines .handler) := by
  unfold State.handler at hs
  split at hs
  · cases hs
  · rename_i f fs hf
    obtain ⟨rfl, hframe⟩ := hsig.single hf
    obtain ⟨pc, saved⟩ := f
    have hquiet : pc.lines = [] → log ++ s.lines .handler = log := by
      intro hnone
      simp [State.lines, hf, hnone]
    have hending : s.ending = pc.ending := by simp [State.ending, hf]
    split at hs <;> cases hs <;> rename_i hpc
    · obtain rfl : pc = _ := hpc
      rw [hquiet rfl]
      exact h.same rfl rfl hending.symm
    · obtain rfl : pc = _ := hpc
      rw [hquiet rfl]
      exact delete_lines ht hfull h hframe.announcing hf rfl
    · rename_i pid bg prev
      obtain rfl : pc = _ := hpc
      rw [hquiet rfl]
      refine h.same rfl rfl ?_
      rw [hending]
      rcases bg with _ | _ | _ <;> rfl
    · obtain rfl : pc = _ := hpc
      exact notify_lines h hf
    · obtain rfl : pc = _ := hpc
      rw [hquiet rfl]
      exact h.same rfl (resume_announcing _) hending.symm

theorem waitpid_lines (h : Lines s log) {r : Option Pid} (hs : s.waitpid r = some s') : Lines s' log := by
  unfold State.waitpid at hs
  split at hs
  · rename_i saved fs hf
    have hending : s.ending = none := by simp [State.ending, hf, HandlerPc.ending]
    split at hs
    · split at hs <;> cases hs
      exact h.same rfl rfl hending.symm
    · split at hs <;> cases hs
      exact h.same rfl rfl hending.symm
  · cases hs

theorem step_lines {m0 : Mask} {l : Label} (hsig : SigInv m0 s) (ht : TableInv s) (hfull : FullInv s) (h : Lines s log)
    (hle : AtMostMaxJobs s l) (hs : step s l = some s') : Lines s' (log ++ s.lines l) := by
  cases l with
  | main =>
    obtain ⟨hf, hs⟩ := step_main hs
    exact main_lines hf ht h hle hs
  | handler => exact handler_lines hsig ht hfull h hs
  | gets line feof =>
    obtain ⟨-, hpc, hs⟩ := step_gets hs
    exact (gets_lines hpc h hs).quiet
  | fork r => exact (fork_lines h (step_fork hs).2).quiet
  | waitpid r => exact (waitpid_lines h hs).quiet
  | deliver =>
    obtain ⟨-, -, hopen, rfl⟩ := deliver_eq hs
    exact Lines.quiet (h.same rfl rfl (ending_nil (hsig.open hopen)).symm)
  | kid pid i =>
    obtain rfl := kid_eq hs
    exact Lines.quiet (h.same rfl rfl rfl)
  | spurious =>
    cases hs
    exact Lines.quiet (h.same rfl rfl rfl)

end

theorem Terminal.step_state {t t' : Terminal} {l : Label} (hs : t.step l = some t') :
    Shell.step t.state l = some t'.state ∧ t'.log = t.log ++ t.state.lines l := by
  obtain ⟨s, hstep, rfl⟩ := Option.map_eq_some_iff.1 hs
  exact ⟨hstep, rfl⟩

/-- At most `MAXJOBS` children are unreaped. -/
def Terminal.AtMostMaxJobs (t : Terminal) (l : Label) : Prop := Shell.AtMostMaxJobs t.state l

instance (t : Terminal) (l : Label) : Decidable (t.AtMostMaxJobs l) :=
  inferInstanceAs (Decidable (Shell.AtMostMaxJobs t.state l))

end ComputerSystem.Shell
