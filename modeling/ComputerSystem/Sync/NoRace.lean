import ComputerSystem.Sync.Procmask
/-!
# `deletejob` finds its job

Where `SIGCHLD` is not blocked and the handler does not run, the list has the pids of exactly the
children that are not reaped (`AtMain`); where the handler runs, the one it has reaped is there too until
it is taken out (`AtHandler`). So the list is entered and left once for each child, and
`jobs_remaining` is 0 only when all have been reaped.
-/

namespace ComputerSystem.Sync.Procmask

open Shell (Pid Mask SIGCHLD maskAll maskChld)

def State.pids (s : State) : List Pid := s.kids.map (·.pid)

/-! ## What is kept -/

/-- `main` runs. -/
def AtMain (m0 : Mask) (s : State) : Prop :=
  match s.pc with
  | .loop | .block | .wait => s.mask = m0 ∧ s.jobs.members.Perm s.pids
  | .fork prev | .restore prev => prev = m0 ∧ s.mask SIGCHLD = true ∧ s.jobs.members.Perm s.pids
  | .blockAll pid prev | .addJob pid prev =>
    prev = m0 ∧ s.mask SIGCHLD = true ∧ s.pids.Perm (pid :: s.jobs.members) ∧ pid ∉ s.jobs.members
  | .finished => s.kids = [] ∧ s.jobs.members = []
  | .died => True

/-- The handler runs, and will go back to `main` with the mask of the start. -/
def AtHandler (m0 : Mask) (s : State) (f : Frame) : Prop :=
  s.mask SIGCHLD = true ∧ f.saved = m0 ∧ (s.pc = .loop ∨ s.pc = .block ∨ s.pc = .wait) ∧
  match f.pc with
  | .waitpid | .ret => s.jobs.members.Perm s.pids
  | .restore prev => prev SIGCHLD = true ∧ s.jobs.members.Perm s.pids
  | .block pid => s.jobs.members.Perm (pid :: s.pids)
  | .delete pid prev => prev SIGCHLD = true ∧ s.jobs.members.Perm (pid :: s.pids)

def Control (m0 : Mask) (s : State) : Prop :=
  match s.frames with
  | [] => AtMain m0 s
  | [f] => AtHandler m0 s f
  | _ :: _ :: _ => False

/-- A child has the mask of the start when it executes its program. -/
def Kid.Proper (m0 : Mask) (k : Kid) : Prop := k.prev = m0 ∧ (k.pc = .execve ∨ k.pc = .running → k.mask = m0)

/-- Rounds that have begun without a child yet. -/
def MainPc.begun : MainPc → Nat
  | .block | .fork _ => 1
  | _ => 0

/-- The child that is not entered yet. -/
def MainPc.owed : MainPc → List Pid
  | .blockAll pid _ | .addJob pid _ => [pid]
  | _ => []

/-- The pids that were entered. -/
def entered (log : List (Custody.Event Pid)) : List Pid :=
  log.filterMap fun e => if e.isAcquired then some e.key else none

structure Inv (m0 : Mask) (rounds : Nat) (s : State) : Prop where
  control : Control m0 s
  nodup   : s.pids.Nodup
  kids    : ∀ k ∈ s.kids, k.Proper m0
  rounds  : s.pc = .died ∨ s.left + s.pc.begun + s.forked.length = rounds
  few     : s.kids.length ≤ s.forked.length
  entered : s.forked = entered s.log ++ s.pc.owed
  list    : s.jobs.members.Nodup
  log     : Custody.Disciplined s.log ∧ ∀ p, Custody.held p s.log = decide (p ∈ s.jobs.members)
  bugs    : s.bugs = []
  last    : s.pc = .wait ∨ s.pc = .finished → s.left = 0

/-! ## The list -/

theorem deletejob_found {pid : Pid} {l : JobList} (h : pid ∈ l.members) : (deletejob pid l).1 = true := by
  unfold deletejob
  rcases deleteLoop_spec pid l l.njobs 0 (by omega) (by simp) with ⟨habsent, -⟩ | ⟨k, -, -, -, heq⟩
  · exact absurd h habsent
  · rw [heq]

theorem deletejob_perm {pid : Pid} {l : JobList} {pids : List Pid} (h : l.members.Perm (pid :: pids)) :
    (deletejob pid l).2.members.Perm pids := by
  have herase := h.erase pid
  rw [List.erase_cons_head] at herase
  exact (deletejob_members pid l).trans herase

theorem addjob_perm {pid : Pid} {l : JobList} (h : l.njobs < MAXJOBS) :
    (addjob pid l).members.Perm (pid :: l.members) := by
  have hadd := addjob_members pid l
  rw [Roster.next, JobList.members_length, if_pos h] at hadd
  exact hadd

theorem Kid.step_pid {k k' : Kid} {i : KidStep} (h : k.step i = some k') : k'.pid = k.pid := by
  cases i <;> simp only [Kid.step] at h <;> split at h <;> cases h <;> rfl

theorem Kid.step_proper {m0 : Mask} {k k' : Kid} {i : KidStep} (hk : k.Proper m0) (h : k.step i = some k') :
    k'.Proper m0 := by
  cases i <;> simp only [Kid.step] at h <;> split at h <;> cases h
  · exact ⟨hk.1, fun _ => hk.1⟩
  · rename_i hpc
    exact ⟨hk.1, fun _ => hk.2 (.inl hpc)⟩
  · exact ⟨hk.1, by rintro (h | h) <;> cases h⟩

/-! ## One step -/

section
variable {m0 : Mask} {rounds : Nat} {s s' : State}

theorem Inv.at_main (h : Inv m0 rounds s) (hf : s.frames = []) : AtMain m0 s := by
  have hc := h.control
  simp only [Control, hf] at hc
  exact hc

theorem Inv.at_handler (h : Inv m0 rounds s) {f : Frame} {fs : List Frame} (hf : s.frames = f :: fs) :
    fs = [] ∧ AtHandler m0 s f := by
  have hc := h.control
  cases fs with
  | nil =>
    simp only [Control, hf] at hc
    exact ⟨rfl, hc⟩
  | cons g gs => simp only [Control, hf] at hc

/-- Only the pids of the children matter. -/
theorem Control.same (h : Control m0 s) (hpc : s'.pc = s.pc) (hmask : s'.mask = s.mask) (hframes : s'.frames = s.frames)
    (hjobs : s'.jobs = s.jobs) (hpids : s'.pids = s.pids) (hkids : s.kids = [] → s'.kids = []) : Control m0 s' := by
  unfold Control at h ⊢
  rw [hframes]
  cases hf : s.frames with
  | nil =>
    simp only [hf] at h ⊢
    unfold AtMain at h ⊢
    rw [hpc, hmask, hjobs, hpids]
    cases hat : s.pc <;> simp only [hat] at h ⊢
    case finished => exact ⟨hkids h.1, h.2⟩
    all_goals exact h
  | cons f fs =>
    cases fs with
    | nil =>
      simp only [hf] at h ⊢
      unfold AtHandler at h ⊢
      rw [hpc, hmask, hjobs, hpids]
      exact h
    | cons g gs => simp only [hf] at h

theorem main_keeps (hrounds : rounds ≤ MAXJOBS) (h : Inv m0 rounds s) (hf : s.frames = []) (hs : s.main = some s') :
    Inv m0 rounds s' := by
  have hat := h.at_main hf
  have hr := h.rounds
  have hent := h.entered
  unfold AtMain at hat
  unfold State.main at hs
  split at hs
  case h_1 hpc =>
    simp only [hpc] at hat hr
    rw [hpc] at hent
    have hr : s.left + 0 + s.forked.length = rounds := hr.resolve_left nofun
    split at hs <;> cases hs
    · rename_i hleft
      refine ⟨?_, h.nodup, h.kids, .inr hr, h.few, hent, h.list, h.log, h.bugs, fun _ => hleft⟩
      simp only [Control, hf]
      exact hat
    · rename_i hleft
      refine ⟨?_, h.nodup, h.kids, .inr ?_, h.few, hent, h.list, h.log, h.bugs, (by rintro (h | h) <;> cases h)⟩
      · simp only [Control, hf]
        exact hat
      · show s.left - 1 + 1 + s.forked.length = rounds
        omega
  case h_2 hpc =>
    cases hs
    simp only [hpc] at hat hr
    rw [hpc] at hent
    refine ⟨?_, h.nodup, h.kids, .inr (hr.resolve_left nofun), h.few, hent, h.list, h.log, h.bugs, (by rintro (h | h) <;> cases h)⟩
    simp only [Control, hf]
    refine ⟨hat.1, ?_, hat.2⟩
    show (s.mask SIGCHLD || maskChld SIGCHLD) = true
    rw [show maskChld SIGCHLD = true from rfl, Bool.or_true]
  case h_3 pid prev hpc =>
    cases hs
    simp only [hpc] at hat hr
    rw [hpc] at hent
    refine ⟨?_, h.nodup, h.kids, .inr (hr.resolve_left nofun), h.few, hent, h.list, h.log, h.bugs, (by rintro (h | h) <;> cases h)⟩
    simp only [Control, hf]
    refine ⟨hat.1, ?_, hat.2.2⟩
    show (s.mask SIGCHLD || true) = true
    exact Bool.or_true _
  case h_4 pid prev hpc =>
    cases hs
    simp only [hpc] at hat hr
    rw [hpc] at hent
    obtain ⟨hprev, hmask, hperm, hnew⟩ := hat
    have hr : s.left + 0 + s.forked.length = rounds := hr.resolve_left nofun
    -- there is room: no more children than rounds
    have hroom : s.jobs.njobs < MAXJOBS := by
      have hlen := hperm.length_eq
      rw [State.pids, List.length_map, List.length_cons, JobList.members_length] at hlen
      have := h.few
      omega
    have hadd : (addjob pid s.jobs).members.Perm (pid :: s.jobs.members) := addjob_perm hroom
    rw [if_neg (by omega)]
    refine ⟨?_, h.nodup, h.kids, .inr hr, h.few, ?_, hadd.nodup_iff.2 (List.nodup_cons.2 ⟨hnew, h.list⟩),
      ⟨.snoc h.log.1 ?_, ?_⟩, h.bugs, (by rintro (h | h) <;> cases h)⟩
    · simp only [Control, hf]
      exact ⟨hprev, hmask, hadd.trans hperm.symm⟩
    · show s.forked = entered (s.log ++ [.acquired pid]) ++ []
      rw [hent, entered, entered, List.filterMap_append, List.append_nil]
      rfl
    · show Custody.held pid s.log = false
      rw [h.log.2]
      exact decide_eq_false hnew
    · intro p
      rw [Custody.held_snoc, h.log.2]
      have hmem : p ∈ (addjob pid s.jobs).members ↔ p = pid ∨ p ∈ s.jobs.members := by
        rw [hadd.mem_iff, List.mem_cons]
      by_cases hp : pid = p
      · rw [if_pos (show Custody.Event.key (.acquired pid) = p from hp)]
        exact (decide_eq_true (hmem.2 (.inl hp.symm))).symm
      · rw [if_neg (show ¬ Custody.Event.key (.acquired pid) = p from hp)]
        exact decide_eq_decide.2 ⟨fun h => hmem.2 (.inr h), fun h => (hmem.1 h).resolve_left fun h => hp h.symm⟩
  case h_5 prev hpc =>
    cases hs
    simp only [hpc] at hat hr
    rw [hpc] at hent
    refine ⟨?_, h.nodup, h.kids, .inr (hr.resolve_left nofun), h.few, hent, h.list, h.log, h.bugs, (by rintro (h | h) <;> cases h)⟩
    simp only [Control, hf]
    exact ⟨hat.1, hat.2.2⟩
  case h_6 hpc =>
    simp only [hpc] at hat hr
    rw [hpc] at hent
    split at hs <;> cases hs
    rename_i hnone
    refine ⟨?_, h.nodup, h.kids, .inr (hr.resolve_left nofun), h.few, hent, h.list, h.log, h.bugs, fun _ => h.last (.inl hpc)⟩
    simp only [Control, hf]
    have hlen := hat.2.length_eq
    rw [JobList.members_length, show s.jobs.njobs = 0 from hnone, State.pids, List.length_map] at hlen
    refine ⟨List.eq_nil_of_length_eq_zero hlen.symm, List.eq_nil_of_length_eq_zero ?_⟩
    rw [JobList.members_length]
    exact hnone
  case h_7 => cases hs

theorem fork_keeps {r : Option Pid} (h : Inv m0 rounds s) (hs : step s (.fork r) = some s') : Inv m0 rounds s' := by
  simp only [step] at hs
  split at hs
  · rename_i prev pid hf hpc
    have hat := h.at_main hf
    have hr := h.rounds
    simp only [AtMain, hpc] at hat
    rw [hpc] at hr
    obtain ⟨hprev, hmask, hperm⟩ := hat
    split at hs <;> cases hs
    rename_i hpid
    have hnew : pid ∉ s.pids := fun hmem => hpid (.inr hmem)
    have hent := h.entered
    rw [hpc] at hent
    have hr : s.left + 1 + s.forked.length = rounds := hr.resolve_left nofun
    refine ⟨?_, List.nodup_cons.2 ⟨hnew, h.nodup⟩, ?_, .inr ?_, ?_, ?_, h.list, h.log, h.bugs, (by rintro (h | h) <;> cases h)⟩
    · simp only [Control, hf]
      exact ⟨hprev, hmask, hperm.symm.cons pid, fun hmem => hnew (hperm.mem_iff.1 hmem)⟩
    · intro k hk
      rcases List.mem_cons.1 hk with rfl | hk
      · exact ⟨hprev, by rintro (h | h) <;> cases h⟩
      · exact h.kids k hk
    · show s.left + 0 + (s.forked ++ [pid]).length = rounds
      rw [List.length_append, List.length_singleton]
      omega
    · have := h.few
      show s.kids.length + 1 ≤ (s.forked ++ [pid]).length
      rw [List.length_append, List.length_singleton]
      omega
    · show s.forked ++ [pid] = entered s.log ++ [pid]
      rw [hent]
      exact congrArg (· ++ [pid]) (List.append_nil _)
  · rename_i prev hf hpc
    cases hs
    have hent := h.entered
    rw [hpc] at hent
    refine ⟨?_, h.nodup, h.kids, .inl rfl, h.few, hent, h.list, h.log, h.bugs, (by rintro (h | h) <;> cases h)⟩
    simp only [Control, hf]
    trivial
  · cases hs

theorem deliver_keeps (h : Inv m0 rounds s) (hs : step s .deliver = some s') : Inv m0 rounds s' := by
  simp only [step] at hs
  split at hs <;> cases hs
  rename_i hg
  refine ⟨?_, h.nodup, h.kids, h.rounds, h.few, h.entered, h.list, h.log, h.bugs, h.last⟩
  cases hf : s.frames with
  | cons f fs =>
    obtain ⟨-, hat⟩ := h.at_handler hf
    exact absurd (hat.1.symm.trans hg.2.2) (by decide)
  | nil =>
    have hat := h.at_main hf
    have hmask : (s.mask.block maskChld) SIGCHLD = true := by
      show (s.mask SIGCHLD || maskChld SIGCHLD) = true
      rw [show maskChld SIGCHLD = true from rfl, Bool.or_true]
    have hblocked : s.mask SIGCHLD ≠ true := by
      rw [hg.2.2]
      decide
    simp only [Control]
    unfold AtMain at hat
    cases hpc : s.pc <;> simp only [hpc] at hat
    case loop => exact ⟨hmask, hat.1, .inl rfl, hat.2⟩
    case block => exact ⟨hmask, hat.1, .inr (.inl rfl), hat.2⟩
    case wait => exact ⟨hmask, hat.1, .inr (.inr rfl), hat.2⟩
    case fork | restore => exact absurd hat.2.1 hblocked
    case blockAll | addJob => exact absurd hat.2.1 hblocked
    case finished | died =>
      have hgone := hg.1
      rw [hpc] at hgone
      cases hgone

theorem waitpid_keeps {r : Option Pid} (h : Inv m0 rounds s) (hs : step s (.waitpid r) = some s') : Inv m0 rounds s' := by
  simp only [step] at hs
  split at hs
  · rename_i saved fs pid hf
    obtain ⟨rfl, hmask, hsaved, hpc, hperm⟩ := h.at_handler hf
    split at hs <;> cases hs
    rename_i hz
    obtain ⟨k, hk, rfl, -⟩ := hz
    have hsub : (s.kids.filter (·.pid ≠ k.pid)).map (·.pid) = s.pids.erase k.pid := by
      rw [h.nodup.erase_eq_filter, State.pids, List.filter_map]
      congr 1
      apply List.filter_congr
      intro x _
      simp [bne]
      rfl
    have hmem : k.pid ∈ s.pids := List.mem_map_of_mem hk
    refine ⟨?_, ?_, fun x hx => h.kids x (List.mem_of_mem_filter hx), h.rounds, ?_, h.entered, h.list, h.log, h.bugs, h.last⟩
    · refine ⟨hmask, hsaved, hpc, ?_⟩
      show s.jobs.members.Perm (k.pid :: (s.kids.filter (·.pid ≠ k.pid)).map (·.pid))
      rw [hsub]
      exact hperm.trans (List.perm_cons_erase hmem)
    · show ((s.kids.filter (·.pid ≠ k.pid)).map (·.pid)).Nodup
      rw [hsub]
      exact h.nodup.erase _
    · exact Nat.le_trans (List.length_filter_le ..) h.few
  · rename_i saved fs hf
    obtain ⟨rfl, hmask, hsaved, hpc, hperm⟩ := h.at_handler hf
    split at hs <;> cases hs
    exact ⟨⟨hmask, hsaved, hpc, hperm⟩, h.nodup, h.kids, h.rounds, h.few, h.entered, h.list, h.log, h.bugs, h.last⟩
  · cases hs

theorem handler_keeps (h : Inv m0 rounds s) (hs : step s .handler = some s') : Inv m0 rounds s' := by
  simp only [step, State.handler] at hs
  split at hs
  · rename_i pid saved fs hf
    cases hs
    obtain ⟨rfl, hmask, hsaved, hpc, hperm⟩ := h.at_handler hf
    refine ⟨⟨?_, hsaved, hpc, hmask, hperm⟩, h.nodup, h.kids, h.rounds, h.few, h.entered, h.list, h.log, h.bugs, h.last⟩
    exact Bool.or_true _
  · rename_i pid prev saved fs hf
    obtain ⟨rfl, hmask, hsaved, hpc, hprev, hperm⟩ := h.at_handler hf
    have hmem : pid ∈ s.jobs.members := hperm.mem_iff.2 (List.mem_cons_self ..)
    have hfound := deletejob_found hmem
    have hdel := deletejob_perm hperm
    have hdeleted := deletejob_members pid s.jobs
    rw [Roster.next] at hdeleted
    simp only [hfound, if_true] at hs
    cases hs
    refine ⟨⟨hmask, hsaved, hpc, hprev, hdel⟩, h.nodup, h.kids, h.rounds, h.few, ?_,
      hdeleted.nodup_iff.2 (h.list.erase pid), ⟨.snoc h.log.1 ?_, ?_⟩, h.bugs, h.last⟩
    · show s.forked = entered (s.log ++ [.closed pid]) ++ s.pc.owed
      rw [h.entered, entered, entered, List.filterMap_append]
      simp [Custody.Event.isAcquired]
    · show Custody.held pid s.log = true
      rw [h.log.2]
      exact decide_eq_true hmem
    · intro p
      rw [Custody.held_snoc, h.log.2]
      have hmem' : p ∈ (deletejob pid s.jobs).2.members ↔ p ≠ pid ∧ p ∈ s.jobs.members := by
        rw [hdeleted.mem_iff, h.list.mem_erase_iff]
      by_cases hp : pid = p
      · rw [if_pos (show Custody.Event.key (.closed pid) = p from hp)]
        exact (decide_eq_false fun h => (hmem'.1 h).1 hp.symm).symm
      · rw [if_neg (show ¬ Custody.Event.key (.closed pid) = p from hp)]
        exact decide_eq_decide.2 ⟨fun h => hmem'.2 ⟨fun h => hp h.symm, h⟩, fun h => (hmem'.1 h).2⟩
  · rename_i prev saved fs hf
    cases hs
    obtain ⟨rfl, hmask, hsaved, hpc, hprev, hperm⟩ := h.at_handler hf
    exact ⟨⟨hprev, hsaved, hpc, hperm⟩, h.nodup, h.kids, h.rounds, h.few, h.entered, h.list, h.log, h.bugs, h.last⟩
  · rename_i saved fs hf
    cases hs
    obtain ⟨rfl, hmask, hsaved, hpc, hperm⟩ := h.at_handler hf
    refine ⟨?_, h.nodup, h.kids, h.rounds, h.few, h.entered, h.list, h.log, h.bugs, h.last⟩
    simp only [Control, AtMain]
    rcases hpc with hpc | hpc | hpc <;> simp only [hpc] <;> exact ⟨hsaved, hperm⟩
  · cases hs

theorem kid_keeps {pid : Pid} {i : KidStep} (h : Inv m0 rounds s) (hs : step s (.kid pid i) = some s') :
    Inv m0 rounds s' := by
  simp only [step] at hs
  split at hs <;> cases hs
  have hsame : ∀ k : Kid, (if k.pid = pid then (k.step i).getD k else k).pid = k.pid := by
    intro k
    split
    · cases hk : k.step i with
      | none => rfl
      | some k' => exact Kid.step_pid hk
    · rfl
  have hpids : (s.kids.map fun k => if k.pid = pid then (k.step i).getD k else k).map (·.pid) = s.pids := by
    rw [List.map_map]
    exact List.map_congr_left fun k _ => hsame k
  refine ⟨?_, ?_, ?_, h.rounds, ?_, h.entered, h.list, h.log, h.bugs, h.last⟩
  · refine h.control.same rfl rfl rfl rfl hpids fun hk => ?_
    show s.kids.map _ = []
    rw [hk]
    rfl
  · show ((s.kids.map fun k => if k.pid = pid then (k.step i).getD k else k).map (·.pid)).Nodup
    rw [hpids]
    exact h.nodup
  · intro k hk
    obtain ⟨x, hx, rfl⟩ := List.mem_map.1 hk
    split
    · cases hstep : x.step i with
      | none => exact h.kids x hx
      | some x' => exact Kid.step_proper (h.kids x hx) hstep
    · exact h.kids x hx
  · show (s.kids.map _).length ≤ _
    rw [List.length_map]
    exact h.few

/-- **One step.** -/
theorem step_keeps {l : Label} (hrounds : rounds ≤ MAXJOBS) (h : Inv m0 rounds s) (hs : step s l = some s') :
    Inv m0 rounds s' := by
  cases l with
  | main =>
    simp only [step] at hs
    split at hs
    · rename_i hf
      exact main_keeps hrounds h hf hs
    · cases hs
  | fork r => exact fork_keeps h hs
  | sleep =>
    simp only [step] at hs
    split at hs
    · split at hs <;> cases hs
      exact h
    · cases hs
  | deliver => exact deliver_keeps h hs
  | waitpid r => exact waitpid_keeps h hs
  | handler => exact handler_keeps h hs
  | kid pid i => exact kid_keeps h hs
  | raise =>
    simp only [step] at hs
    split at hs <;> cases hs
    exact ⟨h.control.same rfl rfl rfl rfl rfl id, h.nodup, h.kids, h.rounds, h.few, h.entered, h.list, h.log, h.bugs, h.last⟩

end

theorem start_inv (m0 : Mask) (rounds : Nat) : Inv m0 rounds (start m0 rounds) :=
  ⟨⟨rfl, .nil⟩, List.nodup_nil, nofun, .inr rfl, Nat.le_refl _, rfl, List.nodup_nil, ⟨.nil, fun _ => rfl⟩, rfl, by rintro (h | h) <;> cases h⟩

theorem inv_reach {m0 : Mask} {rounds : Nat} (hrounds : rounds ≤ MAXJOBS) {s : State}
    (h : Reach step always (start m0 rounds) s) : Inv m0 rounds s :=
  h.invariant (start_inv m0 rounds) fun _ _ _ hi _ hs => step_keeps hrounds hi hs

/-- **No race.** Whenever children end and whenever the signal comes, `deletejob` finds its job: the list is
entered and left in turn for each pid, has the children that are not reaped wherever `main` runs with the
signal unblocked, and `main` leaves its last loop when each child was entered and taken out once. Each
child runs its program with the mask of the start. -/
theorem no_race {m0 : Mask} {rounds : Nat} (hrounds : rounds ≤ MAXJOBS) {s : State}
    (h : Reach step always (start m0 rounds) s) :
    s.bugs = [] ∧ Custody.Disciplined s.log ∧ (∀ k ∈ s.kids, k.pc = .running → k.mask = m0) ∧
    (s.pc.gone = false → s.frames = [] → s.mask SIGCHLD = false → s.jobs.members.Perm (s.kids.map (·.pid))) ∧
    (s.pc = .finished → s.kids = [] ∧ s.forked = entered s.log ∧ s.forked.length = rounds ∧
      ∀ pid a b, s.log = a ++ .acquired pid :: b → Custody.ended pid b = 1) := by
  have hinv := inv_reach hrounds h
  refine ⟨hinv.bugs, hinv.log.1, fun k hk hpc => (hinv.kids k hk).2 (.inr hpc), ?_, ?_⟩
  · intro hgone hf hmask
    have hat := hinv.at_main hf
    have hblocked : s.mask SIGCHLD ≠ true := by
      rw [hmask]
      decide
    unfold AtMain at hat
    cases hpc : s.pc <;> simp only [hpc] at hat
    case loop | block | wait => exact hat.2
    case fork | restore => exact absurd hat.2.1 hblocked
    case blockAll | addJob => exact absurd hat.2.1 hblocked
    case finished | died =>
      rw [hpc] at hgone
      cases hgone
  · intro hpc
    have hf : s.frames = [] := by
      cases hf : s.frames with
      | nil => rfl
      | cons f fs =>
        obtain ⟨-, -, -, hat, -⟩ := hinv.at_handler hf
        rw [hpc] at hat
        rcases hat with hat | hat | hat <;> cases hat
    have hat := hinv.at_main hf
    simp only [AtMain, hpc] at hat
    have hr := hinv.rounds.resolve_left (by rw [hpc]; nofun)
    have hent := hinv.entered
    rw [hpc] at hr hent
    refine ⟨hat.1, hent.trans (List.append_nil _), ?_, ?_⟩
    · have hleft := hinv.last (.inr hpc)
      simp only [MainPc.begun] at hr
      omega
    · intro pid a b hlog
      refine hinv.log.1.ended_eq ?_ hlog
      rw [hinv.log.2, hat.2]
      rfl

/-- Two children, the first ended before it is entered; one signal for both. -/
def coalescedRun : List Label :=
  [.main, .main, .fork (some 7), .kid 7 .exit, .main, .main, .main, .main, .main, .fork (some 8), .kid 8 .setmask,
    .kid 8 .exit, .main, .main, .main, .main, .deliver, .waitpid (some 8), .handler, .handler, .handler,
    .waitpid (some 7), .handler, .handler, .handler, .waitpid none, .handler, .main]

theorem no_race_coalesced : ∃ s, runFrom step (start (fun _ => false) 2) coalescedRun = some s ∧
    s.log = [.acquired 7, .acquired 8, .closed 8, .closed 7] ∧ s.bugs = [] ∧ s.kids = [] := by
  have hend : (runFrom step (start (fun _ => false) 2) coalescedRun).map (fun s => (s.log, s.pc.gone)) =
      some ([.acquired 7, .acquired 8, .closed 8, .closed 7], true) := by decide +kernel
  obtain ⟨s, hs, heq⟩ := Option.map_eq_some_iff.1 hend
  have hdone : s.pc = .finished := by
    have hpc : (runFrom step (start (fun _ => false) 2) coalescedRun).map (·.pc) = some .finished := by rfl
    rw [hs] at hpc
    exact Option.some.inj hpc
  have h := no_race (by decide) (runFrom_reach hs)
  exact ⟨s, hs, (Prod.mk.inj heq).1, h.1, (h.2.2.2.2 hdone).1⟩

end ComputerSystem.Sync.Procmask
