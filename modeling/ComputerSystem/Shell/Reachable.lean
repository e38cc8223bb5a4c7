import ComputerSystem.Shell.Invariant
/-!
# Foreground completion and the accuracy of the job table

`Chapter8/8.5-8.6/shell/main.c:43-109,182-214`. `eval` leaves its waiting loop when `fg_done` is set, and
the handler sets it when `delete_job` finds a foreground job. So the end of the foreground child is
noticed only if `add_job` found a slot for it: with a full table it prints a message and `eval` waits
for ever (`completion_lost`). While a slot is free for every foreground command nothing is lost
(`completion_kept`), and while there are at most `MAXJOBS` children the table is exact
(`job_table_accurate`).
-/

namespace ComputerSystem.Shell

/-- The children that are reaped, deleted and reported are accounted for step by step. -/
def CompletionKept (s : State) : Prop :=
  ∀ p, s.pc.waiting = some p → p ∉ pids s.children →
    s.fgDone = true ∨ s.frames ≠ [] ∧ (s.holding = some p ∨ s.reporting = some p)

/-- `eval` is about to enter a foreground job. -/
def MainPc.entersFg : MainPc → Bool
  | .addJob c _ _ => !c.bg
  | _ => false

/-- A foreground command that reaches `add_job` finds a free slot. -/
def FgRoom (s : State) (_ : Label) : Prop := s.pc.entersFg = true → Room s.jobs

instance (s : State) (l : Label) : Decidable (FgRoom s l) :=
  inferInstanceAs (Decidable (s.pc.entersFg = true → Room s.jobs))

/-- The job `eval` waits for is in the table until the handler has deleted it, and then `fg_done` is
set or about to be. -/
structure FgInv (s : State) : Prop where
  stored : ∀ p, s.pc.awaited = some p → p ∈ pids s.children ∨ s.holding = some p → (p, false) ∈ entries s.jobs
  alive  : ∀ p, s.pc.awaited = some p → s.pc.waiting = none → p ∈ pids s.children
  kept   : ∀ p, s.pc.waiting = some p →
    p ∈ pids s.children ∨ s.holding = some p ∨ s.reporting = some p ∨ s.fgDone = true

theorem resume_awaited (pc : MainPc) : pc.resume.awaited = pc.awaited := by
  cases pc <;> rfl

theorem waiting_awaited {pc : MainPc} {p : Pid} (h : pc.waiting = some p) : pc.awaited = some p := by
  cases pc <;> first | exact h | cases h

/-- Nothing is awaited at this place of `main`. -/
theorem FgInv.of_none {s : State} (ha : s.pc.awaited = none) : FgInv s where
  stored := by rw [ha]; nofun
  alive := by rw [ha]; nofun
  kept := fun p hp => by
    rw [waiting_awaited hp] at ha
    cases ha

theorem FgInv.same {s s' : State} (h : FgInv s) (hkids : s'.children = s.children) (hjobs : s'.jobs = s.jobs)
    (hhold : s'.holding = s.holding) (haw : s'.pc.awaited = s.pc.awaited) (hw : s'.pc.waiting = s.pc.waiting)
    (hkept : ∀ p, s.reporting = some p ∨ s.fgDone = true → s'.reporting = some p ∨ s'.fgDone = true) : FgInv s' where
  stored := by rw [hkids, hjobs, hhold, haw]; exact h.stored
  alive := by rw [hkids, haw, hw]; exact h.alive
  kept := by
    rw [hkids, hhold, hw]
    exact fun p hp => (h.kept p hp).imp_right fun hk => hk.imp_right (hkept p)

theorem main_fg {s s' : State} (ht : TableInv s) (h : FgInv s) (hroom : FgRoom s .main)
    (hs : s.main = some s') : FgInv s' := by
  unfold State.main at hs
  split at hs <;> rename_i hpc
  · cases hs
    exact .of_none rfl
  · cases hs
    exact .of_none rfl
  · -- add_job
    rename_i c pid prev
    cases hs
    obtain ⟨hkid, -⟩ := ht.newborn (pid, c.bg) (by rw [hpc]; rfl)
    cases hbg : c.bg with
    | true => exact .of_none (by simp [MainPc.awaited, hbg])
    | false =>
      have hpid : pid ≠ 0 := fun h0 => ht.kidsPos (h0 ▸ mem_pids hkid)
      have hperm := addJob_spec hpid false c.cmdline (hroom (by rw [hpc]; simp [MainPc.entersFg, hbg]))
      have haw : ∀ {p}, (MainPc.setChld c pid prev).awaited = some p → p = pid := by
        intro p hp
        simp only [MainPc.awaited, hbg, Bool.false_eq_true, if_false, Option.some.injEq] at hp
        exact hp.symm
      refine ⟨fun p hp _ => ?_, fun p hp _ => ?_, nofun⟩
      · obtain rfl := haw hp
        exact hperm.mem_iff.2 (List.mem_cons_self ..)
      · obtain rfl := haw hp
        exact mem_pids hkid
  · -- back to blocking `SIGCHLD` only
    rename_i c pid prev
    cases hs
    cases hbg : c.bg with
    | true => exact .of_none rfl
    | false =>
      have haw : s.pc.awaited = some pid := by simp [hpc, MainPc.awaited, hbg]
      refine ⟨fun p hp => ?_, fun p hp _ => ?_, nofun⟩
      · cases hp
        exact h.stored pid haw
      · cases hp
        exact h.alive pid haw (by rw [hpc]; rfl)
  · -- `fg_done = 0`: the child is still there
    rename_i pid prev
    cases hs
    have haw : s.pc.awaited = some pid := by rw [hpc]; rfl
    refine ⟨fun p hp => ?_, nofun, fun p hp => ?_⟩
    · cases hp
      exact h.stored pid haw
    · cases hp
      exact .inl (h.alive pid haw (by rw [hpc]; rfl))
  · split at hs <;> cases hs
    · exact .of_none rfl
    · exact h.same rfl rfl rfl (by rw [hpc]; rfl) (by rw [hpc]; rfl) fun _ hk => hk
  · cases hs
    exact .of_none rfl
  · cases hs
    exact .of_none rfl
  · cases hs
    exact .of_none rfl
  · cases hs
    exact .of_none rfl
  · cases hs

theorem gets_fg {s s' : State} (hpc : s.pc = .prompt) {line : Bytes} {feof : Bool}
    (hs : s.gets line feof = some s') : FgInv s' := by
  unfold State.gets at hs
  split at hs
  · cases hs
    exact .of_none rfl
  · obtain ⟨c, -, rfl⟩ := Option.map_eq_some_iff.1 hs
    cases c with
    | blank => exact .of_none (by rw [hpc]; rfl)
    | ignored => exact .of_none (by rw [hpc]; rfl)
    | _ => exact .of_none rfl

theorem fork_fg {s s' : State} {r : Option Pid} (hs : s.fork r = some s') : FgInv s' := by
  cases r with
  | none =>
    simp only [State.fork] at hs
    split at hs <;> cases hs
    exact .of_none rfl
  | some pid =>
    simp only [State.fork] at hs
    split at hs
    · split at hs <;> cases hs
      exact .of_none rfl
    · cases hs

/-- Deleting the awaited job makes the handler report it. -/
theorem delete_fg {s : State} (ht : TableInv s) (h : FgInv s) {f : Frame} {fs : List Frame} (hf : s.frames = f :: fs)
    {pid : Pid} {prev : Mask} (hpc : f.pc = .delete pid prev) :
    FgInv { s with
      jobs := (deleteJob pid s.jobs).2
      frames := ⟨.setmask pid (deleteJob pid s.jobs).1 prev, f.saved⟩ :: fs } := by
  have hhold : s.holding = some pid := by simp [State.holding, hf, hpc, HandlerPc.holding]
  have hrep : s.reporting = none := by simp [State.reporting, hf, hpc, HandlerPc.reporting]
  obtain ⟨-, hkid⟩ := ht.held pid hhold
  refine ⟨fun p hp hk => ?_, h.alive, fun p hp => ?_⟩
  · rcases hk with hk | hk
    · have hne : p ≠ pid := fun heq => hkid (heq ▸ hk)
      exact mem_deleteJob hne (h.stored p hp (.inl hk))
    · cases hk
  · rcases h.kept p hp with hk | hk | hk | hk
    · exact .inl hk
    · rw [hhold] at hk
      cases hk
      have hmem := h.stored pid (waiting_awaited hp) (.inr hhold)
      have hbg := (deleteJob_spec ht.jobsNodup hmem).1
      exact .inr (.inr (.inl (by simp [State.reporting, hbg, HandlerPc.reporting])))
    · rw [hrep] at hk
      cases hk
    · exact .inr (.inr (.inr hk))

theorem handler_fg {m0 : Mask} {s s' : State} (hsig : SigInv m0 s) (ht : TableInv s) (h : FgInv s)
    (hs : s.handler = some s') : FgInv s' := by
  unfold State.handler at hs
  split at hs
  · cases hs
  · rename_i f fs hf
    obtain ⟨rfl, -⟩ := hsig.single hf
    have hhead : s.holding = f.pc.holding ∧ s.reporting = f.pc.reporting := by
      simp [State.holding, State.reporting, hf]
    split at hs <;> cases hs <;> rename_i hpc <;> rw [hpc] at hhead
    · exact h.same rfl rfl hhead.1.symm rfl rfl fun p hk => hk.imp_left fun hr => by rw [hhead.2] at hr; cases hr
    · exact delete_fg ht h hf hpc
    · rename_i pid bg prev
      refine h.same rfl rfl hhead.1.symm rfl rfl fun p hk => hk.imp_left fun hr => ?_
      rw [hhead.2] at hr
      rcases bg with _ | _ | _ <;> exact hr
    · -- the store to `fg_done`
      rename_i pid bg
      refine h.same rfl rfl hhead.1.symm rfl rfl fun p hk => .inr ?_
      rcases hk with hr | hd
      · rw [hhead.2] at hr
        rcases bg with _ | _ | _
        · cases hr
        · rfl
        · cases hr
      · simp [hd]
    · exact h.same rfl rfl hhead.1.symm (resume_awaited _) (resume_waiting _) fun p hk =>
        hk.imp_left fun hr => by rw [hhead.2] at hr; cases hr

theorem waitpid_fg {m0 : Mask} {s s' : State} (hsig : SigInv m0 s) (h : FgInv s) {r : Option Pid}
    (hs : s.waitpid r = some s') : FgInv s' := by
  unfold State.waitpid at hs
  split at hs
  · rename_i saved fs hf
    obtain ⟨rfl, hframe⟩ := hsig.single hf
    have hhold : s.holding = none := by simp [State.holding, hf, HandlerPc.holding]
    have hrep : s.reporting = none := by simp [State.reporting, hf, HandlerPc.reporting]
    split at hs
    · rename_i pid
      split at hs <;> cases hs
      rename_i hz
      obtain ⟨k, hk, rfl, -⟩ := hz
      have hkid : k.pid ∈ pids s.children := mem_pids (List.mem_map.2 ⟨k, hk, rfl⟩)
      refine ⟨fun p hp hk => ?_, fun p hp hw => ?_, fun p hp => ?_⟩
      · rcases hk with hk | hk
        · exact h.stored p hp (.inl (mem_pids_filtered.1 hk).1)
        · cases hk
          exact h.stored _ hp (.inl hkid)
      · have hpw : s.pc.awaited = s.pc.waiting := hframe.open.2
        rw [show s.pc.waiting = none from hw] at hpw
        rw [show s.pc.awaited = some p from hp] at hpw
        cases hpw
      · rcases h.kept p hp with hc | hc | hc | hc
        · by_cases heq : p = k.pid
          · exact .inr (.inl (by rw [heq]; rfl))
          · exact .inl (mem_pids_filtered.2 ⟨hc, heq⟩)
        · rw [hhold] at hc
          cases hc
        · rw [hrep] at hc
          cases hc
        · exact .inr (.inr (.inr hc))
    · split at hs <;> cases hs
      exact h.same rfl rfl (by rw [hhold]; rfl) rfl rfl fun p hk =>
        hk.imp_left fun hr => by rw [hrep] at hr; cases hr
  · cases hs

theorem deliver_fg {m0 : Mask} {s s' : State} (hsig : SigInv m0 s) (h : FgInv s) (hs : s.deliver = some s') :
    FgInv s' := by
  obtain ⟨-, -, hopen, rfl⟩ := deliver_eq hs
  have hf := hsig.open hopen
  exact h.same rfl rfl (by rw [holding_nil hf]; rfl) rfl rfl fun p hk =>
    hk.imp_left fun hr => by rw [reporting_nil hf] at hr; cases hr

theorem step_fg {m0 : Mask} (s : State) (l : Label) (s' : State) (hsig : SigInv m0 s) (ht : TableInv s) (h : FgInv s)
    (hroom : FgRoom s l) (hs : step s l = some s') : FgInv s' := by
  cases l with
  | main => exact main_fg ht h hroom (step_main hs).2
  | gets line feof =>
    obtain ⟨-, hpc, hs⟩ := step_gets hs
    exact gets_fg hpc hs
  | fork r => exact fork_fg (step_fork hs).2
  | handler => exact handler_fg hsig ht h hs
  | waitpid r => exact waitpid_fg hsig h hs
  | deliver => exact deliver_fg hsig h hs
  | kid pid i =>
    have hc := kid_children hs
    obtain rfl := kid_eq hs
    exact h.same hc rfl rfl rfl rfl fun _ hk => hk
  | spurious =>
    cases hs
    exact h.same rfl rfl rfl rfl rfl fun _ hk => hk

/-- **No foreground completion is lost** in a run in which every foreground command finds a free slot
of the table: when the child that `eval` waits for has been reaped, `fg_done` is set, or the handler
that reaped it is still active and about to set it. So `eval` does not suspend itself again. -/
theorem completion_kept {m0 : Mask} {s : State} (h : Reach step FgRoom (start m0) s) : CompletionKept s := by
  have hinv : SigInv m0 s ∧ TableInv s ∧ FgInv s :=
    Reach.invariant (I := fun s => SigInv m0 s ∧ TableInv s ∧ FgInv s)
      ⟨start_sig m0, start_table m0, .of_none rfl⟩
      (fun s l s' hi hok hs => ⟨step_sig s l s' hi.1 hs, step_table s l s' hi.1 hi.2.1 hs,
        step_fg s l s' hi.1 hi.2.1 hi.2.2 hok hs⟩) h
  intro p hw hgone
  have hframes : ∀ {q}, s.holding = some q ∨ s.reporting = some q → s.frames ≠ [] := by
    intro q hq hf
    rw [holding_nil hf, reporting_nil hf] at hq
    rcases hq with hq | hq <;> cases hq
  rcases hinv.2.2.kept p hw with hk | hk | hk | hk
  · exact absurd hk hgone
  · exact .inr ⟨hframes (.inl hk), .inl hk⟩
  · exact .inr ⟨hframes (.inr hk), .inr hk⟩
  · exact .inl hk

/-- One line of input that becomes a background job, up to the next prompt. -/
def backgroundJob (pid : Pid) : List Label :=
  [.gets [97, 32, 38, 10] false, .main, .fork (some pid), .main, .main, .main, .main]

/-- A foreground command up to its waiting loop; the child ends and is reaped in `sigsuspend`. -/
def foregroundJob (pid : Pid) : List Label :=
  [.gets [97, 10] false, .main, .fork (some pid), .main, .main, .main, .main, .kid pid .exit, .main,
    .deliver, .waitpid (some pid), .handler, .handler, .handler, .handler, .waitpid none, .handler]

theorem completion_kept_foreground : ∃ s, runWhile step FgRoom (start fun _ => false) (foregroundJob 1) = some s ∧
    s.pc.waiting = some 1 ∧ 1 ∉ pids s.children ∧ CompletionKept s := by
  have hend : (runWhile step FgRoom (start fun _ => false) (foregroundJob 1)).map
      (fun s => (s.pc.waiting, decide (1 ∈ pids s.children))) = some (some 1, false) := by decide
  obtain ⟨s, hs, heq⟩ := Option.map_eq_some_iff.1 hend
  simp only [Prod.mk.injEq, decide_eq_false_iff_not] at heq
  exact ⟨s, hs, heq.1, heq.2, completion_kept (runWhile_reach hs)⟩

/-- **With a full table the completion is lost**: after sixteen background jobs (`a &`) the child of the
foreground command `a` has been reaped, `fg_done` is 0, no handler is active, and `eval` is in its
waiting loop. -/
theorem completion_lost : ¬ ∀ s, Reach step always (start fun _ => false) s → CompletionKept s := by
  intro hall
  let run := ((List.range 16).map fun i => backgroundJob (i + 1)).flatten ++ foregroundJob 17
  have hend : (runFrom step (start fun _ => false) run).map
      (fun s => (s.pc.waiting, decide (17 ∈ pids s.children), s.fgDone, s.frames.isEmpty)) =
      some (some 17, false, false, true) := by decide
  obtain ⟨s, hs, heq⟩ := Option.map_eq_some_iff.1 hend
  simp only [Prod.mk.injEq, decide_eq_false_iff_not, List.isEmpty_iff] at heq
  obtain ⟨hw, hgone, hd, hf⟩ := heq
  rcases hall s (runFrom_reach hs) 17 hw hgone with hk | hk
  · rw [hd] at hk
    cases hk
  · exact hk.1 hf

/-! ## The table is exact -/

/-- At most `MAXJOBS` children are unreaped. -/
def AtMostMaxJobs (s : State) (_ : Label) : Prop := s.children.length ≤ MAXJOBS

instance (s : State) (l : Label) : Decidable (AtMostMaxJobs s l) :=
  inferInstanceAs (Decidable (s.children.length ≤ MAXJOBS))

/-- Every child is in the table, except the one `eval` is about to enter, and the one just reaped is
still there. -/
structure FullInv (s : State) : Prop where
  full : ∀ e ∈ s.children, e ∈ entries s.jobs ∨ s.pc.newborn = some e
  held : ∀ p, s.holding = some p → p ∈ pids (entries s.jobs)

theorem FullInv.same {s s' : State} (h : FullInv s) (hkids : s'.children = s.children) (hjobs : s'.jobs = s.jobs)
    (hhold : s'.holding = s.holding) (hnew : s'.pc.newborn = s.pc.newborn) : FullInv s' where
  full := by rw [hkids, hjobs, hnew]; exact h.full
  held := by rw [hjobs, hhold]; exact h.held

/-- With at most `MAXJOBS` children there is a slot for the one that is not in the table yet. -/
theorem newborn_room {s : State} (hf : s.frames = []) (ht : TableInv s) {e : Pid × Bool} (hnew : s.pc.newborn = some e)
    (hle : s.children.length ≤ MAXJOBS) : Room s.jobs := by
  obtain ⟨hkid, hnot⟩ := ht.newborn e hnew
  have hsub : (e.1 :: pids (entries s.jobs)) ⊆ pids s.children := by
    intro p hp
    rcases List.mem_cons.1 hp with rfl | hp
    · exact mem_pids hkid
    · obtain ⟨x, hx, rfl⟩ := List.mem_map.1 hp
      exact mem_pids ((ht.sub x hx).resolve_right (by rw [holding_nil hf]; nofun))
  have hlen := (List.subperm_of_subset (List.nodup_cons.2 ⟨hnot, ht.jobsNodup⟩) hsub).length_le
  simp only [pids, List.length_cons, List.length_map] at hlen
  refine room_of_length ?_
  rw [ht.slots]
  omega

theorem main_full {s s' : State} (hf : s.frames = []) (ht : TableInv s) (h : FullInv s)
    (hle : s.children.length ≤ MAXJOBS) (hs : s.main = some s') : FullInv s' := by
  unfold State.main at hs
  split at hs <;> rename_i hpc
  · cases hs
    exact h.same rfl rfl rfl (by rw [hpc]; rfl)
  · cases hs
    exact h.same rfl rfl rfl (by rw [hpc]; rfl)
  · -- add_job
    rename_i c pid prev
    cases hs
    have hnew : s.pc.newborn = some (pid, c.bg) := by rw [hpc]; rfl
    have hpid : pid ≠ 0 := fun h0 => ht.kidsPos (h0 ▸ mem_pids (ht.newborn _ hnew).1)
    have hperm := addJob_spec hpid c.bg c.cmdline (newborn_room hf ht hnew hle)
    refine ⟨fun e he => .inl (hperm.mem_iff.2 ?_), fun p hp => ?_⟩
    · rcases h.full e he with hk | hk
      · exact List.mem_cons_of_mem _ hk
      · rw [hnew] at hk
        cases hk
        exact List.mem_cons_self ..
    · have := holding_nil hf
      rw [show s.holding = some p from hp] at this
      cases this
  · cases hs
    refine h.same rfl rfl rfl ?_
    rw [hpc]
    simp only
    split <;> rfl
  · cases hs
    exact h.same rfl rfl rfl (by rw [hpc]; rfl)
  · split at hs <;> cases hs
    · exact h.same rfl rfl rfl (by rw [hpc]; rfl)
    · exact h.same rfl rfl rfl (by rw [hpc]; rfl)
  · cases hs
    exact h.same rfl rfl rfl (by rw [hpc]; rfl)
  · cases hs
    exact h.same rfl rfl rfl (by rw [hpc]; rfl)
  · cases hs
    exact h.same rfl rfl rfl (by rw [hpc]; rfl)
  · cases hs
    exact h.same rfl rfl rfl (by rw [hpc]; rfl)
  · cases hs

theorem gets_full {s s' : State} (hpc : s.pc = .prompt) (h : FullInv s) {line : Bytes} {feof : Bool}
    (hs : s.gets line feof = some s') : FullInv s' := by
  unfold State.gets at hs
  split at hs
  · cases hs
    exact h.same rfl rfl rfl (by rw [hpc]; rfl)
  · obtain ⟨c, -, rfl⟩ := Option.map_eq_some_iff.1 hs
    cases c with
    | blank => exact h
    | ignored => exact h
    | _ => exact h.same rfl rfl rfl (by rw [hpc]; rfl)

theorem fork_full {s s' : State} (h : FullInv s) {r : Option Pid} (hs : s.fork r = some s') : FullInv s' := by
  cases r with
  | none =>
    simp only [State.fork] at hs
    split at hs <;> cases hs
    rename_i hpc
    exact h.same rfl rfl rfl (by rw [hpc]; rfl)
  | some pid =>
    simp only [State.fork] at hs
    split at hs
    · rename_i c prev hpc
      split at hs <;> cases hs
      refine ⟨fun e he => ?_, h.held⟩
      rcases List.mem_cons.1 he with rfl | he
      · exact .inr rfl
      · refine .inl ((h.full e he).resolve_right ?_)
        rw [hpc]
        intro hnew
        cases hnew
    · cases hs

theorem handler_full {m0 : Mask} {s s' : State} (hsig : SigInv m0 s) (ht : TableInv s) (h : FullInv s)
    (hs : s.handler = some s') : FullInv s' := by
  unfold State.handler at hs
  split at hs
  · cases hs
  · rename_i f fs hf
    obtain ⟨rfl, hframe⟩ := hsig.single hf
    have hhead : s.holding = f.pc.holding := by simp [State.holding, hf]
    split at hs <;> cases hs <;> rename_i hpc <;> rw [hpc] at hhead
    · exact h.same rfl rfl hhead.symm rfl
    · rename_i pid prev
      refine ⟨fun e he => .inl ?_, fun p hp => by cases hp⟩
      have hne : e.1 ≠ pid := fun heq => (ht.held pid hhead).2 (heq ▸ mem_pids he)
      refine mem_deleteJob hne ((h.full e he).resolve_right ?_)
      rw [hframe.open.1]
      intro hnew
      cases hnew
    · exact h.same rfl rfl hhead.symm rfl
    · exact h.same rfl rfl hhead.symm rfl
    · exact h.same rfl rfl hhead.symm (resume_newborn _)

theorem waitpid_full {m0 : Mask} {s s' : State} (hsig : SigInv m0 s) (h : FullInv s) {r : Option Pid}
    (hs : s.waitpid r = some s') : FullInv s' := by
  unfold State.waitpid at hs
  split at hs
  · rename_i saved fs hf
    obtain ⟨rfl, hframe⟩ := hsig.single hf
    have hin : ∀ e ∈ s.children, e ∈ entries s.jobs := fun e he =>
      (h.full e he).resolve_right (by rw [hframe.open.1]; nofun)
    split at hs
    · split at hs <;> cases hs
      rename_i hz
      obtain ⟨k, hk, rfl, -⟩ := hz
      refine ⟨fun e he => .inl (hin e (mem_filtered.1 he).1), fun p hp => ?_⟩
      cases hp
      exact mem_pids (hin k.key (List.mem_map.2 ⟨k, hk, rfl⟩))
    · split at hs <;> cases hs
      exact h.same rfl rfl (by simp [State.holding, hf, HandlerPc.holding]) rfl
  · cases hs

theorem step_full {m0 : Mask} (s : State) (l : Label) (s' : State) (hsig : SigInv m0 s) (ht : TableInv s)
    (h : FullInv s) (hle : AtMostMaxJobs s l) (hs : step s l = some s') : FullInv s' := by
  cases l with
  | main =>
    obtain ⟨hf, hs⟩ := step_main hs
    exact main_full hf ht h hle hs
  | gets line feof =>
    obtain ⟨-, hpc, hs⟩ := step_gets hs
    exact gets_full hpc h hs
  | fork r => exact fork_full h (step_fork hs).2
  | handler => exact handler_full hsig ht h hs
  | waitpid r => exact waitpid_full hsig h hs
  | deliver =>
    obtain ⟨-, -, hopen, rfl⟩ := deliver_eq hs
    exact h.same rfl rfl (by rw [holding_nil (hsig.open hopen)]; rfl) rfl
  | kid pid i =>
    have hc := kid_children hs
    obtain rfl := kid_eq hs
    exact h.same hc rfl rfl rfl
  | spurious =>
    cases hs
    exact h.same rfl rfl rfl rfl

/-- **The job table is accurate** in a run with at most `MAXJOBS` unreaped children. Whenever `SIGCHLD`
is not blocked, the entries of the table are exactly the children that are not reaped, each once and
with the flag of its command, and at most one of them is a foreground job; and the handler calls
`delete_job` only with a pid that is in the table. -/
theorem job_table_accurate {m0 : Mask} {s : State} (h : Reach step AtMostMaxJobs (start m0) s) :
    (s.mask SIGCHLD = false →
      (entries s.jobs).Perm s.children ∧ (pids (entries s.jobs)).Nodup ∧
      ∀ p q, (p, false) ∈ entries s.jobs → (q, false) ∈ entries s.jobs → p = q) ∧
    ∀ f fs pid prev, s.frames = f :: fs → f.pc = .delete pid prev → pid ∈ pids (entries s.jobs) := by
  have hinv : SigInv m0 s ∧ TableInv s ∧ FullInv s :=
    Reach.invariant (I := fun s => SigInv m0 s ∧ TableInv s ∧ FullInv s)
      ⟨start_sig m0, start_table m0, nofun, nofun⟩
      (fun s l s' hi hok hs => ⟨step_sig s l s' hi.1 hs, step_table s l s' hi.1 hi.2.1 hs,
        step_full s l s' hi.1 hi.2.1 hi.2.2 hok hs⟩) h
  obtain ⟨hsig, ht, hfull⟩ := hinv
  refine ⟨fun hm => ⟨?_, ht.jobsNodup, fun p q hp hq => ?_⟩, fun f fs pid prev hf hpc => hfull.held pid ?_⟩
  · have hf := hsig.open hm
    have hnew := ((hsig.idle hf).open hm).1
    refine (List.perm_ext_iff_of_nodup (ht.jobsNodup.of_map _) (ht.kidsNodup.of_map _)).2 fun e => ⟨fun he => ?_,
      fun he => ?_⟩
    · exact (ht.sub e he).resolve_right (by rw [holding_nil hf]; nofun)
    · exact (hfull.full e he).resolve_right (by rw [hnew]; nofun)
  · have hpq := (ht.fgJob p hp).symm.trans (ht.fgJob q hq)
    exact Option.some.inj hpq
  · simp [State.holding, hf, hpc, HandlerPc.holding]

/-- Two background jobs, one of which ends; its `SIGCHLD` is taken at the prompt. -/
theorem job_table_accurate_prompt : ∃ s,
    runWhile step AtMostMaxJobs (start fun _ => false) (backgroundJob 1 ++ backgroundJob 2 ++
      [.kid 1 .exit, .deliver, .waitpid (some 1), .handler, .handler, .handler, .handler, .waitpid none, .handler]) =
        some s ∧ (entries s.jobs).Perm s.children ∧ s.children = [(2, true)] := by
  have hend : (runWhile step AtMostMaxJobs (start fun _ => false) (backgroundJob 1 ++ backgroundJob 2 ++
      [.kid 1 .exit, .deliver, .waitpid (some 1), .handler, .handler, .handler, .handler, .waitpid none, .handler])).map
        (fun s => (s.mask SIGCHLD, s.children)) = some (false, [(2, true)]) := by decide
  obtain ⟨s, hs, heq⟩ := Option.map_eq_some_iff.1 hend
  simp only [Prod.mk.injEq] at heq
  exact ⟨s, hs, ((job_table_accurate (runWhile_reach hs)).1 heq.1).1, heq.2⟩

end ComputerSystem.Shell
