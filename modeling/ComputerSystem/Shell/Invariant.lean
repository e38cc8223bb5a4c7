import ComputerSystem.Shell.Machine
/-!
# Masks and the job table in every run of the shell

`SigInv` says which mask is in force at every point of `eval`, and that the handler runs only where
`eval` does not have `SIGCHLD` blocked, one activation at a time. `TableInv` says that the entries of
the table are children, except for the one that the handler has just reaped, and that only the
command `eval` has in hand is a foreground job. Neither depends on the number of jobs.
-/

namespace ComputerSystem.Shell

/-! ## Masks -/

/-- The mask of `main` while no handler is active, where `m0` is the one the shell started with. -/
def MainMask (m0 : Mask) : MainPc → Mask → Prop
  | .prompt, m => m = m0
  | .sigBlock _, m => m = m0
  | .jobsBlock, m => m = m0
  | .suspended _ prev saved, m => m = prev ∧ prev = m0 ∧ saved SIGCHLD = true
  | .fork _ prev, m => prev = m0 ∧ m SIGCHLD = true
  | .blockAll _ _ prev, m => prev = m0 ∧ m SIGCHLD = true
  | .addJob _ _ prev, m => prev = m0 ∧ m SIGCHLD = true
  | .setChld _ _ prev, m => prev = m0 ∧ m SIGCHLD = true
  | .fgClear _ prev, m => prev = m0 ∧ m SIGCHLD = true
  | .waitTest _ prev, m => prev = m0 ∧ m SIGCHLD = true
  | .restore prev, m => prev = m0 ∧ m SIGCHLD = true
  | .jobsList prev, m => prev = m0 ∧ m SIGCHLD = true
  | .jobsRestore prev, m => prev = m0 ∧ m SIGCHLD = true
  | .exited, _ => True

/-- The mask that the handler will set again. -/
def HandlerPc.prevBlocks : HandlerPc → Prop
  | .delete _ prev => prev SIGCHLD = true
  | .setmask _ _ prev => prev SIGCHLD = true
  | _ => True

/-- The handler interrupted `main` under a mask that let `SIGCHLD` through, and blocks it. -/
structure FrameOk (m0 : Mask) (pc : MainPc) (mask : Mask) (f : Frame) : Prop where
  under   : ∃ m, MainMask m0 pc m ∧ m SIGCHLD = false ∧ f.saved = pc.resumeMask m
  notOver : pc ≠ .exited
  blocked : mask SIGCHLD = true
  prev    : f.pc.prevBlocks

def SigAt (m0 : Mask) (pc : MainPc) (mask : Mask) : List Frame → Prop
  | [] => MainMask m0 pc mask
  | [f] => FrameOk m0 pc mask f
  | _ => False

def SigInv (m0 : Mask) (s : State) : Prop := SigAt m0 s.pc s.mask s.frames

theorem block_chld (m : Mask) : m.block maskChld SIGCHLD = true := by
  simp [Mask.block, maskChld]

theorem block_all (m : Mask) : m.block maskAll SIGCHLD = true := by
  simp [Mask.block, maskAll]

theorem SigInv.idle {m0 : Mask} {s : State} (h : SigInv m0 s) (hf : s.frames = []) : MainMask m0 s.pc s.mask := by
  simpa only [SigInv, hf, SigAt] using h

theorem SigInv.of_idle {m0 : Mask} {s : State} (hf : s.frames = []) (h : MainMask m0 s.pc s.mask) : SigInv m0 s := by
  simpa only [SigInv, hf, SigAt] using h

/-- There is at most one activation of the handler. -/
theorem SigInv.single {m0 : Mask} {s : State} (h : SigInv m0 s) {f : Frame} {fs : List Frame}
    (hf : s.frames = f :: fs) : fs = [] ∧ FrameOk m0 s.pc s.mask f := by
  cases fs with
  | nil => exact ⟨rfl, by simpa only [SigInv, hf, SigAt] using h⟩
  | cons g gs => exact absurd h (by simp only [SigInv, hf, SigAt, not_false_eq_true])

theorem SigInv.of_single {m0 : Mask} {s : State} {f : Frame} (hf : s.frames = [f]) (h : FrameOk m0 s.pc s.mask f) :
    SigInv m0 s := by
  simpa only [SigInv, hf, SigAt] using h

/-- While `SIGCHLD` is let through, no handler is active. -/
theorem SigInv.open {m0 : Mask} {s : State} (h : SigInv m0 s) (hm : s.mask SIGCHLD = false) : s.frames = [] := by
  cases hf : s.frames with
  | nil => rfl
  | cons f fs =>
    have := (h.single hf).2.blocked
    rw [hm] at this
    cases this

/-- After a handler `main` goes on under the mask it was interrupted with, or `sigsuspend` is over. -/
theorem resume_mask {m0 m : Mask} {pc : MainPc} (h : MainMask m0 pc m) : MainMask m0 pc.resume (pc.resumeMask m) := by
  cases pc with
  | suspended pid prev saved => exact h.2
  | _ => exact h

theorem start_sig (m0 : Mask) : SigInv m0 (start m0) := rfl

theorem main_sig {m0 : Mask} {s s' : State} (hf : s.frames = []) (h : SigInv m0 s) (hs : s.main = some s') :
    SigInv m0 s' := by
  have hm := h.idle hf
  unfold State.main at hs
  split at hs <;> rename_i hpc
  · cases hs
    rw [hpc] at hm
    exact .of_idle hf ⟨hm, block_chld _⟩
  · cases hs
    rw [hpc] at hm
    exact .of_idle hf ⟨hm.1, block_all _⟩
  · cases hs
    rw [hpc] at hm
    exact .of_idle hf hm
  · cases hs
    rw [hpc] at hm
    refine .of_idle hf ?_
    simp only
    split <;> exact ⟨hm.1, rfl⟩
  · cases hs
    rw [hpc] at hm
    exact .of_idle hf hm
  · rw [hpc] at hm
    split at hs <;> cases hs
    · exact .of_idle hf hm
    · exact .of_idle hf ⟨rfl, hm⟩
  · cases hs
    rw [hpc] at hm
    exact .of_idle hf hm.1
  · cases hs
    rw [hpc] at hm
    exact .of_idle hf ⟨hm, block_all _⟩
  · cases hs
    rw [hpc] at hm
    exact .of_idle hf hm
  · cases hs
    rw [hpc] at hm
    exact .of_idle hf hm.1
  · cases hs

theorem gets_sig {m0 : Mask} {s s' : State} (hf : s.frames = []) (hpc : s.pc = .prompt) (h : SigInv m0 s)
    {line : Bytes} {feof : Bool} (hs : s.gets line feof = some s') : SigInv m0 s' := by
  have hm := h.idle hf
  rw [hpc] at hm
  unfold State.gets at hs
  split at hs
  · cases hs
    exact .of_idle hf trivial
  · obtain ⟨c, -, rfl⟩ := Option.map_eq_some_iff.1 hs
    cases c with
    | blank => exact h
    | ignored => exact h
    | quit => exact .of_idle hf trivial
    | jobs => exact .of_idle hf hm
    | run c => exact .of_idle hf hm

theorem fork_sig {m0 : Mask} {s s' : State} (hf : s.frames = []) (h : SigInv m0 s) {r : Option Pid}
    (hs : s.fork r = some s') : SigInv m0 s' := by
  have hm := h.idle hf
  cases r with
  | none =>
    simp only [State.fork] at hs
    split at hs <;> cases hs
    exact .of_idle hf trivial
  | some pid =>
    simp only [State.fork] at hs
    split at hs
    · rename_i hpc
      rw [hpc] at hm
      split at hs <;> cases hs
      exact .of_idle hf hm
    · cases hs

theorem deliver_sig {m0 : Mask} {s s' : State} (h : SigInv m0 s) (hs : s.deliver = some s') : SigInv m0 s' := by
  obtain ⟨hpc, -, hopen, rfl⟩ := deliver_eq hs
  have hf := h.open hopen
  have hm := h.idle hf
  exact .of_single (f := ⟨.waitpid, s.pc.resumeMask s.mask⟩) (by rw [hf]) ⟨⟨s.mask, hm, hopen, rfl⟩, hpc, block_chld _, trivial⟩

theorem handler_sig {m0 : Mask} {s s' : State} (h : SigInv m0 s) (hs : s.handler = some s') : SigInv m0 s' := by
  unfold State.handler at hs
  split at hs
  · cases hs
  · rename_i f fs hf
    obtain ⟨rfl, ⟨m, hm, hopen, hsaved⟩, hover, hblocked, hprev⟩ := h.single hf
    split at hs <;> cases hs <;> rename_i hpc
    · exact .of_single rfl ⟨⟨m, hm, hopen, hsaved⟩, hover, block_all _, hblocked⟩
    · rw [hpc] at hprev
      exact .of_single rfl ⟨⟨m, hm, hopen, hsaved⟩, hover, hblocked, hprev⟩
    · rw [hpc] at hprev
      exact .of_single rfl ⟨⟨m, hm, hopen, hsaved⟩, hover, hprev, trivial⟩
    · exact .of_single rfl ⟨⟨m, hm, hopen, hsaved⟩, hover, hblocked, trivial⟩
    · exact .of_idle rfl (hsaved ▸ resume_mask hm)

theorem waitpid_sig {m0 : Mask} {s s' : State} (h : SigInv m0 s) {r : Option Pid} (hs : s.waitpid r = some s') :
    SigInv m0 s' := by
  unfold State.waitpid at hs
  split at hs
  · rename_i hf
    obtain ⟨rfl, hm, hover, hblocked, -⟩ := h.single hf
    split at hs
    · split at hs <;> cases hs
      exact .of_single rfl ⟨hm, hover, hblocked, trivial⟩
    · split at hs <;> cases hs
      exact .of_single rfl ⟨hm, hover, hblocked, trivial⟩
  · cases hs

/-- **The masks** are right in every run. -/
theorem step_sig {m0 : Mask} (s : State) (l : Label) (s' : State) (h : SigInv m0 s) (hs : step s l = some s') :
    SigInv m0 s' := by
  cases l with
  | main =>
    obtain ⟨hf, hs⟩ := step_main hs
    exact main_sig hf h hs
  | gets line feof =>
    obtain ⟨hf, hpc, hs⟩ := step_gets hs
    exact gets_sig hf hpc h hs
  | fork r =>
    obtain ⟨hf, hs⟩ := step_fork hs
    exact fork_sig hf h hs
  | handler => exact handler_sig h hs
  | waitpid r => exact waitpid_sig h hs
  | deliver => exact deliver_sig h hs
  | kid pid i =>
    rw [kid_eq hs]
    exact h
  | spurious =>
    cases hs
    exact h

/-! ## The job table -/

def pids (l : List (Pid × Bool)) : List Pid := l.map (·.1)

/-- The child that was forked and is not in the table yet. -/
def MainPc.newborn : MainPc → Option (Pid × Bool)
  | .blockAll c pid _ => some (pid, c.bg)
  | .addJob c pid _ => some (pid, c.bg)
  | _ => none

/-- The child of the foreground command that `eval` has in hand. -/
def MainPc.foreground : MainPc → Option Pid
  | .blockAll c pid _ => if c.bg then none else some pid
  | .addJob c pid _ => if c.bg then none else some pid
  | .setChld c pid _ => if c.bg then none else some pid
  | .fgClear pid _ => some pid
  | .waitTest pid _ => some pid
  | .suspended pid _ _ => some pid
  | _ => none

/-- The child that the waiting loop of `eval` is about (`:206-208`). -/
def MainPc.waiting : MainPc → Option Pid
  | .waitTest pid _ => some pid
  | .suspended pid _ _ => some pid
  | _ => none

/-- The child that was reaped and is not deleted from the table yet. -/
def HandlerPc.holding : HandlerPc → Option Pid
  | .block pid => some pid
  | .delete pid _ => some pid
  | _ => none

/-- The foreground child that was deleted from the table, with `fg_done = 1` still to come. -/
def HandlerPc.reporting : HandlerPc → Option Pid
  | .setmask pid (some false) _ => some pid
  | .notify pid (some false) => some pid
  | _ => none

def State.holding (s : State) : Option Pid := s.frames.head?.bind (·.pc.holding)
def State.reporting (s : State) : Option Pid := s.frames.head?.bind (·.pc.reporting)

structure TableInv (s : State) : Prop where
  kidsNodup : (pids s.children).Nodup
  kidsPos   : 0 ∉ pids s.children
  jobsNodup : (pids (entries s.jobs)).Nodup
  slots     : s.jobs.length = MAXJOBS
  sub       : ∀ e ∈ entries s.jobs, e ∈ s.children ∨ s.holding = some e.1
  held      : ∀ p, s.holding = some p → p ≠ 0 ∧ p ∉ pids s.children
  newborn   : ∀ e, s.pc.newborn = some e → e ∈ s.children ∧ e.1 ∉ pids (entries s.jobs)
  fgKid     : ∀ p, (p, false) ∈ s.children → s.pc.foreground = some p
  fgJob     : ∀ p, (p, false) ∈ entries s.jobs → s.pc.foreground = some p
  reported  : ∀ p, s.reporting = some p →
    s.pc.foreground = some p ∧ p ∉ pids s.children ∧ p ∉ pids (entries s.jobs)
  done      : ∀ p, s.pc.waiting = some p → s.fgDone = true → p ∉ pids s.children ∧ p ∉ pids (entries s.jobs)

theorem mem_pids {p : Pid} {b : Bool} {l : List (Pid × Bool)} (h : (p, b) ∈ l) : p ∈ pids l :=
  List.mem_map.2 ⟨(p, b), h, rfl⟩

theorem holding_nil {s : State} (h : s.frames = []) : s.holding = none := by
  simp [State.holding, h]

theorem reporting_nil {s : State} (h : s.frames = []) : s.reporting = none := by
  simp [State.reporting, h]

theorem start_table (m0 : Mask) : TableInv (start m0) where
  kidsNodup := List.nodup_nil
  kidsPos := List.not_mem_nil
  jobsNodup := by rw [show (start m0).jobs = initJobs from rfl, initJobs_entries]; exact List.nodup_nil
  slots := rfl
  sub := by rw [show (start m0).jobs = initJobs from rfl, initJobs_entries]; nofun
  held := nofun
  newborn := nofun
  fgKid := nofun
  fgJob := by rw [show (start m0).jobs = initJobs from rfl, initJobs_entries]; nofun
  reported := nofun
  done := nofun

/-- Neither the table nor a child is touched. -/
theorem TableInv.same {s s' : State} (h : TableInv s) (hkids : s'.children = s.children) (hjobs : s'.jobs = s.jobs)
    (hhold : s'.holding = s.holding) (hrep : ∀ p, s'.reporting = some p → s.reporting = some p)
    (hnew : ∀ e, s'.pc.newborn = some e → s.pc.newborn = some e) (hfg : s.pc.foreground = s'.pc.foreground)
    (hdone : ∀ p, s'.pc.waiting = some p → s'.fgDone = true →
      p ∉ pids s.children ∧ p ∉ pids (entries s.jobs)) : TableInv s' where
  kidsNodup := hkids ▸ h.kidsNodup
  kidsPos := hkids ▸ h.kidsPos
  jobsNodup := hjobs ▸ h.jobsNodup
  slots := hjobs ▸ h.slots
  sub := by rw [hkids, hjobs, hhold]; exact h.sub
  held := by rw [hkids, hhold]; exact h.held
  newborn := by rw [hkids, hjobs]; exact fun e he => h.newborn e (hnew e he)
  fgKid := by rw [hkids, ← hfg]; exact h.fgKid
  fgJob := by rw [hjobs, ← hfg]; exact h.fgJob
  reported := by rw [hkids, hjobs, ← hfg]; exact fun p hp => h.reported p (hrep p hp)
  done := by rw [hkids, hjobs]; exact hdone

/-- `main` moves on and touches neither the table nor a child. -/
theorem TableInv.move {s : State} (h : TableInv s) {pc : MainPc} {mask : Mask} {fgDone : Bool}
    (hnew : ∀ e, pc.newborn = some e → s.pc.newborn = some e) (hfg : s.pc.foreground = pc.foreground)
    (hdone : ∀ p, pc.waiting = some p → fgDone = true → s.pc.waiting = some p ∧ s.fgDone = true) :
    TableInv { s with pc := pc, mask := mask, fgDone := fgDone } :=
  h.same rfl rfl rfl (fun _ hp => hp) hnew hfg fun p hw hd => h.done p (hdone p hw hd).1 (hdone p hw hd).2

/-- The waiting loop is left when the foreground child is gone. -/
theorem TableInv.leave {s : State} (h : TableInv s) (hf : s.frames = []) {p : Pid} {prev : Mask}
    (hpc : s.pc = .waitTest p prev) (hd : s.fgDone = true) : TableInv { s with pc := .restore prev } := by
  obtain ⟨hkid, hjob⟩ := h.done p (by rw [hpc]; rfl) hd
  have hfg : ∀ q, s.pc.foreground = some q → q = p := by
    intro q hq
    rw [hpc] at hq
    exact (Option.some.inj hq).symm
  refine ⟨h.kidsNodup, h.kidsPos, h.jobsNodup, h.slots, h.sub, h.held, nofun, fun q hq => ?_, fun q hq => ?_,
    fun q hq => ?_, nofun⟩
  · obtain rfl := hfg q (h.fgKid q hq)
    exact absurd (mem_pids hq) hkid
  · obtain rfl := hfg q (h.fgJob q hq)
    exact absurd (mem_pids hq) hjob
  · have := reporting_nil hf
    rw [show s.reporting = some q from hq] at this
    cases this

/-- `add_job` for the child just forked, with a free slot or without. -/
theorem TableInv.add {s : State} (h : TableInv s) {c : Cmd} {pid : Pid} {prev : Mask}
    (hpc : s.pc = .addJob c pid prev) :
    TableInv { s with pc := .setChld c pid prev, jobs := addJob pid c.bg c.cmdline s.jobs } := by
  obtain ⟨hkid, hnot⟩ := h.newborn (pid, c.bg) (by rw [hpc]; rfl)
  have hpid : pid ≠ 0 := fun h0 => h.kidsPos (h0 ▸ mem_pids hkid)
  have hfg : ∀ q, s.pc.foreground = some q → (MainPc.setChld c pid prev).foreground = some q := by
    rw [hpc]
    exact fun q hq => hq
  by_cases hroom : Room s.jobs
  · have hperm := addJob_spec hpid c.bg c.cmdline hroom
    refine ⟨h.kidsNodup, h.kidsPos, ?_, by simp [h.slots], fun e he => ?_, h.held, nofun, fun q hq => hfg q (h.fgKid q hq),
      fun q hq => ?_, fun q hq => ?_, nofun⟩
    · exact (hperm.map _).nodup_iff.2 (List.nodup_cons.2 ⟨hnot, h.jobsNodup⟩)
    · rcases List.mem_cons.1 (hperm.mem_iff.1 he) with rfl | he
      · exact .inl hkid
      · exact h.sub e he
    · rcases List.mem_cons.1 (hperm.mem_iff.1 hq) with heq | hq
      · -- the job entered is a foreground job: it is the one in hand
        obtain ⟨rfl, hbg⟩ := Prod.mk.inj heq
        show (if c.bg then none else some q) = some q
        rw [← hbg]
        rfl
      · exact hfg q (h.fgJob q hq)
    · obtain ⟨h1, h2, h3⟩ := h.reported q hq
      refine ⟨hfg q h1, h2, fun hmem => ?_⟩
      rcases List.mem_cons.1 ((hperm.map _).mem_iff.1 hmem) with rfl | hmem
      · exact h2 (mem_pids hkid)
      · exact h3 hmem
  · rw [addJob_full hroom]
    exact ⟨h.kidsNodup, h.kidsPos, h.jobsNodup, h.slots, h.sub, h.held, nofun, fun q hq => hfg q (h.fgKid q hq),
      fun q hq => hfg q (h.fgJob q hq), fun q hq => ⟨hfg q (h.reported q hq).1, (h.reported q hq).2⟩, nofun⟩

theorem main_table {s s' : State} (hf : s.frames = []) (h : TableInv s) (hs : s.main = some s') : TableInv s' := by
  unfold State.main at hs
  split at hs <;> rename_i hpc
  · cases hs
    exact h.move nofun (by rw [hpc]; rfl) nofun
  · cases hs
    exact h.move (by rw [hpc]; exact fun e he => he) (by rw [hpc]; rfl) nofun
  · cases hs
    exact h.add hpc
  · rename_i c pid prev
    cases hs
    refine h.move ?_ ?_ ?_
    · split <;> nofun
    · rw [hpc]
      cases hbg : c.bg <;> simp [MainPc.foreground, hbg]
    · split <;> nofun
  · cases hs
    exact h.move nofun (by rw [hpc]; rfl) nofun
  · split at hs <;> cases hs
    · rename_i hd
      exact h.leave hf hpc hd
    · exact h.move nofun (by rw [hpc]; rfl) (by rw [hpc]; exact fun p hw hd => ⟨hw, hd⟩)
  · cases hs
    exact h.move nofun (by rw [hpc]; rfl) nofun
  · cases hs
    exact h.move nofun (by rw [hpc]; rfl) nofun
  · cases hs
    exact h.move nofun (by rw [hpc]; rfl) nofun
  · cases hs
    exact h.move nofun (by rw [hpc]; rfl) nofun
  · cases hs

theorem gets_table {s s' : State} (hpc : s.pc = .prompt) (h : TableInv s) {line : Bytes} {feof : Bool}
    (hs : s.gets line feof = some s') : TableInv s' := by
  unfold State.gets at hs
  split at hs
  · cases hs
    exact h.move nofun (by rw [hpc]; rfl) nofun
  · obtain ⟨c, -, rfl⟩ := Option.map_eq_some_iff.1 hs
    cases c with
    | blank => exact h
    | ignored => exact h
    | quit => exact h.move nofun (by rw [hpc]; rfl) nofun
    | jobs => exact h.move nofun (by rw [hpc]; rfl) nofun
    | run c => exact h.move nofun (by rw [hpc]; rfl) nofun

/-- A new child: its pid is neither a child's nor, with no handler active, in the table. -/
theorem fork_table {s s' : State} (hf : s.frames = []) (h : TableInv s) {r : Option Pid} (hs : s.fork r = some s') :
    TableInv s' := by
  cases r with
  | none =>
    simp only [State.fork] at hs
    split at hs <;> cases hs
    rename_i hpc
    exact h.move nofun (by rw [hpc]; rfl) nofun
  | some pid =>
    simp only [State.fork] at hs
    split at hs
    · rename_i c prev hpc
      split at hs <;> cases hs
      rename_i hfresh
      have h0 : pid ≠ 0 := fun h0 => hfresh (.inl h0)
      have hkid : pid ∉ pids s.children := fun hmem => hfresh (.inr hmem)
      have hjob : ∀ e ∈ entries s.jobs, e ∈ s.children := fun e he =>
        (h.sub e he).resolve_right (by rw [holding_nil hf]; nofun)
      have hnofg : ∀ q, (q, false) ∉ s.children := fun q hq => by
        have := h.fgKid q hq
        rw [hpc] at this
        cases this
      refine ⟨List.nodup_cons.2 ⟨hkid, h.kidsNodup⟩, ?_, h.jobsNodup, h.slots,
        fun e he => .inl (List.mem_cons_of_mem _ (hjob e he)), fun q hq => ?_, fun e he => ?_, fun q hq => ?_,
        fun q hq => absurd (hjob _ hq) (hnofg q), fun q hq => ?_, nofun⟩
      · intro hmem
        rcases List.mem_cons.1 hmem with heq | hmem
        · exact h0 heq.symm
        · exact h.kidsPos hmem
      · have := holding_nil hf
        rw [show s.holding = some q from hq] at this
        cases this
      · cases he
        refine ⟨List.mem_cons_self .., fun hmem => ?_⟩
        obtain ⟨e, he, rfl⟩ := List.mem_map.1 hmem
        exact hkid (mem_pids (hjob e he))
      · rcases List.mem_cons.1 hq with heq | hq
        · obtain ⟨rfl, hbg⟩ := Prod.mk.inj heq
          show (if c.bg then none else some q) = some q
          rw [show c.bg = false from hbg.symm]
          rfl
        · exact absurd hq (hnofg q)
      · have := reporting_nil hf
        rw [show s.reporting = some q from hq] at this
        cases this
    · cases hs

theorem resume_newborn (pc : MainPc) : pc.resume.newborn = pc.newborn := by
  cases pc <;> rfl

theorem resume_foreground (pc : MainPc) : pc.resume.foreground = pc.foreground := by
  cases pc <;> rfl

theorem resume_waiting (pc : MainPc) : pc.resume.waiting = pc.waiting := by
  cases pc <;> rfl

theorem waiting_foreground {pc : MainPc} {p : Pid} (h : pc.waiting = some p) : pc.foreground = some p := by
  cases pc <;> first | exact h | cases h

/-- The child that `eval` will wait for or waits for, from `add_job` on. -/
def MainPc.awaited : MainPc → Option Pid
  | .setChld c pid _ => if c.bg then none else some pid
  | .fgClear pid _ => some pid
  | .waitTest pid _ => some pid
  | .suspended pid _ _ => some pid
  | _ => none

/-- `SIGCHLD` is not let through between `fork` and `add_job`, nor from there to the waiting loop. -/
theorem MainMask.open {m0 m : Mask} {pc : MainPc} (h : MainMask m0 pc m) (hm : m SIGCHLD = false) :
    pc.newborn = none ∧ pc.awaited = pc.waiting := by
  have hblocked : ∀ {prev : Mask}, ¬ (prev = m0 ∧ m SIGCHLD = true) := by
    rintro prev ⟨-, ht⟩
    rw [hm] at ht
    cases ht
  cases pc with
  | blockAll => exact absurd h hblocked
  | addJob => exact absurd h hblocked
  | setChld => exact absurd h hblocked
  | fgClear => exact absurd h hblocked
  | _ => exact ⟨rfl, rfl⟩

theorem FrameOk.open {m0 : Mask} {pc : MainPc} {mask : Mask} {f : Frame} (h : FrameOk m0 pc mask f) :
    pc.newborn = none ∧ pc.awaited = pc.waiting := by
  obtain ⟨m, hm, hopen, -⟩ := h.under
  exact hm.open hopen

theorem mem_of_perm_cons {e x : Pid × Bool} {l l' : List (Pid × Bool)} (h : l.Perm (x :: l')) (he : e ∈ l') : e ∈ l :=
  h.mem_iff.2 (List.mem_cons_of_mem _ he)

/-- `delete_job` for the child just reaped, in the table or not. -/
theorem delete_table {s : State} (h : TableInv s) {f : Frame} {fs : List Frame} (hf : s.frames = f :: fs)
    {pid : Pid} {prev : Mask} (hpc : f.pc = .delete pid prev) :
    TableInv { s with
      jobs := (deleteJob pid s.jobs).2
      frames := ⟨.setmask pid (deleteJob pid s.jobs).1 prev, f.saved⟩ :: fs } := by
  have hhold : s.holding = some pid := by simp [State.holding, hf, hpc, HandlerPc.holding]
  obtain ⟨hpid, hkid⟩ := h.held pid hhold
  by_cases hin : pid ∈ pids (entries s.jobs)
  · obtain ⟨⟨p, bg⟩, hmem, rfl⟩ := List.mem_map.1 hin
    obtain ⟨hbg, hperm⟩ := deleteJob_spec h.jobsNodup hmem
    have hnodup : (pids ((p, bg) :: entries (deleteJob p s.jobs).2)).Nodup :=
      (hperm.map Prod.fst).nodup_iff.1 h.jobsNodup
    have hnot : p ∉ pids (entries (deleteJob p s.jobs).2) := (List.nodup_cons.1 hnodup).1
    have hsub : ∀ q, q ∉ pids (entries s.jobs) → q ∉ pids (entries (deleteJob p s.jobs).2) := fun q hq hmem =>
      hq ((hperm.map (·.1)).mem_iff.2 (List.mem_cons_of_mem _ hmem))
    refine ⟨h.kidsNodup, h.kidsPos, (List.nodup_cons.1 hnodup).2, by simp [h.slots], fun e he => ?_, nofun,
      fun e he => ⟨(h.newborn e he).1, hsub _ (h.newborn e he).2⟩, h.fgKid,
      fun q hq => h.fgJob q (mem_of_perm_cons hperm hq), fun q hq => ?_,
      fun q hw hd => ⟨(h.done q hw hd).1, hsub _ (h.done q hw hd).2⟩⟩
    · rcases h.sub e (mem_of_perm_cons hperm he) with hk | hk
      · exact .inl hk
      · -- the only entry that was not a child's is the one deleted
        rw [hhold] at hk
        cases hk
        exact absurd (mem_pids he) hnot
    · rw [hbg] at hq
      cases bg with
      | true => cases hq
      | false =>
        cases hq
        exact ⟨h.fgJob p hmem, hkid, hnot⟩
  · rw [deleteJob_absent hpid hin]
    refine ⟨h.kidsNodup, h.kidsPos, h.jobsNodup, h.slots, fun e he => ?_, nofun, h.newborn, h.fgKid, h.fgJob, nofun,
      h.done⟩
    rcases h.sub e he with hk | hk
    · exact .inl hk
    · rw [hhold] at hk
      cases hk
      exact absurd (mem_pids he) hin

theorem handler_table {m0 : Mask} {s s' : State} (hsig : SigInv m0 s) (h : TableInv s) (hs : s.handler = some s') :
    TableInv s' := by
  unfold State.handler at hs
  split at hs
  · cases hs
  · rename_i f fs hf
    obtain ⟨rfl, -⟩ := hsig.single hf
    split at hs <;> cases hs <;> rename_i hpc
    · refine h.same rfl rfl ?_ nofun (fun _ he => he) rfl h.done
      simp [State.holding, hf, hpc, HandlerPc.holding]
    · exact delete_table h hf hpc
    · rename_i pid bg prev
      refine h.same rfl rfl ?_ (fun p hp => ?_) (fun _ he => he) rfl h.done
      · simp [State.holding, hf, hpc, HandlerPc.holding]
      · simp only [State.reporting, hf, hpc, List.head?_cons, Option.bind_some] at hp ⊢
        rcases bg with _ | _ | _ <;> exact hp
    · rename_i pid bg
      refine h.same rfl rfl ?_ nofun (fun _ he => he) rfl fun p hw hd => ?_
      · simp [State.holding, hf, hpc, HandlerPc.holding]
      · by_cases hbg : bg = some false
        · -- the job whose end sets `fg_done` is the one `eval` waits for
          have hrep : s.reporting = some pid := by simp [State.reporting, hf, hpc, hbg, HandlerPc.reporting]
          obtain ⟨h1, h2⟩ := h.reported pid hrep
          rw [waiting_foreground hw] at h1
          cases h1
          exact h2
        · simp only [hbg, if_false] at hd
          exact h.done p hw hd
    · refine h.same rfl rfl ?_ nofun ?_ (resume_foreground _).symm fun p hw hd => ?_
      · simp [State.holding, hf, hpc, HandlerPc.holding]
      · rw [resume_newborn]
        exact fun _ he => he
      · rw [resume_waiting] at hw
        exact h.done p hw hd

/-- What `waitpid` leaves: the children with another pid. -/
theorem children_filter (kids : List Kid) (pid : Pid) :
    (kids.filter (·.pid ≠ pid)).map Kid.key = (kids.map Kid.key).filter (·.1 ≠ pid) := by
  rw [List.filter_map]
  rfl

theorem mem_filtered {kids : List Kid} {pid : Pid} {e : Pid × Bool} :
    e ∈ (kids.filter (·.pid ≠ pid)).map Kid.key ↔ e ∈ kids.map Kid.key ∧ e.1 ≠ pid := by
  rw [children_filter, List.mem_filter, decide_eq_true_eq]

theorem mem_pids_filtered {kids : List Kid} {pid q : Pid} :
    q ∈ pids ((kids.filter (·.pid ≠ pid)).map Kid.key) ↔ q ∈ pids (kids.map Kid.key) ∧ q ≠ pid := by
  constructor
  · intro hq
    obtain ⟨e, he, rfl⟩ := List.mem_map.1 hq
    exact ⟨mem_pids (mem_filtered.1 he).1, (mem_filtered.1 he).2⟩
  · rintro ⟨hq, hne⟩
    obtain ⟨e, he, rfl⟩ := List.mem_map.1 hq
    exact mem_pids (mem_filtered.2 ⟨he, hne⟩)

theorem waitpid_table {m0 : Mask} {s s' : State} (hsig : SigInv m0 s) (h : TableInv s) {r : Option Pid}
    (hs : s.waitpid r = some s') : TableInv s' := by
  unfold State.waitpid at hs
  split at hs
  · rename_i saved fs hf
    obtain ⟨rfl, hframe⟩ := hsig.single hf
    have hhold : s.holding = none := by simp [State.holding, hf, HandlerPc.holding]
    split at hs
    · rename_i pid
      split at hs <;> cases hs
      rename_i hz
      obtain ⟨k, hk, rfl, -⟩ := hz
      have hkid : k.pid ∈ pids s.children := mem_pids (List.mem_map.2 ⟨k, hk, rfl⟩)
      refine ⟨?_, fun h0 => h.kidsPos (mem_pids_filtered.1 h0).1, h.jobsNodup, h.slots, fun e he => ?_,
        fun q hq => ?_, ?_, fun q hq => h.fgKid q (mem_filtered.1 hq).1, h.fgJob, nofun,
        fun q hw hd => ⟨fun hq => (h.done q hw hd).1 (mem_pids_filtered.1 hq).1, (h.done q hw hd).2⟩⟩
      · show (pids ((s.kids.filter (·.pid ≠ k.pid)).map Kid.key)).Nodup
        rw [children_filter]
        exact h.kidsNodup.sublist (List.filter_sublist.map _)
      · rcases h.sub e he with hc | hc
        · by_cases heq : e.1 = k.pid
          · exact .inr (by rw [heq]; rfl)
          · exact .inl (mem_filtered.2 ⟨hc, heq⟩)
        · rw [hhold] at hc
          cases hc
      · cases hq
        exact ⟨fun h0 => h.kidsPos (h0 ▸ hkid), fun hq => (mem_pids_filtered.1 hq).2 rfl⟩
      · show ∀ e, s.pc.newborn = some e → _
        rw [hframe.open.1]
        nofun
    · split at hs <;> cases hs
      exact h.same rfl rfl (by rw [hhold]; rfl) nofun (fun _ he => he) rfl h.done
  · cases hs

theorem deliver_table {m0 : Mask} {s s' : State} (hsig : SigInv m0 s) (h : TableInv s) (hs : s.deliver = some s') :
    TableInv s' := by
  obtain ⟨-, -, hopen, rfl⟩ := deliver_eq hs
  have hf := hsig.open hopen
  exact h.same rfl rfl (by rw [holding_nil hf]; rfl) nofun (fun _ he => he) rfl h.done

theorem kidStep_key {k k' : Kid} {i : KidStep} (h : kidStep k i = some k') : k'.key = k.key := by
  cases i <;> simp only [kidStep] at h <;> split at h <;> cases h <;> rfl

/-- The moves of a child do not change which children there are. -/
theorem kid_children {s s' : State} {pid : Pid} {i : KidStep} (hs : s.kid pid i = some s') :
    s'.children = s.children := by
  obtain rfl := kid_eq hs
  simp only [State.children, List.map_map]
  refine List.map_congr_left fun k _ => ?_
  simp only [Function.comp_apply]
  split
  · cases hk : kidStep k i with
    | none => rfl
    | some k' => exact kidStep_key hk
  · rfl

theorem kid_table {s s' : State} (h : TableInv s) {pid : Pid} {i : KidStep} (hs : s.kid pid i = some s') :
    TableInv s' := by
  have hc := kid_children hs
  obtain rfl := kid_eq hs
  exact h.same hc rfl rfl (fun _ hp => hp) (fun _ he => he) rfl h.done

/-- **The table** keeps its entries apart and its foreground job is the one in hand, in every run. -/
theorem step_table {m0 : Mask} (s : State) (l : Label) (s' : State) (hsig : SigInv m0 s) (h : TableInv s)
    (hs : step s l = some s') : TableInv s' := by
  cases l with
  | main =>
    obtain ⟨hf, hs⟩ := step_main hs
    exact main_table hf h hs
  | gets line feof =>
    obtain ⟨-, hpc, hs⟩ := step_gets hs
    exact gets_table hpc h hs
  | fork r =>
    obtain ⟨hf, hs⟩ := step_fork hs
    exact fork_table hf h hs
  | handler => exact handler_table hsig h hs
  | waitpid r => exact waitpid_table hsig h hs
  | deliver => exact deliver_table hsig h hs
  | kid pid i => exact kid_table h hs
  | spurious =>
    cases hs
    exact h.same rfl rfl rfl (fun _ hp => hp) (fun _ he => he) rfl h.done

end ComputerSystem.Shell
