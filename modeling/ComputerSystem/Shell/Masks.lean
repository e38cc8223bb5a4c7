import ComputerSystem.Shell.Invariant
/-!
# The mask that `eval` was called under

`Chapter8/8.5-8.6/shell/main.c:81-109,148-164,182-214`. The handler and the builtin `jobs` save the mask in
force and set it again. `eval` does so with `prev`, but in between it sets `mask_chld` (`:200`), a set
of its own: from there to the next `SIG_SETMASK` of `prev` only `SIGCHLD` is blocked.

`Discipline` is what a mask `m0` in force at the prompt is owed at a point of a run, `Covered` the
invariant behind its first field. `step_covered` is one step: `:200` is the only one that may uncover `m0`.
-/

namespace ComputerSystem.Shell

/-- Every signal of `m0` is blocked. -/
def Covers (m0 m : Mask) : Prop := ∀ n, m0 n = true → m n = true

theorem Covers.refl (m0 : Mask) : Covers m0 m0 := fun _ h => h

theorem Covers.block {m0 m : Mask} (h : Covers m0 m) (set : Mask) : Covers m0 (m.block set) := by
  intro n hn
  rw [Mask.block, h n hn, Bool.true_or]

/-- `m0` without `SIGCHLD` is covered by `mask_chld` only if it is empty. -/
theorem covers_maskChld {m0 : Mask} (hchld : m0 SIGCHLD = false) : Covers m0 maskChld ↔ ∀ n, m0 n = false := by
  constructor
  · intro h n
    rw [← Bool.not_eq_true]
    intro hn
    have hsig := h n hn
    simp only [maskChld, beq_iff_eq] at hsig
    rw [hsig, hchld] at hn
    cases hn
  · intro h n hn
    rw [h n] at hn
    cases hn

/-! ## The mask in force -/

/-- The mask that `sigsuspend` will restore. -/
def MainPc.Covered (m0 : Mask) : MainPc → Prop
  | .suspended _ _ saved => Covers m0 saved
  | _ => True

/-- The mask that the handler will set. -/
def HandlerPc.Covered (m0 : Mask) : HandlerPc → Prop
  | .delete _ prev => Covers m0 prev
  | .setmask _ _ prev => Covers m0 prev
  | _ => True

/-- The mask in force blocks `m0`, and so does each that will be set again. -/
structure Covered (m0 : Mask) (s : State) : Prop where
  mask   : Covers m0 s.mask
  pc     : s.pc.Covered m0
  frames : ∀ f ∈ s.frames, Covers m0 f.saved ∧ f.pc.Covered m0

/-- `eval` stands at `:200`. -/
def MainPc.AtSetChld : MainPc → Prop
  | .setChld _ _ _ => True
  | _ => False

theorem start_covered (m0 : Mask) : Covered m0 (start m0) := ⟨Covers.refl m0, trivial, nofun⟩

/-- Neither the frames nor a mask to be restored is touched. -/
theorem Covered.at {m0 : Mask} {s s' : State} (h : Covered m0 s) (hmask : Covers m0 s'.mask) (hpc : s'.pc.Covered m0)
    (hframes : s'.frames = s.frames) : Covered m0 s' :=
  ⟨hmask, hpc, by rw [hframes]; exact h.frames⟩

theorem main_covered {m0 : Mask} {s s' : State} (hf : s.frames = []) (hsig : SigInv m0 s) (h : Covered m0 s)
    (hok : s.pc.AtSetChld → Covers m0 maskChld) (hs : s.main = some s') : Covered m0 s' := by
  have hm := hsig.idle hf
  unfold State.main at hs
  split at hs <;> rename_i hpc
  · cases hs
    exact h.at (h.mask.block _) trivial rfl
  · cases hs
    exact h.at (h.mask.block _) trivial rfl
  · cases hs
    exact h.at h.mask trivial rfl
  · -- `SIG_SETMASK` of `mask_chld`
    cases hs
    refine h.at (hok (by rw [hpc]; trivial)) ?_ rfl
    simp only
    split <;> trivial
  · cases hs
    exact h.at h.mask trivial rfl
  · rw [hpc] at hm
    split at hs <;> cases hs
    · exact h.at h.mask trivial rfl
    · exact h.at (hm.1 ▸ Covers.refl m0) h.mask rfl
  · cases hs
    rw [hpc] at hm
    exact h.at (hm.1 ▸ Covers.refl m0) trivial rfl
  · cases hs
    exact h.at (h.mask.block _) trivial rfl
  · cases hs
    exact h.at h.mask trivial rfl
  · cases hs
    rw [hpc] at hm
    exact h.at (hm.1 ▸ Covers.refl m0) trivial rfl
  · cases hs

theorem gets_covered {m0 : Mask} {s s' : State} (h : Covered m0 s) {line : Bytes} {feof : Bool}
    (hs : s.gets line feof = some s') : Covered m0 s' := by
  unfold State.gets at hs
  split at hs
  · cases hs
    exact h.at h.mask trivial rfl
  · obtain ⟨c, -, rfl⟩ := Option.map_eq_some_iff.1 hs
    cases c with
    | blank => exact h
    | ignored => exact h
    | quit => exact h.at h.mask trivial rfl
    | jobs => exact h.at h.mask trivial rfl
    | run c => exact h.at h.mask trivial rfl

theorem fork_covered {m0 : Mask} {s s' : State} (h : Covered m0 s) {r : Option Pid} (hs : s.fork r = some s') :
    Covered m0 s' := by
  cases r with
  | none =>
    simp only [State.fork] at hs
    split at hs <;> cases hs
    exact h.at h.mask trivial rfl
  | some pid =>
    simp only [State.fork] at hs
    split at hs
    · split at hs <;> cases hs
      exact h.at h.mask trivial rfl
    · cases hs

theorem resumeMask_covered {m0 m : Mask} {pc : MainPc} (hpc : pc.Covered m0) (h : Covers m0 m) :
    Covers m0 (pc.resumeMask m) := by
  cases pc with
  | suspended pid prev saved => exact hpc
  | _ => exact h

theorem resume_covered (m0 : Mask) (pc : MainPc) (h : pc.Covered m0) : pc.resume.Covered m0 := by
  cases pc with
  | suspended pid prev saved => trivial
  | _ => exact h

theorem deliver_covered {m0 : Mask} {s s' : State} (h : Covered m0 s) (hs : s.deliver = some s') : Covered m0 s' := by
  obtain ⟨-, -, -, rfl⟩ := deliver_eq hs
  refine ⟨h.mask.block _, h.pc, ?_⟩
  intro f hf
  rcases List.mem_cons.1 hf with rfl | hf
  · exact ⟨resumeMask_covered h.pc h.mask, trivial⟩
  · exact h.frames f hf

/-- The handler goes on under `mask`. -/
theorem Covered.frame {m0 : Mask} {s : State} {f : Frame} {fs : List Frame} (h : Covered m0 s) (hf : s.frames = f :: fs)
    {hpc : HandlerPc} (hframe : hpc.Covered m0) : ∀ g ∈ ⟨hpc, f.saved⟩ :: fs, Covers m0 g.saved ∧ g.pc.Covered m0 := by
  intro g hg
  rcases List.mem_cons.1 hg with rfl | hg
  · exact ⟨(h.frames f (by rw [hf]; exact List.mem_cons_self ..)).1, hframe⟩
  · exact h.frames g (by rw [hf]; exact List.mem_cons_of_mem _ hg)

theorem handler_covered {m0 : Mask} {s s' : State} (h : Covered m0 s) (hs : s.handler = some s') : Covered m0 s' := by
  unfold State.handler at hs
  split at hs
  · cases hs
  · rename_i f fs hf
    obtain ⟨hsaved, hprev⟩ := h.frames f (by rw [hf]; exact List.mem_cons_self ..)
    split at hs <;> cases hs <;> rename_i hpc
    · exact ⟨h.mask.block _, h.pc, h.frame hf h.mask⟩
    · rw [hpc] at hprev
      exact ⟨h.mask, h.pc, h.frame hf hprev⟩
    · rw [hpc] at hprev
      exact ⟨hprev, h.pc, h.frame hf trivial⟩
    · exact ⟨h.mask, h.pc, h.frame hf trivial⟩
    · exact ⟨hsaved, resume_covered m0 _ h.pc, fun g hg => h.frames g (by rw [hf]; exact List.mem_cons_of_mem _ hg)⟩

theorem waitpid_covered {m0 : Mask} {s s' : State} (h : Covered m0 s) {r : Option Pid} (hs : s.waitpid r = some s') :
    Covered m0 s' := by
  unfold State.waitpid at hs
  split at hs
  · rename_i hf
    split at hs
    · split at hs <;> cases hs
      exact ⟨h.mask, h.pc, h.frame hf trivial⟩
    · split at hs <;> cases hs
      exact ⟨h.mask, h.pc, h.frame hf trivial⟩
  · cases hs

/-- **One step** keeps `m0` blocked, unless it is that of `:200`. -/
theorem step_covered {m0 : Mask} {s s' : State} {l : Label} (hsig : SigInv m0 s) (h : Covered m0 s)
    (hok : l = .main → s.pc.AtSetChld → Covers m0 maskChld) (hs : step s l = some s') : Covered m0 s' := by
  cases l with
  | main =>
    obtain ⟨hf, hs⟩ := step_main hs
    exact main_covered hf hsig h (hok rfl) hs
  | gets line feof => exact gets_covered h (step_gets hs).2.2
  | fork r => exact fork_covered h (step_fork hs).2
  | handler => exact handler_covered h hs
  | waitpid r => exact waitpid_covered h hs
  | deliver => exact deliver_covered h hs
  | kid pid i =>
    obtain rfl := kid_eq hs
    exact h.at h.mask h.pc rfl
  | spurious =>
    cases hs
    exact h.at h.mask h.pc rfl

/-! ## The children -/

/-- A child has `prev` in hand, and behind `:190` it is its mask. -/
def KidOk (m0 : Mask) (k : Kid) : Prop := k.prev = m0 ∧ (k.pc = .execve → k.mask = m0)

theorem kidStep_ok {m0 : Mask} {k k' : Kid} {i : KidStep} (h : KidOk m0 k) (hs : kidStep k i = some k') : KidOk m0 k' := by
  cases i with
  | setmask =>
    simp only [kidStep] at hs
    split at hs <;> cases hs
    exact ⟨h.1, fun _ => h.1⟩
  | execve =>
    simp only [kidStep] at hs
    split at hs <;> cases hs
    exact ⟨h.1, by simp⟩
  | exit =>
    simp only [kidStep] at hs
    split at hs <;> cases hs
    exact ⟨h.1, by simp⟩

def KidsOk (m0 : Mask) (s : State) : Prop := ∀ k ∈ s.kids, KidOk m0 k

theorem main_kids {s s' : State} (hs : s.main = some s') : s'.kids = s.kids := by
  unfold State.main at hs
  split at hs
  case h_6 => split at hs <;> cases hs <;> rfl
  all_goals cases hs
  all_goals rfl

theorem gets_kids {s s' : State} {line : Bytes} {feof : Bool} (hs : s.gets line feof = some s') : s'.kids = s.kids := by
  unfold State.gets at hs
  split at hs
  · cases hs
    rfl
  · obtain ⟨c, -, rfl⟩ := Option.map_eq_some_iff.1 hs
    cases c <;> rfl

theorem handler_kids {s s' : State} (hs : s.handler = some s') : s'.kids = s.kids := by
  unfold State.handler at hs
  split at hs
  · cases hs
  · split at hs <;> cases hs <;> rfl

/-- **One step**: a child is forked under `prev`, which is `m0`. -/
theorem step_kids {m0 : Mask} {s s' : State} {l : Label} (hsig : SigInv m0 s) (h : KidsOk m0 s)
    (hs : step s l = some s') : KidsOk m0 s' := by
  unfold KidsOk at h ⊢
  cases l with
  | main =>
    rw [main_kids (step_main hs).2]
    exact h
  | gets line feof =>
    rw [gets_kids (step_gets hs).2.2]
    exact h
  | fork r =>
    obtain ⟨hf, hs⟩ := step_fork hs
    have hm := hsig.idle hf
    cases r with
    | none =>
      simp only [State.fork] at hs
      split at hs <;> cases hs
      exact h
    | some pid =>
      simp only [State.fork] at hs
      split at hs
      · rename_i c prev hpc
        rw [hpc] at hm
        split at hs <;> cases hs
        intro k hk
        rcases List.mem_cons.1 hk with rfl | hk
        · exact ⟨hm.1, by simp⟩
        · exact h k hk
      · cases hs
  | handler =>
    rw [handler_kids hs]
    exact h
  | waitpid r =>
    simp only [step, State.waitpid] at hs
    split at hs
    · split at hs
      · split at hs <;> cases hs
        exact fun k hk => h k (List.mem_filter.1 hk).1
      · split at hs <;> cases hs
        exact h
    · cases hs
  | deliver =>
    obtain ⟨-, -, -, rfl⟩ := deliver_eq hs
    exact h
  | kid pid i =>
    obtain rfl := kid_eq hs
    intro k hk
    obtain ⟨k₀, hk₀, rfl⟩ := List.mem_map.1 hk
    split
    · cases hstep : kidStep k₀ i with
      | none => exact h k₀ hk₀
      | some k' => exact kidStep_ok (h k₀ hk₀) hstep
    · exact h k₀ hk₀
  | spurious =>
    cases hs
    exact h

/-! ## The discipline -/

/-- From before `fork` until after `add_job` (`:189-200`). -/
def MainPc.Forking : MainPc → Prop
  | .fork _ _ | .blockAll _ _ _ | .addJob _ _ _ | .setChld _ _ _ => True
  | _ => False

/-- What is owed at a point of a run to the mask `m0` that `eval` is called under. -/
structure Discipline (m0 : Mask) (s : State) : Prop where
  /-- `eval` and the handler have every signal of `m0` blocked -/
  kept     : Covers m0 s.mask
  forking  : s.pc.Forking → s.mask SIGCHLD = true
  returned : s.pc = .prompt → s.frames = [] → s.mask = m0
  child    : ∀ k ∈ s.kids, k.pc = .execve → k.mask = m0

/-- The handler does not run there. -/
theorem SigInv.forking {m0 : Mask} {s : State} (h : SigInv m0 s) (hpc : s.pc.Forking) :
    s.frames = [] ∧ s.mask SIGCHLD = true := by
  have hmask : ∀ m, MainMask m0 s.pc m → m SIGCHLD = true := by
    intro m hm
    generalize hq : s.pc = q at hpc hm
    cases q with
    | fork c prev => exact hm.2
    | blockAll c pid prev => exact hm.2
    | addJob c pid prev => exact hm.2
    | setChld c pid prev => exact hm.2
    | _ => exact absurd hpc id
  cases hf : s.frames with
  | nil => exact ⟨rfl, hmask _ (h.idle hf)⟩
  | cons f fs =>
    obtain ⟨m, hm, hopen, -⟩ := (h.single hf).2.under
    rw [hmask m hm] at hopen
    cases hopen

theorem Discipline.of_inv {m0 : Mask} {s : State} (hsig : SigInv m0 s) (hcov : Covered m0 s) (hkids : KidsOk m0 s) :
    Discipline m0 s where
  kept := hcov.mask
  forking := fun hpc => (hsig.forking hpc).2
  returned := by
    intro hpc hf
    have hm := hsig.idle hf
    rw [hpc] at hm
    exact hm
  child := fun k hk => (hkids k hk).2

/-- **A run** that executes `:200` only under an empty mask keeps the discipline. -/
theorem reach_discipline {m0 : Mask} (hchld : m0 SIGCHLD = false) {s : State}
    (h : Reach step (fun t l => l = .main → t.pc.AtSetChld → ∀ n, m0 n = false) (start m0) s) : Discipline m0 s := by
  have hinv : SigInv m0 s ∧ Covered m0 s ∧ KidsOk m0 s := by
    apply h.invariant (I := fun s => SigInv m0 s ∧ Covered m0 s ∧ KidsOk m0 s) ⟨start_sig m0, start_covered m0, nofun⟩
    rintro s l s' ⟨hsig, hcov, hkids⟩ hok hs
    refine ⟨step_sig s l s' hsig hs, step_covered hsig hcov ?_ hs, step_kids hsig hkids hs⟩
    intro hl hpc
    exact (covers_maskChld hchld).2 (hok hl hpc)
  exact .of_inv hinv.1 hinv.2.1 hinv.2.2

/-- The step of `:200`. -/
theorem setChld_mask {m0 : Mask} {s : State} (h : SigInv m0 s) (hpc : s.pc.AtSetChld) :
    ∃ s', step s .main = some s' ∧ s'.mask = maskChld := by
  have hforking : s.pc.Forking := by
    generalize s.pc = q at hpc ⊢
    cases q with
    | setChld c pid prev => trivial
    | _ => exact absurd hpc id
  obtain ⟨hf, -⟩ := h.forking hforking
  generalize hq : s.pc = q at hpc
  cases q with
  | setChld c pid prev =>
    have hstep : step s .main = some { s with pc := if c.bg then .restore prev else .fgClear pid prev, mask := maskChld } := by
      simp only [step, hf, List.isEmpty_nil, if_true, State.main, hq]
    exact ⟨_, hstep, rfl⟩
  | _ => exact absurd hpc id

/-- **The masks of `eval`.** Under a mask `m0` that lets `SIGCHLD` through, every point of a run of the shell
keeps the discipline exactly if `m0` is empty or the run does not execute `:200`. -/
theorem eval_masks_iff (m0 : Mask) (hchld : m0 SIGCHLD = false) (ls : List Label) :
    (∀ t, Visited step (start m0) ls t → Discipline m0 t) ↔
      (∀ n, m0 n = false) ∨ ∀ t, Taken step (start m0) ls t .main → ¬ t.pc.AtSetChld := by
  constructor
  · intro h
    by_cases hsome : ∃ t, Taken step (start m0) ls t .main ∧ t.pc.AtSetChld
    · obtain ⟨t, ht, hpc⟩ := hsome
      have hreach : Reach step always (start m0) t := ht.before.reach fun _ _ _ => trivial
      have hsig : SigInv m0 t := hreach.invariant (start_sig m0) fun s l s' hs _ hstep => step_sig s l s' hs hstep
      obtain ⟨t', hstep, hmask⟩ := setChld_mask hsig hpc
      have hkept := (h t' (ht.visited hstep)).kept
      rw [hmask] at hkept
      exact .inl ((covers_maskChld hchld).1 hkept)
    · right
      intro t ht hpc
      exact hsome ⟨t, ht, hpc⟩
  · intro h t ht
    apply reach_discipline hchld
    apply ht.reach
    rintro u l htaken rfl hpc
    rcases h with h | h
    · exact h
    · exact absurd hpc (h u htaken)

/-- The shell was started with `SIGINT` blocked. -/
def maskInt : Mask := fun n => n == 2

theorem eval_masks_iff_jobs :
    (∀ t, Visited step (start maskInt) [.gets (ascii "jobs\n") false, .main, .main, .main] t → Discipline maskInt t) ↔
      (∀ n, maskInt n = false) ∨
      ∀ t, Taken step (start maskInt) [.gets (ascii "jobs\n") false, .main, .main, .main] t .main → ¬ t.pc.AtSetChld :=
  eval_masks_iff maskInt rfl _

/-- A command in the background, up to `:200`: `SIGINT` is let through. -/
theorem eval_masks_dropped : ∃ s, Visited step (start maskInt)
    [.gets (ascii "ls &\n") false, .main, .fork (some 5), .main, .main, .main] s ∧ ¬ Discipline maskInt s := by
  refine ⟨_, ⟨_, List.prefix_refl _, rfl⟩, fun h => ?_⟩
  have hint : maskChld 2 = true := h.kept 2 rfl
  exact absurd hint (by decide)

end ComputerSystem.Shell
