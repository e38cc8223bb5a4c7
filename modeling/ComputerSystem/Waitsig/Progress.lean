import ComputerSystem.Lib.Progress
import ComputerSystem.Waitsig.Invariant
import Mathlib.Algebra.Order.BigOperators.Group.List
import Mathlib.Algebra.Order.Group.Nat
/-!
# No wakeup is lost

`sigsuspend` cannot miss the end of the child: as long as `main` has not come to its end something of the
program or its child can go on (`woken`), and every step but a signal from outside lowers `work`, so
that a run without end has signals from outside without end. The one condition is the mask the program
was started with: `prev` is that mask, and with `SIGCHLD` in it the first `sigsuspend` never returns for good.
-/

namespace ComputerSystem.Waitsig

/-! ## What is left to do -/

def MainPc.work : MainPc → Nat
  | .loop => 1
  | .block => 30
  | .fork _ => 29
  | .clear _ => 8
  | .test _ => 7
  | .suspended _ _ => 6
  | .restore _ => 5
  | .print => 4
  | .finished | .died => 0

def Frame.work (f : Frame) : Nat := if f.pc = .waitpid then 2 else 1

def Kid.work (k : Kid) : Nat := if k.zombie then 3 else 8

/-- A measure of what the program, its child and its handlers have to do. -/
def State.work (s : State) : Nat :=
  31 * s.left + s.pc.work + (s.frames.map Frame.work).sum + (s.kids.map Kid.work).sum +
    (if s.pending .chld then 4 else 0) + (if s.pending .int then 3 else 0)

/-- A signal from outside. -/
def Label.credit : Label → Nat
  | .raise _ => 5
  | _ => 0

theorem work_filter (pid : Pid) : ∀ (kids : List Kid) {k : Kid}, k ∈ kids → k.pid = pid →
    ((kids.filter (·.pid ≠ pid)).map Kid.work).sum + k.work ≤ (kids.map Kid.work).sum
  | [], k, hk, _ => by cases hk
  | a :: kids, k, hk, hpid => by
    have hle : ((kids.filter (·.pid ≠ pid)).map Kid.work).sum ≤ (kids.map Kid.work).sum :=
      (List.filter_sublist.map Kid.work).sum_le_sum fun _ _ => Nat.zero_le _
    rcases List.mem_cons.1 hk with rfl | hk
    · rw [List.filter_cons_of_neg (by simpa using hpid), List.map_cons, List.sum_cons]
      omega
    · have ih := work_filter pid kids hk hpid
      rw [List.filter_cons, List.map_cons, List.sum_cons]
      split
      · rw [List.map_cons, List.sum_cons]
        omega
      · omega

theorem work_exit (pid : Pid) : ∀ kids : List Kid,
    ((kids.map fun k => if k.pid = pid then { k with zombie := true } else k).map Kid.work).sum +
      (if ⟨pid, false⟩ ∈ kids then 5 else 0) ≤ (kids.map Kid.work).sum
  | [] => Nat.le_refl _
  | a :: kids => by
    have ih := work_exit pid kids
    simp only [List.map_cons, List.sum_cons, List.mem_cons]
    by_cases ha : (⟨pid, false⟩ : Kid) = a
    · subst ha
      simp only [true_or, if_true]
      have hone : Kid.work ⟨pid, true⟩ = 3 ∧ Kid.work ⟨pid, false⟩ = 8 := ⟨rfl, rfl⟩
      omega
    · have hwork : Kid.work (if a.pid = pid then { a with zombie := true } else a) ≤ a.work := by
        split
        · simp only [Kid.work, if_true]
          split <;> omega
        · exact Nat.le_refl _
      simp only [ha, false_or]
      omega

theorem step_work : Lowers step State.work Label.credit := by
  intro s l s' hs
  cases l with
  | main =>
    simp only [step] at hs
    split at hs
    · unfold State.main at hs
      split at hs
      case h_1 hpc =>
        split at hs <;> cases hs <;> simp only [State.work, hpc, MainPc.work, Label.credit] <;> omega
      case h_2 hpc =>
        cases hs
        simp only [State.work, hpc, MainPc.work, Label.credit]
        omega
      case h_3 hpc =>
        cases hs
        simp only [State.work, hpc, MainPc.work, Label.credit]
        omega
      case h_4 hpc =>
        split at hs <;> cases hs <;> simp only [State.work, hpc, MainPc.work, Label.credit] <;> omega
      case h_5 hpc =>
        cases hs
        simp only [State.work, hpc, MainPc.work, Label.credit]
        omega
      case h_6 hpc =>
        cases hs
        simp only [State.work, hpc, MainPc.work, Label.credit]
        omega
      case h_7 => cases hs
    · cases hs
  | fork r =>
    simp only [step] at hs
    split at hs
    · rename_i hpc
      split at hs <;> cases hs
      simp only [State.work, hpc, MainPc.work, Label.credit, List.map_cons, List.sum_cons, Kid.work, Bool.false_eq_true,
        if_false]
      omega
    · rename_i hpc
      cases hs
      simp only [State.work, hpc, MainPc.work, Label.credit]
      omega
    · cases hs
  | deliver sig =>
    simp only [step] at hs
    split at hs <;> cases hs
    rename_i hg
    have hpc : s.pc.resume.work ≤ s.pc.work + 1 := by
      cases s.pc <;> simp only [MainPc.resume, MainPc.work] <;> omega
    have hpend := hg.2.1
    cases sig with
    | chld =>
      simp only [State.work, Label.credit, List.map_cons, List.sum_cons, Frame.work, Sig.handler, hpend, if_true, reduceCtorEq,
        if_false]
      omega
    | int =>
      simp only [State.work, Label.credit, List.map_cons, List.sum_cons, Frame.work, Sig.handler, hpend, if_true, reduceCtorEq,
        if_false]
      omega
  | waitpid r =>
    simp only [step] at hs
    split at hs
    · rename_i hf
      split at hs <;> cases hs
      rename_i hmem
      have hkids := work_filter _ s.kids hmem rfl
      simp only [Kid.work, if_true] at hkids
      simp only [State.work, Label.credit, hf, List.map_cons, List.sum_cons, Frame.work, if_true, reduceCtorEq, if_false]
      omega
    · rename_i hf
      split at hs <;> cases hs
      simp only [State.work, Label.credit, hf, List.map_cons, List.sum_cons, Frame.work, if_true, reduceCtorEq, if_false]
      omega
    · cases hs
  | ret =>
    simp only [step] at hs
    split at hs
    · rename_i hf
      cases hs
      simp only [State.work, Label.credit, hf, List.map_cons, List.sum_cons, Frame.work, reduceCtorEq, if_false]
      omega
    · cases hs
  | exit pid =>
    simp only [step] at hs
    split at hs <;> cases hs
    rename_i hmem
    have hkids := work_exit pid s.kids
    rw [if_pos hmem] at hkids
    simp only [State.work, Label.credit, if_true, reduceCtorEq, if_false]
    split <;> omega
  | raise sig =>
    simp only [step] at hs
    split at hs <;> cases hs
    cases sig with
    | chld =>
      simp only [State.work, Label.credit, if_true, reduceCtorEq, if_false]
      split <;> omega
    | int =>
      simp only [State.work, Label.credit, if_true, reduceCtorEq, if_false]
      split <;> omega

/-! ## Something can go on -/

/-- A handler at its end, or at `waitpid` with the child ended, goes on. -/
theorem handler_next {s : State} {g : Stage} (hg : InStage s g) {f : Frame} {fs : List Frame} (hf : s.frames = f :: fs) :
    ∃ l, (NoSpurious s l ∧ l ≠ .fork none) ∧ l.credit = 0 ∧ (step s l).isSome = true := by
  obtain ⟨pc, saved⟩ := f
  cases pc with
  | ret =>
    refine ⟨.ret, ⟨by rintro ⟨⟩, by rintro ⟨⟩⟩, rfl, ?_⟩
    simp only [step, hf, Option.isSome_some]
  | waitpid =>
    have hpos : s.waits ≠ 0 := by
      unfold State.waits
      rw [hf, List.countP_cons]
      exact Nat.succ_ne_zero _
    cases g with
    | handling p =>
      have hmem : (⟨p, true⟩ : Kid) ∈ s.kids := by
        rw [hg.1]
        exact List.mem_cons_self ..
      refine ⟨.waitpid (some p), ⟨by rintro ⟨⟩, by rintro ⟨⟩⟩, rfl, ?_⟩
      simp only [step, hf, if_pos hmem, Option.isSome_some]
    | idle | running _ | ended _ => exact absurd hg.2.2 hpos

theorem main_next {s : State} (hf : s.frames = []) (hs : s.main.isSome = true) :
    ∃ l, (NoSpurious s l ∧ l ≠ .fork none) ∧ l.credit = 0 ∧ (step s l).isSome = true :=
  ⟨.main, ⟨nofun, nofun⟩, rfl, by simp only [step, hf, hs]⟩

/-- Before the end something can go on without a signal from outside, and without a `fork` that fails. -/
theorem inv_next {rounds : Nat} {s : State} (h : Inv rounds s) : s.pc.gone = true ∨
    ∃ l, (NoSpurious s l ∧ l ≠ .fork none) ∧ l.credit = 0 ∧ (step s l).isSome = true := by
  obtain ⟨g, hg⟩ := h.stage
  have hat := h.at_pc
  unfold AtPc at hat
  cases hf : s.frames with
  | cons f fs => exact .inr (handler_next hg hf)
  | nil =>
    cases hpc : s.pc with
    | loop | block | clear _ | test _ | restore _ | print =>
      refine .inr (main_next hf ?_)
      simp only [State.main, hpc, Option.isSome_some]
    | fork prev =>
      simp only [hpc] at hat
      have hfresh : ¬ (1 = 0 ∨ 1 ∈ s.kids.map (·.pid)) := by
        rw [hat.1.1]
        decide
      refine .inr ⟨.fork (some 1), ⟨by rintro ⟨⟩, by rintro ⟨⟩⟩, rfl, ?_⟩
      simp only [step, hf, hpc, if_neg hfresh, Option.isSome_some]
    | suspended prev saved =>
      simp only [hpc] at hat
      obtain ⟨p, -, -, -, -, hm, -, hrun | hend⟩ := hat
      · -- the child is still there
        have hmem : (⟨p, false⟩ : Kid) ∈ s.kids := by
          rw [hrun.1]
          exact List.mem_cons_self ..
        refine .inr ⟨.exit p, ⟨by rintro ⟨⟩, by rintro ⟨⟩⟩, rfl, ?_⟩
        simp only [step, if_pos hmem, Option.isSome_some]
      · -- it has ended, and `sigsuspend` lets its signal through
        have hguard : s.pc.gone = false ∧ s.pending .chld = true ∧ s.mask .chld = false :=
          ⟨by rw [hpc]; rfl, hend.2.1, hm⟩
        refine .inr ⟨.deliver .chld, ⟨by rintro ⟨⟩, by rintro ⟨⟩⟩, rfl, ?_⟩
        simp only [step, if_pos hguard, Option.isSome_some]
    | finished | died => exact .inl rfl

/-! ## Results -/

/-- **Each child is reaped in its round and reported once.** The lines printed are the pids of the
children in the order they were forked, without at most the last one; at the end it is all of them and
there is no child left. -/
theorem reaped_in_order {mask : Mask} (hmask : mask .chld = false) {rounds : Nat} {s : State}
    (h : Reach step NoSpurious (start mask rounds) s) :
    (s.forked.map Int.ofNat = s.printed ∨ ∃ p, s.forked.map Int.ofNat = s.printed ++ [Int.ofNat p]) ∧
    (s.pc = .finished → s.forked.map Int.ofNat = s.printed ∧ s.printed.length = rounds ∧ s.kids = []) := by
  have hinv := inv_reach hmask h
  have hat := hinv.at_pc
  unfold AtPc at hat
  constructor
  · split at hat
    · exact .inl hat.2.1.symm
    · exact .inl hat.2.1.symm
    · exact .inl hat.2.1.symm
    · obtain ⟨p, -, ho, -⟩ := hat
      exact .inr ⟨p, ho.1⟩
    · obtain ⟨p, ho, -⟩ := hat
      exact .inr ⟨p, ho.1⟩
    · obtain ⟨p, ho, -⟩ := hat
      exact .inr ⟨p, ho.1⟩
    · obtain ⟨p, ho, -⟩ := hat
      exact .inr ⟨p, ho.1⟩
    · obtain ⟨p, ho, -⟩ := hat
      exact .inr ⟨p, ho.1⟩
    · exact .inl hat.2.1.symm
    · exact .inl hat.2.symm
  · intro hpc
    simp only [hpc] at hat
    obtain ⟨hi, ht, hleft⟩ := hat
    refine ⟨ht.symm, ?_, hi.1⟩
    have hr := hinv.rounds.resolve_left (by rw [hpc]; nofun)
    rw [hpc, hleft] at hr
    rw [ht, List.length_map]
    simpa [MainPc.begun] using hr

/-- One round, in which a `SIGINT` ends the first `sigsuspend`. -/
def oneRound : List Label :=
  [.main, .main, .fork (some 7), .main, .main, .raise .int, .deliver .int, .ret, .main, .exit 7, .deliver .chld,
    .waitpid (some 7), .ret, .main, .main, .main, .main]

theorem reaped_in_order_once : ∃ s, runWhile step NoSpurious (start (fun _ => false) 1) oneRound = some s ∧
    s.printed = [7] ∧ s.forked.map Int.ofNat = s.printed ∧ s.printed.length = 1 ∧ s.kids = [] := by
  have hend : (runWhile step NoSpurious (start (fun _ => false) 1) oneRound).map
      (fun s => (s.printed, s.pc.gone, s.forked)) = some ([7], true, [7]) := by decide +kernel
  obtain ⟨s, hs, heq⟩ := Option.map_eq_some_iff.1 hend
  obtain ⟨hprinted, hrest⟩ := Prod.mk.inj heq
  have hdone : s.pc = .finished := by
    have hpc : (runWhile step NoSpurious (start (fun _ => false) 1) oneRound).map (·.pc) = some .finished := by rfl
    rw [hs] at hpc
    exact Option.some.inj hpc
  exact ⟨s, hs, hprinted, (reaped_in_order (show (fun _ => false : Mask) .chld = false from rfl) (runWhile_reach hs)).2 hdone⟩

theorem credit_sum (ls : List Label) : (ls.map Label.credit).sum = 5 * ls.countP (·.credit != 0) := by
  induction ls with
  | nil => rfl
  | cons l ls ih =>
    rw [List.map_cons, List.sum_cons, ih, List.countP_cons]
    cases l <;> simp [Label.credit, Nat.mul_add, Nat.add_comm]

/-- **No wakeup is lost.** Where the program has not come to its end, the program, its child or a pending
signal can go on; and a run has at most `work` steps, with five more for each signal from outside. -/
theorem woken {mask : Mask} (hmask : mask .chld = false) {rounds : Nat} {s : State}
    (h : Reach step NoSpurious (start mask rounds) s) :
    (s.pc.gone = true ∨ ∃ l, (∀ sig, l ≠ .raise sig) ∧ (step s l).isSome = true) ∧
    ∀ ls s', runFrom step s ls = some s' → ls.length ≤ s.work + 5 * ls.countP (·.credit != 0) := by
  constructor
  · rcases inv_next (inv_reach hmask h) with hgone | ⟨l, -, hfree, hsome⟩
    · exact .inl hgone
    · refine .inr ⟨l, ?_, hsome⟩
      rintro sig rfl
      cases hfree
  · intro ls s' hrun
    have hbound := runFrom_bound step_work ls hrun
    rw [credit_sum] at hbound
    omega

/-- Asleep while the child runs: the child goes on, and at most fourteen steps are left. -/
theorem woken_asleep : ∃ s, runWhile step NoSpurious (start (fun _ => false) 1)
      [.main, .main, .fork (some 7), .main, .main] = some s ∧
    (s.pc.gone = true ∨ ∃ l, (∀ sig, l ≠ .raise sig) ∧ (step s l).isSome = true) ∧
    ∀ ls s', runFrom step s ls = some s' → ls.length ≤ s.work + 5 * ls.countP (·.credit != 0) := by
  have hsome : (runWhile step NoSpurious (start (fun _ => false) 1) [.main, .main, .fork (some 7), .main, .main]).isSome =
      true := by decide +kernel
  obtain ⟨s, hs⟩ := Option.isSome_iff_exists.1 hsome
  exact ⟨s, hs, woken (show (fun _ => false : Mask) .chld = false from rfl) (runWhile_reach hs)⟩

/-- Where `main` can be when the handler never runs. -/
def DeafAt (s : State) : Prop :=
  match s.pc with
  | .loop => s.left ≠ 0
  | .block | .died => True
  | .fork prev | .clear prev => prev .chld = true
  | .test prev => prev .chld = true ∧ s.pid = 0
  | .suspended prev saved => prev .chld = true ∧ saved .chld = true ∧ s.pid = 0
  | .restore _ | .print | .finished => False

/-- `SIGCHLD` in every mask. -/
structure Deaf (s : State) : Prop where
  masked : Masked s true
  pc     : DeafAt s
  frames : s.waits = 0

theorem Deaf.main {s s' : State} (h : Deaf s) (hf : s.frames = []) (hs : s.main = some s') : Deaf s' := by
  have hpc := h.pc
  unfold DeafAt at hpc
  have hnil : ∀ {t : State}, t.frames = [] → t.mask .chld = true → Masked t true ∧ t.waits = 0 := by
    intro t ht hm
    refine ⟨⟨hm, fun f hmem => ?_⟩, by rw [State.waits, ht]; rfl⟩
    rw [ht] at hmem
    cases hmem
  unfold State.main at hs
  split at hs
  case h_1 hat =>
    simp only [hat] at hpc
    split at hs <;> cases hs
    · rename_i hzero
      exact absurd hzero hpc
    · exact ⟨h.masked, trivial, h.frames⟩
  case h_2 hat =>
    cases hs
    obtain ⟨hm, hw⟩ := hnil (t := { s with pc := .fork s.mask, mask := s.mask.add .chld }) hf rfl
    exact ⟨hm, h.masked.1, hw⟩
  case h_3 hat =>
    cases hs
    simp only [hat] at hpc
    exact ⟨h.masked, ⟨hpc, rfl⟩, h.frames⟩
  case h_4 prev hat =>
    simp only [hat] at hpc
    rw [if_pos hpc.2] at hs
    cases hs
    obtain ⟨hm, hw⟩ := hnil (t := { s with pc := .suspended prev s.mask, mask := prev }) hf hpc.1
    exact ⟨hm, ⟨hpc.1, h.masked.1, hpc.2⟩, hw⟩
  case h_5 hat =>
    simp only [hat] at hpc
  case h_6 hat =>
    simp only [hat] at hpc
  case h_7 => cases hs

theorem Deaf.step {s s' : State} {l : Label} (h : Deaf s) (hs : step s l = some s') : Deaf s' := by
  have hpc := h.pc
  unfold DeafAt at hpc
  cases l with
  | main =>
    simp only [Waitsig.step] at hs
    split at hs
    · rename_i hf
      exact h.main hf hs
    · cases hs
  | fork r =>
    simp only [Waitsig.step] at hs
    split at hs
    · rename_i hat
      simp only [hat] at hpc
      split at hs <;> cases hs
      exact ⟨h.masked, hpc, h.frames⟩
    · cases hs
      exact ⟨h.masked, trivial, h.frames⟩
    · cases hs
  | deliver sig =>
    simp only [Waitsig.step] at hs
    split at hs <;> cases hs
    rename_i hg
    cases sig with
    | chld => exact absurd (h.masked.1.symm.trans hg.2.2) (by decide)
    | int =>
      have hresume : s.pc.resumeMask s.mask .chld = true := by
        cases hat : s.pc with
        | suspended prev saved =>
          simp only [hat] at hpc
          exact hpc.2.1
        | _ => exact h.masked.1
      refine ⟨⟨h.masked.1, fun f hmem => ?_⟩, ?_, h.frames⟩
      · rcases List.mem_cons.1 hmem with rfl | hmem
        · exact hresume
        · exact h.masked.2 f hmem
      · unfold DeafAt
        cases hat : s.pc <;> simp only [hat] at hpc <;> simp only [MainPc.resume]
        case suspended => exact ⟨hpc.1, hpc.2.2⟩
        all_goals exact hpc
  | waitpid r =>
    have hpos : ∀ {saved fs}, s.frames = ⟨.waitpid, saved⟩ :: fs → False := by
      intro saved fs hf
      have hwaits := h.frames
      rw [State.waits, hf, List.countP_cons] at hwaits
      exact Nat.succ_ne_zero _ hwaits
    simp only [Waitsig.step] at hs
    split at hs
    · rename_i hf
      exact (hpos hf).elim
    · rename_i hf
      exact (hpos hf).elim
    · cases hs
  | ret =>
    simp only [Waitsig.step] at hs
    split at hs
    · rename_i saved fs hf
      cases hs
      refine ⟨⟨h.masked.2 ⟨.ret, saved⟩ (by rw [hf]; exact List.mem_cons_self ..), fun f hmem => h.masked.2 f ?_⟩, h.pc, ?_⟩
      · rw [hf]
        exact List.mem_cons_of_mem _ hmem
      · have hwaits := h.frames
        rw [State.waits, hf, List.countP_cons] at hwaits
        exact hwaits
    · cases hs
  | exit pid =>
    simp only [Waitsig.step] at hs
    split at hs <;> cases hs
    exact ⟨h.masked, h.pc, h.frames⟩
  | raise sig =>
    simp only [Waitsig.step] at hs
    split at hs <;> cases hs
    exact ⟨h.masked, h.pc, h.frames⟩

/-- Only a `fork` that fails ends the program early. -/
theorem not_died {s s' : State} {l : Label} (h : s.pc ≠ .died) (hl : l ≠ .fork none) (hs : step s l = some s') :
    s'.pc ≠ .died := by
  cases l with
  | main =>
    simp only [step] at hs
    split at hs
    · unfold State.main at hs
      split at hs
      case h_1 => split at hs <;> cases hs <;> rintro ⟨⟩
      case h_4 => split at hs <;> cases hs <;> rintro ⟨⟩
      case h_7 => cases hs
      all_goals cases hs; rintro ⟨⟩
    · cases hs
  | fork r =>
    simp only [step] at hs
    split at hs
    · split at hs <;> cases hs
      rintro ⟨⟩
    · exact absurd rfl hl
    · cases hs
  | deliver sig =>
    simp only [step] at hs
    split at hs <;> cases hs
    cases hpc : s.pc with
    | died => exact absurd hpc h
    | _ =>
      simp only [MainPc.resume]
      rintro ⟨⟩
  | waitpid r =>
    simp only [step] at hs
    split at hs
    · split at hs <;> cases hs
      exact h
    · split at hs <;> cases hs
      exact h
    · cases hs
  | ret =>
    simp only [step] at hs
    split at hs <;> cases hs
    exact h
  | exit pid =>
    simp only [step] at hs
    split at hs <;> cases hs
    exact h
  | raise sig =>
    simp only [step] at hs
    split at hs <;> cases hs
    exact h

/-- **The one condition**: the program comes to its end if and only if it was not started with `SIGCHLD`
blocked (`:58-59`). -/
theorem finishes_iff (mask : Mask) {rounds : Nat} (hrounds : 0 < rounds) :
    (∃ s, Reach step NoSpurious (start mask rounds) s ∧ s.pc = .finished) ↔ mask .chld = false := by
  constructor
  · rintro ⟨s, hr, hpc⟩
    cases hmask : mask .chld with
    | false => rfl
    | true =>
      have hdeaf : Deaf s := hr.invariant ⟨⟨hmask, nofun⟩, Nat.ne_of_gt hrounds, rfl⟩ fun _ _ _ h _ hs => h.step hs
      have hat := hdeaf.pc
      simp only [DeafAt, hpc] at hat
  · intro hmask
    have hkeep : ∀ s l s', (Inv rounds s ∧ s.pc ≠ .died) → (NoSpurious s l ∧ l ≠ .fork none) → step s l = some s' →
        Inv rounds s' ∧ s'.pc ≠ .died :=
      fun s l s' h hok hs => ⟨step_keeps h.1 hok.1 hs, not_died h.2 hok.2 hs⟩
    have hnext : ∀ s, (Inv rounds s ∧ s.pc ≠ .died) → s.pc = .finished ∨
        ∃ l, (NoSpurious s l ∧ l ≠ .fork none) ∧ l.credit = 0 ∧ (step s l).isSome = true := by
      intro s h
      rcases inv_next h.1 with hgone | hnext
      · left
        cases hpc : s.pc <;> simp only [hpc, MainPc.gone, reduceCtorEq] at hgone
        · rfl
        · exact absurd hpc h.2
      · exact .inr hnext
    obtain ⟨s, hr, hdone⟩ := Reach.reaches step_work hkeep hnext ⟨start_inv hmask rounds, nofun⟩
    exact ⟨s, hr.invariant (I := Reach step NoSpurious (start mask rounds)) .refl fun _ _ _ h hok hs => h.tail hok.1 hs, hdone⟩

/-- The five rounds of `:49`, from a shell's mask. -/
theorem finishes_five : ∃ s, Reach step NoSpurious (start (fun _ => false) 5) s ∧ s.pc = .finished :=
  (finishes_iff (fun _ => false) (by decide)).2 rfl

end ComputerSystem.Waitsig
