import ComputerSystem.Waitsig.Machine
/-!
# Every child is reaped in its round

Between the two `sigprocmask` calls a round goes through four stages: the child runs, it has ended and
`SIGCHLD` is pending, an activation of the handler is at `waitpid`, and the child is reaped. `SIGCHLD`
can be delivered only from inside `sigsuspend`, so `pid` is stored after `pid = 0` and before the test
that reads it (`Inv`).
-/

namespace ComputerSystem.Waitsig

inductive Stage
  | idle
  | running (p : Pid)
  | ended (p : Pid)
  | handling (p : Pid)

/-- The activations of `sigchld_handler` that are at `waitpid`. -/
def State.waits (s : State) : Nat := s.frames.countP (·.pc == .waitpid)

/-- What there is of the child in a stage. -/
def InStage (s : State) : Stage → Prop
  | .idle => s.kids = [] ∧ s.pending .chld = false ∧ s.waits = 0
  | .running p => s.kids = [⟨p, false⟩] ∧ s.pending .chld = false ∧ s.waits = 0
  | .ended p => s.kids = [⟨p, true⟩] ∧ s.pending .chld = true ∧ s.waits = 0
  | .handling p => s.kids = [⟨p, true⟩] ∧ s.pending .chld = false ∧ s.waits = 1

/-- The child has not been seen by a handler. -/
def Unseen (s : State) (p : Pid) : Prop := InStage s (.running p) ∨ InStage s (.ended p)

/-- `SIGCHLD` is in the mask, in every mask that a handler will restore too, or in none of them. -/
def Masked (s : State) (c : Bool) : Prop := s.mask .chld = c ∧ ∀ f ∈ s.frames, f.saved .chld = c

/-- `SIGCHLD` is in the mask that `main` will run with. -/
def Guarded (s : State) : Prop :=
  (s.frames = [] → s.mask .chld = true) ∧ ∀ f, s.frames.getLast? = some f → f.saved .chld = true

/-- All children forked are reported. -/
def Told (s : State) : Prop := s.printed = s.forked.map Int.ofNat

/-- All but the child of this round. -/
def Owed (s : State) (p : Pid) : Prop := s.forked.map Int.ofNat = s.printed ++ [Int.ofNat p] ∧ p ≠ 0

/-- What holds where `main` stands. -/
def AtPc (s : State) : Prop :=
  match s.pc with
  | .loop | .block => InStage s .idle ∧ Told s ∧ Masked s false
  | .fork prev => InStage s .idle ∧ Told s ∧ Masked s true ∧ prev .chld = false
  | .clear prev => ∃ p, Unseen s p ∧ Owed s p ∧ Masked s true ∧ prev .chld = false
  | .test prev => ∃ p, Owed s p ∧ Guarded s ∧ prev .chld = false ∧
      ((s.pid = 0 ∧ (Unseen s p ∨ InStage s (.handling p))) ∨ (s.pid = p ∧ InStage s .idle))
  | .suspended prev saved => ∃ p, Owed s p ∧ prev .chld = false ∧ saved .chld = true ∧ s.frames = [] ∧
      s.mask .chld = false ∧ s.pid = 0 ∧ Unseen s p
  | .restore prev => ∃ p, Owed s p ∧ s.pid = p ∧ InStage s .idle ∧ Masked s true ∧ prev .chld = false
  | .print => ∃ p, Owed s p ∧ s.pid = p ∧ InStage s .idle ∧ Masked s false
  | .finished => InStage s .idle ∧ Told s ∧ s.left = 0
  | .died => InStage s .idle ∧ Told s

/-- Rounds that have begun without a child yet. -/
def MainPc.begun : MainPc → Nat
  | .block | .fork _ => 1
  | _ => 0

structure Inv (rounds : Nat) (s : State) : Prop where
  at_pc  : AtPc s
  rounds : s.pc = .died ∨ s.left + s.pc.begun + s.forked.length = rounds

/-! ## Steps that leave `main` and the child alone -/

/-- Only handlers come and go, and no `sigchld_handler`. -/
structure Same (s s' : State) : Prop where
  pc      : s'.pc = s.pc
  left    : s'.left = s.left
  pid     : s'.pid = s.pid
  kids    : s'.kids = s.kids
  chld    : s'.pending .chld = s.pending .chld
  waits   : s'.waits = s.waits
  printed : s'.printed = s.printed
  forked  : s'.forked = s.forked
  masked  : ∀ c, Masked s c → Masked s' c
  guarded : Guarded s → Guarded s'
  asleep  : s.frames = [] → s.mask .chld = false → ∀ prev saved, s.pc = .suspended prev saved →
    s'.frames = [] ∧ s'.mask .chld = false

theorem Same.stage {s s' : State} (h : Same s s') {g : Stage} (hg : InStage s g) : InStage s' g := by
  cases g <;> simp only [InStage, h.kids, h.chld, h.waits] at hg ⊢ <;> exact hg

theorem Same.unseen {s s' : State} (h : Same s s') {p : Pid} (hp : Unseen s p) : Unseen s' p :=
  hp.imp h.stage h.stage

theorem Same.told {s s' : State} (h : Same s s') (ht : Told s) : Told s' := by
  unfold Told at ht ⊢
  rw [h.printed, h.forked, ht]

theorem Same.owed {s s' : State} (h : Same s s') {p : Pid} (ho : Owed s p) : Owed s' p := by
  unfold Owed at ho ⊢
  rw [h.printed, h.forked]
  exact ho

theorem Inv.same {rounds : Nat} {s s' : State} (h : Inv rounds s) (hsame : Same s s') : Inv rounds s' := by
  refine ⟨?_, by rw [hsame.pc, hsame.left, hsame.forked]; exact h.rounds⟩
  have hat := h.at_pc
  unfold AtPc at hat ⊢
  rw [hsame.pc]
  cases hpc : s.pc <;> simp only [hpc] at hat ⊢
  case loop | block => exact ⟨hsame.stage hat.1, hsame.told hat.2.1, hsame.masked _ hat.2.2⟩
  case fork => exact ⟨hsame.stage hat.1, hsame.told hat.2.1, hsame.masked _ hat.2.2.1, hat.2.2.2⟩
  case clear =>
    obtain ⟨p, hu, ho, hm, hprev⟩ := hat
    exact ⟨p, hsame.unseen hu, hsame.owed ho, hsame.masked _ hm, hprev⟩
  case test =>
    obtain ⟨p, ho, hg, hprev, hstage⟩ := hat
    refine ⟨p, hsame.owed ho, hsame.guarded hg, hprev, ?_⟩
    rw [hsame.pid]
    exact hstage.imp (fun h => ⟨h.1, h.2.imp hsame.unseen hsame.stage⟩) fun h => ⟨h.1, hsame.stage h.2⟩
  case suspended =>
    obtain ⟨p, ho, hprev, hsaved, hframes, hmask, hpid, hu⟩ := hat
    obtain ⟨hframes', hmask'⟩ := hsame.asleep hframes hmask _ _ hpc
    exact ⟨p, hsame.owed ho, hprev, hsaved, hframes', hmask', hsame.pid.trans hpid, hsame.unseen hu⟩
  case restore =>
    obtain ⟨p, ho, hpid, hi, hm, hprev⟩ := hat
    exact ⟨p, hsame.owed ho, hsame.pid.trans hpid, hsame.stage hi, hsame.masked _ hm, hprev⟩
  case print =>
    obtain ⟨p, ho, hpid, hi, hm⟩ := hat
    exact ⟨p, hsame.owed ho, hsame.pid.trans hpid, hsame.stage hi, hsame.masked _ hm⟩
  case finished => exact ⟨hsame.stage hat.1, hsame.told hat.2.1, hsame.left.trans hat.2.2⟩
  case died => exact ⟨hsame.stage hat.1, hsame.told hat.2⟩

/-! ## What the stages allow -/

theorem stage_kids {s : State} {g : Stage} (h : InStage s g) (k : Kid) (hk : k ∈ s.kids) :
    (∃ p, g = .running p ∧ k = ⟨p, false⟩) ∨ (∃ p, (g = .ended p ∨ g = .handling p) ∧ k = ⟨p, true⟩) := by
  cases g <;> rw [h.1] at hk
  case idle => cases hk
  case running p => exact .inl ⟨p, rfl, List.mem_singleton.1 hk⟩
  case ended p => exact .inr ⟨p, .inl rfl, List.mem_singleton.1 hk⟩
  case handling p => exact .inr ⟨p, .inr rfl, List.mem_singleton.1 hk⟩

/-- Where `main` stands decides the stage. -/
theorem Inv.stage {rounds : Nat} {s : State} (h : Inv rounds s) : ∃ g, InStage s g := by
  have hat := h.at_pc
  unfold AtPc at hat
  split at hat
  · exact ⟨_, hat.1⟩
  · exact ⟨_, hat.1⟩
  · exact ⟨_, hat.1⟩
  · obtain ⟨p, hu, -⟩ := hat
    exact hu.elim (fun h => ⟨_, h⟩) fun h => ⟨_, h⟩
  · obtain ⟨p, -, -, -, ⟨-, (hu | hu) | hh⟩ | ⟨-, hi⟩⟩ := hat
    · exact ⟨_, hu⟩
    · exact ⟨_, hu⟩
    · exact ⟨_, hh⟩
    · exact ⟨_, hi⟩
  · obtain ⟨p, -, -, -, -, -, -, hu⟩ := hat
    exact hu.elim (fun h => ⟨_, h⟩) fun h => ⟨_, h⟩
  · obtain ⟨p, -, -, hi, -⟩ := hat
    exact ⟨_, hi⟩
  · obtain ⟨p, -, -, hi, -⟩ := hat
    exact ⟨_, hi⟩
  · exact ⟨_, hat.1⟩
  · exact ⟨_, hat.1⟩

/-! ## One step -/

theorem main_keeps {rounds : Nat} {s s' : State} (h : Inv rounds s) (hf : s.frames = []) (hs : s.main = some s') :
    Inv rounds s' := by
  have hat := h.at_pc
  have hr := h.rounds
  have hmasked : ∀ {t : State}, t.frames = [] → Masked t (t.mask .chld) := by
    intro t ht
    refine ⟨rfl, fun f hmem => ?_⟩
    rw [ht] at hmem
    cases hmem
  unfold AtPc at hat
  unfold State.main at hs
  split at hs
  case h_1 hpc =>
    simp only [hpc] at hat hr
    obtain ⟨hi, ht, hm⟩ := hat
    have hr : s.left + 0 + s.forked.length = rounds := hr.resolve_left nofun
    split at hs <;> cases hs
    · rename_i hleft
      exact ⟨⟨hi, ht, hleft⟩, .inr hr⟩
    · rename_i hleft
      refine ⟨⟨hi, ht, hm⟩, .inr ?_⟩
      show s.left - 1 + 1 + s.forked.length = rounds
      omega
  case h_2 hpc =>
    cases hs
    simp only [hpc] at hat hr
    obtain ⟨hi, ht, hm⟩ := hat
    have hm' : Masked { s with pc := .fork s.mask, mask := s.mask.add .chld } true := hmasked hf
    exact ⟨⟨hi, ht, hm', hm.1⟩, .inr (hr.resolve_left nofun)⟩
  case h_3 prev hpc =>
    cases hs
    simp only [hpc] at hat hr
    obtain ⟨p, hu, ho, hm, hprev⟩ := hat
    refine ⟨⟨p, ho, ⟨fun _ => hm.1, fun f hlast => hm.2 f (List.mem_of_getLast? hlast)⟩, hprev, .inl ⟨rfl, .inl hu⟩⟩,
      .inr (hr.resolve_left nofun)⟩
  case h_4 prev hpc =>
    simp only [hpc] at hat hr
    obtain ⟨p, ho, hg, hprev, hstage⟩ := hat
    split at hs <;> cases hs
    · rename_i hpid
      refine ⟨⟨p, ho, hprev, hg.1 hf, hf, hprev, hpid, ?_⟩, .inr (hr.resolve_left nofun)⟩
      rcases hstage with ⟨-, hu | hh⟩ | ⟨hp, -⟩
      · exact hu
      · have hwaits := hh.2.2
        simp [State.waits, hf] at hwaits
      · exact absurd (Int.ofNat.inj (hp.symm.trans hpid)) ho.2
    · rename_i hpid
      obtain ⟨hp, hi⟩ := hstage.resolve_left fun h => hpid h.1
      refine ⟨⟨p, ho, hp, hi, ?_, hprev⟩, .inr (hr.resolve_left nofun)⟩
      have hm : Masked s (s.mask .chld) := hmasked hf
      rw [hg.1 hf] at hm
      exact hm
  case h_5 prev hpc =>
    cases hs
    simp only [hpc] at hat hr
    obtain ⟨p, ho, hp, hi, -, hprev⟩ := hat
    have hm : Masked { s with pc := .print, mask := prev } (prev .chld) := hmasked hf
    rw [hprev] at hm
    exact ⟨⟨p, ho, hp, hi, hm⟩, .inr (hr.resolve_left nofun)⟩
  case h_6 hpc =>
    cases hs
    simp only [hpc] at hat hr
    obtain ⟨p, ho, hp, hi, hm⟩ := hat
    refine ⟨⟨hi, ?_, hm⟩, .inr (hr.resolve_left nofun)⟩
    show s.printed ++ [s.pid] = _
    rw [ho.1, hp]
    rfl
  case h_7 => cases hs

theorem fork_keeps {rounds : Nat} {s s' : State} {r : Option Pid} (h : Inv rounds s) (hs : step s (.fork r) = some s') :
    Inv rounds s' := by
  have hat := h.at_pc
  have hr := h.rounds
  unfold AtPc at hat
  simp only [step] at hs
  split at hs
  · rename_i prev pid hf hpc
    simp only [hpc] at hat hr
    obtain ⟨⟨hkids, hpend, hwaits⟩, ht, hm, hprev⟩ := hat
    split at hs <;> cases hs
    rename_i hpid
    refine ⟨⟨pid, .inl ⟨?_, hpend, hwaits⟩, ⟨?_, fun h => hpid (.inl h)⟩, hm, hprev⟩, .inr ?_⟩
    · show ⟨pid, false⟩ :: s.kids = _
      rw [hkids]
    · show (s.forked ++ [pid]).map Int.ofNat = s.printed ++ [Int.ofNat pid]
      rw [List.map_append, ht]
      rfl
    · have hr : s.left + 1 + s.forked.length = rounds := hr.resolve_left nofun
      show s.left + 0 + (s.forked ++ [pid]).length = rounds
      rw [List.length_append, List.length_singleton]
      omega
  · rename_i prev hf hpc
    cases hs
    simp only [hpc] at hat
    exact ⟨⟨hat.1, hat.2.1⟩, .inl rfl⟩
  · cases hs

/-- A handler that is not at `waitpid` begins, outside of `sigsuspend`. -/
theorem same_deliver {s : State} (hpc : ∀ prev saved, s.pc ≠ .suspended prev saved) :
    Same s { s with
      pc := s.pc.resume
      mask := s.mask.add .int
      pending := fun x => if x = .int then false else s.pending x
      frames := ⟨.ret, s.pc.resumeMask s.mask⟩ :: s.frames } := by
  have hresume : s.pc.resume = s.pc ∧ s.pc.resumeMask s.mask = s.mask := by
    cases h : s.pc with
    | suspended prev saved => exact absurd h (hpc prev saved)
    | _ => exact ⟨rfl, rfl⟩
  constructor
  case pc => exact hresume.1
  case masked =>
    rintro c ⟨hm, hf⟩
    refine ⟨hm, fun f hmem => ?_⟩
    rcases List.mem_cons.1 hmem with rfl | hmem
    · exact (congrFun hresume.2 .chld).trans hm
    · exact hf f hmem
  case guarded =>
    rintro ⟨hm, hf⟩
    refine ⟨nofun, fun f hlast => ?_⟩
    cases hframes : s.frames with
    | nil =>
      rw [hframes] at hlast
      cases hlast
      exact (congrFun hresume.2 .chld).trans (hm hframes)
    | cons g gs =>
      rw [hframes, List.getLast?_cons_cons, ← hframes] at hlast
      exact hf f hlast
  case asleep => exact fun _ _ prev saved h => absurd h (hpc prev saved)
  all_goals rfl

theorem deliver_keeps {rounds : Nat} {s s' : State} {sig : Sig} (h : Inv rounds s)
    (hs : step s (.deliver sig) = some s') : Inv rounds s' := by
  simp only [step] at hs
  split at hs <;> cases hs
  rename_i hg
  obtain ⟨-, hpend, hmask⟩ := hg
  have hat := h.at_pc
  have hr := h.rounds
  unfold AtPc at hat
  cases sig with
  | int =>
    by_cases hsus : ∃ prev saved, s.pc = .suspended prev saved
    · obtain ⟨prev, saved, hpc⟩ := hsus
      simp only [hpc] at hat hr ⊢
      obtain ⟨p, ho, hprev, hsaved, hf, hm, hpid, hu⟩ := hat
      refine ⟨⟨p, ho, ⟨nofun, fun f hlast => ?_⟩, hprev, .inl ⟨hpid, .inl ?_⟩⟩, .inr (hr.resolve_left nofun)⟩
      · simp only [hf, List.getLast?_singleton, Option.some.injEq] at hlast
        rw [← hlast]
        exact hsaved
      · exact hu
    · exact h.same (same_deliver fun prev saved hpc => hsus ⟨prev, saved, hpc⟩)
  | chld =>
    -- only the stage in which the child has ended has `SIGCHLD` pending
    have hended : ∀ {p}, Unseen s p → InStage s (.ended p) := by
      rintro p (hrun | he)
      · exact absurd (hpend.symm.trans hrun.2.1) (by decide)
      · exact he
    have hnone : ∀ {g}, InStage s g → (g = .idle ∨ ∃ p, g = .handling p) → False := by
      rintro g hstage (rfl | ⟨p, rfl⟩) <;> exact absurd (hpend.symm.trans hstage.2.1) (by decide)
    have hhandling : ∀ {p} (pc : MainPc) (saved : Mask), InStage s (.ended p) → InStage { s with
        pc := pc
        mask := s.mask.add .chld
        pending := fun x => if x = .chld then false else s.pending x
        frames := ⟨.waitpid, saved⟩ :: s.frames } (.handling p) := by
      rintro p pc saved ⟨hkids, -, hwaits⟩
      refine ⟨hkids, rfl, ?_⟩
      unfold State.waits at hwaits ⊢
      rw [List.countP_cons, hwaits]
      rfl
    cases hpc : s.pc <;> simp only [hpc] at hat hr
    case loop | block => exact (hnone hat.1 (.inl rfl)).elim
    case fork => exact (hnone hat.1 (.inl rfl)).elim
    case clear =>
      obtain ⟨p, -, -, hm, -⟩ := hat
      exact absurd (hm.1.symm.trans hmask) (by decide)
    case test prev =>
      obtain ⟨p, ho, hguard, hprev, ⟨hpid, hu | hh⟩ | ⟨-, hi⟩⟩ := hat
      · refine ⟨⟨p, ho, ⟨nofun, fun f hlast => ?_⟩, hprev, .inl ⟨hpid, .inr (hhandling _ _ (hended hu))⟩⟩,
          .inr (hr.resolve_left nofun)⟩
        cases hf : s.frames with
        | nil => exact absurd ((hguard.1 hf).symm.trans hmask) (by decide)
        | cons g gs =>
          simp only [hf, List.getLast?_cons_cons] at hlast
          exact hguard.2 f (hf ▸ hlast)
      · exact (hnone hh (.inr ⟨p, rfl⟩)).elim
      · exact (hnone hi (.inl rfl)).elim
    case suspended prev saved =>
      obtain ⟨p, ho, hprev, hsaved, hf, hm, hpid, hu⟩ := hat
      refine ⟨⟨p, ho, ⟨nofun, fun f hlast => ?_⟩, hprev, .inl ⟨hpid, .inr (hhandling _ _ (hended hu))⟩⟩,
        .inr (hr.resolve_left nofun)⟩
      simp only [hf, List.getLast?_singleton, Option.some.injEq] at hlast
      rw [← hlast]
      exact hsaved
    case restore =>
      obtain ⟨p, -, -, hi, -⟩ := hat
      exact (hnone hi (.inl rfl)).elim
    case print =>
      obtain ⟨p, -, -, hi, -⟩ := hat
      exact (hnone hi (.inl rfl)).elim
    case finished => exact (hnone hat.1 (.inl rfl)).elim
    case died => exact (hnone hat.1 (.inl rfl)).elim

theorem waitpid_keeps {rounds : Nat} {s s' : State} {r : Option Pid} (h : Inv rounds s)
    (hs : step s (.waitpid r) = some s') : Inv rounds s' := by
  -- an activation at `waitpid`: the child has ended, and `main` is behind `sigsuspend`
  have hhandling : ∀ {saved fs}, s.frames = ⟨.waitpid, saved⟩ :: fs → ∃ prev p, s.pc = .test prev ∧ Owed s p ∧
      Guarded s ∧ prev .chld = false ∧ InStage s (.handling p) := by
    intro saved fs hf
    have hpos : s.waits ≠ 0 := by
      unfold State.waits
      rw [hf, List.countP_cons]
      exact Nat.succ_ne_zero _
    have hnone : ∀ {g}, InStage s g → (∀ p, g ≠ .handling p) → False := by
      intro g hstage hne
      cases g with
      | handling p => exact hne p rfl
      | idle | running _ | ended _ => exact hpos hstage.2.2
    have hat := h.at_pc
    unfold AtPc at hat
    cases hpc : s.pc <;> simp only [hpc] at hat
    case loop | block => exact (hnone hat.1 nofun).elim
    case fork => exact (hnone hat.1 nofun).elim
    case clear =>
      obtain ⟨p, hu | hu, -⟩ := hat <;> exact (hnone hu nofun).elim
    case test prev =>
      obtain ⟨p, ho, hg, hprev, ⟨-, (hu | hu) | hh⟩ | ⟨-, hi⟩⟩ := hat
      · exact (hnone hu nofun).elim
      · exact (hnone hu nofun).elim
      · exact ⟨prev, p, rfl, ho, hg, hprev, hh⟩
      · exact (hnone hi nofun).elim
    case suspended =>
      obtain ⟨p, -, -, -, hframes, -⟩ := hat
      rw [hframes] at hf
      cases hf
    case restore =>
      obtain ⟨p, -, -, hi, -⟩ := hat
      exact (hnone hi nofun).elim
    case print =>
      obtain ⟨p, -, -, hi, -⟩ := hat
      exact (hnone hi nofun).elim
    case finished => exact (hnone hat.1 nofun).elim
    case died => exact (hnone hat.1 nofun).elim
  simp only [step] at hs
  split at hs
  · rename_i saved fs pid hf
    obtain ⟨prev, p, hpc, ho, hg, hprev, hkids, hpend, hwaits⟩ := hhandling hf
    have hr := h.rounds
    rw [hpc] at hr
    rw [hkids] at hs
    split at hs <;> cases hs
    rename_i hmem
    obtain rfl : pid = p := congrArg Kid.pid (List.mem_singleton.1 hmem)
    have hat : AtPc { s with
        pid := pid, kids := [⟨pid, true⟩].filter (·.pid ≠ pid), frames := ⟨.ret, saved⟩ :: fs } := by
      unfold AtPc
      rw [hpc]
      refine ⟨pid, ho, ⟨nofun, fun f hlast => ?_⟩, hprev, .inr ⟨rfl, ?_, hpend, ?_⟩⟩
      · -- the last activation restores the same mask
        cases fs with
        | nil =>
          cases hlast
          exact hg.2 ⟨.waitpid, saved⟩ (by rw [hf]; rfl)
        | cons g gs => exact hg.2 f (by rw [hf]; exact hlast)
      · simp
      · unfold State.waits at hwaits ⊢
        rw [hf, List.countP_cons] at hwaits
        rw [List.countP_cons]
        exact Nat.succ.inj hwaits
    exact ⟨hat, .inr (by rw [hpc]; exact hr.resolve_left nofun)⟩
  · rename_i saved fs hf
    obtain ⟨prev, p, -, -, -, -, hkids, -⟩ := hhandling hf
    rw [hkids] at hs
    cases hs
  · cases hs

theorem ret_keeps {rounds : Nat} {s s' : State} (h : Inv rounds s) (hs : step s .ret = some s') : Inv rounds s' := by
  simp only [step] at hs
  split at hs
  · rename_i saved fs hf
    cases hs
    apply h.same
    constructor
    case waits =>
      unfold State.waits
      rw [hf, List.countP_cons]
      rfl
    case masked =>
      rintro c ⟨-, hall⟩
      refine ⟨hall ⟨.ret, saved⟩ (by rw [hf]; exact List.mem_cons_self ..), fun f hmem => hall f ?_⟩
      rw [hf]
      exact List.mem_cons_of_mem _ hmem
    case guarded =>
      rintro ⟨-, hlast⟩
      rw [hf] at hlast
      constructor
      · rintro rfl
        exact hlast _ rfl
      · intro f hf'
        apply hlast f
        cases fs with
        | nil => cases hf'
        | cons g gs => exact hf'
    case asleep =>
      intro hnil
      rw [hf] at hnil
      cases hnil
    all_goals rfl
  · cases hs

theorem exit_keeps {rounds : Nat} {s s' : State} {pid : Pid} (h : Inv rounds s) (hs : step s (.exit pid) = some s') :
    Inv rounds s' := by
  simp only [step] at hs
  split at hs <;> cases hs
  rename_i hmem
  -- only a child that runs can end
  have hone : ∀ {g}, InStage s g → g = .running pid := by
    intro g hg
    rcases stage_kids hg _ hmem with ⟨p, hgp, hk⟩ | ⟨p, -, hk⟩
    · rw [hgp, show pid = p from congrArg Kid.pid hk]
    · cases congrArg Kid.zombie hk
  have hended : ∀ {p}, Unseen s p → InStage { s with
      kids := s.kids.map fun k => if k.pid = pid then { k with zombie := true } else k
      pending := fun x => if x = .chld then true else s.pending x } (.ended p) := by
    rintro p (hu | hu)
    · obtain rfl : p = pid := Stage.running.inj (hone hu)
      refine ⟨?_, rfl, hu.2.2⟩
      show s.kids.map _ = _
      rw [hu.1]
      simp
    · cases hone hu
  refine ⟨?_, h.rounds⟩
  have hat := h.at_pc
  unfold AtPc at hat ⊢
  cases hpc : s.pc <;> simp only [hpc] at hat ⊢
  case loop | block => cases hone hat.1
  case fork => cases hone hat.1
  case clear =>
    obtain ⟨p, hu, ho, hm, hprev⟩ := hat
    exact ⟨p, .inr (hended hu), ho, hm, hprev⟩
  case test =>
    obtain ⟨p, ho, hg, hprev, ⟨hpid, hu | hh⟩ | ⟨-, hi⟩⟩ := hat
    · exact ⟨p, ho, hg, hprev, .inl ⟨hpid, .inl (.inr (hended hu))⟩⟩
    · cases hone hh
    · cases hone hi
  case suspended =>
    obtain ⟨p, ho, hprev, hsaved, hf, hm, hpid, hu⟩ := hat
    exact ⟨p, ho, hprev, hsaved, hf, hm, hpid, .inr (hended hu)⟩
  case restore =>
    obtain ⟨p, -, -, hi, -⟩ := hat
    cases hone hi
  case print =>
    obtain ⟨p, -, -, hi, -⟩ := hat
    cases hone hi
  case finished => cases hone hat.1
  case died => cases hone hat.1

theorem raise_keeps {rounds : Nat} {s s' : State} (h : Inv rounds s) (hs : step s (.raise .int) = some s') :
    Inv rounds s' := by
  simp only [step] at hs
  split at hs <;> cases hs
  apply h.same
  constructor
  case masked => exact fun _ hm => hm
  case guarded => exact id
  case asleep => exact fun hf hm _ _ _ => ⟨hf, hm⟩
  all_goals rfl

/-- **One step.** -/
theorem step_keeps {rounds : Nat} {s s' : State} {l : Label} (h : Inv rounds s) (hok : NoSpurious s l)
    (hs : step s l = some s') : Inv rounds s' := by
  cases l with
  | main =>
    simp only [step] at hs
    split at hs
    · rename_i hf
      exact main_keeps h hf hs
    · cases hs
  | fork r => exact fork_keeps h hs
  | deliver sig => exact deliver_keeps h hs
  | waitpid r => exact waitpid_keeps h hs
  | ret => exact ret_keeps h hs
  | exit pid => exact exit_keeps h hs
  | raise sig =>
    cases sig with
    | int => exact raise_keeps h hs
    | chld => exact absurd rfl hok

theorem start_inv {mask : Mask} (hmask : mask .chld = false) (rounds : Nat) : Inv rounds (start mask rounds) :=
  ⟨⟨⟨rfl, rfl, rfl⟩, rfl, hmask, nofun⟩, .inr rfl⟩

theorem inv_reach {mask : Mask} (hmask : mask .chld = false) {rounds : Nat} {s : State}
    (h : Reach step NoSpurious (start mask rounds) s) : Inv rounds s :=
  h.invariant (start_inv hmask rounds) fun _ _ _ => step_keeps

end ComputerSystem.Waitsig
