import ComputerSystem.Ipc.Demos
/-!
# Who is left waiting

Parent and child each write only what is theirs, so what is known of one's place is not lost when the other
moves: `ParentAt` speaks of what the parent has written, closed and posted, `ChildAt` of what the child has.
-/

namespace ComputerSystem.Ipc

/-- The line says what was meant, or a beginning of it. -/
def Out.Right : Out → Prop
  | .request buf => buf <+: hello
  | .reply buf => buf <+: answer
  | .shared message => message = text
  | .counter v => v = value

def ParentPc.demo : ParentPc → Option Demo
  | .accept | .read | .print _ | .write _ | .close => some .uds
  | .store _ | .post => some .mmap
  | .add => some .eventfd
  | .wait d => some d
  | .main | .fork _ | .exited _ => none

def ChildPc.demo : ChildPc → Option Demo
  | .connect | .write _ | .read => some .uds
  | .semWait | .load _ => some .mmap
  | .readCounter => some .eventfd
  | .print _ | .exited _ => none

/-- `message` when `i` bytes of the text are there. -/
def filled (i : Nat) : Bytes := stored.take i ++ List.replicate (MSG_SIZE - i) 0

structure Fresh (s : State) : Prop where
  child     : s.child = none
  connected : s.connected = false
  server    : s.accepted = false ∧ s.serverEnd = true
  client    : s.clientEnd = true
  bytes     : s.up = [] ∧ s.down = []
  message   : s.message = filled 0
  counts    : s.posts = 0 ∧ s.waits = 0 ∧ s.written = 0 ∧ s.taken = 0

/-- `connfd` is open. -/
def Serving (s : State) : Prop := s.accepted = true ∧ s.serverEnd = true

def ParentAt (s : State) : ParentPc → Prop
  | .main => s.child = none
  | .fork _ => Fresh s
  | .accept => s.accepted = false
  | .read => Serving s ∧ s.down = []
  | .print buf => Serving s ∧ s.down = [] ∧ buf <+: hello
  | .write left => Serving s ∧ left ≠ [] ∧ s.down ++ left = answer
  | .close => Serving s ∧ s.down = answer
  | .store i => s.posts = 0 ∧ i < stored.length ∧ s.message = filled i
  | .post => s.posts = 0 ∧ s.message = filled stored.length
  | .add => s.written = 0
  | .wait .uds => s.accepted = true ∧ s.serverEnd = false
  | .wait .mmap => s.posts = 1
  | .wait .eventfd => s.written = value
  | .exited _ => s.accepted = true → s.serverEnd = false

def ChildAt (s : State) : ChildPc → Prop
  | .connect => s.up = []
  | .write left => s.connected = true ∧ left ≠ [] ∧ s.up ++ left = hello
  | .read => s.connected = true ∧ s.up = hello
  | .semWait => s.waits = 0
  | .load got => s.waits = 1 ∧ got <+: text
  | .readCounter => s.taken = 0
  | .print o => o.Right
  | .exited _ => True

structure Inv (s : State) : Prop where
  parent : ParentAt s s.parent
  child  : ∀ c, s.child = some c → ChildAt s c
  kinds  : ∀ d, s.parent.demo = some d → ∃ c, s.child = some c ∧ ∀ d', c.demo = some d' → d' = d
  alive  : ∀ c, s.child = some c → (s.clientEnd = false ↔ ∃ status, c = .exited status)
  queue  : s.accepted = false → s.serverEnd = true ∧ s.down = []
  full   : 0 < s.posts → s.message = filled stored.length
  sem    : s.waits ≤ s.posts ∧ s.posts ≤ 1
  count  : s.written = 0 ∨ s.written = value
  up     : s.up <+: hello
  down   : s.down <+: answer
  out    : ∀ o ∈ s.out, o.Right

section
variable {s s' : State}

theorem filled_next {i : Nat} (hi : i < stored.length) : (filled i).set i (stored.getD i 0) = filled (i + 1) := by
  have hlen : stored.length = 26 := rfl
  have hall : ∀ i < 26, (filled i).set i (stored.getD i 0) = filled (i + 1) := by decide
  exact hall i (hlen ▸ hi)

/-- `%s` reads up to the NUL. -/
theorem load_next {got : Bytes} (hgot : got <+: text) {b : UInt8} (hb : (filled stored.length)[got.length]? = some b) :
    (b = 0 → got = text) ∧ (b ≠ 0 → got ++ [b] <+: text) := by
  have hfilled : filled stored.length = text ++ 0 :: List.replicate (MSG_SIZE - stored.length) 0 := by decide
  obtain ⟨rest, hrest⟩ := hgot
  rw [hfilled, ← hrest, List.append_assoc, List.getElem?_append_right (Nat.le_refl _), Nat.sub_self] at hb
  cases rest with
  | nil =>
    obtain rfl : 0 = b := Option.some.inj hb
    rw [List.append_nil] at hrest
    exact ⟨fun _ => hrest, fun hne => absurd rfl hne⟩
  | cons x rest =>
    obtain rfl : x = b := Option.some.inj hb
    have hx : x ∈ text := by
      rw [← hrest]
      simp
    have hnul : (0 : UInt8) ∉ text := by decide
    refine ⟨fun h0 => absurd (h0 ▸ hx) hnul, fun _ => ⟨rest, ?_⟩⟩
    rw [← hrest, List.append_assoc]
    rfl

theorem start_inv (todo : List Demo) : Inv (start todo) where
  parent := rfl
  child := nofun
  kinds := nofun
  alive := nofun
  queue := fun _ => ⟨rfl, rfl⟩
  full := nofun
  sem := ⟨Nat.le_refl _, Nat.zero_le _⟩
  count := .inl rfl
  up := List.nil_prefix
  down := List.nil_prefix
  out := nofun

theorem Inv.exit (h : Inv s) (status : Option Nat) : Inv (s.exit status) :=
  { h with
    parent := fun haccepted => by
      have haccepted : s.accepted = true := haccepted
      simp [State.exit, haccepted]
    kinds := nofun
    queue := fun hqueue => by
      have hqueue : s.accepted = false := hqueue
      exact ⟨by simp [State.exit, hqueue, (h.queue hqueue).1], (h.queue hqueue).2⟩ }

theorem parent_inv (h : Inv s) {r : Res} (hs : s.parentStep s.parent r = some s') : Inv s' := by
  have hat := h.parent
  generalize hpc : s.parent = pc at hs hat
  have hkinds : ∀ {pc' : ParentPc}, pc'.demo = pc.demo → ∀ d, pc'.demo = some d →
      ∃ c, s.child = some c ∧ ∀ d', c.demo = some d' → d' = d :=
    fun hdemo d hd => h.kinds d (hpc ▸ hdemo ▸ hd)
  cases pc with
  | main =>
    have hnone : s.child = none := hat
    simp only [State.parentStep] at hs
    split at hs <;> cases hs
    · exact h.exit _
    · refine ⟨⟨hnone, rfl, ⟨rfl, rfl⟩, rfl, ⟨rfl, rfl⟩, rfl, ⟨rfl, rfl, rfl, rfl⟩⟩, fun c hc => ?_, nofun, fun c hc => ?_,
        fun _ => ⟨rfl, rfl⟩, nofun, ⟨Nat.le_refl _, Nat.zero_le _⟩, .inl rfl, List.nil_prefix, List.nil_prefix, h.out⟩
      · cases hnone.symm.trans hc
      · cases hnone.symm.trans hc
    · exact h.exit _
  | fork d =>
    cases r with
    | ok =>
      cases hs
      obtain ⟨-, hconn, hserver, hclient, ⟨hup, -⟩, hmsg, hposts, hwaits, hwritten, htaken⟩ := hat
      refine { h with parent := ?_, child := ?_, kinds := ?_, alive := ?_ }
      · cases d with
        | uds => exact hserver.1
        | mmap => exact ⟨hposts, by decide, hmsg⟩
        | eventfd => exact hwritten
      · rintro _ ⟨⟩
        cases d with
        | uds => exact hup
        | mmap => exact hwaits
        | eventfd => exact htaken
      · intro d' hd'
        refine ⟨d.child, rfl, fun d'' hd'' => ?_⟩
        cases d <;> cases hd' <;> cases hd'' <;> rfl
      · rintro _ ⟨⟩
        rw [hclient]
        cases d <;> exact ⟨nofun, nofun⟩
    | fail =>
      cases hs
      exact h.exit _
    | count n => cases hs
  | accept =>
    cases r with
    | ok =>
      simp only [State.parentStep] at hs
      split at hs <;> cases hs
      obtain ⟨hserver, hdown⟩ := h.queue hat
      exact { h with parent := ⟨⟨rfl, hserver⟩, hdown⟩, kinds := hkinds rfl, queue := nofun }
    | fail =>
      cases hs
      exact h.exit _
    | count n => cases hs
  | read =>
    cases r with
    | count n =>
      simp only [State.parentStep] at hs
      split at hs <;> cases hs
      exact { h with parent := ⟨hat.1, hat.2, (List.take_prefix ..).trans h.up⟩, kinds := hkinds rfl }
    | fail =>
      cases hs
      exact h.exit _
    | ok => cases hs
  | print buf =>
    cases r with
    | ok =>
      cases hs
      refine { h with parent := ⟨hat.1, by decide, ?_⟩, kinds := hkinds rfl, out := ?_ }
      · rw [show s.down = [] from hat.2.1]
        rfl
      · intro o ho
        rcases List.mem_append.1 ho with ho | ho
        · exact h.out o ho
        · rw [List.mem_singleton.1 ho]
          exact hat.2.2
    | fail =>
      cases hs
      refine { h with parent := ⟨hat.1, by decide, ?_⟩, kinds := hkinds rfl }
      rw [show s.down = [] from hat.2.1]
      rfl
    | count n => cases hs
  | write left =>
    obtain ⟨hserver, hne, hleft⟩ := hat
    cases r with
    | count n =>
      simp only [State.parentStep] at hs
      split at hs <;> cases hs
      rename_i hn
      have hdown : s.down ++ left.take n <+: answer := by
        rw [← hleft]
        exact (List.prefix_append_right_inj _).2 (List.take_prefix ..)
      refine { h with
        parent := ?_, kinds := hkinds ?_, queue := fun hqueue => (by cases hqueue.symm.trans hserver.1), down := hdown }
      · by_cases hall : left.length ≤ n
        · rw [if_pos hall]
          refine ⟨hserver, ?_⟩
          rw [← hleft, List.take_of_length_le hall]
        · rw [if_neg hall]
          refine ⟨hserver, ?_, ?_⟩
          · simpa using hall
          · rw [List.append_assoc, List.take_append_drop, hleft]
      · split <;> rfl
    | fail =>
      cases hs
      exact h.exit _
    | ok => cases hs
  | close =>
    cases r with
    | ok =>
      cases hs
      exact { h with
        parent := ⟨hat.1.1, rfl⟩, kinds := hkinds rfl, queue := fun hqueue => (by cases hqueue.symm.trans hat.1.1) }
    | _ => cases hs
  | store i =>
    obtain ⟨hposts, hi, hmsg⟩ := hat
    cases r with
    | ok =>
      cases hs
      have hnext : s.message.set i (stored.getD i 0) = filled (i + 1) := by rw [hmsg, filled_next hi]
      refine { h with parent := ?_, kinds := hkinds ?_, full := ?_ }
      · by_cases hmore : i + 1 < stored.length
        · rw [if_pos hmore]
          exact ⟨hposts, hmore, hnext⟩
        · rw [if_neg hmore]
          exact ⟨hposts, by rw [← Nat.le_antisymm hi (Nat.le_of_not_lt hmore)]; exact hnext⟩
      · split <;> rfl
      · intro hpos
        rw [show s.posts = 0 from hposts] at hpos
        cases hpos
    | _ => cases hs
  | post =>
    obtain ⟨hposts, hmsg⟩ := hat
    cases r with
    | ok =>
      cases hs
      have hone : s.posts + 1 = 1 := by rw [hposts]
      exact { h with
        parent := hone, kinds := hkinds rfl, full := fun _ => hmsg
        sem := ⟨Nat.le_succ_of_le h.sem.1, Nat.le_of_eq hone⟩ }
    | fail =>
      cases hs
      exact h.exit _
    | count n => cases hs
  | add =>
    cases r with
    | ok =>
      cases hs
      have hvalue : s.written + value = value := by rw [show s.written = 0 from hat, Nat.zero_add]
      exact { h with parent := hvalue, kinds := hkinds rfl, count := .inr hvalue }
    | fail =>
      cases hs
      exact h.exit _
    | count n => cases hs
  | wait d =>
    cases r with
    | ok =>
      simp only [State.parentStep] at hs
      split at hs
      · split at hs <;> cases hs
        · exact { h with parent := rfl, child := nofun, kinds := nofun, alive := nofun }
        · exact { h.exit (some 1) with child := nofun, kinds := nofun, alive := nofun }
      · cases hs
    | fail =>
      cases hs
      exact h.exit _
    | count n => cases hs
  | exited status => cases r <;> cases hs

/-- Nothing that the parent knows is about the child's place. -/
theorem ParentAt.childMoves (h : ParentAt s s.parent) (hchild : s.child ≠ none) (hparent : s'.parent = s.parent)
    (haccepted : s'.accepted = s.accepted) (hserver : s'.serverEnd = s.serverEnd) (hdown : s'.down = s.down) (hmsg : s'.message = s.message)
    (hposts : s'.posts = s.posts) (hwritten : s'.written = s.written) : ParentAt s' s'.parent := by
  rw [hparent]
  generalize s.parent = pc at h
  cases pc with
  | main => exact absurd h hchild
  | fork d => exact absurd h.child hchild
  | wait d => cases d <;> simpa only [ParentAt, haccepted, hserver, hposts, hwritten] using h
  | _ => simpa only [ParentAt, Serving, haccepted, hserver, hdown, hmsg, hposts, hwritten] using h

theorem Inv.exitChild (h : Inv s) {c : ChildPc} (hc : s.child = some c) (status : Option Nat) : Inv (s.exitChild status) :=
  { h with
    parent := h.parent.childMoves (by rw [hc]; nofun) rfl rfl rfl rfl rfl rfl rfl
    child := by
      rintro _ ⟨⟩
      trivial
    kinds := fun _ _ => ⟨_, rfl, nofun⟩
    alive := by
      rintro _ ⟨⟩
      exact ⟨fun _ => ⟨status, rfl⟩, fun _ => rfl⟩ }

theorem child_inv (h : Inv s) {c : ChildPc} (hc : s.child = some c) {r : Res} (hs : s.childStep c r = some s') : Inv s' := by
  have hat := h.child c hc
  have hchild : s.child ≠ none := by rw [hc]; nofun
  have hkinds : ∀ {c' : ChildPc}, c'.demo = c.demo ∨ c'.demo = none → ∀ d, s.parent.demo = some d →
      ∃ x, some c' = some x ∧ ∀ d', x.demo = some d' → d' = d := by
    intro c' hdemo d hd
    obtain ⟨x, hx, hx'⟩ := h.kinds d hd
    obtain rfl := Option.some.inj (hc.symm.trans hx)
    refine ⟨c', rfl, fun d' hd' => ?_⟩
    rcases hdemo with hdemo | hdemo
    · exact hx' d' (hdemo ▸ hd')
    · rw [hdemo] at hd'
      cases hd'
  have halive : ∀ {c' : ChildPc}, (∀ status, c ≠ .exited status) → (∀ status, c' ≠ .exited status) → ∀ x, some c' = some x →
      (s.clientEnd = false ↔ ∃ status, x = .exited status) := by
    rintro c' hne hne' _ ⟨⟩
    constructor
    · intro hgone
      obtain ⟨status, hended⟩ := (h.alive c hc).1 hgone
      exact absurd hended (hne status)
    · rintro ⟨status, hended⟩
      exact absurd hended (hne' status)
  cases c with
  | connect =>
    have hup : s.up = [] := hat
    cases r with
    | ok =>
      cases hs
      refine { h with
        parent := h.parent.childMoves hchild rfl rfl rfl rfl rfl rfl rfl
        child := ?_, kinds := hkinds (.inl rfl), alive := halive nofun nofun }
      rintro _ ⟨⟩
      exact ⟨rfl, by decide, by rw [hup]; rfl⟩
    | fail =>
      cases hs
      exact h.exitChild hc _
    | count n => cases hs
  | write left =>
    obtain ⟨hconn, hne, hleft⟩ := hat
    cases r with
    | count n =>
      simp only [State.childStep] at hs
      split at hs <;> cases hs
      have hup : s.up ++ left.take n <+: hello := by
        rw [← hleft]
        exact (List.prefix_append_right_inj _).2 (List.take_prefix ..)
      refine { h with
        parent := h.parent.childMoves hchild rfl rfl rfl rfl rfl rfl rfl
        child := ?_, kinds := hkinds (.inl ?_), alive := halive nofun (by intro status; split <;> nofun)
        up := hup }
      · rintro _ ⟨⟩
        by_cases hall : left.length ≤ n
        · rw [if_pos hall]
          refine ⟨hconn, ?_⟩
          rw [← hleft, List.take_of_length_le hall]
        · rw [if_neg hall]
          refine ⟨hconn, by simpa using hall, ?_⟩
          rw [List.append_assoc, List.take_append_drop, hleft]
      · split <;> rfl
    | fail =>
      cases hs
      exact h.exitChild hc _
    | ok => cases hs
  | read =>
    cases r with
    | count n =>
      simp only [State.childStep] at hs
      split at hs <;> cases hs
      refine { h with
        parent := h.parent.childMoves hchild rfl rfl rfl rfl rfl rfl rfl
        child := ?_, kinds := hkinds (.inr rfl), alive := halive nofun nofun }
      rintro _ ⟨⟩
      exact (List.take_prefix ..).trans h.down
    | fail =>
      cases hs
      exact h.exitChild hc _
    | ok => cases hs
  | semWait =>
    have hwaits : s.waits = 0 := hat
    cases r with
    | ok =>
      simp only [State.childStep] at hs
      split at hs <;> cases hs
      rename_i hlt
      refine { h with
        parent := h.parent.childMoves hchild rfl rfl rfl rfl rfl rfl rfl
        child := ?_, kinds := hkinds (.inl rfl), alive := halive nofun nofun
        sem := ⟨hlt, h.sem.2⟩ }
      rintro _ ⟨⟩
      exact ⟨by rw [hwaits], List.nil_prefix⟩
    | fail =>
      cases hs
      exact h.exitChild hc _
    | count n => cases hs
  | load got =>
    obtain ⟨hwaits, hgot⟩ := hat
    -- what is posted is filled
    have hmsg : s.message = filled stored.length := h.full (by have := h.sem.1; omega)
    cases r with
    | ok =>
      simp only [State.childStep] at hs
      split at hs <;> cases hs
      · rename_i b hb
        refine { h with
          parent := h.parent.childMoves hchild rfl rfl rfl rfl rfl rfl rfl
          child := ?_, kinds := hkinds ?_, alive := halive nofun (by intro status; split <;> nofun) }
        · rintro _ ⟨⟩
          rw [hmsg] at hb
          have hread := load_next hgot hb
          split
          · rename_i h0
            exact hread.1 h0
          · rename_i h0
            exact ⟨hwaits, hread.2 h0⟩
        · split
          · exact .inr rfl
          · exact .inl rfl
      · exact h.exitChild hc _
    | _ => cases hs
  | readCounter =>
    have htaken : s.taken = 0 := hat
    cases r with
    | ok =>
      simp only [State.childStep] at hs
      split at hs <;> cases hs
      rename_i hlt
      refine { h with
        parent := h.parent.childMoves hchild rfl rfl rfl rfl rfl rfl rfl
        child := ?_, kinds := hkinds (.inr rfl), alive := halive nofun nofun }
      rintro _ ⟨⟩
      show s.written - s.taken = value
      rw [htaken, h.count.resolve_left (by omega), Nat.sub_zero]
    | fail =>
      cases hs
      exact h.exitChild hc _
    | count n => cases hs
  | print o =>
    cases r with
    | ok =>
      cases hs
      refine { h.exitChild hc (some 0) with
        parent := h.parent.childMoves hchild rfl rfl rfl rfl rfl rfl rfl, out := fun x hx => ?_ }
      rcases List.mem_append.1 hx with hx | hx
      · exact h.out x hx
      · rw [List.mem_singleton.1 hx]
        exact hat
    | fail =>
      cases hs
      exact h.exitChild hc _
    | count n => cases hs
  | exited status => cases r <;> cases hs

theorem step_inv {l : Label} (h : Inv s) (hs : step s l = some s') : Inv s' := by
  cases l with
  | parent r => exact parent_inv h hs
  | child r =>
    simp only [step] at hs
    split at hs
    · rename_i c hc
      exact child_inv h hc hs
    · cases hs
  | killParent =>
    simp only [step] at hs
    split at hs <;> cases hs
    exact h.exit none
  | killChild =>
    simp only [step] at hs
    split at hs
    · cases hs
    · cases hs
    · rename_i hnone _
      cases hs
      obtain ⟨c, hc⟩ := Option.ne_none_iff_exists'.1 hnone
      exact h.exitChild hc none

theorem reach_inv {todo : List Demo} {ok : State → Label → Prop} (h : Reach step ok (start todo) s) : Inv s :=
  h.invariant (start_inv todo) fun _ _ _ hi _ hs => step_inv hi hs

/-! ## Who is left waiting -/

def State.parentWaits (s : State) : Prop :=
  match s.parent with
  | .accept => s.connected = false
  | .read => s.up = [] ∧ s.clientEnd = true
  | .wait _ => ∀ status, s.child ≠ some (.exited status)
  | _ => False

def State.childWaits (s : State) : Prop :=
  match s.child with
  | some .read => s.down = [] ∧ s.serverEnd = true
  | some .semWait => s.posts ≤ s.waits
  | some .readCounter => s.written ≤ s.taken
  | _ => False

/-- Nothing can happen but that a signal comes, or a call that waits fails. -/
structure Stuck (s : State) : Prop where
  parent : ∀ r, (s.parentStep s.parent r).isSome = true → r = .fail ∧ s.parentWaits
  child  : ∀ c, s.child = some c → ∀ r, (s.childStep c r).isSome = true → r = .fail ∧ s.childWaits

theorem writes_some {left : Bytes} (h : left ≠ []) : Writes left true 1 :=
  ⟨Nat.one_pos, List.length_pos_iff.2 h, rfl⟩

/-- A child that is left waiting. -/
def Orphan (s : State) (c : ChildPc) : Prop :=
  c = .read ∧ s.accepted = false ∨ c = .semWait ∧ s.posts = 0 ∨ c = .readCounter ∧ s.written = 0

theorem Stuck.child_cases (h : Inv s) (hq : Stuck s) {c : ChildPc} (hc : s.child = some c)
    (hserver : s.accepted = true → s.serverEnd = false) : (∃ status, c = .exited status) ∨ Orphan s c := by
  have hat := h.child c hc
  have hown := hq.child c hc
  cases c with
  | exited status => exact .inl ⟨status, rfl⟩
  | connect =>
    have hwaits := (hown .fail rfl).2
    simp [State.childWaits, hc] at hwaits
  | write left =>
    have hwaits := (hown .fail rfl).2
    simp [State.childWaits, hc] at hwaits
  | read =>
    have hopen : s.serverEnd = true := by
      have hwaits := (hown .fail rfl).2
      simp only [State.childWaits, hc] at hwaits
      exact hwaits.2
    refine .inr (.inl ⟨rfl, ?_⟩)
    cases haccepted : s.accepted with
    | false => rfl
    | true => cases hopen.symm.trans (hserver haccepted)
  | semWait =>
    have hposts : s.posts ≤ s.waits := by simpa [State.childWaits, hc] using (hown .fail rfl).2
    rw [show s.waits = 0 from hat] at hposts
    exact .inr (.inr (.inl ⟨rfl, Nat.le_zero.1 hposts⟩))
  | load got =>
    have hok := (hown .ok (by simp only [State.childStep]; split <;> rfl)).1
    cases hok
  | readCounter =>
    have hwritten : s.written ≤ s.taken := by simpa [State.childWaits, hc] using (hown .fail rfl).2
    rw [show s.taken = 0 from hat] at hwritten
    exact .inr (.inr (.inr ⟨rfl, Nat.le_zero.1 hwritten⟩))
  | print o => cases (hown .ok rfl).1

/-- The child of a demo that goes on is of that demo. -/
theorem Inv.ofDemo (h : Inv s) {d : Demo} (hd : s.parent.demo = some d) : ∃ c, s.child = some c ∧ ChildAt s c ∧
    (c.demo = none ∨ c.demo = some d) := by
  obtain ⟨c, hc, hkind⟩ := h.kinds d hd
  refine ⟨c, hc, h.child c hc, ?_⟩
  cases hdemo : c.demo with
  | none => exact .inl rfl
  | some d' => exact .inr (by rw [hkind d' hdemo])

/-- The server waits in `accept` only for a child that cannot connect any more. -/
theorem Stuck.accept (h : Inv s) (hq : Stuck s) (hpc : s.parent = .accept) :
    s.connected = false ∧ ∃ status, s.child = some (.exited status) := by
  have hat := h.parent
  have hown := hq.parent
  rw [hpc] at hat hown
  have hconn : s.connected = false := by simpa [State.parentWaits, hpc] using (hown .fail rfl).2
  refine ⟨hconn, ?_⟩
  obtain ⟨c, hc, hat', hdemo⟩ := h.ofDemo (d := .uds) (by rw [hpc]; rfl)
  have hchild := hq.child c hc
  cases c with
  | connect => cases (hchild .ok rfl).1
  | write left => cases hconn.symm.trans hat'.1
  | read => cases hconn.symm.trans hat'.1
  | print o => cases (hchild .ok rfl).1
  | exited status => exact ⟨status, hc⟩
  | _ => simp [ChildPc.demo] at hdemo

theorem Stuck.read (h : Inv s) (hq : Stuck s) (hpc : s.parent = .read) : False := by
  have hat := h.parent
  have hown := hq.parent
  rw [hpc] at hat hown
  obtain ⟨hup, hclient⟩ : s.up = [] ∧ s.clientEnd = true := by simpa [State.parentWaits, hpc] using (hown .fail rfl).2
  obtain ⟨c, hc, hat', hdemo⟩ := h.ofDemo (d := .uds) (by rw [hpc]; rfl)
  have hchild := hq.child c hc
  cases c with
  | connect => cases (hchild .ok rfl).1
  | write left =>
    have hw : Writes left s.serverEnd 1 := by
      rw [hat.1.2]
      exact writes_some hat'.2.1
    cases (hchild (.count 1) (by simp [State.childStep, hw])).1
  | read =>
    have hempty : ([] : Bytes) = hello := hup.symm.trans hat'.2
    cases hempty
  | print o => cases (hchild .ok rfl).1
  | exited status =>
    rw [(h.alive _ hc).2 ⟨status, rfl⟩] at hclient
    cases hclient
  | _ => simp [ChildPc.demo] at hdemo

/-- A child that is waited for ends. -/
theorem Stuck.wait (h : Inv s) (hq : Stuck s) {d : Demo} (hpc : s.parent = .wait d) : False := by
  have hat := h.parent
  have hown := hq.parent
  rw [hpc] at hat hown
  have hwaits : ∀ status, s.child ≠ some (.exited status) := by
    simpa [State.parentWaits, hpc] using (hown .fail rfl).2
  obtain ⟨c, hc, hat', hdemo⟩ := h.ofDemo (d := d) (by rw [hpc]; rfl)
  have hchild := hq.child c hc
  cases c with
  | connect | write left | read =>
    obtain rfl : Demo.uds = d := by simpa [ChildPc.demo] using hdemo
    rcases hq.child_cases h hc (fun _ => hat.2) with ⟨status, hended⟩ | horphan
    · cases hended
    · simp [Orphan, show s.accepted = true from hat.1] at horphan
  | semWait =>
    obtain rfl : Demo.mmap = d := by simpa [ChildPc.demo] using hdemo
    have hlt : s.waits < s.posts := by rw [show s.waits = 0 from hat', show s.posts = 1 from hat]; exact Nat.one_pos
    cases (hchild .ok (by simp [State.childStep, hlt])).1
  | load got => cases (hchild .ok (by simp only [State.childStep]; split <;> rfl)).1
  | readCounter =>
    obtain rfl : Demo.eventfd = d := by simpa [ChildPc.demo] using hdemo
    have hlt : s.taken < s.written := by rw [show s.taken = 0 from hat', show s.written = value from hat]; decide
    cases (hchild .ok (by simp [State.childStep, hlt])).1
  | print o => cases (hchild .ok rfl).1
  | exited status => exact hwaits status hc

theorem Stuck.parent_cases (h : Inv s) (hq : Stuck s) : (∃ status, s.parent = .exited status) ∨ s.parent = .accept := by
  have hat := h.parent
  have hown := hq.parent
  have hquiet : ¬ s.parentWaits → s.parentStep s.parent .fail = none := by
    intro hnot
    rw [← Option.not_isSome_iff_eq_none]
    exact fun hsome => hnot (hown .fail hsome).2
  cases hpc : s.parent with
  | exited status => exact .inl ⟨status, rfl⟩
  | accept => exact .inr rfl
  | read => exact (hq.read h hpc).elim
  | wait d => exact (hq.wait h hpc).elim
  | main =>
    have hok : (s.parentStep s.parent .ok).isSome = true := by
      rw [hpc]
      cases htodo : s.todo <;> simp [State.parentStep, htodo]
    cases (hown .ok hok).1
  | fork d | post | add | write left =>
    have hnone := hquiet (by simp [State.parentWaits, hpc])
    rw [hpc] at hnone
    cases hnone
  | print buf | close | store i =>
    rw [hpc] at hown
    cases (hown .ok rfl).1

/-- When nothing more can happen. -/
theorem stuck_cases {todo : List Demo} (h : Reach step always (start todo) s) : Stuck s ↔
    (∃ status, s.parent = .exited status) ∧ (∀ c, s.child = some c → (∃ status, c = .exited status) ∨ Orphan s c) ∨
      s.parent = .accept ∧ s.connected = false ∧ ∃ status, s.child = some (.exited status) := by
  have hinv := reach_inv h
  constructor
  · intro hq
    rcases hq.parent_cases hinv with ⟨status, hpc⟩ | hpc
    · have hserver : s.accepted = true → s.serverEnd = false := by
        have hat := hinv.parent
        rw [hpc] at hat
        exact hat
      exact .inl ⟨⟨status, hpc⟩, fun c hc => hq.child_cases hinv hc hserver⟩
    · exact .inr ⟨hpc, hq.accept hinv hpc⟩
  · rintro (⟨⟨status, hpc⟩, hchild⟩ | ⟨hpc, hconn, status, hc⟩)
    · refine ⟨fun r hr => ?_, fun c hc r hr => ?_⟩
      · rw [hpc] at hr
        cases r <;> cases hr
      · have hat := hinv.child c hc
        rcases hchild c hc with ⟨status, rfl⟩ | ⟨rfl, haccepted⟩ | ⟨rfl, hposts⟩ | ⟨rfl, hwritten⟩
        · cases r <;> cases hr
        · obtain ⟨hserver, hdown⟩ := hinv.queue haccepted
          cases r with
          | count n =>
            -- no byte is there, and the end of the stream does not come
            have hnot : ¬ Reads s.down s.serverEnd n := by
              rintro ⟨-, hle, hzero⟩
              rw [hdown, List.length_nil] at hle
              cases (hzero (Nat.le_zero.1 hle)).2.symm.trans hserver
            simp [State.childStep, hnot] at hr
          | fail => exact ⟨rfl, by simp [State.childWaits, hc, hserver, hdown]⟩
          | ok => cases hr
        · cases r with
          | ok => simp [State.childStep, hposts] at hr
          | fail => exact ⟨rfl, by simp [State.childWaits, hc, hposts]⟩
          | count n => cases hr
        · cases r with
          | ok => simp [State.childStep, hwritten] at hr
          | fail => exact ⟨rfl, by simp [State.childWaits, hc, hwritten]⟩
          | count n => cases hr
    · refine ⟨fun r hr => ?_, fun c hc' r hr => ?_⟩
      · rw [hpc] at hr
        cases r with
        | ok => simp [State.parentStep, hconn] at hr
        | fail => exact ⟨rfl, by simp [State.parentWaits, hpc, hconn]⟩
        | count n => cases hr
      · obtain rfl := Option.some.inj (hc.symm.trans hc')
        cases r <;> cases hr

end

end ComputerSystem.Ipc
