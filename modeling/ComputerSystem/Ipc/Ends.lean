import ComputerSystem.Ipc.Talk
/-!
# How the demos end, and what they print

`demos_end` has how long a run can be and who is left waiting at its end, whatever fails; `demos_say` what
is printed, in any run and in one in which nothing fails.
-/

namespace ComputerSystem.Ipc

/-! ## Every run ends -/

/-- The steps of a child, where `m` bytes are shared. -/
def ChildPc.rank (m : Nat) : ChildPc → Nat
  | .connect => 3 + hello.length
  | .write left => 2 + left.length
  | .read | .readCounter => 2
  | .semWait => 3 + m
  | .load got => 2 + (m - got.length)
  | .print _ => 1
  | .exited _ => 0

def Demo.cost (m : Nat) : Demo → Nat
  | .uds => 9 + answer.length + hello.length
  | .mmap => 6 + stored.length + m
  | .eventfd => 5

def ParentPc.rank (m : Nat) : ParentPc → Nat
  | .main => 1
  | .fork d => 1 + d.cost m
  | .accept => 6 + answer.length
  | .read => 5 + answer.length
  | .print _ => 4 + answer.length
  | .write left => 3 + left.length
  | .close | .post | .add => 3
  | .store i => 3 + (stored.length - i)
  | .wait _ => 2
  | .exited _ => 0

def State.rank (s : State) : Nat :=
  s.parent.rank s.message.length + s.child.elim 0 (·.rank s.message.length) +
    (s.todo.map fun d => 1 + d.cost MSG_SIZE).sum

section
variable {s s' : State}

theorem rank_pos {m : Nat} {pc : ParentPc} (h : ∀ status, pc ≠ .exited status) : 1 ≤ pc.rank m := by
  cases pc with
  | exited status => exact absurd rfl (h status)
  | _ =>
    simp only [ParentPc.rank]
    omega

theorem child_rank_pos {m : Nat} {c : ChildPc} (h : ∀ status, c ≠ .exited status) : 1 ≤ c.rank m := by
  cases c with
  | exited status => exact absurd rfl (h status)
  | _ =>
    simp only [ChildPc.rank]
    omega

theorem exit_rank (status : Option Nat) (h : ∀ status, s.parent ≠ .exited status) : (s.exit status).rank + 1 ≤ s.rank := by
  have hpos := rank_pos (m := s.message.length) h
  show 0 + s.child.elim 0 (·.rank s.message.length) + (s.todo.map fun d => 1 + d.cost MSG_SIZE).sum + 1 ≤ s.rank
  unfold State.rank
  omega

theorem exitChild_rank (status : Option Nat) {c : ChildPc} (hc : s.child = some c) (h : ∀ status, c ≠ .exited status) :
    (s.exitChild status).rank + 1 ≤ s.rank := by
  have hpos := child_rank_pos (m := s.message.length) h
  show s.parent.rank s.message.length + 0 + (s.todo.map fun d => 1 + d.cost MSG_SIZE).sum + 1 ≤ s.rank
  rw [State.rank, hc, Option.elim_some]
  omega

/-- A child begins with all of its demo before it. -/
theorem Demo.cost_eq (d : Demo) (m : Nat) : d.cost m = d.parent.rank m + d.child.rank m := by
  cases d with
  | uds | mmap =>
    simp only [Demo.cost, Demo.parent, Demo.child, ParentPc.rank, ChildPc.rank]
    omega
  | eventfd => rfl

theorem rank_of_parent (hchild : s'.child = s.child) (htodo : s'.todo = s.todo) (hmsg : s'.message.length = s.message.length)
    (h : s'.parent.rank s.message.length < s.parent.rank s.message.length) : s'.rank + 1 ≤ s.rank := by
  rw [State.rank, State.rank, hchild, htodo, hmsg]
  omega

theorem rank_of_child {c c' : ChildPc} (hc : s.child = some c) (hc' : s'.child = some c') (hparent : s'.parent = s.parent)
    (htodo : s'.todo = s.todo) (hmsg : s'.message = s.message) (h : c'.rank s.message.length < c.rank s.message.length) :
    s'.rank + 1 ≤ s.rank := by
  rw [State.rank, State.rank, hc, hc', hparent, htodo, hmsg, Option.elim_some, Option.elim_some]
  omega

theorem parent_lowers (h : Inv s) {r : Res} (hs : s.parentStep s.parent r = some s') : s'.rank + 1 ≤ s.rank := by
  have hat := h.parent
  generalize hpc : s.parent = pc at hs hat
  have hfail : (∀ status, pc ≠ .exited status) → ∀ status, (s.exit status).rank + 1 ≤ s.rank :=
    fun hne status => exit_rank status (by rw [hpc]; exact hne)
  have hmoves : ∀ {t : State}, t.child = s.child → t.todo = s.todo → t.message.length = s.message.length →
      t.parent.rank s.message.length < pc.rank s.message.length → t.rank + 1 ≤ s.rank :=
    fun hchild htodo hmsg hrank => rank_of_parent hchild htodo hmsg (hpc ▸ hrank)
  cases pc with
  | main =>
    have hnone : s.child = none := hat
    simp only [State.parentStep] at hs
    split at hs <;> cases hs
    · exact hfail (by rintro _ ⟨⟩) _
    · rename_i d ds htodo
      have hbefore : s.rank = 1 + 0 + ((1 + d.cost MSG_SIZE) + (ds.map fun d => 1 + d.cost MSG_SIZE).sum) := by
        rw [State.rank, hpc, hnone, htodo]
        rfl
      have hafter : (s.setUp d ds).rank = 1 + d.cost MSG_SIZE + 0 + (ds.map fun d => 1 + d.cost MSG_SIZE).sum := by
        rw [State.rank, show (s.setUp d ds).child = none from hnone]
        rfl
      omega
    · exact hfail (by rintro _ ⟨⟩) _
  | fork d =>
    cases r with
    | ok =>
      cases hs
      have hcost := d.cost_eq s.message.length
      have hbefore : s.rank = 1 + d.cost s.message.length + 0 + (s.todo.map fun d => 1 + d.cost MSG_SIZE).sum := by
        rw [State.rank, hpc, hat.child]
        rfl
      show d.parent.rank s.message.length + d.child.rank s.message.length +
        (s.todo.map fun d => 1 + d.cost MSG_SIZE).sum + 1 ≤ s.rank
      omega
    | fail =>
      cases hs
      exact hfail (by rintro _ ⟨⟩) _
    | count n => cases hs
  | accept =>
    cases r with
    | ok =>
      simp only [State.parentStep] at hs
      split at hs <;> cases hs
      exact hmoves rfl rfl rfl (Nat.add_lt_add_right (by decide : 5 < 6) _)
    | fail =>
      cases hs
      exact hfail (by rintro _ ⟨⟩) _
    | count n => cases hs
  | read =>
    cases r with
    | count n =>
      simp only [State.parentStep] at hs
      split at hs <;> cases hs
      exact hmoves rfl rfl rfl (Nat.add_lt_add_right (by decide : 4 < 5) _)
    | fail =>
      cases hs
      exact hfail (by rintro _ ⟨⟩) _
    | ok => cases hs
  | print buf =>
    cases r with
    | count n => cases hs
    | _ =>
      cases hs
      exact hmoves rfl rfl rfl (Nat.add_lt_add_right (by decide : 3 < 4) _)
  | write left =>
    cases r with
    | count n =>
      simp only [State.parentStep] at hs
      split at hs <;> cases hs
      rename_i hn
      have hlen := hn.1
      have hle := hn.2.1
      refine hmoves rfl rfl rfl ?_
      by_cases hall : left.length ≤ n
      · simp only [if_pos hall, ParentPc.rank]
        omega
      · simp only [if_neg hall, ParentPc.rank, List.length_drop]
        omega
    | fail =>
      cases hs
      exact hfail (by rintro _ ⟨⟩) _
    | ok => cases hs
  | close =>
    cases r with
    | ok =>
      cases hs
      exact hmoves rfl rfl rfl (by decide : 2 < 3)
    | _ => cases hs
  | store i =>
    obtain ⟨-, hi, -⟩ := hat
    cases r with
    | ok =>
      cases hs
      refine hmoves rfl rfl List.length_set ?_
      by_cases hmore : i + 1 < stored.length
      · simp only [if_pos hmore, ParentPc.rank]
        omega
      · simp only [if_neg hmore, ParentPc.rank]
        omega
    | _ => cases hs
  | post | add =>
    cases r with
    | ok =>
      cases hs
      exact hmoves rfl rfl rfl (by decide : 2 < 3)
    | fail =>
      cases hs
      exact hfail (by rintro _ ⟨⟩) _
    | count n => cases hs
  | wait d =>
    cases r with
    | ok =>
      simp only [State.parentStep] at hs
      split at hs
      · rename_i status hc
        have hbefore : s.rank = 2 + 0 + (s.todo.map fun d => 1 + d.cost MSG_SIZE).sum := by
          rw [State.rank, hpc, hc]
          rfl
        split at hs <;> cases hs
        · show 1 + 0 + (s.todo.map fun d => 1 + d.cost MSG_SIZE).sum + 1 ≤ s.rank
          omega
        · show 0 + 0 + (s.todo.map fun d => 1 + d.cost MSG_SIZE).sum + 1 ≤ s.rank
          omega
      · cases hs
    | fail =>
      cases hs
      exact hfail (by rintro _ ⟨⟩) _
    | count n => cases hs
  | exited status => cases r <;> cases hs

theorem child_lowers {c : ChildPc} (hc : s.child = some c) {r : Res} (hs : s.childStep c r = some s') :
    s'.rank + 1 ≤ s.rank := by
  have hfail : (∀ status, c ≠ .exited status) → ∀ status, (s.exitChild status).rank + 1 ≤ s.rank :=
    fun hne status => exitChild_rank status hc hne
  cases c with
  | connect =>
    cases r with
    | ok =>
      cases hs
      exact rank_of_child hc rfl rfl rfl rfl (Nat.add_lt_add_right (by decide : 2 < 3) _)
    | fail =>
      cases hs
      exact hfail (by rintro _ ⟨⟩) _
    | count n => cases hs
  | write left =>
    cases r with
    | count n =>
      simp only [State.childStep] at hs
      split at hs <;> cases hs
      rename_i hn
      have hlen := hn.1
      have hle := hn.2.1
      refine rank_of_child hc rfl rfl rfl rfl ?_
      by_cases hall : left.length ≤ n
      · simp only [if_pos hall, ChildPc.rank]
        omega
      · simp only [if_neg hall, ChildPc.rank, List.length_drop]
        omega
    | fail =>
      cases hs
      exact hfail (by rintro _ ⟨⟩) _
    | ok => cases hs
  | read =>
    cases r with
    | count n =>
      simp only [State.childStep] at hs
      split at hs <;> cases hs
      exact rank_of_child hc rfl rfl rfl rfl (by decide : 1 < 2)
    | fail =>
      cases hs
      exact hfail (by rintro _ ⟨⟩) _
    | ok => cases hs
  | semWait =>
    cases r with
    | ok =>
      simp only [State.childStep] at hs
      split at hs <;> cases hs
      exact rank_of_child hc rfl rfl rfl rfl (Nat.add_lt_add_right (by decide : 2 < 3) _)
    | fail =>
      cases hs
      exact hfail (by rintro _ ⟨⟩) _
    | count n => cases hs
  | load got =>
    cases r with
    | ok =>
      simp only [State.childStep] at hs
      split at hs <;> cases hs
      · rename_i b hb
        have hlt := (List.getElem?_eq_some_iff.1 hb).1
        refine rank_of_child hc rfl rfl rfl rfl ?_
        by_cases h0 : b = 0
        · simp only [if_pos h0, ChildPc.rank]
          omega
        · simp only [if_neg h0, ChildPc.rank, List.length_append, List.length_singleton]
          omega
      · exact hfail (by rintro _ ⟨⟩) _
    | _ => cases hs
  | readCounter =>
    cases r with
    | ok =>
      simp only [State.childStep] at hs
      split at hs <;> cases hs
      exact rank_of_child hc rfl rfl rfl rfl (by decide : 1 < 2)
    | fail =>
      cases hs
      exact hfail (by rintro _ ⟨⟩) _
    | count n => cases hs
  | print o =>
    cases r with
    | count n => cases hs
    | _ =>
      cases hs
      exact hfail (by rintro _ ⟨⟩) (some 0)
  | exited status => cases r <;> cases hs

theorem step_lowers {l : Label} (h : Inv s) (hs : step s l = some s') : s'.rank + 1 ≤ s.rank := by
  cases l with
  | parent r => exact parent_lowers h hs
  | child r =>
    simp only [step] at hs
    split at hs
    · rename_i c hc
      exact child_lowers hc hs
    · cases hs
  | killParent =>
    simp only [step] at hs
    split at hs <;> cases hs
    rename_i hpc
    exact exit_rank none hpc
  | killChild =>
    simp only [step] at hs
    split at hs
    · cases hs
    · cases hs
    · rename_i hnone hne
      cases hs
      obtain ⟨c, hc⟩ := Option.ne_none_iff_exists'.1 hnone
      exact exitChild_rank none hc fun status hended => hne status (hended ▸ hc)

theorem cost_le (d : Demo) : 1 + d.cost MSG_SIZE ≤ 161 := by
  cases d <;> decide

theorem start_rank (todo : List Demo) : (start todo).rank ≤ 1 + 161 * todo.length := by
  have hsum : (todo.map fun d => 1 + d.cost MSG_SIZE).sum ≤ 161 * todo.length := by
    induction todo with
    | nil => exact Nat.le_refl _
    | cons d todo ih =>
      have hd := cost_le d
      rw [List.map_cons, List.sum_cons, List.length_cons]
      omega
  show 1 + 0 + (todo.map fun d => 1 + d.cost MSG_SIZE).sum ≤ _
  omega

/-- **How it ends.** A run is no longer than the demos make it. When nothing more can happen the parent has ended,
and so has its child unless the parent ended before it accepted the connection, posted to the semaphore or wrote
to the `eventfd`; or the parent waits in `accept` for a child that has ended without connecting. -/
theorem demos_end (todo : List Demo) :
    (∀ ls s, runFrom step (start todo) ls = some s → ls.length ≤ 1 + 161 * todo.length) ∧
    ∀ s, Reach step always (start todo) s → (Stuck s ↔
      (∃ status, s.parent = .exited status) ∧ (∀ c, s.child = some c → (∃ status, c = .exited status) ∨ Orphan s c) ∨
      s.parent = .accept ∧ s.connected = false ∧ ∃ status, s.child = some (.exited status)) := by
  constructor
  · intro ls s hrun
    have hlowers : ∀ s l s', Inv s → step s l = some s' → s'.rank + 1 ≤ s.rank + (fun _ : Label => 0) l :=
      fun _ _ _ hi hs => step_lowers hi hs
    have hbound := runFrom_bound_of (fun _ _ _ hi hs => step_inv hi hs) hlowers ls (start_inv todo) hrun
    rw [List.map_const', List.sum_replicate_nat] at hbound
    have hstart := start_rank todo
    omega
  · exact fun s h => stuck_cases h

/-- The child has connected and written when its parent is killed. -/
theorem demos_end_orphan : ∃ s,
    runFrom step (start [.uds]) [.parent .ok, .parent .ok, .child .ok, .child (.count 13), .killParent] = some s ∧
      s.child = some .read ∧ Stuck s := by
  have hrun : (runFrom step (start [.uds]) [.parent .ok, .parent .ok, .child .ok, .child (.count 13), .killParent]).map
      (fun s => (s.parent, s.child, s.accepted)) = some (.exited none, some .read, false) := by decide
  obtain ⟨s, hs, heq⟩ := Option.map_eq_some_iff.1 hrun
  obtain ⟨hpc, hc, haccepted⟩ : s.parent = _ ∧ s.child = _ ∧ s.accepted = _ := by simpa using heq
  refine ⟨s, hs, hc, ((demos_end [.uds]).2 s (runFrom_reach hs)).2 (.inl ⟨⟨none, hpc⟩, ?_⟩)⟩
  intro c hc'
  obtain rfl := Option.some.inj (hc.symm.trans hc')
  exact .inr (.inl ⟨rfl, haccepted⟩)

/-! ## What is printed -/

/-- No call fails and no signal comes. -/
def NoFailure (_ : State) (l : Label) : Prop := l ≠ .killParent ∧ l ≠ .killChild ∧ l ≠ .parent .fail ∧ l ≠ .child .fail

instance (s : State) (l : Label) : Decidable (NoFailure s l) :=
  inferInstanceAs (Decidable (_ ∧ _ ∧ _ ∧ _))

/-- The line is one of the child's in `d`, and says something. -/
def Out.Of : Demo → Out → Prop
  | .uds, .reply buf => buf ≠ []
  | .mmap, .shared _ | .eventfd, .counter _ => True
  | _, _ => False

/-- The line of the parent. -/
def Demo.request (r : Bytes) : Demo → List Out
  | .uds => [.request r]
  | _ => []

/-- Each demo's lines, one demo after the other. -/
inductive Said : List Demo → List Out → Prop
  | nil : Said [] []
  | snoc {ds : List Demo} {out : List Out} {d : Demo} {r : Bytes} {o : Out} : Said ds out → r ≠ [] → r <+: hello →
    o.Of d → o.Right → Said (ds ++ [d]) (out ++ d.request r ++ [o])

/-- The demo that `main` is in. -/
def ParentPc.current : ParentPc → Option Demo
  | .fork d => some d
  | pc => pc.demo

/-- The parent has not printed its line. -/
def ParentPc.early : ParentPc → Bool
  | .fork _ | .accept | .read | .print _ => true
  | _ => false

/-- Neither about to print, nor through with the connection, nor ended. -/
def ParentPc.plain : ParentPc → Bool
  | .print _ | .wait .uds | .exited _ => false
  | _ => true

/-- The child has not got the reply. -/
def ChildPc.early : ChildPc → Bool
  | .connect | .write _ | .read => true
  | _ => false

def ChildPc.ended : ChildPc → Bool
  | .exited _ => true
  | _ => false

/-- What has been printed of the current demo. -/
def State.now (s : State) (d : Demo) (r : Bytes) (o : Out) : List Out :=
  (if s.parent.early then [] else d.request r) ++ if s.child.any (·.ended) then [o] else []

/-- The lines of the demos that are over, and those of the current one. -/
def State.Saying (todo : List Demo) (s : State) : Prop :=
  ∃ ds before, Said ds before ∧ match s.parent.current with
    | some d => ∃ r o, todo = ds ++ d :: s.todo ∧ s.out = before ++ s.now d r o ∧ r ≠ [] ∧ r <+: hello ∧ o.Of d ∧ o.Right
    | none => todo = ds ++ s.todo ∧ s.out = before

structure Told (todo : List Demo) (s : State) : Prop where
  parent : ∀ status, s.parent = .exited status → status = some 0 ∧ s.todo = [] ∧ s.child = none
  child  : ∀ status, s.child = some (.exited status) → status = some 0
  early  : s.parent.early = true → ∀ c, s.child = some c → c.early = true
  closed : s.parent = .wait .uds → s.down = answer
  print  : ∀ buf, s.parent = .print buf → buf ≠ []
  prints : ∀ d o, s.parent.demo = some d → s.child = some (.print o) → o.Of d
  saying : s.Saying todo

/-- A line that `d` may print. -/
def Demo.line : Demo → Out
  | .uds => .reply answer
  | .mmap => .shared text
  | .eventfd => .counter value

theorem Demo.line_of (d : Demo) : d.line.Of d ∧ d.line.Right := by
  cases d with
  | uds => exact ⟨(by decide : answer ≠ []), List.prefix_refl _⟩
  | mmap | eventfd => exact ⟨trivial, rfl⟩

theorem saying_same {todo : List Demo} (h : s.Saying todo) (hout : s'.out = s.out) (htodo : s'.todo = s.todo)
    (hcurrent : s'.parent.current = s.parent.current) (hearly : s'.parent.early = s.parent.early)
    (hended : s'.child.any (·.ended) = s.child.any (·.ended)) : s'.Saying todo := by
  obtain ⟨ds, before, hsaid, hrest⟩ := h
  refine ⟨ds, before, hsaid, ?_⟩
  simpa only [hcurrent, hout, htodo, State.now, hearly, hended] using hrest

theorem start_told (todo : List Demo) : Told todo (start todo) where
  parent := nofun
  child := nofun
  early := nofun
  closed := nofun
  print := nofun
  prints := nofun
  saying := ⟨[], [], .nil, rfl, rfl⟩

theorem demo_current {pc : ParentPc} {d : Demo} (h : pc.demo = some d) : pc.current = some d := by
  cases pc with
  | fork d => cases h
  | _ => exact h

theorem parent_told {todo : List Demo} (hi : Inv s) (h : Told todo s) {r : Res} (hr : r ≠ .fail)
    (hs : s.parentStep s.parent r = some s') : Told todo s' := by
  have hat := hi.parent
  have hsay := h.saying
  generalize hpc : s.parent = pc at hs hat
  -- a step of the parent that prints nothing and stays in the demo
  have hmoves : ∀ {t : State}, t.out = s.out → t.todo = s.todo → t.child = s.child → t.parent.current = pc.current →
      t.parent.demo = pc.demo → t.parent.early = pc.early → (∀ status, t.parent ≠ .exited status) →
      (t.parent = .wait .uds → t.down = answer) → (∀ buf, t.parent = .print buf → buf ≠ []) → Told todo t := by
    intro t hout htodo hchild hcurrent hdemo hearly hlive hclosed hprint
    refine ⟨fun status ht => absurd ht (hlive status), fun status => hchild ▸ h.child status, fun he c hc => ?_, hclosed,
      hprint, fun d o hd ho => ?_, saying_same hsay hout htodo (hpc ▸ hcurrent) (hpc ▸ hearly) (by rw [hchild])⟩
    · exact h.early (by rw [hpc, ← hearly, he]) c (hchild ▸ hc)
    · exact h.prints d o (by rw [hpc, ← hdemo, hd]) (hchild ▸ ho)
  have hplain : ∀ {t : State}, t.out = s.out → t.todo = s.todo → t.child = s.child → t.parent.current = pc.current →
      t.parent.demo = pc.demo → t.parent.early = pc.early → t.parent.plain = true → Told todo t := by
    intro t hout htodo hchild hcurrent hdemo hearly hplain
    refine hmoves hout htodo hchild hcurrent hdemo hearly (fun status ht => ?_) (fun ht => ?_) fun buf ht => ?_
    all_goals
      rw [ht] at hplain
      cases hplain
  cases pc with
  | main =>
    have hnone : s.child = none := hat
    obtain ⟨ds, before, hsaid, hrest⟩ := hsay
    rw [hpc] at hrest
    obtain ⟨htodo, hout⟩ : todo = ds ++ s.todo ∧ s.out = before := hrest
    simp only [State.parentStep] at hs
    split at hs <;> cases hs
    · rename_i hnil
      refine { h with
        parent := ?_, early := by rintro ⟨⟩, closed := by rintro ⟨⟩, print := by rintro _ ⟨⟩, prints := by rintro _ _ ⟨⟩
        saying := ?_ }
      · rintro _ ⟨⟩
        exact ⟨rfl, hnil, hnone⟩
      · exact ⟨ds, before, hsaid, htodo, hout⟩
    · rename_i d ds' hcons
      refine ⟨(by rintro _ ⟨⟩), h.child, fun _ c hc => (by cases hnone.symm.trans hc), (by rintro ⟨⟩), (by rintro _ ⟨⟩), (by rintro _ _ ⟨⟩), ds, before, hsaid, ?_⟩
      refine ⟨hello, d.line, by rw [htodo, hcons]; rfl, ?_, by decide, List.prefix_refl _, d.line_of⟩
      have hnow : (s.setUp d ds').now d hello d.line = [] := by simp [State.now, State.setUp, ParentPc.early, hnone]
      rw [hnow, List.append_nil]
      exact hout
    · exact absurd rfl hr
  | fork d =>
    have hnone := hat.child
    cases r with
    | ok =>
      cases hs
      obtain ⟨ds, before, hsaid, hrest⟩ := hsay
      rw [hpc] at hrest
      obtain ⟨r, o, htodo, hout, hrest⟩ := hrest
      have hnow : s.now d r o = [] := by simp [State.now, hpc, ParentPc.early, hnone]
      rw [hnow, List.append_nil] at hout
      have hcurrent : d.parent.current = some d := by cases d <;> rfl
      refine ⟨?_, ?_, ?_, ?_, ?_, ?_, ds, before, hsaid, ?_⟩
      · cases d <;> rintro _ ⟨⟩
      · cases d <;> rintro _ ⟨⟩
      · rintro hearly _ ⟨⟩
        cases d with
        | uds => rfl
        | _ => cases hearly
      · cases d <;> rintro ⟨⟩
      · cases d <;> rintro _ ⟨⟩
      · intro d' o _ ho
        cases d <;> cases ho
      · simp only [hcurrent]
        refine ⟨r, o, htodo, ?_, hrest⟩
        have hnext : State.now { s with parent := d.parent, child := some d.child } d r o = [] := by
          cases d <;> simp [State.now, Demo.parent, Demo.child, ParentPc.early, ChildPc.ended, Demo.request]
        rw [hnext, List.append_nil]
        exact hout
    | fail => exact absurd rfl hr
    | count n => cases hs
  | accept =>
    cases r with
    | ok =>
      simp only [State.parentStep] at hs
      split at hs <;> cases hs
      exact hplain rfl rfl rfl rfl rfl rfl rfl
    | fail => exact absurd rfl hr
    | count n => cases hs
  | read =>
    cases r with
    | count n =>
      simp only [State.parentStep] at hs
      split at hs <;> cases hs
      rename_i hn
      refine hmoves rfl rfl rfl rfl rfl rfl (by rintro _ ⟨⟩) (by rintro ⟨⟩) ?_
      rintro _ ⟨⟩ hnil
      have hzero : n = 0 := by
        rcases List.take_eq_nil_iff.1 hnil with h0 | hup
        · exact h0
        · simpa [hup] using hn.2.1
      -- the end of the stream comes only after the reply
      obtain ⟨-, hclient⟩ := hn.2.2 hzero
      obtain ⟨c, hc, -, -⟩ := hi.ofDemo (d := .uds) (by rw [hpc]; rfl)
      obtain ⟨status, rfl⟩ := (hi.alive c hc).1 hclient
      cases h.early (by rw [hpc]; rfl) _ hc
    | fail => exact absurd rfl hr
    | ok => cases hs
  | print buf =>
    cases r with
    | ok =>
      cases hs
      obtain ⟨ds, before, hsaid, hrest⟩ := hsay
      rw [hpc] at hrest
      obtain ⟨r, o, htodo, hout, -, -, ho⟩ := hrest
      have hended : s.child.any (·.ended) = false := by
        cases hc : s.child with
        | none => rfl
        | some c =>
          have hearly := h.early (by rw [hpc]; rfl) c hc
          cases c with
          | exited status => cases hearly
          | _ => rfl
      refine ⟨(by rintro _ ⟨⟩), h.child, (by rintro ⟨⟩), (by rintro ⟨⟩), (by rintro _ ⟨⟩), fun d o hd => h.prints d o (by rw [hpc]; exact hd), ds, before,
        hsaid, ?_⟩
      refine ⟨buf, o, htodo, ?_, h.print buf hpc, hat.2.2, ho⟩
      rw [hout]
      simp [State.now, hpc, ParentPc.early, hended, Demo.request]
    | fail => exact absurd rfl hr
    | count n => cases hs
  | write left =>
    cases r with
    | count n =>
      simp only [State.parentStep] at hs
      split at hs <;> cases hs
      by_cases hall : left.length ≤ n
      · simp only [if_pos hall]
        exact hplain rfl rfl rfl rfl rfl rfl rfl
      · simp only [if_neg hall]
        exact hplain rfl rfl rfl rfl rfl rfl rfl
    | fail => exact absurd rfl hr
    | ok => cases hs
  | close =>
    cases r with
    | ok =>
      cases hs
      exact hmoves rfl rfl rfl rfl rfl rfl (by rintro _ ⟨⟩) (fun _ => hat.2) (by rintro _ ⟨⟩)
    | _ => cases hs
  | store i =>
    cases r with
    | ok =>
      cases hs
      by_cases hmore : i + 1 < stored.length
      · simp only [if_pos hmore]
        exact hplain rfl rfl rfl rfl rfl rfl rfl
      · simp only [if_neg hmore]
        exact hplain rfl rfl rfl rfl rfl rfl rfl
    | _ => cases hs
  | post | add =>
    cases r with
    | ok =>
      cases hs
      exact hplain rfl rfl rfl rfl rfl rfl rfl
    | fail => exact absurd rfl hr
    | count n => cases hs
  | wait d =>
    cases r with
    | ok =>
      simp only [State.parentStep] at hs
      split at hs
      · rename_i status hc
        obtain rfl := h.child status hc
        rw [if_pos rfl] at hs
        cases hs
        obtain ⟨ds, before, hsaid, hrest⟩ := hsay
        rw [hpc] at hrest
        obtain ⟨r, o, htodo, hout, hne, hpre, hof, hright⟩ := hrest
        refine ⟨(by rintro _ ⟨⟩), (by rintro _ ⟨⟩), (by rintro ⟨⟩), (by rintro ⟨⟩), (by rintro _ ⟨⟩), (by rintro _ _ ⟨⟩), ds ++ [d], before ++ d.request r ++ [o],
          .snoc hsaid hne hpre hof hright, ?_, ?_⟩
        · rw [htodo, List.append_assoc]
          rfl
        · rw [hout]
          simp [State.now, hpc, hc, ParentPc.early, ChildPc.ended]
      · cases hs
    | fail => exact absurd rfl hr
    | count n => cases hs
  | exited status => cases r <;> cases hs

/-- What the child does leaves the parent's lines as they are. -/
theorem Told.childMoves {todo : List Demo} {c c' : ChildPc} (h : Told todo s) (hc : s.child = some c)
    (hlive : c.ended = false) (hlive' : c'.ended = false) (hchild : s'.child = some c') (hparent : s'.parent = s.parent)
    (htodo : s'.todo = s.todo) (hdown : s'.down = s.down) (hout : s'.out = s.out)
    (hearly : s.parent.early = true → c'.early = true)
    (hprints : ∀ d o, s.parent.demo = some d → c' = .print o → o.Of d) : Told todo s' where
  parent status hpc := by
    rw [hparent] at hpc
    cases hc.symm.trans (h.parent status hpc).2.2
  child status hended := by
    obtain rfl := Option.some.inj (hchild.symm.trans hended)
    cases hlive'
  early he x hx := by
    obtain rfl := Option.some.inj (hchild.symm.trans hx)
    exact hearly (hparent ▸ he)
  closed hpc := by
    rw [hdown]
    exact h.closed (hparent ▸ hpc)
  print buf hpc := h.print buf (hparent ▸ hpc)
  prints d o hd ho := hprints d o (hparent ▸ hd) (Option.some.inj (hchild.symm.trans ho))
  saying := saying_same h.saying hout htodo (by rw [hparent]) (by rw [hparent]) (by simp [hchild, hc, hlive, hlive'])

/-- While there is a child the parent is in its demo. -/
theorem Told.inDemo {todo : List Demo} (hi : Inv s) (h : Told todo s) {c : ChildPc} (hc : s.child = some c) :
    ∃ d, s.parent.demo = some d ∧ (c.demo = none ∨ c.demo = some d) := by
  have hsome : ∃ d, s.parent.demo = some d := by
    have hat := hi.parent
    cases hpc : s.parent with
    | main =>
      rw [hpc] at hat
      cases hc.symm.trans hat
    | fork d =>
      rw [hpc] at hat
      cases hc.symm.trans hat.child
    | exited status => cases hc.symm.trans (h.parent status hpc).2.2
    | _ => exact ⟨_, rfl⟩
  obtain ⟨d, hd⟩ := hsome
  obtain ⟨x, hx, -, hkind⟩ := hi.ofDemo hd
  obtain rfl := Option.some.inj (hc.symm.trans hx)
  exact ⟨d, hd, hkind⟩

/-- Nothing is written to the child before the request is printed. -/
theorem Inv.silent (h : Inv s) (hearly : s.parent.early = true) (hchild : s.child ≠ none) : s.down = [] := by
  have hat := h.parent
  cases hpc : s.parent with
  | fork d =>
    rw [hpc] at hat
    exact absurd hat.child hchild
  | accept =>
    rw [hpc] at hat
    exact (h.queue hat).2
  | read =>
    rw [hpc] at hat
    exact hat.2
  | print buf =>
    rw [hpc] at hat
    exact hat.2.1
  | _ =>
    rw [hpc] at hearly
    cases hearly

/-- The connection is not closed before the reply is written. -/
theorem Told.replied {todo : List Demo} (hi : Inv s) (h : Told todo s) (hc : s.child = some .read) (hdown : s.down = []) :
    s.serverEnd = true := by
  obtain ⟨d, hd, hkind⟩ := h.inDemo hi hc
  obtain rfl : Demo.uds = d := by simpa [ChildPc.demo] using hkind
  have hat := hi.parent
  cases hpc : s.parent with
  | accept =>
    rw [hpc] at hat
    exact (hi.queue hat).1
  | read | print buf | write left | close =>
    rw [hpc] at hat
    exact hat.1.2
  | wait d =>
    rw [hpc] at hd
    obtain rfl : d = .uds := Option.some.inj hd
    cases hdown.symm.trans (h.closed hpc)
  | _ =>
    rw [hpc] at hd
    cases hd

theorem Told.reply {todo : List Demo} (hi : Inv s) (h : Told todo s) (hc : s.child = some .read) {n : Nat}
    (hn : Reads s.down s.serverEnd n) : s.down ≠ [] ∧ n ≠ 0 := by
  have hdown : s.down ≠ [] := by
    intro hdown
    obtain ⟨-, hle, hzero⟩ := hn
    rw [hdown, List.length_nil] at hle
    cases (h.replied hi hc hdown).symm.trans (hzero (Nat.le_zero.1 hle)).2
  exact ⟨hdown, fun h0 => hdown (hn.2.2 h0).1⟩

theorem child_told {todo : List Demo} (hi : Inv s) (h : Told todo s) {c : ChildPc} (hc : s.child = some c) {r : Res}
    (hr : r ≠ .fail) (hs : s.childStep c r = some s') : Told todo s' := by
  have hat := hi.child c hc
  obtain ⟨d, hd, hkind⟩ := h.inDemo hi hc
  have hlate : c.early = false → s.parent.early = false := by
    intro hc'
    cases hearly : s.parent.early with
    | false => rfl
    | true => cases hc'.symm.trans (h.early hearly c hc)
  have hnot : c.early = false → ∀ {p : Prop}, s.parent.early = true → p := by
    intro hc' p he
    cases (hlate hc').symm.trans he
  cases c with
  | connect =>
    cases r with
    | ok =>
      cases hs
      exact h.childMoves hc rfl rfl rfl rfl rfl rfl rfl (fun _ => rfl) (by rintro _ _ - ⟨⟩)
    | fail => exact absurd rfl hr
    | count n => cases hs
  | write left =>
    cases r with
    | count n =>
      simp only [State.childStep] at hs
      split at hs <;> cases hs
      by_cases hall : left.length ≤ n
      · simp only [if_pos hall]
        exact h.childMoves hc rfl rfl rfl rfl rfl rfl rfl (fun _ => rfl) (by rintro _ _ - ⟨⟩)
      · simp only [if_neg hall]
        exact h.childMoves hc rfl rfl rfl rfl rfl rfl rfl (fun _ => rfl) (by rintro _ _ - ⟨⟩)
    | fail => exact absurd rfl hr
    | ok => cases hs
  | read =>
    cases r with
    | count n =>
      simp only [State.childStep] at hs
      split at hs <;> cases hs
      rename_i hn
      obtain ⟨hdown, hpos⟩ := h.reply hi hc hn
      obtain rfl : Demo.uds = d := by simpa [ChildPc.demo] using hkind
      refine h.childMoves hc rfl rfl rfl rfl rfl rfl rfl (fun he => absurd (hi.silent he (by rw [hc]; rintro ⟨⟩)) hdown) ?_
      rintro d' _ hd' ⟨⟩
      obtain rfl := Option.some.inj (hd.symm.trans hd')
      intro hnil
      rcases List.take_eq_nil_iff.1 hnil with h0 | hnil
      · exact hpos h0
      · exact hdown hnil
    | fail => exact absurd rfl hr
    | ok => cases hs
  | semWait =>
    cases r with
    | ok =>
      simp only [State.childStep] at hs
      split at hs <;> cases hs
      exact h.childMoves hc rfl rfl rfl rfl rfl rfl rfl (hnot rfl) (by rintro _ _ - ⟨⟩)
    | fail => exact absurd rfl hr
    | count n => cases hs
  | load got =>
    cases r with
    | ok =>
      obtain rfl : Demo.mmap = d := by simpa [ChildPc.demo] using hkind
      simp only [State.childStep] at hs
      split at hs <;> cases hs
      · rename_i b hb
        by_cases h0 : b = 0
        · simp only [if_pos h0]
          refine h.childMoves hc rfl rfl rfl rfl rfl rfl rfl (hnot rfl) ?_
          rintro d' _ hd' ⟨⟩
          obtain rfl := Option.some.inj (hd.symm.trans hd')
          trivial
        · simp only [if_neg h0]
          exact h.childMoves hc rfl rfl rfl rfl rfl rfl rfl (hnot rfl) (by rintro _ _ - ⟨⟩)
      · rename_i hout
        obtain ⟨hwaits, hgot⟩ := hat
        have hlen := hgot.length_le
        rw [hi.full (by have := hi.sem.1; omega)] at hout
        have hshort := List.getElem?_eq_none_iff.1 hout
        have htext : text.length = 25 := rfl
        have hregion : (filled stored.length).length = MSG_SIZE := rfl
        have hsize : MSG_SIZE = 128 := rfl
        omega
    | fail => exact absurd rfl hr
    | count n => cases hs
  | readCounter =>
    cases r with
    | ok =>
      obtain rfl : Demo.eventfd = d := by simpa [ChildPc.demo] using hkind
      simp only [State.childStep] at hs
      split at hs <;> cases hs
      refine h.childMoves hc rfl rfl rfl rfl rfl rfl rfl (hnot rfl) ?_
      rintro d' _ hd' ⟨⟩
      obtain rfl := Option.some.inj (hd.symm.trans hd')
      trivial
    | fail => exact absurd rfl hr
    | count n => cases hs
  | print o =>
    cases r with
    | ok =>
      cases hs
      have hof := h.prints d o hd hc
      obtain ⟨ds, before, hsaid, hrest⟩ := h.saying
      rw [demo_current hd] at hrest
      obtain ⟨r, o', htodo, hout, hne, hpre, -, -⟩ := hrest
      refine ⟨fun status hpc => ?_, ?_, fun he => hnot rfl he, h.closed, h.print, (by rintro _ _ - ⟨⟩), ds, before, hsaid, ?_⟩
      · cases hc.symm.trans (h.parent status hpc).2.2
      · rintro status ⟨⟩
        rfl
      · show match s.parent.current with | some d => _ | none => _
        simp only [demo_current hd]
        refine ⟨r, o, htodo, ?_, hne, hpre, hof, hat⟩
        show s.out ++ [o] = _
        rw [hout]
        simp [State.now, State.exitChild, hc, hlate rfl, ChildPc.ended]
    | fail => exact absurd rfl hr
    | count n => cases hs
  | exited status => cases r <;> cases hs

theorem step_told {todo : List Demo} {l : Label} (hi : Inv s) (h : Told todo s) (hl : NoFailure s l) (hs : step s l = some s') :
    Told todo s' := by
  obtain ⟨hkill, hkill', hparent, hchild⟩ := hl
  cases l with
  | parent r => exact parent_told hi h (fun hr => hparent (hr ▸ rfl)) hs
  | child r =>
    simp only [step] at hs
    split at hs
    · rename_i c hc
      exact child_told hi h hc (fun hr => hchild (hr ▸ rfl)) hs
    · cases hs
  | killParent => exact absurd rfl hkill
  | killChild => exact absurd rfl hkill'

theorem reach_told {todo : List Demo} (h : Reach step NoFailure (start todo) s) : Inv s ∧ Told todo s :=
  h.invariant (I := fun s => Inv s ∧ Told todo s) ⟨start_inv todo, start_told todo⟩
    fun _ _ _ hi hok hs => ⟨step_inv hi.1 hs, step_told hi.1 hi.2 hok hs⟩

end

/-- The server reads five bytes of the request, the child those of the reply. -/
def shortRun : List Label :=
  [.parent .ok, .parent .ok, .child .ok, .child (.count 13), .parent .ok, .parent (.count 5), .parent .ok,
    .parent (.count 21), .child (.count 5), .parent .ok, .child .ok, .parent .ok, .parent .ok]

end ComputerSystem.Ipc
