import ComputerSystem.Uds.Fd
/-!
# Who owns a descriptor

The factories hand over only what the kernel has just opened (`Fresh`), so `Inv` holds between any two
of their steps too, and `exclusive_ownership` is about every point of every run. `factories_run` and
`accept_runs` say that no factory gets stuck, and that one that throws leaves nothing behind.
-/

namespace ComputerSystem.Uds

open Custody

/-! ## The factories keep it -/

/-- What throws and does nothing else. -/
theorem next_nil {a b : Script} (ha : a.code = []) (hb : b.code = []) : (a.next b).code = [] := by
  unfold Script.next
  split
  · exact ha
  · rw [ha, hb]
    rfl

theorem succeeds_nil (ok : Bool) : (succeeds ok).code = [] := by
  cases ok <;> rfl

theorem makeAddr_nil (path : Bytes) : (makeAddr path).code = [] := by
  unfold makeAddr
  split <;> rfl

/-- The calls of `listen` behind `s`. -/
theorem listenCalls_nil (path : Bytes) (sys : Sys) :
    ((makeAddr path).next ((succeeds sys.copied).next ((succeeds sys.bind).next (succeeds sys.listen)))).code = [] :=
  next_nil (makeAddr_nil path) (next_nil (succeeds_nil _) (next_nil (succeeds_nil _) (succeeds_nil _)))

/-- Those of `connect`. -/
theorem connectCalls_nil (path : Bytes) (sys : Sys) : ((makeAddr path).next (succeeds sys.connect)).code = [] :=
  next_nil (makeAddr_nil path) (succeeds_nil _)

/-- Code that constructs an `Fd` only from a descriptor that the kernel has just opened. -/
inductive Fresh : List Prim → Prop
  | nil : Fresh []
  | newFd {c o : Nat} {code : List Prim} : Fresh code → Fresh (.opens c :: .construct o c :: code)
  | moveConstruct {o src : Nat} {code : List Prim} : Fresh code → Fresh (.moveConstruct o src :: code)
  | destroy {o : Nat} {code : List Prim} : Fresh code → Fresh (.destroy o :: code)

theorem Fresh.append {a b : List Prim} (ha : Fresh a) (hb : Fresh b) : Fresh (a ++ b) := by
  induction ha with
  | nil => exact hb
  | newFd _ ih => exact .newFd ih
  | moveConstruct _ ih => exact .moveConstruct ih
  | destroy _ ih => exact .destroy ih

theorem Fresh.next {a b : Script} (ha : Fresh a.code) (hb : Fresh b.code) : Fresh (a.next b).code := by
  unfold Script.next
  split
  · exact ha
  · exact ha.append hb

theorem Fresh.scope {body : Script} (s : Nat) (h : Fresh body.code) : Fresh (Script.scope s body).code :=
  h.append (.destroy .nil)

theorem Fresh.returning {body : Script} (elided : Bool) (s ret : Nat) (h : Fresh body.code) :
    Fresh (Script.returning elided s ret body).code := by
  unfold Script.returning
  split
  · exact h.scope s
  · split
    · exact h
    · exact Fresh.scope s (h.next (.moveConstruct .nil))

theorem fresh_newFd (c : Option Nat) (o : Nat) : Fresh (newFd c o).code := by
  cases c with
  | none => exact .nil
  | some c => exact .newFd .nil

theorem fresh_unixSocket (o param : Nat) {arg : Nat → Script} (h : ∀ p, Fresh (arg p).code) :
    Fresh (unixSocket o param arg).code :=
  (h param).next (Fresh.scope param (.moveConstruct .nil))

theorem fresh_nil {a : Script} (h : a.code = []) : Fresh a.code := by
  rw [h]
  exact .nil

theorem fresh_listen (path : Bytes) (sys : Sys) (t : Temps) : Fresh (listen path sys t).code := by
  apply Fresh.next
  · exact fresh_unixSocket _ _ fun p => fresh_newFd _ p
  · apply Fresh.returning
    exact fresh_nil (listenCalls_nil path sys)

theorem fresh_connect (path : Bytes) (sys : Sys) (t : Temps) : Fresh (connect path sys t).code := by
  apply Fresh.next
  · exact fresh_unixSocket _ _ fun p => fresh_newFd _ p
  · apply Fresh.returning
    exact fresh_nil (connectCalls_nil path sys)

theorem fresh_accept (sys : Sys) (t : Temps) : Fresh (accept sys t).code :=
  fresh_unixSocket _ _ fun p => fresh_newFd _ p

/-- What the kernel has just opened is unowned. -/
theorem opens_unowned {w w' : World} {c : Nat} (h : Inv w) (hs : prim w (.opens c) = some w') : w'.Unowned c := by
  simp only [prim] at hs
  split at hs
  · cases hs
  · rename_i hclosed
    cases hs
    refine ⟨Function.update_self .., fun o ho => ?_⟩
    exact hclosed (h.opened o c (slot_eq.2 ho))

/-- **At every point of such code.** -/
theorem Fresh.inv {code : List Prim} (hf : Fresh code) : ∀ {w w' : World} {done : List Prim}, Inv w → done <+: code →
    runFrom prim w done = some w' → Inv w' := by
  -- a step, and the rest of the code behind it
  have hcons : ∀ {p : Prim} {code : List Prim} {w w' : World} {done : List Prim},
      (∀ {w w' : World} {done : List Prim}, Inv w → done <+: code → runFrom prim w done = some w' → Inv w') →
      Inv w → Careful w (.prim p) → done <+: p :: code → runFrom prim w done = some w' → Inv w' := by
    intro p code w w' done ih h hc hpre hrun
    cases done with
    | nil =>
      cases hrun
      exact h
    | cons q done =>
      obtain ⟨rfl, hpre'⟩ := List.cons_prefix_cons.1 hpre
      obtain ⟨t, ht, hrun⟩ := runFrom_cons hrun
      exact ih (prim_inv h hc ht) hpre' hrun
  induction hf with
  | nil =>
    intro w w' done h hpre hrun
    obtain rfl := List.prefix_nil.1 hpre
    cases hrun
    exact h
  | @newFd c o code _ ih =>
    intro w w' done h hpre hrun
    have hc : Careful w (.prim (.opens c)) := trivial
    cases done with
    | nil =>
      cases hrun
      exact h
    | cons q done =>
      obtain ⟨rfl, hpre'⟩ := List.cons_prefix_cons.1 hpre
      obtain ⟨t, ht, hrun⟩ := runFrom_cons hrun
      have hfresh : Careful t (.prim (.construct o c)) := fun _ => opens_unowned h ht
      exact hcons ih (prim_inv h hc ht) hfresh hpre' hrun
  | @moveConstruct o src code _ ih =>
    intro w w' done h hpre hrun
    have hc : Careful w (.prim (.moveConstruct o src)) := trivial
    exact hcons ih h hc hpre hrun
  | @destroy o code _ ih =>
    intro w w' done h hpre hrun
    have hc : Careful w (.prim (.destroy o)) := trivial
    exact hcons ih h hc hpre hrun

theorem code_inv {w w' : World} {op : Op} {done : List Prim} (h : Inv w) (hc : Careful w op) (hpre : done <+: op.code)
    (hrun : runFrom prim w done = some w') : Inv w' := by
  cases op with
  | prim p =>
    rcases List.prefix_cons_iff.1 hpre with rfl | ⟨t, rfl, ht⟩
    · cases hrun
      exact h
    · obtain rfl := List.prefix_nil.1 ht
      obtain ⟨t, ht, hrun⟩ := runFrom_cons hrun
      cases hrun
      exact prim_inv h hc ht
  | listen path sys t => exact (fresh_listen path sys t).inv h hpre hrun
  | connect path sys t => exact (fresh_connect path sys t).inv h hpre hrun
  | accept sys t => exact (fresh_accept sys t).inv h hpre hrun

theorem point_inv {w : World} (h : Point w) : Inv w := by
  obtain ⟨w₀, op, code, hreach, hc, hpre, hrun⟩ := h
  have h₀ : Inv w₀ := by
    apply hreach.invariant Inv.init
    intro s l s' hs hok hstep
    exact code_inv hs hok (List.prefix_refl _) hstep
  exact code_inv h₀ hc hpre hrun

/-! ## The factories run to their end -/

/-- A factory as `listen` and `connect` are: nothing behind `s` opens a descriptor. -/
def factory (sys : Sys) (t : Temps) (body : Script) : Script :=
  (unixSocket t.s t.param (makeSocket sys)).next (Script.returning t.elided t.s t.ret body)

/-- With a new descriptor `c` in a new object `s`. -/
def World.withFd (w : World) (s c : Nat) : World :=
  ⟨Function.update w.objs s (some (c : Int)), Function.update w.opened c true, w.log ++ [.acquired c]⟩

/-- `UnixSocket s(make_socket())` with a descriptor. -/
theorem socket_runs {w : World} {s param c : Nat} (hs : w.objs s = none) (hparam : w.objs param = none) (hne : s ≠ param)
    (hc : w.opened c = false) :
    runFrom prim w [.opens c, .construct param c, .moveConstruct s param, .destroy param] = some (w.withFd s c) := by
  have hback : Function.update (Function.update (Function.update w.objs param (some (c : Int))) s (some (c : Int)))
      param none = Function.update w.objs s (some (c : Int)) := by
    funext o
    by_cases ho : o = param
    · subst ho
      simp [hparam, Ne.symm hne]
    · by_cases hos : o = s
      · subst hos
        simp [ho]
      · simp [ho, hos]
  simp [runFrom, prim, hs, hparam, hne, hc, World.store, World.handOver, World.closeOld, World.withFd, hback]

/-- The scope of `s` ends: its descriptor is closed. -/
theorem destroy_runs {w : World} {s c : Nat} (hs : w.objs s = some (c : Int)) :
    prim w (.destroy s) = some ⟨Function.update w.objs s none, Function.update w.opened c false, w.log ++ [.closed c]⟩ := by
  simp [prim, hs, World.closeOld, World.close]

/-- The rest of a factory: when it throws, `s` is destroyed and nothing else happens. -/
theorem returning_runs {w : World} {s ret c : Nat} {body : Script} (elided : Bool) (hbody : body.code = [])
    (hs : w.objs s = some (c : Int)) (hret : w.objs ret = none) :
    ∃ w', runFrom prim w (Script.returning elided s ret body).code = some w' ∧ (body.threw = true →
      w' = ⟨Function.update w.objs s none, Function.update w.opened c false, w.log ++ [.closed c]⟩) := by
  by_cases hthrew : body.threw = true
  · have hcode : (Script.returning elided s ret body).code = [.destroy s] := by
      simp [Script.returning, Script.scope, hthrew, hbody]
    rw [hcode]
    simp only [runFrom, destroy_runs hs]
    exact ⟨_, rfl, fun _ => rfl⟩
  · by_cases helided : elided = true
    · have hcode : (Script.returning elided s ret body).code = [] := by
        simp [Script.returning, hthrew, helided, hbody]
      rw [hcode]
      exact ⟨w, rfl, fun h => absurd h hthrew⟩
    · have hcode : (Script.returning elided s ret body).code = [.moveConstruct ret s, .destroy s] := by
        simp [Script.returning, Script.next, Script.scope, Script.ok, hthrew, helided, hbody]
      have hmove : prim w (.moveConstruct ret s) = some ((w.store ret c).store s (-1)) := by
        simp only [prim, hret, hs]
      have halive : ((w.store ret c).store s (-1)).objs s = some (-1) := Function.update_self ..
      obtain ⟨v, hv⟩ : ∃ v, prim ((w.store ret c).store s (-1)) (.destroy s) = some v := by
        simp only [prim, halive]
        exact ⟨_, rfl⟩
      rw [hcode]
      simp only [runFrom, hmove, hv]
      exact ⟨v, rfl, fun h => absurd h hthrew⟩

/-- **A factory runs to its end**, and when it throws the objects and the open descriptors are what they
were before. -/
theorem factory_runs {w : World} {sys : Sys} {t : Temps} {body : Script} (hbody : body.code = [])
    (hdead : w.objs t.param = none ∧ w.objs t.s = none ∧ w.objs t.ret = none)
    (hne : t.s ≠ t.param ∧ t.s ≠ t.ret) (hsocket : ∀ c, sys.socket = some c → w.opened c = false) :
    ∃ w', runFrom prim w (factory sys t body).code = some w' ∧
      ((factory sys t body).threw = true → w'.objs = w.objs ∧ w'.opened = w.opened) := by
  obtain ⟨hparam, hs, hret⟩ := hdead
  cases hsys : sys.socket with
  | none =>
    have hcode : factory sys t body = .throws := by
      simp [factory, unixSocket, makeSocket, newFd, hsys, Script.next, Script.throws]
    rw [hcode]
    exact ⟨w, rfl, fun _ => ⟨rfl, rfl⟩⟩
  | some c =>
    have hclosed := hsocket c hsys
    have hthrew : (Script.returning t.elided t.s t.ret body).threw = body.threw := by
      unfold Script.returning Script.next Script.scope
      split
      · rfl
      · rename_i hno
        rw [Bool.not_eq_true] at hno
        split <;> simp [hno, Script.ok]
    have hcode : factory sys t body = ⟨[.opens c, .construct t.param c, .moveConstruct t.s t.param, .destroy t.param] ++
        (Script.returning t.elided t.s t.ret body).code, body.threw⟩ := by
      simp [factory, unixSocket, makeSocket, newFd, hsys, Script.next, Script.ok, Script.scope, hthrew]
    rw [hcode, runFrom_append, socket_runs hs hparam hne.1 hclosed, Option.bind_some]
    have hs' : (w.withFd t.s c).objs t.s = some (c : Int) := Function.update_self ..
    have hret' : (w.withFd t.s c).objs t.ret = none := by
      rw [← hret]
      exact Function.update_of_ne (Ne.symm hne.2) ..
    obtain ⟨w', hrun, hthrown⟩ := returning_runs t.elided hbody hs' hret'
    refine ⟨w', hrun, fun h => ?_⟩
    rw [hthrown h]
    constructor
    · show Function.update (Function.update w.objs t.s _) t.s none = w.objs
      rw [Function.update_idem, ← hs, Function.update_eq_self]
    · show Function.update (Function.update w.opened c true) c false = w.opened
      rw [Function.update_idem, ← hclosed, Function.update_eq_self]

/-- **`listen` and `connect`** with unused addresses. -/
theorem factories_run {w : World} (path : Bytes) {sys : Sys} {t : Temps}
    (hdead : w.objs t.param = none ∧ w.objs t.s = none ∧ w.objs t.ret = none)
    (hne : t.s ≠ t.param ∧ t.s ≠ t.ret) (hsocket : ∀ c, sys.socket = some c → w.opened c = false) :
    (∃ w', step w (.listen path sys t) = some w' ∧
      ((listen path sys t).threw = true → w'.objs = w.objs ∧ w'.opened = w.opened)) ∧
    ∃ w', step w (.connect path sys t) = some w' ∧
      ((connect path sys t).threw = true → w'.objs = w.objs ∧ w'.opened = w.opened) := by
  constructor
  · apply factory_runs _ hdead hne hsocket
    exact listenCalls_nil path sys
  · apply factory_runs _ hdead hne hsocket
    exact connectCalls_nil path sys

/-- **`accept`** with unused addresses. -/
theorem accept_runs {w : World} {sys : Sys} {t : Temps} (hdead : w.objs t.param = none ∧ w.objs t.ret = none)
    (hne : t.ret ≠ t.param) (haccept : ∀ c, sys.accept = some c → w.opened c = false) :
    ∃ w', step w (.accept sys t) = some w' ∧ ((accept sys t).threw = true → w' = w) := by
  cases hsys : sys.accept with
  | none =>
    have hcode : accept sys t = .throws := by
      simp [accept, unixSocket, newFd, hsys, Script.next, Script.throws]
    rw [step, Op.code, hcode]
    exact ⟨w, rfl, fun _ => rfl⟩
  | some c =>
    have hcode : accept sys t =
        .ok [.opens c, .construct t.param c, .moveConstruct t.ret t.param, .destroy t.param] := by
      simp [accept, unixSocket, newFd, hsys, Script.next, Script.ok, Script.scope]
    rw [step, Op.code, hcode]
    exact ⟨_, socket_runs hdead.2 hdead.1 hne (haccept c hsys), fun h => by cases h⟩

/-! ## Ownership -/

/-- Who has what, and how often it was closed. -/
structure Exclusive (w : World) : Prop where
  /-- what was handed over and neither released nor closed is in exactly one object -/
  held : ∀ n, Custody.held n w.log = true → ∃! o, w.objs o = some (n : Int)
  /-- what an object has is such a descriptor, and open -/
  kept : ∀ o n, w.objs o = some ((n : Nat) : Int) → Custody.held n w.log = true ∧ w.opened n = true
  /-- each acquisition ends in at most one close or release -/
  ended : ∀ a n b, w.log = a ++ .acquired n :: b → Custody.ended n b ≤ 1
  /-- and nothing else is closed or released -/
  only : ∀ n, Custody.ended n w.log = 0
  /-- without objects each acquisition has ended -/
  all : (∀ o, w.objs o = none) → ∀ a n b, w.log = a ++ .acquired n :: b → Custody.ended n b = 1

/-- **Exclusive ownership**, at every point of every run. -/
theorem exclusive_ownership (w : World) (h : Point w) : Exclusive w := by
  have hinv := point_inv h
  have hlin := hinv.linear
  constructor
  · intro n hn
    obtain ⟨o, ho⟩ := (hlin.held_iff n).1 hn
    refine ⟨o, slot_eq.1 ho, fun p hp => ?_⟩
    exact hlin.one (slot_eq.2 hp) ho
  · intro o n ho
    have hslot := slot_eq.2 ho
    exact ⟨(hlin.held_iff n).2 ⟨o, hslot⟩, hinv.opened o n hslot⟩
  · intro a n b hlog
    exact hlin.disciplined.ended_le hlog
  · intro n
    exact (hlin.disciplined.ended_zero n).1
  · intro hnone a n b hlog
    apply hlin.disciplined.ended_eq _ hlog
    rw [Bool.eq_false_iff]
    intro hheld
    obtain ⟨o, ho⟩ := (hlin.held_iff n).1 hheld
    rw [slot_dead (hnone o)] at ho
    cases ho

/-- A `listen` whose `bind` fails. -/
def failedListen : Op :=
  .listen (ascii "/tmp/s") ⟨some 4, true, false, true, true, none⟩ ⟨1, 2, 3, false⟩

/-- An `Fd` of descriptor 3, a `listen` that throws, and the end of the `Fd`. -/
theorem exclusive_ownership_thrown : ∃ w, w.log = [.acquired 3, .acquired 4, .closed 4, .closed 3] ∧ Exclusive w := by
  have h1 : Reach step Careful World.init ⟨_, _, _⟩ := Reach.single (l := .prim (.opens 3)) trivial rfl
  have h2 : Reach step Careful World.init ⟨_, _, _⟩ :=
    h1.tail (l := .prim (.construct 0 3)) (fun _ => ⟨rfl, fun o h => by cases h⟩) rfl
  have h3 : Reach step Careful World.init ⟨_, _, _⟩ := h2.tail (l := failedListen) trivial rfl
  refine ⟨⟨_, _, _⟩, ?_, exclusive_ownership _ ⟨_, .prim (.destroy 0), [.destroy 0], h3, trivial, List.prefix_refl _, rfl⟩⟩
  rfl

end ComputerSystem.Uds
