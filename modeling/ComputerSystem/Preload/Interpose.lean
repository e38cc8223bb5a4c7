import ComputerSystem.CTypes
import ComputerSystem.Lib.Machine
import Mathlib.Logic.Function.Basic
/-!
# Interposed `malloc` and `free` (`Chapter7/preload/mymalloc.c:24-64`)

The wrappers print what they are called for, and `printf` calls them again. `in_hook`, which every thread
has its own of, is set around the `printf`, so that the calls from there are only forwarded: without it the
wrappers would call each other for ever. `interposed` says what a thread's calls come to in any run, and
`returns` that each of them ends.

| here           | there                                                        |
|----------------|--------------------------------------------------------------|
| `Thread.stack` | the wrappers that have not returned, the innermost first     |
| `Label.missing`| `dlsym` found nothing: the message and `exit(1)`             |
| `Thread.trace` | calls of the wrappers, calls of libc's functions, lines printed |

What `printf` does is print its line, after any number of calls of `malloc` and `free`; `dlsym` calls neither.
-/

namespace ComputerSystem.Preload

abbrev Tid := Nat

/-- 0 is `NULL`. -/
abbrev Addr := Nat

inductive Call
  | malloc (size : Nat)
  | free (ptr : Addr)
deriving DecidableEq, Repr

/-- `malloc` returns a pointer. -/
def Call.returns : Call → Bool
  | .malloc _ => true
  | .free _ => false

/-- `"malloc(%d) = %p\n"` (`:39`) and `"free(%p)\n"` (`:61`). -/
inductive Line
  | malloc (size : Int) (ptr : Addr)
  | free (ptr : Addr)
deriving DecidableEq, Repr

def Call.line : Call → Option Addr → Line
  | .malloc size, r => .malloc (toInt32 size) (r.getD 0)
  | .free ptr, _ => .free ptr

inductive Event
  /-- a wrapper was called, by the program itself or by `printf` -/
  | call (own : Bool) (c : Call)
  /-- libc's function was called and has returned -/
  | real (c : Call) (r : Option Addr)
  | line (l : Line)
deriving DecidableEq, Repr

/-- Where a wrapper stands. -/
inductive Pc
  /-- `dlsym` (`:31`, `:53`) -/
  | dlsym
  /-- `mallocp(size)` (`:36`), `freep(ptr)` (`:58`) -/
  | real
  /-- `if (!in_hook)` (`:37`, `:59`) -/
  | test (r : Option Addr)
  /-- in `printf` (`:39`, `:61`), with `in_hook` set -/
  | print (r : Option Addr)
  /-- `in_hook = 0` (`:40`, `:62`) -/
  | clear
deriving DecidableEq, Repr

structure Frame where
  call : Call
  pc   : Pc
deriving DecidableEq, Repr

structure Thread where
  inHook : Bool
  stack  : List Frame
  trace  : List Event
deriving DecidableEq, Repr

inductive Move
  | call (c : Call)
  | dlsym
  /-- libc's function returned this -/
  | real (r : Option Addr)
  | test
  /-- `printf` prints and returns -/
  | printf
  | clear
deriving DecidableEq, Repr

/-- `free(NULL)` returns at once (`:50`). -/
def Thread.enter (th : Thread) (own : Bool) (c : Call) : Thread :=
  { th with
    stack := if c = .free 0 then th.stack else ⟨c, .dlsym⟩ :: th.stack
    trace := th.trace ++ [.call own c] }

def Thread.move (th : Thread) : Move → Option Thread
  | .call c => match th.stack with
    | [] => some (th.enter true c)
    | ⟨_, .print _⟩ :: _ => some (th.enter false c)
    | _ => none
  | .dlsym => match th.stack with
    | ⟨c, .dlsym⟩ :: fs => some { th with stack := ⟨c, .real⟩ :: fs }
    | _ => none
  | .real r => match th.stack with
    | ⟨c, .real⟩ :: fs =>
      if r.isSome = c.returns then some { th with stack := ⟨c, .test r⟩ :: fs, trace := th.trace ++ [.real c r] } else none
    | _ => none
  | .test => match th.stack with
    | ⟨c, .test r⟩ :: fs =>
      if th.inHook then some { th with stack := fs } else some { th with inHook := true, stack := ⟨c, .print r⟩ :: fs }
    | _ => none
  | .printf => match th.stack with
    | ⟨c, .print r⟩ :: fs => some { th with stack := ⟨c, .clear⟩ :: fs, trace := th.trace ++ [.line (c.line r)] }
    | _ => none
  | .clear => match th.stack with
    | ⟨_, .clear⟩ :: fs => some { th with inHook := false, stack := fs }
    | _ => none

structure State where
  threads : Tid → Thread
  exited  : Bool

def start : State := ⟨fun _ => ⟨false, [], []⟩, false⟩

inductive Label
  | move (t : Tid) (m : Move)
  | missing (t : Tid)
deriving DecidableEq, Repr

def step (s : State) (l : Label) : Option State :=
  if s.exited then none
  else match l with
    | .move t m => ((s.threads t).move m).map fun th => { s with threads := Function.update s.threads t th }
    | .missing t => match (s.threads t).stack with
      | ⟨_, .dlsym⟩ :: _ => some { s with exited := true }
      | _ => none

theorem step_cases {s s' : State} {l : Label} (hs : step s l = some s') : s.exited = false ∧
    ((∃ t m th, l = .move t m ∧ (s.threads t).move m = some th ∧
        s' = { s with threads := Function.update s.threads t th }) ∨
      ∃ t, l = .missing t ∧ s' = { s with exited := true }) := by
  unfold step at hs
  split at hs
  · cases hs
  · rename_i hexited
    refine ⟨by simpa using hexited, ?_⟩
    split at hs
    · rename_i t m
      obtain ⟨th, hth, rfl⟩ := Option.map_eq_some_iff.1 hs
      exact .inl ⟨t, m, th, rfl, hth, rfl⟩
    · rename_i t
      split at hs <;> cases hs
      exact .inr ⟨t, rfl, rfl⟩

/-! ## What a call comes to -/

/-- A call that `printf` makes. -/
structure Inner where
  call   : Call
  result : Option Addr
deriving DecidableEq, Repr

/-- It is forwarded. -/
def Inner.events (i : Inner) : List Event :=
  .call false i.call :: if i.call = .free 0 then [] else [.real i.call i.result]

/-- A call that the program makes, and the calls of its `printf`. -/
structure Block where
  call   : Call
  result : Option Addr
  inner  : List Inner
deriving DecidableEq, Repr

/-- It is forwarded and printed. -/
def Block.opened (b : Block) : List Event :=
  .call true b.call :: .real b.call b.result :: b.inner.flatMap Inner.events

def Block.events (b : Block) : List Event :=
  if b.call = .free 0 then [.call true b.call] else b.opened ++ [.line (b.call.line b.result)]

/-- A call in progress: `in_hook`, the wrappers that have not returned, and what has happened. -/
inductive InCall : Bool → List Frame → List Event → Prop
  | idle : InCall false [] []
  | calling {c : Call} {pc : Pc} (hc : c ≠ .free 0) (hpc : pc = .dlsym ∨ pc = .real) :
    InCall false [⟨c, pc⟩] [.call true c]
  | called {c : Call} {r : Option Addr} (hc : c ≠ .free 0) : InCall false [⟨c, .test r⟩] [.call true c, .real c r]
  | printing {b : Block} (hc : b.call ≠ .free 0) : InCall true [⟨b.call, .print b.result⟩] b.opened
  | innerCalling {b : Block} {c : Call} {pc : Pc} (hb : b.call ≠ .free 0) (hc : c ≠ .free 0) (hpc : pc = .dlsym ∨ pc = .real) :
    InCall true [⟨c, pc⟩, ⟨b.call, .print b.result⟩] (b.opened ++ [.call false c])
  | innerCalled {b : Block} {c : Call} {r : Option Addr} (hb : b.call ≠ .free 0) (hc : c ≠ .free 0) :
    InCall true [⟨c, .test r⟩, ⟨b.call, .print b.result⟩] (b.opened ++ [.call false c, .real c r])
  | clearing {b : Block} (hb : b.call ≠ .free 0) : InCall true [⟨b.call, .clear⟩] b.events

def Thread.Orderly (th : Thread) : Prop :=
  ∃ (bs : List Block) (now : List Event), th.trace = bs.flatMap Block.events ++ now ∧ InCall th.inHook th.stack now

def Block.add (b : Block) (i : Inner) : Block := { b with inner := b.inner ++ [i] }

@[simp] theorem Block.add_opened (b : Block) (i : Inner) : (b.add i).opened = b.opened ++ i.events := by
  simp [Block.opened, Block.add]

/-- A call that is over. -/
theorem Thread.Orderly.over {th : Thread} (bs : List Block) {b : Block} (htrace : th.trace = bs.flatMap Block.events ++ b.events)
    (hhook : th.inHook = false) (hstack : th.stack = []) : th.Orderly := by
  refine ⟨bs ++ [b], [], by simp [htrace], ?_⟩
  rw [hhook, hstack]
  exact .idle

/-- The program calls a wrapper. -/
theorem enter_own {bs : List Block} (c : Call) : (Thread.enter ⟨false, [], bs.flatMap Block.events ++ []⟩ true c).Orderly := by
  by_cases hc : c = .free 0
  · have htrace : (Thread.enter ⟨false, [], bs.flatMap Block.events ++ []⟩ true c).trace =
        bs.flatMap Block.events ++ Block.events ⟨c, none, []⟩ := by
      simp [Thread.enter, Block.events, hc]
    exact .over bs htrace rfl (by simp [Thread.enter, hc])
  · refine ⟨bs, [.call true c], by simp [Thread.enter], ?_⟩
    simp only [Thread.enter, if_neg hc]
    exact .calling hc (.inl rfl)

/-- `printf` does. -/
theorem enter_inner {bs : List Block} {b : Block} (hb : b.call ≠ .free 0) (c : Call) :
    (Thread.enter ⟨true, [⟨b.call, .print b.result⟩], bs.flatMap Block.events ++ b.opened⟩ false c).Orderly := by
  by_cases hc : c = .free 0
  · refine ⟨bs, (b.add ⟨c, none⟩).opened, by simp [Thread.enter, Inner.events, hc], ?_⟩
    simp only [Thread.enter, if_pos hc]
    exact .printing (b := b.add ⟨c, none⟩) hb
  · refine ⟨bs, b.opened ++ [.call false c], by simp [Thread.enter], ?_⟩
    simp only [Thread.enter, if_neg hc]
    exact .innerCalling hb hc (.inl rfl)

theorem move_orderly {th th' : Thread} {m : Move} (h : th.Orderly) (hs : th.move m = some th') : th'.Orderly := by
  obtain ⟨inHook, stack, trace⟩ := th
  obtain ⟨bs, now, rfl, hin⟩ := h
  cases hin with
  | idle =>
    cases m with
    | call c =>
      cases hs
      exact enter_own c
    | _ => cases hs
  | @calling c pc hc hpc =>
    rcases hpc with rfl | rfl
    · cases m with
      | dlsym =>
        cases hs
        exact ⟨bs, _, rfl, .calling hc (.inr rfl)⟩
      | _ => cases hs
    · cases m with
      | real r =>
        simp only [Thread.move] at hs
        split at hs <;> cases hs
        exact ⟨bs, _, List.append_assoc .., .called hc⟩
      | _ => cases hs
  | @called c r hc =>
    cases m with
    | test =>
      cases hs
      exact ⟨bs, _, rfl, .printing (b := ⟨c, r, []⟩) hc⟩
    | _ => cases hs
  | @printing b hb =>
    cases m with
    | call c =>
      cases hs
      exact enter_inner hb c
    | printf =>
      cases hs
      refine ⟨bs, b.events, ?_, .clearing hb⟩
      simp [Block.events, hb]
    | _ => cases hs
  | @innerCalling b c pc hb hc hpc =>
    rcases hpc with rfl | rfl
    · cases m with
      | dlsym =>
        cases hs
        exact ⟨bs, _, rfl, .innerCalling hb hc (.inr rfl)⟩
      | _ => cases hs
    · cases m with
      | real r =>
        simp only [Thread.move] at hs
        split at hs <;> cases hs
        exact ⟨bs, b.opened ++ [.call false c, .real c r], by simp, .innerCalled hb hc⟩
      | _ => cases hs
  | @innerCalled b c r hb hc =>
    -- `in_hook` is set: back to the `printf`
    cases m with
    | test =>
      cases hs
      exact ⟨bs, (b.add ⟨c, r⟩).opened, by simp [Inner.events, hc], .printing (b := b.add ⟨c, r⟩) hb⟩
    | _ => cases hs
  | @clearing b hb =>
    cases m with
    | clear =>
      cases hs
      exact .over bs rfl rfl rfl
    | _ => cases hs

/-- What has happened is the beginning of a call. -/
theorem InCall.begins {inHook : Bool} {stack : List Frame} {now : List Event} (h : InCall inHook stack now) :
    stack.length ≤ 2 ∧ ∃ bs : List Block, now <+: bs.flatMap Block.events ∧ (stack = [] → bs = []) := by
  -- the block whose beginning `now` is
  have hone : ∀ (b : Block) {f : Frame} {fs : List Frame}, stack = f :: fs → now <+: b.events →
      ∃ bs : List Block, now <+: bs.flatMap Block.events ∧ (stack = [] → bs = []) := by
    intro b f fs hstack hnow
    refine ⟨[b], by simpa using hnow, ?_⟩
    rw [hstack]
    nofun
  cases h with
  | idle => exact ⟨by simp, [], by simp, fun _ => rfl⟩
  | @calling c pc hc _ => exact ⟨by simp, hone ⟨c, none, []⟩ rfl (by simp [Block.events, Block.opened, hc])⟩
  | @called c r hc => exact ⟨by simp, hone ⟨c, r, []⟩ rfl (by simp [Block.events, Block.opened, hc])⟩
  | @printing b hb => exact ⟨by simp, hone b rfl (by simp [Block.events, hb])⟩
  | @innerCalling b c pc hb hc _ =>
    refine ⟨by simp, hone (b.add ⟨c, none⟩) rfl ?_⟩
    simp [Block.events, show (b.add ⟨c, none⟩).call = b.call from rfl, hb, Inner.events, hc]
  | @innerCalled b c r hb hc =>
    refine ⟨by simp, hone (b.add ⟨c, r⟩) rfl ?_⟩
    simp [Block.events, show (b.add ⟨c, r⟩).call = b.call from rfl, hb, Inner.events, hc]
  | @clearing b hb => exact ⟨by simp, hone b rfl (List.prefix_refl _)⟩

theorem step_orderly {s s' : State} {l : Label} (h : ∀ t, (s.threads t).Orderly) (hs : step s l = some s') :
    ∀ t, (s'.threads t).Orderly := by
  obtain ⟨-, ⟨t, m, th, -, hth, rfl⟩ | ⟨t, -, rfl⟩⟩ := step_cases hs
  · exact (Function.forall_update_iff s.threads fun _ th => th.Orderly).2 ⟨move_orderly (h t) hth, fun x _ => h x⟩
  · exact h

theorem start_orderly (t : Tid) : (start.threads t).Orderly := ⟨[], [], rfl, .idle⟩

/-- Two threads; the `printf` of the first calls `malloc` and `free`. -/
def nestedRun : List Label :=
  [.move 0 (.call (.malloc 8)), .move 0 .dlsym, .move 0 (.real (some 64)), .move 0 .test, .move 0 (.call (.malloc 1024)),
    .move 1 (.call (.free 32)), .move 1 .dlsym, .move 0 .dlsym, .move 0 (.real (some 128)), .move 0 .test, .move 1 (.real none),
    .move 1 .test, .move 0 (.call (.free 0)), .move 0 .printf, .move 0 .clear]

def Pc.rank : Pc → Nat
  | .dlsym => 3
  | .real | .print _ => 2
  | .test _ | .clear => 1

/-- The instructions that a thread has still to go if `printf` calls nothing more. -/
def Thread.rank (th : Thread) : Nat :=
  (th.stack.map (·.pc.rank)).sum + if th.stack ≠ [] ∧ th.inHook = false then 2 else 0

/-- The calls that `printf` has made since the last one of the program. -/
def made : List Event → Nat :=
  List.foldl (fun n e => match e with
    | .call true _ => 0
    | .call false _ => n + 1
    | _ => n) 0

def Event.isOwn : Event → Bool
  | .call own _ => own
  | _ => false

/-- No `printf` makes more than `k` calls. -/
def Frugal (k : Nat) (s : State) : Label → Prop
  | .move t (.call _) => (s.threads t).stack = [] ∨ made (s.threads t).trace < k
  | _ => True

instance (k : Nat) (s : State) : ∀ l, Decidable (Frugal k s l)
  | .move t (.call _) => inferInstanceAs (Decidable ((s.threads t).stack = [] ∨ made (s.threads t).trace < k))
  | .move _ .dlsym | .move _ (.real _) | .move _ .test | .move _ .printf | .move _ .clear | .missing _ => .isTrue trivial

def Thread.left (k : Nat) (th : Thread) : Nat := th.rank + if th.stack = [] then 0 else 4 * (k - made th.trace)

def Thread.own (th : Thread) : Nat := th.trace.countP (·.isOwn)

theorem made_call (tr : List Event) (own : Bool) (c : Call) :
    made (tr ++ [.call own c]) = if own then 0 else made tr + 1 := by
  cases own <;> simp [made]

theorem made_other (tr : List Event) {e : Event} (he : ∀ own c, e ≠ .call own c) : made (tr ++ [e]) = made tr := by
  cases e with
  | call own c => exact absurd rfl (he own c)
  | _ => simp [made]

theorem Thread.left_nil {k : Nat} {th : Thread} (hf : th.stack = []) : th.left k = 0 := by
  simp [Thread.left, Thread.rank, hf]

theorem Thread.left_cons {k : Nat} {th : Thread} {f : Frame} {fs : List Frame} (hf : th.stack = f :: fs) :
    th.left k = f.pc.rank + (fs.map (·.pc.rank)).sum + (if th.inHook = false then 2 else 0) + 4 * (k - made th.trace) := by
  simp [Thread.left, Thread.rank, hf]

/-- A move inside of a wrapper that lowers its rank, or takes `in_hook`. -/
theorem left_moves {k : Nat} {th th' : Thread} {f f' : Frame} {fs : List Frame} (hf : th.stack = f :: fs)
    (hf' : th'.stack = f' :: fs) (hmade : made th'.trace = made th.trace) (hown : th'.own = th.own)
    (hrank : f'.pc.rank + (if th'.inHook = false then 2 else 0) < f.pc.rank + if th.inHook = false then 2 else 0) :
    th'.left k + 1 + (6 + 4 * k) * th.own ≤ th.left k + (6 + 4 * k) * th'.own := by
  rw [Thread.left_cons hf, Thread.left_cons hf', hmade, hown]
  omega

/-- A wrapper that returns. -/
theorem left_returns {k : Nat} {th th' : Thread} {f : Frame} {fs : List Frame} (hf : th.stack = f :: fs)
    (hf' : th'.stack = fs) (hmade : made th'.trace = made th.trace) (hown : th'.own = th.own) (hpos : 0 < f.pc.rank)
    (hin : fs = [] ∨ th'.inHook = th.inHook) :
    th'.left k + 1 + (6 + 4 * k) * th.own ≤ th.left k + (6 + 4 * k) * th'.own := by
  rw [Thread.left_cons hf, hown]
  cases fs with
  | nil =>
    rw [Thread.left_nil hf']
    omega
  | cons f' fs =>
    rw [Thread.left_cons hf', hmade, hin.resolve_left nofun, List.map_cons, List.sum_cons]
    omega

/-- Whoever clears `in_hook` is the only wrapper. -/
theorem Thread.Orderly.alone {th : Thread} (h : th.Orderly) {c : Call} {fs : List Frame} (hf : th.stack = ⟨c, .clear⟩ :: fs) :
    fs = [] := by
  obtain ⟨inHook, stack, trace⟩ := th
  obtain ⟨bs, now, -, hin⟩ := h
  obtain rfl : stack = _ := hf
  cases hin with
  | clearing => rfl
  | calling _ hpc | innerCalling _ _ hpc => rcases hpc with hpc | hpc <;> cases hpc

theorem move_left {k : Nat} {th th' : Thread} {m : Move} (h : th.Orderly)
    (hok : (∃ c, m = .call c) → th.stack = [] ∨ made th.trace < k) (hs : th.move m = some th') :
    th'.left k + 1 + (6 + 4 * k) * th.own ≤ th.left k + (6 + 4 * k) * th'.own := by
  cases m with
  | call c =>
    have hok := hok ⟨c, rfl⟩
    simp only [Thread.move] at hs
    split at hs
    · rename_i hstack
      cases hs
      have hown : (th.enter true c).own = th.own + 1 := by simp [Thread.own, Thread.enter, Event.isOwn]
      have hleft : (th.enter true c).left k ≤ 5 + 4 * k := by
        by_cases hc : c = .free 0 <;>
          simp [Thread.left, Thread.rank, Thread.enter, hc, hstack, made_call, Pc.rank]
        split <;> omega
      rw [hown, Nat.mul_add]
      omega
    · rename_i hstack
      cases hs
      have hmade := hok.resolve_left (by rw [hstack]; nofun)
      have hown : (th.enter false c).own = th.own := by simp [Thread.own, Thread.enter, Event.isOwn]
      rw [hown]
      by_cases hc : c = .free 0 <;>
        simp [Thread.left, Thread.rank, Thread.enter, hc, hstack, made_call, Pc.rank] <;> omega
    · cases hs
  | dlsym =>
    simp only [Thread.move] at hs
    split at hs <;> cases hs
    rename_i hstack
    exact left_moves hstack rfl rfl rfl (Nat.add_lt_add_right (by decide : 2 < 3) _)
  | real r =>
    simp only [Thread.move] at hs
    split at hs
    · rename_i hstack
      split at hs <;> cases hs
      refine left_moves hstack rfl (made_other _ (by rintro _ _ ⟨⟩)) ?_ (Nat.add_lt_add_right (by decide : 1 < 2) _)
      simp [Thread.own, Event.isOwn]
    · cases hs
  | test =>
    simp only [Thread.move] at hs
    split at hs
    · rename_i c r fs hstack
      split at hs <;> cases hs <;> rename_i hin
      · exact left_returns hstack rfl rfl rfl Nat.one_pos (.inr rfl)
      · -- what it had kept for the print it takes now
        refine left_moves hstack rfl rfl rfl ?_
        simp [Pc.rank, hin]
    · cases hs
  | printf =>
    simp only [Thread.move] at hs
    split at hs <;> cases hs
    rename_i hstack
    refine left_moves hstack rfl (made_other _ (by rintro _ _ ⟨⟩)) ?_ (Nat.add_lt_add_right (by decide : 1 < 2) _)
    simp [Thread.own, Event.isOwn]
  | clear =>
    simp only [Thread.move] at hs
    split at hs <;> cases hs
    rename_i hstack
    exact left_returns hstack rfl rfl rfl Nat.one_pos (.inl (h.alone hstack))

def Label.isOf (t : Tid) : Label → Bool
  | .move t' _ => t' = t
  | .missing _ => false

theorem step_left {k : Nat} {s s' : State} {l : Label} (t : Tid) (h : (s.threads t).Orderly) (hok : Frugal k s l)
    (hs : step s l = some s') :
    (s'.threads t).left k + (l.isOf t).toNat + (6 + 4 * k) * (s.threads t).own ≤
      (s.threads t).left k + (6 + 4 * k) * (s'.threads t).own := by
  obtain ⟨-, ⟨x, m, th, rfl, hth, rfl⟩ | ⟨x, rfl, rfl⟩⟩ := step_cases hs
  · by_cases hx : x = t
    · subst hx
      have hmove := move_left (k := k) h (by rintro ⟨c, rfl⟩; exact hok) hth
      simpa [Label.isOf] using hmove
    · simp [Label.isOf, hx, Function.update_of_ne (Ne.symm hx)]
  · simp [Label.isOf]

theorem runWhile_left {k : Nat} (t : Tid) : ∀ (ls : List Label) {s s' : State}, (∀ t, (s.threads t).Orderly) →
    runWhile step (Frugal k) s ls = some s' →
    (s'.threads t).left k + ls.countP (·.isOf t) + (6 + 4 * k) * (s.threads t).own ≤
      (s.threads t).left k + (6 + 4 * k) * (s'.threads t).own
  | [], s, s', _, hrun => by
    cases hrun
    simp
  | l :: ls, s, s', h, hrun => by
    simp only [runWhile] at hrun
    split at hrun
    · rename_i hok
      split at hrun
      · rename_i u hs
        have hone := step_left t (h t) hok hs
        have hrest := runWhile_left t ls (step_orderly h hs) hrun
        rw [List.countP_cons]
        cases hof : l.isOf t <;> simp only [hof, Bool.toNat_true, Bool.toNat_false] at hone <;> simp <;> omega
      · cases hrun
    · cases hrun

/-- **Each call returns.** Wherever a wrapper is active its thread can go on, if the process has not exited; and
in a run in which no `printf` makes more than `k` calls, a thread makes at most `6 + 4 * k` steps for each call
of the program. -/
theorem returns {k : Nat} {ls : List Label} {s : State} (hrun : runWhile step (Frugal k) start ls = some s) (t : Tid) :
    ls.countP (·.isOf t) ≤ (6 + 4 * k) * (s.threads t).own ∧
    (s.exited = false → (s.threads t).stack ≠ [] →
      ∃ m, (∀ c, m ≠ .call c) ∧ (step s (.move t m)).isSome = true) := by
  constructor
  · have hleft := runWhile_left t ls start_orderly hrun
    have hstart : (start.threads t).left k = 0 ∧ (start.threads t).own = 0 := by
      simp [start, Thread.left, Thread.rank, Thread.own]
    rw [hstart.1, hstart.2] at hleft
    omega
  · intro hexited hstack
    obtain ⟨⟨c, pc⟩, fs, hf⟩ := List.exists_cons_of_ne_nil hstack
    cases pc with
    | dlsym => exact ⟨.dlsym, by rintro _ ⟨⟩, by simp [step, hexited, Thread.move, hf]⟩
    | real =>
      refine ⟨.real (if c.returns then some 0 else none), by rintro _ ⟨⟩, ?_⟩
      cases hc : c.returns <;> simp [step, hexited, Thread.move, hf, hc]
    | test r =>
      refine ⟨.test, by rintro _ ⟨⟩, ?_⟩
      cases hin : (s.threads t).inHook <;> simp [step, hexited, Thread.move, hf, hin]
    | print r => exact ⟨.printf, by rintro _ ⟨⟩, by simp [step, hexited, Thread.move, hf]⟩
    | clear => exact ⟨.clear, by rintro _ ⟨⟩, by simp [step, hexited, Thread.move, hf]⟩

theorem returns_nested : ∃ s, runWhile step (Frugal 2) start nestedRun = some s ∧
    nestedRun.countP (·.isOf 0) = 11 ∧ nestedRun.countP (·.isOf 0) ≤ 14 * (s.threads 0).own ∧
    ∃ m, (∀ c, m ≠ .call c) ∧ (step s (.move 1 m)).isSome = true := by
  have hend : (runWhile step (Frugal 2) start nestedRun).map (fun s => (s.exited, (s.threads 1).stack.length)) =
      some (false, 1) := by decide
  obtain ⟨s, hs, heq⟩ := Option.map_eq_some_iff.1 hend
  simp only [Prod.mk.injEq] at heq
  refine ⟨s, hs, by decide, (returns hs 0).1, (returns hs 1).2 heq.1 ?_⟩
  intro hnil
  rw [hnil] at heq
  cases heq.2

end ComputerSystem.Preload
