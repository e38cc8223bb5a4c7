import ComputerSystem.Lib.Machine
import Mathlib.Data.List.GetD
/-!
# The socket file of `uds_server` (`Chapter10/experiments/uds_server.c:32-44`, `:72-101`)

Any number of servers, started one after the other or at the same time, with one name. Each removes what it
finds there before it binds (`:74`), and again when it ends: `cleanup` is registered with `atexit` (`:79`),
and called by `on_signal` (`:42`). What it does not ask is whose file it removes.

| here            | there                                                                     |
|-----------------|---------------------------------------------------------------------------|
| `State.file`    | the server whose socket is bound to the name                                |
| `abs`           | `is_abstract()`: there is no file, and the name is free when its server ends |
| `Pc`            | the call that `main` is at, or where `exit(1)` or `on_signal` is             |
| `Label.signal`  | `SIGINT` or `SIGTERM`                                                       |
| `Label.kill`    | `SIGKILL`, or another signal for which there is no handler                   |
| `killed`        | the servers that a signal ended, where they were, and the signal            |

The calls before `:74` leave the name as it is, and a server that one of them fails for is left out, as is
what the server does with its connections.
-/

namespace ComputerSystem.Uds.SocketFile

inductive Signal
  | int
  | term
deriving DecidableEq, Repr

inductive Pc
  /-- `cleanup()` (`:74`) -/
  | unlink
  | bind
  | atexit
  | sigint
  | sigterm
  | sigpipe
  | listen
  /-- in the loop (`:93-123`) -/
  | accept
  /-- `exit(1)`, before it calls `cleanup` -/
  | exit
  /-- in `on_signal` before `cleanup`, with these signals blocked -/
  | handler (int term : Bool)
  /-- behind that `cleanup` -/
  | leave (int term : Bool)
  | ended
deriving DecidableEq, Repr

structure State where
  file    : Option Nat
  servers : List Pc
  killed  : List (Nat × Pc × Option Signal)
deriving DecidableEq, Repr

def start : State := ⟨none, [], []⟩

inductive Label
  | start
  /-- the next call of `main`, `exit` or `on_signal` succeeds -/
  | next (i : Nat)
  /-- `bind`, `listen` or `accept` fails -/
  | fails (i : Nat)
  | signal (i : Nat) (sig : Signal)
  | kill (i : Nat)
deriving DecidableEq, Repr

/-- Where a signal leads: `ended` without a handler for it, and nowhere while it is blocked. -/
def Pc.signal : Pc → Signal → Pc
  | .unlink, _ | .bind, _ | .atexit, _ | .sigint, _ | .sigterm, .term | .ended, _ => .ended
  | .sigterm, .int | .sigpipe, .int | .listen, .int | .accept, .int | .exit, .int => .handler true false
  | .sigpipe, .term | .listen, .term | .accept, .term | .exit, .term => .handler false true
  | .handler int term, .int => if int then .handler int term else .handler true term
  | .handler int term, .term => if term then .handler int term else .handler int true
  | .leave int term, .int => if int then .leave int term else .handler true term
  | .leave int term, .term => if term then .leave int term else .handler int true

section
variable (abs : Bool)

def State.goto (s : State) (i : Nat) (pc : Pc) : State := { s with servers := s.servers.set i pc }

/-- With its process an abstract name goes. -/
def State.ends (s : State) (i : Nat) : State :=
  { s.goto i .ended with file := if abs ∧ s.file = some i then none else s.file }

def State.kill (s : State) (i : Nat) (pc : Pc) (cause : Option Signal) : State :=
  { s.ends abs i with killed := (i, pc, cause) :: s.killed }

def State.cleanup (s : State) : State := if !abs then { s with file := none } else s

def step (s : State) : Label → Option State
  | .start => some { s with servers := s.servers ++ [.unlink] }
  | .next i => match s.servers[i]? with
    | some .unlink => some ((s.cleanup abs).goto i .bind)
    | some .bind => match s.file with
      | some _ => some (s.ends abs i)
      | none => some { s.goto i .atexit with file := some i }
    | some .atexit => some (s.goto i .sigint)
    | some .sigint => some (s.goto i .sigterm)
    | some .sigterm => some (s.goto i .sigpipe)
    | some .sigpipe => some (s.goto i .listen)
    | some .listen | some .accept => some (s.goto i .accept)
    | some .exit => some ((s.cleanup abs).goto i (.leave false false))
    | some (.handler int term) => some ((s.cleanup abs).goto i (.leave int term))
    | some (.leave _ _) => some (s.ends abs i)
    | some .ended | none => none
  | .fails i => match s.servers[i]? with
    | some .bind => some (s.ends abs i)
    | some .listen | some .accept => some (s.goto i .exit)
    | _ => none
  | .signal i sig => match s.servers[i]? with
    | some .ended | none => none
    | some pc => if pc.signal sig = .ended then some (s.kill abs i pc sig) else some (s.goto i (pc.signal sig))
  | .kill i => match s.servers[i]? with
    | some .ended | none => none
    | some pc => some (s.kill abs i pc none)

/-- From `bind` to `cleanup`; without a file, to the end. -/
def Pc.owns : Pc → Bool
  | .unlink | .bind | .ended => false
  | .leave _ _ => abs
  | .atexit | .sigint | .sigterm | .sigpipe | .listen | .accept | .exit | .handler _ _ => true

/-- From `bind` until it is about to end. -/
def Pc.bound : Pc → Bool
  | .atexit | .sigint | .sigterm | .sigpipe | .listen | .accept | .exit => true
  | .unlink | .bind | .handler _ _ | .leave _ _ | .ended => false

/-- **What a step can do**: a server ends, or goes on and leaves the name, removes what is there, or takes it. -/
inductive Moves (s : State) : Label → State → Prop
  | start : Moves s .start { s with servers := s.servers ++ [.unlink] }
  | ends {i : Nat} {l : Label} {pc : Pc} : s.servers[i]? = some pc → pc ≠ .ended → pc.owns abs = false ∨ abs = true → Moves s l (s.ends abs i)
  | kill {i : Nat} {l : Label} {pc : Pc} {cause : Option Signal} : s.servers[i]? = some pc → pc ≠ .ended →
    (∀ sig, cause = some sig → pc.signal sig = .ended) → Moves s l (s.kill abs i pc cause)
  | goto {i : Nat} {l : Label} {pc pc' : Pc} : s.servers[i]? = some pc → pc ≠ .ended → pc' ≠ .ended →
    (pc.owns abs = true → pc'.owns abs = true) → (pc'.bound = true → pc.bound = true) → pc' ≠ .bind → Moves s l (s.goto i pc')
  | cleanup {i : Nat} {l : Label} {pc pc' : Pc} : s.servers[i]? = some pc → pc ≠ .ended → pc' ≠ .ended →
    (pc.owns abs = true → pc'.owns abs = abs) → pc'.bound = false → Moves s l ((s.cleanup abs).goto i pc')
  | bind {i : Nat} {l : Label} : s.servers[i]? = some .bind → s.file = none →
    Moves s l { s.goto i .atexit with file := some i }

end

section
variable {abs : Bool} {s s' : State} {l : Label}

theorem Pc.signal_owns {pc : Pc} {sig : Signal} (h : pc.signal sig ≠ .ended) (hpc : pc.owns abs = true) : (pc.signal sig).owns abs = true := by
  cases pc <;> cases sig <;> simp only [Pc.signal] at h ⊢ <;> first | rfl | exact absurd rfl h | skip
  all_goals split <;> first | rfl | exact hpc

theorem Pc.signal_bound (pc : Pc) (sig : Signal) : (pc.signal sig).bound = false ∧ pc.signal sig ≠ .bind := by
  cases pc <;> cases sig <;> simp only [Pc.signal] <;> first | exact ⟨rfl, nofun⟩ | skip
  all_goals split <;> exact ⟨rfl, nofun⟩

theorem step_moves (hs : step abs s l = some s') : Moves abs s l s' := by
  cases l with
  | start =>
    cases hs
    exact .start
  | next i =>
    simp only [step] at hs
    split at hs
    case h_1 hat =>
      cases hs
      exact .cleanup hat nofun nofun nofun rfl
    case h_2 hat =>
      split at hs <;> cases hs
      · exact .ends hat nofun (.inl rfl)
      · exact .bind hat ‹_›
    case h_9 hat | h_10 hat =>
      cases hs
      exact .cleanup hat nofun nofun (fun _ => rfl) rfl
    case h_11 hat =>
      cases hs
      exact .ends hat nofun (Bool.eq_false_or_eq_true abs).symm
    case h_12 | h_13 => cases hs
    all_goals
      rename_i hat
      cases hs
      exact .goto hat nofun nofun (fun _ => rfl) (fun _ => rfl) nofun
  | fails i =>
    simp only [step] at hs
    split at hs
    · rename_i hat
      cases hs
      exact .ends hat nofun (.inl rfl)
    · rename_i hat
      cases hs
      exact .goto hat nofun nofun (fun _ => rfl) (fun _ => rfl) nofun
    · rename_i hat
      cases hs
      exact .goto hat nofun nofun (fun _ => rfl) (fun _ => rfl) nofun
    · cases hs
  | signal i sig =>
    simp only [step] at hs
    split at hs
    · cases hs
    · cases hs
    · rename_i pc hpc hat
      split at hs <;> cases hs
      · rename_i hends
        exact .kill hat hpc (by rintro _ ⟨⟩; exact hends)
      · rename_i hends
        exact .goto hat hpc hends (Pc.signal_owns hends) (fun hb => by rw [(pc.signal_bound sig).1] at hb; cases hb)
          (pc.signal_bound sig).2
  | kill i =>
    simp only [step] at hs
    split at hs
    · cases hs
    · cases hs
    · rename_i pc hpc hat
      cases hs
      exact .kill hat hpc nofun

theorem set_here {ps : List Pc} {i : Nat} {pc pc' : Pc} (hat : ps[i]? = some pc) : (ps.set i pc')[i]? = some pc' :=
  List.getElem?_set_self (List.getElem?_eq_some_iff.1 hat).1

theorem set_there {ps : List Pc} {i j : Nat} {pc' : Pc} (hij : i ≠ j) : (ps.set i pc')[j]? = ps[j]? :=
  List.getElem?_set_ne hij

/-! ## What is left behind -/

/-- The server was ended while it had its file, by `SIGKILL` or by a signal that it had no handler for. -/
def Killed (s : State) (i : Nat) : Prop := ∃ pc cause, (i, pc, cause) ∈ s.killed ∧ pc.owns false = true ∧
  ∀ sig, cause = some sig → pc.signal sig = .ended

/-- The name's server has it, or was killed. -/
def Inv (abs : Bool) (s : State) : Prop := ∀ i, s.file = some i → ∃ pc, s.servers[i]? = some pc ∧
  (pc.owns abs = true ∨ pc = .ended ∧ abs = false ∧ Killed s i)

/-- A server changes, and the name only loses. -/
theorem Inv.change (h : Inv abs s) {i : Nat} {pc pc' : Pc} (hat : s.servers[i]? = some pc) {file : Option Nat}
    {killed : List (Nat × Pc × Option Signal)} (hfile : ∀ j, file = some j → s.file = some j) (hkilled : s.killed ⊆ killed)
    (hself : file = some i → pc.owns abs = true ∨ pc = .ended ∧ abs = false →
      pc'.owns abs = true ∨ pc' = .ended ∧ abs = false ∧ (Killed s i ∨ Killed ⟨file, s.servers.set i pc', killed⟩ i)) :
    Inv abs ⟨file, s.servers.set i pc', killed⟩ := by
  have hmono : ∀ {j : Nat}, Killed s j → Killed ⟨file, s.servers.set i pc', killed⟩ j := fun ⟨pc, cause, hk, hrest⟩ =>
    ⟨pc, cause, hkilled hk, hrest⟩
  intro j hj
  obtain ⟨pcj, hatj, hown⟩ := h j (hfile j hj)
  by_cases hij : i = j
  · subst hij
    obtain rfl : pc = pcj := Option.some.inj (hat.symm.trans hatj)
    refine ⟨pc', set_here hat, (hself hj (hown.imp id fun hended => ⟨hended.1, hended.2.1⟩)).imp id ?_⟩
    rintro ⟨hended, habs, hk | hk⟩
    · exact ⟨hended, habs, hmono hk⟩
    · exact ⟨hended, habs, hk⟩
  · exact ⟨pcj, (set_there hij).trans hatj, hown.imp id fun ⟨hended, habs, hk⟩ => ⟨hended, habs, hmono hk⟩⟩

theorem moves_inv (h : Inv abs s) (hm : Moves abs s l s') : Inv abs s' := by
  cases hm with
  | start =>
    intro i hi
    obtain ⟨pc, hat, hown⟩ := h i hi
    exact ⟨pc, (List.getElem?_append_left (List.getElem?_eq_some_iff.1 hat).1).trans hat, hown⟩
  | @ends i _ pc hat hpc hfree =>
    refine h.change hat (fun j hj => ?_) (fun _ hk => hk) fun hi hown => ?_
    · split at hj
      · cases hj
      · exact hj
    · -- the server that ends did not have the name, or it is abstract and free now
      split at hi
      · cases hi
      · rename_i hkeeps
        have hown := hown.resolve_right fun hended => hpc hended.1
        rcases hfree with hfree | habs
        · rw [hfree] at hown
          cases hown
        · exact absurd ⟨habs, hi⟩ hkeeps
  | @kill i _ pc cause hat hpc hcause =>
    refine h.change hat (fun j hj => ?_) (fun _ hk => List.mem_cons_of_mem _ hk) fun hi hown => ?_
    · simp only [State.ends] at hj
      split at hj
      · cases hj
      · exact hj
    · simp only [State.ends] at hi
      split at hi
      · cases hi
      · rename_i hkeeps
        have habs : abs = false := Bool.eq_false_iff.2 fun habs => hkeeps ⟨habs, hi⟩
        subst habs
        have hown := hown.resolve_right fun hended => hpc hended.1
        exact .inr ⟨rfl, rfl, .inr ⟨pc, cause, List.mem_cons_self .., hown, hcause⟩⟩
  | goto hat hpc _ howns _ _ =>
    exact h.change hat (fun _ hj => hj) (fun _ hk => hk) fun _ hown => .inl (howns (hown.resolve_right fun hended => hpc hended.1))
  | @cleanup i _ pc pc' hat hpc _ howns _ =>
    cases abs with
    | true =>
      exact h.change hat (fun _ hj => hj) (fun _ hk => hk) fun _ hown =>
        .inl (howns (hown.resolve_right fun hended => hpc hended.1))
    | false => exact fun _ hj => by cases hj
  | @bind i _ hat _ =>
    rintro _ ⟨⟩
    exact ⟨.atexit, set_here hat, .inl rfl⟩

/-- A server with a file is started when no other runs. -/
def Apart (abs : Bool) (s : State) (l : Label) : Prop := l = .start → abs = true ∨ ∀ pc ∈ s.servers, pc = .ended

instance (abs : Bool) (s : State) (l : Label) : Decidable (Apart abs s l) := inferInstanceAs (Decidable (_ → _))

structure Serving (abs : Bool) (s : State) : Prop where
  alone : abs = true ∨ ∀ (i j : Nat) (p q : Pc), s.servers[i]? = some p → s.servers[j]? = some q → p ≠ .ended → q ≠ .ended → i = j
  bound : ∀ (i : Nat) (pc : Pc), s.servers[i]? = some pc → pc.bound = true → s.file = some i
  bind  : abs = false → ∀ i : Nat, s.servers[i]? = some .bind → s.file = none

theorem Serving.change (h : Serving abs s) {i : Nat} {pc pc' : Pc} (hat : s.servers[i]? = some pc) (hpc : pc ≠ .ended)
    {file : Option Nat} {killed : List (Nat × Pc × Option Signal)} (hself : pc'.bound = true → file = some i)
    (hother : ∀ j, j ≠ i → s.file = some j → abs = true → file = some j)
    (hbind : abs = false → pc' = .bind → file = none) : Serving abs ⟨file, s.servers.set i pc', killed⟩ := by
  -- in a server with a file, all others have ended
  have hothers : abs = false → ∀ j pcj, j ≠ i → s.servers[j]? = some pcj → pcj = .ended := by
    intro habs j pcj hji hj
    by_contra hne
    rcases h.alone with h' | h'
    · rw [habs] at h'
      cases h'
    · exact hji (h' j i pcj pc hj hat hne hpc)
  refine ⟨h.alone.imp id fun halone a b pa pb ha hb hpa hpb => ?_, fun j pcj hj hb => ?_, fun habs j hj => ?_⟩
  · have hcome : ∀ {k : Nat} {p : Pc}, (s.servers.set i pc')[k]? = some p → p ≠ .ended →
        ∃ q, s.servers[k]? = some q ∧ q ≠ .ended := by
      intro k p hk hp
      by_cases hik : i = k
      · subst hik
        exact ⟨pc, hat, hpc⟩
      · exact ⟨p, (set_there hik).symm.trans hk, hp⟩
    obtain ⟨qa, hqa, hna⟩ := hcome ha hpa
    obtain ⟨qb, hqb, hnb⟩ := hcome hb hpb
    exact halone a b qa qb hqa hqb hna hnb
  · by_cases hij : i = j
    · subst hij
      obtain rfl := Option.some.inj ((set_here hat).symm.trans hj)
      exact hself hb
    · have hj := (set_there hij).symm.trans hj
      cases abs with
      | true => exact hother j (Ne.symm hij) (h.bound j pcj hj hb) rfl
      | false =>
        rw [hothers rfl j pcj (Ne.symm hij) hj] at hb
        cases hb
  · by_cases hij : i = j
    · subst hij
      exact hbind habs (Option.some.inj ((set_here hat).symm.trans hj))
    · have hended := hothers habs j .bind (Ne.symm hij) ((set_there hij).symm.trans hj)
      cases hended

theorem moves_serving (h : Serving abs s) (hok : Apart abs s l) (hm : Moves abs s l s') : Serving abs s' := by
  -- the end of one server leaves the name to another
  have hends : ∀ {i j : Nat}, j ≠ i → s.file = some j → (s.ends abs i).file = some j := by
    intro i j hji hj
    have hne : ¬ (abs = true ∧ s.file = some i) := by
      rintro ⟨-, hi⟩
      exact hji (Option.some.inj (hj.symm.trans hi))
    simp only [State.ends, if_neg hne]
    exact hj
  cases hm with
  | start =>
    have hnew : ∀ {i : Nat} {pc : Pc}, (s.servers ++ [.unlink])[i]? = some pc → s.servers[i]? = some pc ∨ pc = .unlink := by
      intro i pc hi
      rw [List.getElem?_append] at hi
      split at hi
      · exact .inl hi
      · exact .inr (List.mem_singleton.1 (List.mem_of_getElem? hi))
    refine ⟨?_, fun i pc hi hb => ?_, fun habs i hi => ?_⟩
    · rcases hok rfl with habs | hended
      · exact .inl habs
      · right
        have hlast : ∀ {i : Nat} {pc : Pc}, (s.servers ++ [.unlink])[i]? = some pc → pc ≠ .ended → i = s.servers.length := by
          intro i pc hi hpc
          have hlt := (List.getElem?_eq_some_iff.1 hi).1
          rw [List.length_append, List.length_singleton] at hlt
          by_contra hne
          rw [List.getElem?_append_left (by omega)] at hi
          exact hpc (hended pc (List.mem_of_getElem? hi))
        intro i j p q hi hj hp hq
        rw [hlast hi hp, hlast hj hq]
    · rcases hnew hi with hi | rfl
      · exact h.bound i pc hi hb
      · cases hb
    · rcases hnew hi with hi | hpc
      · exact h.bind habs i hi
      · cases hpc
  | ends hat hpc => exact h.change hat hpc nofun (fun j hji hj _ => hends hji hj) nofun
  | kill hat hpc => exact h.change hat hpc nofun (fun j hji hj _ => hends hji hj) nofun
  | goto hat hpc _ _ hbound hnot =>
    exact h.change hat hpc (fun hb => h.bound _ _ hat (hbound hb)) (fun j _ hj _ => hj) fun _ hbind => absurd hbind hnot
  | @cleanup _ _ _ pc' hat hpc _ _ hbound =>
    have hself : ∀ {file : Option Nat} {i : Nat}, pc'.bound = true → file = some i := fun hb => by
      rw [hbound] at hb
      cases hb
    cases abs with
    | true => exact h.change hat hpc hself (fun j _ hj _ => hj) nofun
    | false => exact h.change hat hpc hself nofun fun _ _ => rfl
  | bind hat hfree =>
    refine h.change hat nofun (fun _ => rfl) (fun j _ hj _ => ?_) nofun
    rw [hfree] at hj
    cases hj

/-- The first server is killed in its loop, and the second starts over what is left. -/
def secondServer : List Label := .start :: List.replicate 7 (.next 0) ++ .kill 0 :: .start :: List.replicate 7 (.next 1)

/-- At the same time they cannot be: the one that ends removes the file of the one that serves. -/
example : (runFrom (step false) start (.start :: .start :: List.replicate 7 (.next 0) ++ List.replicate 7 (.next 1) ++
    [.signal 0 .term, .next 0, .next 0])).map (fun s => (s.servers, s.file)) = some ([.ended, .accept], none) := by decide

end

end ComputerSystem.Uds.SocketFile
