import ComputerSystem.MuxEcho.Sockets
/-!
# A server that multiplexes

The three servers differ in `main`: in how they keep the set of descriptors, and in how they go through
what is ready. `Program` is such a `main`; `Program.step` puts it together with the clients and with
`echo_once`, in whose system calls (and nowhere else) the server may be when a client moves.

| here               | there                                                              |
|--------------------|--------------------------------------------------------------------|
| `Program.main`     | the loop of `main` up to the call of `echo_once`                     |
| `Program.echoing`  | `main` is inside of `echo_once(fd)`                                  |
| `Program.returned` | what `main` does with the value of `echo_once`                       |
| `Program.watched`  | what the next `select`, `poll` or `epoll_wait` asks for              |
| `Program.todo`     | what was reported and is still to be handled in this round            |
| `Program.limits`   | a new descriptor that the server has room for                         |

`Program.Verified` are the conditions on one `main`, and `Program.Verified.served` is what follows for
every state that the server reaches.
-/

namespace ComputerSystem.MuxEcho

open Rio (ReadOutcome WriteOutcome)
open Relation (ReflTransGen)

inductive Label
  | client (m : ClientMove)
  /-- the wait returns -1: EINTR, or another errno -/
  | interrupted
  | waitError
  /-- the wait returns: the descriptors it reports a hang-up or an error for, and for `epoll_wait` those
  it reports at all -/
  | ready (hup err batch : List Nat)
  /-- `accept` returns -1, or a descriptor; `added` is the outcome of `EPOLL_CTL_ADD` on it -/
  | accept (fd : Option Nat) (added : Bool)
  /-- the loop of `main` goes on -/
  | go
  | read (o : ReadOutcome)
  | write (o : WriteOutcome)

/-- No errno other than EINTR and no error of a socket, and `EPOLL_CTL_ADD` succeeds; a `write` of some
bytes does not return 0. -/
def noErrors : Label → Prop
  | .waitError => False
  | .ready _ err _ => err = []
  | .accept (some _) added => added = true
  | .read o => o ≠ .error
  | .write o => o ≠ .error ∧ o ≠ .count 0
  | _ => True

instance : DecidablePred noErrors
  | .waitError => .isFalse id
  | .read _ => inferInstanceAs (Decidable (_ ≠ _))
  | .write _ => inferInstanceAs (Decidable (_ ∧ _))
  | .ready _ _ _ | .accept (some _) _ => inferInstanceAs (Decidable (_ = _))
  | .client _ | .interrupted | .accept none _ | .go => .isTrue trivial

structure Program (σ : Type) where
  main     : σ → World → Label → Option (World × σ)
  echoing  : σ → Option Nat
  returned : σ → World → Bool → World × σ
  watched  : σ → Nat → Prop
  todo     : σ → Nat → Prop
  waiting  : σ → Prop
  stopped  : σ → Prop
  limits   : σ → Nat → Prop

variable {σ : Type} (p : Program σ)

/-- Back from a system call of `echo_once`. -/
def Program.resume (s : σ) : World × Echo → World × σ
  | (w, .writing) => (w, s)
  | (w, .returned ok) => p.returned s w ok

def Program.step : World × σ → Label → Option (World × σ)
  | (w, s), .client m => (w.client m).map fun w => (w, s)
  | (w, s), .read o =>
    match p.echoing s, w.hand with
    | some fd, none => (w.read fd o).map (p.resume s)
    | _, _ => none
  | (w, s), .write o =>
    match p.echoing s with
    | some _ => (w.write o).map (p.resume s)
    | none => none
  | (w, s), l =>
    match p.echoing s with
    | none => p.main s w l
    | some _ => none

/-- A turn of `main` in a round in which `accept` and every `echo_once` return so; what clients do, and
the system calls inside of `echo_once`, is left out. -/
inductive Program.Turn (accepted : Option Nat) (fails : Nat → Bool) : World × σ → World × σ → Prop
  | accept {w : World} {s : σ} {x : World × σ} : p.main s w (.accept accepted true) = some x →
      Program.Turn accepted fails (w, s) x
  | go {w : World} {s : σ} {x : World × σ} : p.echoing s = none → p.main s w .go = some x →
      Program.Turn accepted fails (w, s) x
  | echo {w : World} {s : σ} {fd : Nat} : p.echoing s = some fd →
      Program.Turn accepted fails (w, s) (p.returned s w (!fails fd))

/-- The server has room for the client that it accepts. -/
def Program.within (s : σ) : Label → Prop
  | .accept (some fd) _ => p.limits s fd
  | _ => True

instance [∀ s fd, Decidable (p.limits s fd)] (s : σ) : DecidablePred (p.within s)
  | .accept (some _) _ => inferInstanceAs (Decidable (p.limits _ _))
  | .client _ | .interrupted | .waitError | .ready _ _ _ | .accept none _ | .go | .read _ | .write _ => .isTrue trivial

/-- No errors, and no more clients than the server is written for. -/
def Program.ok (x : World × σ) (l : Label) : Prop := noErrors l ∧ p.within x.2 l

instance [∀ s fd, Decidable (p.limits s fd)] (x : World × σ) (l : Label) : Decidable (p.ok x l) :=
  inferInstanceAs (Decidable (_ ∧ _))

/-! ## What is verified -/

/-- A state of an echo server that serves everybody. -/
structure Served (x : World × σ) : Prop where
  /-- every connection is served as `Serve` says -/
  serves  : ∀ c, ReflTransGen Serve ⟨Conn.new, []⟩ (x.1.view c)
  /-- what was read of a client is the first part of what that client sent -/
  got     : ∀ c, (x.1.conns c).sent = (x.1.conns c).got ++ (x.1.conns c).unread
  /-- what was written to it is what was read of it, up to what `rio_writen` has still in hand -/
  written : ∀ c, (x.1.conns c).got = (x.1.conns c).written ++ (x.1.view c).hand
  /-- and all of it whenever the server is not inside of `echo_once` -/
  echoed  : p.echoing x.2 = none → ∀ c, (x.1.conns c).written = (x.1.conns c).got
  closed  : ∀ c, (x.1.conns c).closed = true → (x.1.conns c).sawEof = true
  /-- once the end was read: the client has its own stream -/
  whole   : ∀ c, (x.1.conns c).sawEof = true →
    (x.1.conns c).fin = true ∧ (x.1.conns c).written = (x.1.conns c).sent
  /-- the descriptors are those of the connections that were accepted and not closed -/
  table   : ∀ c < x.1.count, (x.1.conns c).closed = false ↔ c ∈ x.1.pending ∨ ∃ fd, x.1.table fd = some c
  inj     : ∀ {fd fd' c}, x.1.table fd = some c → x.1.table fd' = some c → fd = fd'
  /-- and the server waits for them, and for new ones -/
  watched : ∀ fd, p.watched x.2 fd ↔ fd = x.1.listenfd ∨ x.1.table fd ≠ none
  /-- when its wait blocks, everybody was accepted and has all that it sent, and who has shut down is closed -/
  idle    : p.waiting x.2 → (∀ hup err batch, p.step x (.ready hup err batch) = none) →
    x.1.pending = [] ∧ ∀ c < x.1.count, (x.1.conns c).written = (x.1.conns c).sent ∧
      ((x.1.conns c).fin = true → (x.1.conns c).closed = true)
  /-- the `read` of `echo_once` does not block -/
  ready   : ∀ fd, p.echoing x.2 = some fd → x.1.hand = none → ∀ k, 0 < k → (x.1.read fd (.count k)).isSome
  running : ¬ p.stopped x.2

/-- `Own` is what else holds of the server's own variables. -/
structure Program.Inv (Own : Nat → σ → Prop) (w : World) (s : σ) : Prop where
  own     : Own w.listenfd s
  watched : ∀ fd, p.watched s fd ↔ fd = w.listenfd ∨ w.table fd ≠ none
  /-- what was reported is readable until it is handled, for nobody else reads it -/
  todo    : ∀ fd, p.todo s fd → fd ≠ w.listenfd → w.table fd ≠ none ∧ w.readable fd = true
  target  : ∀ fd, p.echoing s = some fd → fd ≠ w.listenfd ∧ w.table fd ≠ none ∧ ¬ p.todo s fd
  running : ¬ p.stopped s

/-- The conditions on a `main`. -/
structure Program.Verified (Own : Nat → σ → Prop) : Prop where
  /-- it does nothing but `accept`, and calls `echo_once` on what is readable -/
  main   : ∀ {w w' s s' l}, w.Ok → w.hand = none → p.Inv Own w s → p.echoing s = none → p.ok (w, s) l →
    p.main s w l = some (w', s') →
    (w' = w ∨ ∃ fd, w.accept fd = some w') ∧ p.Inv Own w' s' ∧ ∀ fd, p.echoing s' = some fd → w'.readable fd = true
  /-- it waits for all that can be read -/
  idle   : ∀ {w s}, p.Inv Own w s → p.waiting s → p.echoing s = none ∧
    ((∀ hup err batch, p.main s w (.ready hup err batch) = none) → ∀ fd, p.watched s fd → w.readable fd = false)
  kept   : ∀ {w s fd}, p.Inv Own w s → p.echoing s = some fd →
    (p.returned s w true).1 = w ∧ p.Inv Own w (p.returned s w true).2 ∧ p.echoing (p.returned s w true).2 = none
  /-- after -1 it closes the descriptor -/
  closed : ∀ {w s fd}, w.Ok → p.Inv Own w s → p.echoing s = some fd →
    (p.returned s w false).1 = w.close fd ∧ p.Inv Own (w.close fd) (p.returned s w false).2 ∧
      p.echoing (p.returned s w false).2 = none

/-- Between the calls of `echo_once` nothing is in hand. -/
inductive Hand (w : World) : Option Nat → Prop
  | main : w.hand = none → Hand w none
  | read (fd : Nat) : w.hand = none → w.readable fd = true → Hand w (some fd)
  | write (fd : Nat) (left : Bytes) : w.hand = some (fd, left) → left ≠ [] → Hand w (some fd)

theorem Hand.eq_none {w : World} (h : Hand w none) : w.hand = none := by
  cases h with
  | main hnone => exact hnone

structure Program.Sound (Own : Nat → σ → Prop) (x : World × σ) : Prop where
  world : x.1.Ok
  main  : p.Inv Own x.1 x.2
  hand  : Hand x.1 (p.echoing x.2)
  views : ∀ c, ReflTransGen Serve ⟨Conn.new, []⟩ (x.1.view c)

/-! ## How the invariant is kept -/

variable {p : Program σ} {Own : Nat → σ → Prop}

theorem Program.not_echoing {s : σ} (hout : p.echoing s = none) {P : Nat → Prop} (fd : Nat)
    (hfd : p.echoing s = some fd) : P fd := by
  rw [hout] at hfd
  cases hfd

/-- What the clients and `echo_once` change does not matter to it. -/
theorem Program.Inv.frame {w w' : World} {s : σ} (h : p.Inv Own w s) (hframe : Frame (p.echoing s) w w') :
    p.Inv Own w' s := by
  refine ⟨?_, ?_, ?_, ?_, h.running⟩
  · rw [hframe.listenfd]
    exact h.own
  · rw [hframe.listenfd, hframe.table]
    exact h.watched
  · rw [hframe.listenfd, hframe.table]
    intro fd htodo hl
    obtain ⟨htable, hr⟩ := h.todo fd htodo hl
    exact ⟨htable, hframe.readable fd (fun hfd => (h.target fd hfd).2.2 htodo) hr⟩
  · rw [hframe.listenfd, hframe.table]
    exact h.target

theorem Program.Inv.descriptor {w : World} {s : σ} {fd : Nat} (h : p.Inv Own w s) (hfd : p.echoing s = some fd) :
    fd ≠ w.listenfd ∧ ∃ c, w.table fd = some c :=
  ⟨(h.target fd hfd).1, Option.ne_none_iff_exists'.1 (h.target fd hfd).2.1⟩

/-- The wait returns with descriptors that it was asked for and that are readable. -/
theorem Program.Inv.waited {w : World} {s s' : σ} (h : p.Inv Own w s) (hown : Own w.listenfd s')
    (hwatched : ∀ fd, p.watched s' fd ↔ p.watched s fd)
    (htodo : ∀ fd, p.todo s' fd → p.watched s fd ∧ w.readable fd = true) (hout : p.echoing s' = none)
    (hrunning : ¬ p.stopped s') : p.Inv Own w s' := by
  refine ⟨hown, fun fd => (hwatched fd).trans (h.watched fd), fun fd hfd hl => ?_, p.not_echoing hout, hrunning⟩
  obtain ⟨hw, hr⟩ := htodo fd hfd
  exact ⟨((h.watched fd).1 hw).resolve_left hl, hr⟩

/-- `main` goes on: it drops what was reported, or takes it up. -/
theorem Program.Inv.next {w : World} {s s' : σ} (h : p.Inv Own w s) (hown : Own w.listenfd s')
    (hwatched : ∀ fd, p.watched s' fd ↔ p.watched s fd) (htodo : ∀ fd, p.todo s' fd → p.todo s fd)
    (htarget : ∀ fd, p.echoing s' = some fd → fd ≠ w.listenfd ∧ p.todo s fd ∧ ¬ p.todo s' fd)
    (hrunning : ¬ p.stopped s') :
    p.Inv Own w s' ∧ ∀ fd, p.echoing s' = some fd → w.readable fd = true := by
  refine ⟨⟨hown, fun fd => (hwatched fd).trans (h.watched fd), fun fd hfd => h.todo fd (htodo fd hfd),
    fun fd hfd => ?_, hrunning⟩, fun fd hfd => ?_⟩
  · obtain ⟨hl, hin, hout⟩ := htarget fd hfd
    exact ⟨hl, (h.todo fd hin hl).1, hout⟩
  · obtain ⟨hl, hin, -⟩ := htarget fd hfd
    exact (h.todo fd hin hl).2

/-- A new descriptor is watched. -/
theorem Program.Inv.accepted {w w' : World} {s s' : σ} {fd : Nat} (h : p.Inv Own w s)
    (hacc : Accepted fd w w') (hown : Own w.listenfd s')
    (hwatched : ∀ fd', p.watched s' fd' ↔ fd' = fd ∨ p.watched s fd') (htodo : ∀ fd, p.todo s' fd → p.todo s fd)
    (hout : p.echoing s' = none) (hrunning : ¬ p.stopped s') : p.Inv Own w' s' := by
  refine ⟨by rwa [hacc.listenfd], fun fd' => ?_, fun fd' hfd' hl => ?_, p.not_echoing hout, hrunning⟩
  · rw [hwatched, h.watched, hacc.listenfd]
    by_cases heq : fd' = fd
    · subst heq
      simp [hacc.here]
    · simp [heq, hacc.table fd' heq]
  · rw [hacc.listenfd] at hl
    obtain ⟨htable, hr⟩ := h.todo fd' (htodo fd' hfd') hl
    have hne : fd' ≠ fd := by
      rintro rfl
      exact htable hacc.free
    rw [hacc.table fd' hne, hacc.readable fd' hne hl]
    exact ⟨htable, hr⟩

/-- The descriptor of `echo_once` is closed, and not watched any more. -/
theorem Program.Inv.close {w w' : World} {s s' : σ} {fd : Nat} (h : p.Inv Own w s)
    (hfd : p.echoing s = some fd) (hclosed : Closed fd w w') (hown : Own w.listenfd s')
    (hwatched : ∀ fd', p.watched s' fd' ↔ fd' ≠ fd ∧ p.watched s fd') (htodo : ∀ fd, p.todo s' fd → p.todo s fd)
    (hout : p.echoing s' = none) (hrunning : ¬ p.stopped s') : p.Inv Own w' s' := by
  obtain ⟨hlfd, -, hnot⟩ := h.target fd hfd
  refine ⟨by rwa [hclosed.listenfd], fun fd' => ?_, fun fd' hfd' hl => ?_, p.not_echoing hout, hrunning⟩
  · rw [hwatched, h.watched, hclosed.listenfd]
    by_cases heq : fd' = fd
    · subst heq
      simp [hclosed.gone, hlfd]
    · simp [heq, hclosed.table fd' heq]
  · rw [hclosed.listenfd] at hl
    have hne : fd' ≠ fd := by
      rintro rfl
      exact hnot (htodo _ hfd')
    rw [hclosed.table fd' hne, hclosed.readable fd' hne]
    exact h.todo fd' (htodo fd' hfd') hl

/-! ## One step, and a run -/

theorem Frame.weaken {w w' : World} (h : Frame none w w') (busy : Option Nat) : Frame busy w w' :=
  ⟨h.listenfd, h.taken, h.table, fun fd _ hr => h.readable fd (by simp) hr⟩

theorem Hand.client {w w' : World} {o : Option Nat} (h : Hand w o) (hframe : Frame none w w')
    (hhand : w'.hand = w.hand) : Hand w' o := by
  cases h with
  | main hnone => exact .main (hhand.trans hnone)
  | read fd hnone hr => exact .read fd (hhand.trans hnone) (hframe.readable fd (by simp) hr)
  | write fd left hsome hne => exact .write fd left (hhand.trans hsome) hne

/-- A call of `echo_once` on `fd` returned to its caller, or not yet. -/
theorem Program.Verified.resume (hv : p.Verified Own) {w : World} {s : σ} {fd c : Nat} {e : Echo} (hw : w.Ok)
    (hmain : p.Inv Own w s) (hfd : p.echoing s = some fd) (hc : w.table fd = some c)
    (hviews : ∀ c, ReflTransGen Serve ⟨Conn.new, []⟩ (w.view c)) (hafter : w.after fd c e) :
    p.Sound Own (p.resume s (w, e)) := by
  cases e with
  | writing =>
    obtain ⟨left, hne, hhand⟩ := hafter
    refine ⟨hw, hmain, ?_, hviews⟩
    simp only [Program.resume, hfd]
    exact .write fd left hhand hne
  | returned ok =>
    cases ok with
    | true =>
      obtain ⟨hsame, hinv, hout⟩ := hv.kept hmain hfd
      simp only [Program.resume]
      refine ⟨?_, ?_, ?_, ?_⟩
      · rwa [hsame]
      · rwa [hsame]
      · rw [hsame, hout]
        exact .main hafter
      · rwa [hsame]
    | false =>
      obtain ⟨hhand, heof⟩ := hafter
      obtain ⟨hclose, hinv, hout⟩ := hv.closed hw hmain hfd
      obtain ⟨hw', hhand', hserve⟩ := World.close_ok hw hc hhand heof
      simp only [Program.resume]
      refine ⟨?_, ?_, ?_, ?_⟩
      · rwa [hclose]
      · rwa [hclose]
      · rw [hclose, hout]
        exact .main hhand'
      · rw [hclose]
        exact fun d => (hviews d).trans (hserve d)

/-- A step of `main`. -/
theorem Program.Verified.mainStep (hv : p.Verified Own) {w : World} {s : σ} {l : Label} {x' : World × σ}
    (h : p.Sound Own (w, s)) (hok : p.ok (w, s) l) (hs : p.main s w l = some x')
    (hout : p.echoing s = none) : p.Sound Own x' := by
  obtain ⟨w', s'⟩ := x'
  have hhand : w.hand = none := Hand.eq_none (hout ▸ h.hand)
  obtain ⟨hdone, hinv, hready⟩ := hv.main h.world hhand h.main hout hok hs
  have hnext : w'.Ok ∧ w'.hand = none ∧ ∀ c, w'.view c = w.view c := by
    rcases hdone with rfl | ⟨fd, hfd⟩
    · exact ⟨h.world, hhand, fun _ => rfl⟩
    · obtain ⟨hw', -, hhand', hview⟩ := World.accept_ok h.world hhand hfd
      exact ⟨hw', hhand', hview⟩
  obtain ⟨hw', hhand', hview⟩ := hnext
  refine ⟨hw', hinv, ?_, fun c => ?_⟩
  · cases hecho : p.echoing s' with
    | none => simpa only [hecho] using Hand.main hhand'
    | some fd => simpa only [hecho] using Hand.read fd hhand' (hready fd hecho)
  · simp only [hview c]
    exact h.views c

/-- **One step** of the server, of a client or of `echo_once`. -/
theorem Program.Verified.step (hv : p.Verified Own) {x x' : World × σ} {l : Label} (h : p.Sound Own x)
    (hok : p.ok x l) (hs : p.step x l = some x') : p.Sound Own x' := by
  obtain ⟨w, s⟩ := x
  cases l with
  | client m =>
    obtain ⟨w', hw', rfl⟩ := Option.map_eq_some_iff.1 hs
    obtain ⟨hok', hframe, hhand, hserve⟩ := World.client_ok h.world hw'
    exact ⟨hok', h.main.frame (hframe.weaken _), h.hand.client hframe hhand,
      fun c => (h.views c).trans (hserve c)⟩
  | read o =>
    simp only [Program.step] at hs
    split at hs
    · rename_i fd hfd hhand
      obtain ⟨⟨w', e⟩, hread, rfl⟩ := Option.map_eq_some_iff.1 hs
      obtain ⟨-, c, hc⟩ := h.main.descriptor hfd
      obtain ⟨hok', hframe, hserve, hafter⟩ := World.read_ok h.world hc hhand hok.1 hread
      exact hv.resume hok' (h.main.frame (hfd ▸ hframe)) hfd (hframe.table ▸ hc)
        (fun d => (h.views d).trans (hserve d)) hafter
    · cases hs
  | write o =>
    simp only [Program.step] at hs
    split at hs
    · rename_i fd hfd
      obtain ⟨⟨w', e⟩, hwrite, rfl⟩ := Option.map_eq_some_iff.1 hs
      obtain ⟨-, c, hc⟩ := h.main.descriptor hfd
      have hhand := h.hand
      simp only [hfd] at hhand
      cases hhand with
      | read _ hnone _ => simp [World.write, hnone] at hwrite
      | write _ left hsome hne =>
        obtain ⟨hok', hframe, hserve, hafter⟩ :=
          World.write_ok h.world hc hne hsome hok.1.1 hok.1.2 hwrite
        exact hv.resume hok' (h.main.frame (hfd ▸ hframe)) hfd (hframe.table ▸ hc)
          (fun d => (h.views d).trans (hserve d)) hafter
    · cases hs
  | interrupted | waitError | ready _ _ _ | accept _ _ | go =>
    simp only [Program.step] at hs
    split at hs
    · rename_i hout
      exact hv.mainStep h hok hs hout
    · cases hs

/-- A server whose wait blocks has nothing left to do. -/
theorem Program.Sound.idle (hv : p.Verified Own) {w : World} {s : σ} (h : p.Sound Own (w, s)) (hwait : p.waiting s)
    (hblock : ∀ hup err batch, p.step (w, s) (.ready hup err batch) = none) :
    w.pending = [] ∧ ∀ c < w.count, (w.conns c).written = (w.conns c).sent ∧
      ((w.conns c).fin = true → (w.conns c).closed = true) := by
  obtain ⟨hout, hidle⟩ := hv.idle h.main hwait
  have hquiet : ∀ fd, fd = w.listenfd ∨ w.table fd ≠ none → w.readable fd = false := by
    refine fun fd hfd => hidle (fun hup err batch => ?_) fd ((h.main.watched fd).2 hfd)
    have := hblock hup err batch
    simpa only [Program.step, hout] using this
  have hpending : w.pending = [] := by
    have := hquiet w.listenfd (.inl rfl)
    simpa [World.readable_listen] using this
  refine ⟨hpending, fun c hc => ?_⟩
  have hview := serve_ok (h.views c) View.Ok.new
  have hnone : w.hand = none := Hand.eq_none (hout ▸ h.hand)
  rw [World.view_hand hnone] at hview
  have hgot := hview.got
  have hsent := hview.sent
  simp only [List.append_nil] at hgot hsent
  cases hclosed : (w.conns c).closed with
  | true =>
    obtain ⟨-, hunread, -⟩ := hview.eof (hview.closed hclosed)
    simp only at hunread
    rw [hunread, List.append_nil] at hsent
    exact ⟨(hsent.trans hgot).symm, fun _ => rfl⟩
  | false =>
    obtain ⟨fd, hfd⟩ : ∃ fd, w.table fd = some c := by
      rcases (h.world.owned c hc).1 hclosed with hin | hfd
      · rw [hpending] at hin
        cases hin
      · exact hfd
    have hl : fd ≠ w.listenfd := by
      rintro rfl
      rw [h.world.taken _ h.world.listen] at hfd
      cases hfd
    have hr := hquiet fd (.inr (by simp [hfd]))
    rw [World.readable_conn hl hfd] at hr
    obtain ⟨hunread, hfin⟩ : (w.conns c).unread = [] ∧ (w.conns c).fin = false := by
      simpa [Conn.readable] using hr
    rw [hunread, List.append_nil] at hsent
    exact ⟨(hsent.trans hgot).symm, fun hfin' => by rw [hfin] at hfin'; cases hfin'⟩

theorem Program.Sound.served (hv : p.Verified Own) {x : World × σ} (h : p.Sound Own x) : Served p x := by
  have hview : ∀ c, (x.1.view c).Ok := fun c => serve_ok (h.views c) View.Ok.new
  refine ⟨h.views, fun c => (hview c).sent, fun c => (hview c).got, fun hout c => ?_, fun c => (hview c).closed,
    fun c heof => ?_, h.world.owned, h.world.inj, h.main.watched, h.idle hv, fun fd hfd hhand k hk => ?_,
    h.main.running⟩
  · have hgot := (hview c).got
    rw [World.view_hand (Hand.eq_none (hout ▸ h.hand)), List.append_nil] at hgot
    exact hgot.symm
  · obtain ⟨hfin, hunread, hhand⟩ := (hview c).eof heof
    have hsent := (hview c).sent
    have hgot := (hview c).got
    rw [hunread, List.append_nil] at hsent
    rw [hhand, List.append_nil] at hgot
    exact ⟨hfin, (hsent.trans hgot).symm⟩
  · obtain ⟨hl, c, hc⟩ := h.main.descriptor hfd
    have hh := h.hand
    rw [hfd] at hh
    cases hh with
    | read _ _ hr => exact World.read_returns hl hc hr hk
    | write _ left hsome _ =>
      rw [hhand] at hsome
      cases hsome

/-- **The states of a verified server.** -/
theorem Program.Verified.served (hv : p.Verified Own) {listenfd : Nat} {others : List Nat} {s₀ : σ}
    (h0 : p.Inv Own (World.start listenfd others) s₀) (hout : p.echoing s₀ = none) {x : World × σ}
    (h : Reach p.step p.ok (World.start listenfd others, s₀) x) : Served p x := by
  have hstart : p.Sound Own (World.start listenfd others, s₀) := by
    refine ⟨World.start_ok listenfd others, h0, ?_, fun _ => .refl⟩
    simp only [hout]
    exact .main rfl
  exact (h.invariant (I := p.Sound Own) hstart fun _ _ _ hx hok hs => hv.step hx hok hs).served hv

end ComputerSystem.MuxEcho
