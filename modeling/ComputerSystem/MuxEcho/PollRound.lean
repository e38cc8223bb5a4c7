import ComputerSystem.MuxEcho.Poll
/-!
# One round of `poll_echo_server.c` (`:103-153`)

From the return of `poll` to its next call, for any array, any `revents` in it, any outcome of `accept`
and of every `echo_once`. `scanLoop` is the loop of `:128`; what is behind its place is all it has still
to look at, for a removal moves the last entry to the place and the loop stays there. `scanLoop_spec`
is the induction over what is behind the place, and `round_spec` the result for a round.

| here          | there                                                                     |
|---------------|---------------------------------------------------------------------------|
| `fails fd`    | `echo_once(fd) < 0`                                                        |
| `closeIt`     | `close_it` at `:149`                                                       |
| `Handled`     | an entry behind the `continue` of `:131`, and whether it was closed        |
| `letIn`       | the call of `accept` and `add_client` (`:105-121`)                         |
| `scanLoop`    | the loop of `:128`, for at most so many turns                              |
| `round`       | `:103-153`; `nready` is what `poll` returned                               |

`round_turns` connects it to the step machine of the server.
-/

namespace ComputerSystem.MuxEcho.Poll

open Relation (ReflTransGen)

structure Handled where
  entry  : PollFd
  closed : Bool
deriving DecidableEq

/-- `echo_once` is called (`:138`). -/
def PollFd.echoes (e : PollFd) : Bool := e.revents.pollin || e.revents.pollhup

def closeIt (fails : Nat → Bool) (e : PollFd) : Bool :=
  e.echoes && fails e.fd || (e.revents.pollerr || e.revents.pollnval)

def scanLoop (fails : Nat → Bool) : Nat → Nat → Nat → List PollFd → Option (List Handled × List PollFd)
  | 0, _, _, _ => none
  | turns + 1, i, nready, fds =>
    match fds[i]? with
    | none => some ([], fds)
    | some e =>
      if 0 < nready then
        if e.revents.nonzero = false then scanLoop fails turns (i + 1) nready fds
        else if closeIt fails e then
          (scanLoop fails turns i (nready - 1) (removePollfd fds i)).map fun r => (⟨e, true⟩ :: r.1, r.2)
        else (scanLoop fails turns (i + 1) (nready - 1) fds).map fun r => (⟨e, false⟩ :: r.1, r.2)
      else some ([], fds)

/-- Without `POLLIN` there is no call of `accept`; a client that is one too many is rejected. -/
def letIn (accepted : Option Nat) (fds : List PollFd) : List PollFd :=
  match accepted with
  | none => fds
  | some connfd => if MAX_CLIENTS + 1 ≤ fds.length then fds else addClient fds connfd

/-- `fds[0].revents`. -/
def listenerOf (fds : List PollFd) : Revents := (fds.head?.map PollFd.revents).getD .zero

def round (accepted : Option Nat) (fails : Nat → Bool) (turns : Nat) (fds : List PollFd) (nready : Nat) :
    Option (List Handled × List PollFd) :=
  if (listenerOf fds).nonzero then
    let fds := if (listenerOf fds).pollin then letIn accepted fds else fds
    if nready - 1 = 0 then some ([], fds) else scanLoop fails turns 1 (nready - 1) fds
  else scanLoop fails turns 1 nready fds

/-- The entries that are handled and those that are closed. -/
def ready (fds : List PollFd) : List PollFd := fds.filter fun e => e.revents.nonzero

def closing (fails : Nat → Bool) (fds : List PollFd) : List PollFd :=
  fds.filter fun e => e.revents.nonzero && closeIt fails e

def kept (fails : Nat → Bool) (fds : List PollFd) : List PollFd :=
  fds.filter fun e => !(e.revents.nonzero && closeIt fails e)

/-! ## The loop -/

section
variable {fails : Nat → Bool}

/-- What the loop makes of `back`, the entries behind its place. -/
structure Scanned (fails : Nat → Bool) (front back : List PollFd) (log : List Handled) (fds : List PollFd) : Prop where
  handled : (log.map Handled.entry).Perm (ready back)
  closed  : ∀ h ∈ log, h.closed = closeIt fails h.entry
  left    : ∃ back', fds = front ++ back' ∧ back'.Perm (kept fails back)

/-- With nothing ready the loop would change nothing. -/
theorem scanned_none {front back : List PollFd} (h : ready back = []) : Scanned fails front back [] (front ++ back) := by
  have hkept : kept fails back = back := by
    apply List.filter_eq_self.2
    intro e he
    have hz : e.revents.nonzero = false := by
      have := List.filter_eq_nil_iff.1 h e he
      simpa using this
    simp [hz]
  refine ⟨?_, fun h hh => (by cases hh), back, rfl, ?_⟩
  · rw [h]
    exact .refl _
  · rw [hkept]

theorem ready_cons (e : PollFd) (back : List PollFd) :
    ready (e :: back) = if e.revents.nonzero = true then e :: ready back else ready back := List.filter_cons ..

theorem kept_cons (e : PollFd) (back : List PollFd) :
    kept fails (e :: back) =
      if e.revents.nonzero = true ∧ closeIt fails e = true then kept fails back else e :: kept fails back := by
  unfold kept
  rw [List.filter_cons]
  by_cases h : e.revents.nonzero = true ∧ closeIt fails e = true
  · rw [if_pos h, if_neg]
    simp [h.1, h.2]
  · rw [if_neg h, if_pos]
    rw [Bool.not_eq_true', ← Bool.not_eq_true, Bool.and_eq_true]
    exact h

/-- **The loop handles what is ready behind its place, each entry once.** -/
theorem scanLoop_spec : ∀ (turns : Nat) (front back : List PollFd) (nready : Nat), back.length < turns →
    nready = (ready back).length →
    ∃ log fds, scanLoop fails turns front.length nready (front ++ back) = some (log, fds) ∧
      Scanned fails front back log fds := by
  intro turns
  induction turns with
  | zero =>
    intro front back nready hturns
    omega
  | succ turns ih =>
    intro front back nready hturns hnready
    cases back with
    | nil =>
      refine ⟨[], front ++ [], ?_, scanned_none rfl⟩
      simp only [scanLoop, List.append_nil, List.getElem?_eq_none (Nat.le_refl front.length)]
    | cons e back =>
      rw [List.length_cons] at hturns
      have hget : (front ++ e :: back)[front.length]? = some e := by simp
      have hnext : front ++ e :: back = (front ++ [e]) ++ back := by simp
      have hplace : front.length + 1 = (front ++ [e]).length := by simp
      by_cases hpos : 0 < nready
      · by_cases hz : e.revents.nonzero = false
        · -- not ready: the loop goes on
          rw [ready_cons, if_neg (by simp [hz])] at hnready
          obtain ⟨log, fds, hloop, hhandled, hclosed, back', hfds, hperm⟩ := ih (front ++ [e]) back nready (by omega) hnready
          refine ⟨log, fds, ?_, ?_, hclosed, e :: back', ?_, ?_⟩
          · simp only [scanLoop, hget, if_pos hpos, if_pos hz]
            rw [hnext, hplace]
            exact hloop
          · rw [ready_cons, if_neg (by simp [hz])]
            exact hhandled
          · rw [hfds]
            simp
          · rw [kept_cons, if_neg (by simp [hz])]
            exact hperm.cons e
        · have hnz : e.revents.nonzero = true := by simpa using hz
          rw [ready_cons, if_pos hnz, List.length_cons] at hnready
          by_cases hclose : closeIt fails e = true
          · -- closed: the last entry is at the place now
            obtain ⟨moved, hmoved, heq⟩ := swapRemove_append front back e
            have hready : (ready moved).Perm (ready back) := hmoved.filter _
            have hkept : (kept fails moved).Perm (kept fails back) := hmoved.filter _
            obtain ⟨log, fds, hloop, hhandled, hclosed, back', hfds, hperm⟩ := ih front moved (nready - 1)
              (by rw [hmoved.length_eq]; omega) (by rw [hready.length_eq]; omega)
            refine ⟨⟨e, true⟩ :: log, fds, ?_, ?_, ?_, back', hfds, ?_⟩
            · simp only [scanLoop, hget, if_pos hpos, if_neg hz, if_pos hclose, removePollfd, heq, hloop, Option.map_some]
            · rw [ready_cons, if_pos hnz, List.map_cons]
              exact (hhandled.trans hready).cons e
            · intro h hh
              rcases List.mem_cons.1 hh with rfl | hh
              · exact hclose.symm
              · exact hclosed h hh
            · rw [kept_cons, if_pos ⟨hnz, hclose⟩]
              exact hperm.trans hkept
          · obtain ⟨log, fds, hloop, hhandled, hclosed, back', hfds, hperm⟩ := ih (front ++ [e]) back (nready - 1)
              (by omega) (by omega)
            refine ⟨⟨e, false⟩ :: log, fds, ?_, ?_, ?_, e :: back', ?_, ?_⟩
            · simp only [scanLoop, hget, if_pos hpos, if_neg hz, if_neg hclose]
              rw [hnext, hplace, hloop]
              rfl
            · rw [ready_cons, if_pos hnz, List.map_cons]
              exact hhandled.cons e
            · intro h hh
              rcases List.mem_cons.1 hh with rfl | hh
              · exact (Bool.not_eq_true _ ▸ hclose).symm
              · exact hclosed h hh
            · rw [hfds]
              simp
            · rw [kept_cons, if_neg (fun h => hclose h.2)]
              exact hperm.cons e
      · -- the counter has run out, and so has what is ready
        have hnone : ready (e :: back) = [] := List.length_eq_zero_iff.1 (by omega)
        refine ⟨[], front ++ e :: back, ?_, scanned_none hnone⟩
        simp only [scanLoop, hget, if_neg hpos]

/-- More turns change nothing. -/
theorem scanLoop_mono : ∀ {turns turns' i nready : Nat} {fds : List PollFd} {r : List Handled × List PollFd},
    scanLoop fails turns i nready fds = some r → turns ≤ turns' → scanLoop fails turns' i nready fds = some r := by
  intro turns
  induction turns with
  | zero =>
    intro turns' i nready fds r h
    cases h
  | succ turns ih =>
    intro turns' i nready fds r h hle
    obtain ⟨turns', rfl⟩ : ∃ t, turns' = t + 1 := ⟨turns' - 1, by omega⟩
    simp only [scanLoop] at h ⊢
    split at h
    · exact h
    · split at h
      · rename_i hpos
        rw [if_pos hpos]
        split at h
        · rename_i hz
          rw [if_pos hz]
          exact ih h (by omega)
        · rename_i hz
          rw [if_neg hz]
          split at h
          · rename_i hclose
            obtain ⟨r', hr', rfl⟩ := Option.map_eq_some_iff.1 h
            rw [if_pos hclose, ih hr' (by omega)]
            rfl
          · rename_i hclose
            obtain ⟨r', hr', rfl⟩ := Option.map_eq_some_iff.1 h
            rw [if_neg hclose, ih hr' (by omega)]
            rfl
      · rename_i hpos
        rw [if_neg hpos]
        exact h

end

/-! ## The round -/

/-- The entry that the round adds. -/
def admitted (accepted : Option Nat) (fds : List PollFd) : List PollFd :=
  match accepted with
  | some connfd =>
    if (listenerOf fds).pollin = true ∧ fds.length < MAX_CLIENTS + 1 then [⟨connfd, .zero⟩] else []
  | none => []

theorem letIn_eq (accepted : Option Nat) (fds : List PollFd) :
    (if (listenerOf fds).pollin then letIn accepted fds else fds) = fds ++ admitted accepted fds := by
  unfold admitted letIn
  cases accepted with
  | none => simp
  | some connfd =>
    by_cases hin : (listenerOf fds).pollin = true
    · by_cases hfull : MAX_CLIENTS + 1 ≤ fds.length
      · have hno : ¬ ((listenerOf fds).pollin = true ∧ fds.length < MAX_CLIENTS + 1) := fun h => by omega
        simp only [if_pos hin, if_pos hfull, if_neg hno, List.append_nil]
      · have hroom : (listenerOf fds).pollin = true ∧ fds.length < MAX_CLIENTS + 1 := ⟨hin, Nat.lt_of_not_le hfull⟩
        simp only [if_pos hin, if_neg hfull, if_pos hroom, addClient]
    · simp [hin]

theorem admitted_length (accepted : Option Nat) {fds : List PollFd} (h : fds.length ≤ MAX_CLIENTS + 1) :
    fds.length + (admitted accepted fds).length ≤ MAX_CLIENTS + 1 := by
  unfold admitted
  split
  · split
    · rename_i hroom
      exact hroom.2
    · exact h
  · exact h

/-- It is not ready. -/
theorem admitted_quiet (accepted : Option Nat) (fds : List PollFd) : ∀ e ∈ admitted accepted fds, e.revents.nonzero = false := by
  intro e he
  unfold admitted at he
  split at he
  · split at he
    · rw [List.mem_singleton.1 he]
      rfl
    · cases he
  · cases he

theorem ready_append_admitted (accepted : Option Nat) (fds back : List PollFd) :
    ready (back ++ admitted accepted fds) = ready back := by
  have hnone : (admitted accepted fds).filter (fun e => e.revents.nonzero) = [] := by
    apply List.filter_eq_nil_iff.2
    intro e he
    simp [admitted_quiet accepted fds e he]
  unfold ready
  rw [List.filter_append, hnone, List.append_nil]

theorem kept_append_admitted (accepted : Option Nat) (fails : Nat → Bool) (fds back : List PollFd) :
    kept fails (back ++ admitted accepted fds) = kept fails back ++ admitted accepted fds := by
  have hall : (admitted accepted fds).filter (fun e => !(e.revents.nonzero && closeIt fails e)) = admitted accepted fds := by
    apply List.filter_eq_self.2
    intro e he
    simp [admitted_quiet accepted fds e he]
  unfold kept
  rw [List.filter_append, hall]

theorem kept_length_le (fails : Nat → Bool) (fds : List PollFd) : (kept fails fds).length ≤ fds.length :=
  List.length_filter_le ..

/-- **What one round does**: the loop handles what is ready behind the listener, and what it closes goes
and everything else stays. -/
theorem round_spec (accepted : Option Nat) (fails : Nat → Bool) (first : PollFd) (back : List PollFd) {turns : Nat}
    (hturns : MAX_CLIENTS + 1 < turns) (hsize : (first :: back).length ≤ MAX_CLIENTS + 1) :
    ∃ log fds, round accepted fails turns (first :: back) (ready (first :: back)).length = some (log, fds) ∧
      Scanned fails [first] (back ++ admitted accepted (first :: back)) log fds := by
  have hroom := admitted_length accepted hsize
  rw [List.length_cons] at hroom hsize
  have hlisten : listenerOf (first :: back) = first.revents := rfl
  by_cases hnz : first.revents.nonzero = true
  · have hnready : (ready (first :: back)).length - 1 = (ready (back ++ admitted accepted (first :: back))).length := by
      rw [ready_cons, if_pos hnz, ready_append_admitted, List.length_cons, Nat.add_sub_cancel]
    have hcons : first :: back ++ admitted accepted (first :: back) = [first] ++ (back ++ admitted accepted (first :: back)) := rfl
    simp only [round, letIn_eq, hnready]
    rw [hlisten, if_pos hnz, hcons]
    by_cases hzero : (ready (back ++ admitted accepted (first :: back))).length = 0
    · have hnone : Scanned fails [first] (back ++ admitted accepted (first :: back)) []
          ([first] ++ (back ++ admitted accepted (first :: back))) := scanned_none (List.length_eq_zero_iff.1 hzero)
      rw [if_pos hzero]
      exact ⟨[], _, rfl, hnone⟩
    · rw [if_neg hzero]
      refine scanLoop_spec turns [first] _ _ ?_ rfl
      rw [List.length_append]
      omega
  · have hquiet : first.revents.pollin = false := by
      cases hin : first.revents.pollin with
      | false => rfl
      | true => simp [Revents.nonzero, hin] at hnz
    have hnone : admitted accepted (first :: back) = [] := by
      unfold admitted
      cases accepted with
      | none => rfl
      | some connfd => simp [hlisten, hquiet]
    rw [hnone, List.append_nil, ready_cons, if_neg hnz]
    simp only [round]
    rw [hlisten, if_neg hnz]
    exact scanLoop_spec turns [first] back _ (by omega) rfl

theorem round_mono {accepted : Option Nat} {fails : Nat → Bool} {turns turns' nready : Nat} {fds : List PollFd}
    {r : List Handled × List PollFd} (h : round accepted fails turns fds nready = some r) (hle : turns ≤ turns') :
    round accepted fails turns' fds nready = some r := by
  simp only [round] at h ⊢
  split at h
  · rename_i hnz
    rw [if_pos hnz]
    split at h
    · rename_i hzero
      rw [if_pos hzero]
      exact h
    · rename_i hzero
      rw [if_neg hzero]
      exact scanLoop_mono h hle
  · rename_i hnz
    rw [if_neg hnz]
    exact scanLoop_mono h hle

/-- The entries of the log that were closed. -/
theorem closed_entries {fails : Nat → Bool} {log : List Handled} {back : List PollFd}
    (hclosed : ∀ h ∈ log, h.closed = closeIt fails h.entry) (hhandled : (log.map Handled.entry).Perm (ready back)) :
    ((log.filter Handled.closed).map Handled.entry).Perm (closing fails back) := by
  have hlog : (log.filter Handled.closed).map Handled.entry = (log.map Handled.entry).filter (closeIt fails) := by
    rw [List.filter_map, List.filter_congr hclosed]
    rfl
  have hback : (ready back).filter (closeIt fails) = closing fails back := by
    unfold ready closing
    rw [List.filter_filter]
    apply List.filter_congr
    intro e _
    exact Bool.and_comm _ _
  rw [hlog, ← hback]
  exact hhandled.filter _

/-- **Each ready descriptor is served once in a round**, whatever `accept` and the calls of `echo_once`
return. -/
theorem poll_round (listenfd : Nat) (fds : List PollFd) (hhead : (fds.map PollFd.fd).head? = some listenfd)
    (hdistinct : (fds.map PollFd.fd).Nodup) (hsize : fds.length ≤ MAX_CLIENTS + 1) (accepted : Option Nat)
    (fails : Nat → Bool) :
    ∃ log fds',
      (∃ enough, ∀ turns ≥ enough, round accepted fails turns fds (ready fds).length = some (log, fds')) ∧
      (log.map Handled.entry).Perm (ready fds.tail) ∧ (log.map fun h => h.entry.fd).Nodup ∧
      ((log.filter Handled.closed).map Handled.entry).Perm (closing fails fds.tail) ∧
      fds'.tail.Perm (kept fails fds.tail ++ admitted accepted fds) ∧
      (fds'.map PollFd.fd).head? = some listenfd ∧ 1 ≤ fds'.length ∧ fds'.length ≤ MAX_CLIENTS + 1 := by
  obtain ⟨first, back, rfl⟩ : ∃ first back, fds = first :: back := by
    cases fds with
    | nil => cases hhead
    | cons first back => exact ⟨first, back, rfl⟩
  obtain ⟨log, fds', hround, hscanned⟩ := round_spec accepted fails first back (Nat.lt_succ_self _) hsize
  obtain ⟨hhandled, hclosed, back', rfl, hperm⟩ := hscanned
  rw [ready_append_admitted] at hhandled
  rw [kept_append_admitted] at hperm
  have hroom := admitted_length accepted hsize
  have hlen := hperm.length_eq
  have hkept := kept_length_le fails back
  rw [List.length_append] at hlen
  rw [List.length_cons] at hroom
  refine ⟨log, [first] ++ back', ⟨MAX_CLIENTS + 2, fun turns hturns => ?_⟩, hhandled, ?_, ?_, hperm, hhead, ?_, ?_⟩
  · exact round_mono hround hturns
  · have hfds : (log.map fun h => h.entry.fd) = (log.map Handled.entry).map PollFd.fd := by
      rw [List.map_map]
      rfl
    rw [hfds, (hhandled.map PollFd.fd).nodup_iff]
    exact (List.nodup_cons.1 hdistinct).2.sublist ((List.filter_sublist ..).map _)
  · exact closed_entries hclosed hhandled
  · simp
  · simp only [List.length_append, List.length_singleton]
    omega

/-- The listener and two clients, of which the second has an error. -/
def busyFds : List PollFd :=
  [⟨3, ⟨true, false, false, false⟩⟩, ⟨4, ⟨true, true, false, false⟩⟩, ⟨5, ⟨false, false, true, false⟩⟩]

/-- Client 4 fails and client 6 comes. -/
theorem poll_round_busy : ∃ log fds',
    (∃ enough, ∀ turns ≥ enough, round (some 6) (fun fd => fd = 4) turns busyFds 3 = some (log, fds')) ∧
    (log.map fun h => h.entry.fd).Perm [4, 5] ∧ fds'.tail = [⟨6, .zero⟩] := by
  obtain ⟨log, fds', hround, hhandled, -, -, hperm, -⟩ :=
    poll_round 3 busyFds (by decide) (by decide) (by decide) (some 6) (fun fd => fd = 4)
  have hready : ready busyFds.tail = [⟨4, ⟨true, true, false, false⟩⟩, ⟨5, ⟨false, false, true, false⟩⟩] := by decide
  have hleft : kept (fun fd => fd = 4) busyFds.tail ++ admitted (some 6) busyFds = [⟨6, .zero⟩] := by decide
  rw [hready] at hhandled
  rw [hleft] at hperm
  refine ⟨log, fds', hround, ?_, List.perm_singleton.1 hperm⟩
  have hfds := hhandled.map PollFd.fd
  rw [List.map_map] at hfds
  exact hfds

/-! ## The round in the step machine -/

section
variable {accepted : Option Nat} {fails : Nat → Bool} {w : World} {s : State} {x : World × State}

theorem turn_accept (h : main s w (.accept accepted true) = some x) : server.Turn accepted fails (w, s) x := .accept h

theorem turn_go (hout : s.echoing = none) (h : main s w .go = some x) : server.Turn accepted fails (w, s) x :=
  .go hout h

end

def closeAll (w : World) (log : List Handled) : World :=
  (log.filter Handled.closed).foldl (fun w h => w.close h.entry.fd) w

/-- An entry that is ready, in one turn or in two. -/
theorem handled_turns (accepted : Option Nat) (fails : Nat → Bool) {w : World} {fds : List PollFd} {i nready : Nat} {e : PollFd} (he : fds[i]? = some e)
    (hpos : 0 < nready) (hnz : e.revents.nonzero = true) :
    ReflTransGen (server.Turn accepted fails) (w, ⟨fds, .scan i nready⟩)
      (if closeIt fails e then (w.close e.fd, ⟨removePollfd fds i, .scan i (nready - 1)⟩)
        else (w, ⟨fds, .scan (i + 1) (nready - 1)⟩)) := by
  by_cases hecho : e.echoes = true
  · -- `echo_once` is called and returns
    have hgo : server.Turn accepted fails (w, ⟨fds, .scan i nready⟩) (w, ⟨fds, .echo i (nready - 1)⟩) := by
      refine turn_go rfl ?_
      have hecho' : (e.revents.pollin || e.revents.pollhup) = true := hecho
      simp [main, hpos, he, hnz, hecho']
    have hout : State.echoing ⟨fds, .echo i (nready - 1)⟩ = some e.fd := by
      simp only [State.echoing, he, Option.map_some]
    have hret : server.Turn accepted fails (w, ⟨fds, .echo i (nready - 1)⟩)
        (returned ⟨fds, .echo i (nready - 1)⟩ w (!fails e.fd)) := .echo hout
    have heq : returned ⟨fds, .echo i (nready - 1)⟩ w (!fails e.fd) =
        if closeIt fails e then (w.close e.fd, ⟨removePollfd fds i, .scan i (nready - 1)⟩)
        else (w, ⟨fds, .scan (i + 1) (nready - 1)⟩) := by
      simp only [returned, State.handled, he, Bool.not_not, closeIt, hecho, Bool.true_and, Bool.or_assoc]
    rw [← heq]
    exact (ReflTransGen.single hgo).tail hret
  · have hgo : server.Turn accepted fails (w, ⟨fds, .scan i nready⟩) (State.handled ⟨fds, .scan i nready⟩ w i (nready - 1) false) := by
      refine turn_go rfl ?_
      have hecho' : (e.revents.pollin || e.revents.pollhup) = false := Bool.not_eq_true _ ▸ hecho
      simp [main, hpos, he, hnz, hecho']
    have heq : State.handled ⟨fds, .scan i nready⟩ w i (nready - 1) false =
        if closeIt fails e then (w.close e.fd, ⟨removePollfd fds i, .scan i (nready - 1)⟩)
        else (w, ⟨fds, .scan (i + 1) (nready - 1)⟩) := by
      simp only [State.handled, he, closeIt, Bool.not_eq_true _ ▸ hecho, Bool.false_and, Bool.false_or]
    rw [← heq]
    exact ReflTransGen.single hgo

section
variable {accepted : Option Nat} {fails : Nat → Bool}

theorem scanLoop_turns : ∀ {turns i nready : Nat} {fds fds' : List PollFd} {log : List Handled},
    scanLoop fails turns i nready fds = some (log, fds') → ∀ w : World,
    ReflTransGen (server.Turn accepted fails) (w, ⟨fds, .scan i nready⟩) (closeAll w log, ⟨fds', .poll⟩) := by
  intro turns
  induction turns with
  | zero =>
    intro i nready fds fds' log h
    cases h
  | succ turns ih =>
    intro i nready fds fds' log h w
    simp only [scanLoop] at h
    split at h
    · rename_i hnone
      obtain ⟨rfl, rfl⟩ := Prod.mk.inj (Option.some.inj h)
      refine ReflTransGen.single (turn_go rfl ?_)
      simp only [main, hnone]
      split <;> rfl
    · rename_i e he
      split at h
      · rename_i hpos
        split at h
        · rename_i hz
          have hgo : server.Turn accepted fails (w, ⟨fds, .scan i nready⟩) (w, ⟨fds, .scan (i + 1) nready⟩) := by
            refine turn_go rfl ?_
            simp [main, hpos, he, hz]
          exact ReflTransGen.head hgo (ih h w)
        · rename_i hz
          have hnz : e.revents.nonzero = true := by simpa using hz
          have hturns := handled_turns accepted fails (w := w) he hpos hnz
          split at h
          · rename_i hclose
            obtain ⟨⟨log', fds₁⟩, hr, heq⟩ := Option.map_eq_some_iff.1 h
            obtain ⟨rfl, rfl⟩ := Prod.mk.inj heq
            rw [if_pos hclose] at hturns
            exact hturns.trans (ih hr (w.close e.fd))
          · rename_i hclose
            obtain ⟨⟨log', fds₁⟩, hr, heq⟩ := Option.map_eq_some_iff.1 h
            obtain ⟨rfl, rfl⟩ := Prod.mk.inj heq
            rw [if_neg hclose] at hturns
            exact hturns.trans (ih hr w)
      · rename_i hpos
        obtain ⟨rfl, rfl⟩ := Prod.mk.inj (Option.some.inj h)
        refine ReflTransGen.single (turn_go rfl ?_)
        simp only [main, if_neg hpos]
        rfl

/-- The call of `accept`, and what it makes of the array. -/
theorem listen_turn {fds : List PollFd} {nready : Nat} (hnz : (listenerOf fds).nonzero = true) (w : World)
    (hacc : ∀ connfd, (listenerOf fds).pollin = true → accepted = some connfd → ∃ w₁, w.accept connfd = some w₁) :
    ∃ w₁, server.Turn accepted fails (w, ⟨fds, .listen nready⟩) (w₁,
      State.listened ⟨if (listenerOf fds).pollin then letIn accepted fds else fds, .listen nready⟩ nready) := by
  have hlisten : State.listener ⟨fds, .listen nready⟩ = listenerOf fds := rfl
  by_cases hin : (listenerOf fds).pollin = true
  · rw [if_pos hin]
    cases haccepted : accepted with
    | none =>
      refine ⟨w, turn_accept ?_⟩
      simp only [main, hlisten, if_pos hin, letIn]
    | some connfd =>
      obtain ⟨w₁, hw₁⟩ := hacc connfd hin haccepted
      by_cases hfull : MAX_CLIENTS + 1 ≤ fds.length
      · refine ⟨w₁.close connfd, turn_accept ?_⟩
        simp only [main, hlisten, if_pos hin, letIn, hw₁, Option.map_some, if_pos hfull]
      · refine ⟨w₁, turn_accept ?_⟩
        simp only [main, hlisten, if_pos hin, letIn, hw₁, Option.map_some, if_neg hfull]
  · refine ⟨w, turn_go rfl ?_⟩
    simp only [main, hlisten, if_neg hin, if_pos hnz]

/-- **The round is a run of the step machine**, from the return of `poll` to its next call. -/
theorem round_turns {turns nready : Nat} {fds fds' : List PollFd} {log : List Handled}
    (h : round accepted fails turns fds nready = some (log, fds')) (w : World)
    (hacc : ∀ connfd, (listenerOf fds).pollin = true → accepted = some connfd → ∃ w₁, w.accept connfd = some w₁) :
    ∃ w₁, ReflTransGen (server.Turn accepted fails) (w, ⟨fds, .listen nready⟩) (closeAll w₁ log, ⟨fds', .poll⟩) := by
  simp only [round] at h
  split at h
  · rename_i hnz
    obtain ⟨w₁, hturn⟩ := listen_turn hnz w hacc
    refine ⟨w₁, ReflTransGen.head hturn ?_⟩
    unfold State.listened
    split at h
    · rename_i hzero
      obtain ⟨rfl, rfl⟩ := Prod.mk.inj (Option.some.inj h)
      rw [if_pos hzero]
      exact .refl
    · rename_i hzero
      rw [if_neg hzero]
      exact scanLoop_turns h w₁
  · rename_i hz
    have hnz : (listenerOf fds).nonzero = false := Bool.not_eq_true _ ▸ hz
    have hin : (listenerOf fds).pollin = false := by
      cases hpollin : (listenerOf fds).pollin with
      | false => rfl
      | true => simp [Revents.nonzero, hpollin] at hnz
    have hgo : server.Turn accepted fails (w, ⟨fds, .listen nready⟩) (w, ⟨fds, .scan 1 nready⟩) := by
      refine turn_go rfl ?_
      have hlisten : State.listener ⟨fds, .listen nready⟩ = listenerOf fds := rfl
      simp [main, hlisten, hin, hnz]
    exact ⟨w, ReflTransGen.head hgo (scanLoop_turns h w)⟩

end

end ComputerSystem.MuxEcho.Poll
