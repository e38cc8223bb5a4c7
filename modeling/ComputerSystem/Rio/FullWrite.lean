import ComputerSystem.Rio.Basic
/-!
# Three loops that write a whole buffer

`rio_writen` (`Chapter10/rio/rio.c:33`), `UnixSocket::write_all` (`Chapter10/experiments/unix_socket.hpp:107`)
and the `write_all` of `Chapter12/12.1/experiments/ipc_demo.c:29` call `write(2)` until nothing is left. `drain`
is what they have in common: how many bytes go, and how it ends. The loops differ only where a `write(2)`
moves nothing and reports no error: `rio_writen` takes that for a failure, the others call again.

| here                  | there                                                            |
|-----------------------|------------------------------------------------------------------|
| `WriteEnd`            | how a `write_all` ends: an exception, or the exit of the process |
| `writeAllLoop`        | their loop, with `p` as an offset into the buffer                |
| `UnixSocket.writeAll`, `IpcDemo.writeAll` | the two functions                             |
-/

namespace ComputerSystem.Rio

/-! ## The loops -/

/-- What a caller points to; no object has more than `PTRDIFF_MAX` bytes. -/
structure Buffer where
  bytes : Bytes
  fits  : bytes.length < 2 ^ 63

inductive WriteEnd
  /-- it waits in `write(2)` -/
  | waiting
  | returned
  /-- `throw_errno(what)` -/
  | threw (what : Bytes)
  /-- `die(msg)` -/
  | died (msg : Bytes)
deriving DecidableEq, Repr

/-- What a `write_all` has done so far, as for `Written`. -/
structure WroteAll where
  ended : WriteEnd
  sent  : Bytes
  sched : List WriteOutcome
deriving DecidableEq, Repr

/-- `while (left > 0)`, where a failure ends it as `fail`. -/
def writeAllLoop (fail : WriteEnd) (buf : Bytes) : List WriteOutcome → Nat → Nat → Bytes → WroteAll
  | [], _, left, sent => ⟨if left = 0 then .returned else .waiting, sent, []⟩
  | o :: os, p, left, sent =>
    if left = 0 then ⟨.returned, sent, o :: os⟩
    else match o with
    | .eintr => writeAllLoop fail buf os p left sent
    | .error => ⟨fail, sent, os⟩
    | .count k =>
      let written : Int := (min k left : Nat)
      writeAllLoop fail buf os (p + written.toNat) (sizeSub left (toSize written))
        (sent ++ (buf.drop p).take written.toNat)

/-- `UnixSocket::write_all` (`unix_socket.hpp:107`). -/
def UnixSocket.writeAll (sched : List WriteOutcome) (buf : Bytes) : WroteAll :=
  writeAllLoop (.threw (ascii "write")) buf sched 0 buf.length []

/-- `write_all` (`ipc_demo.c:29`). -/
def IpcDemo.writeAll (sched : List WriteOutcome) (buf : Bytes) : WroteAll :=
  writeAllLoop (.died (ascii "write")) buf sched 0 buf.length []

/-! ## What they have in common -/

inductive DrainEnd
  | waiting
  | done
  | failed
deriving DecidableEq, Repr

structure Drained where
  count : Nat
  ended : DrainEnd
  sched : List WriteOutcome

/-- With `left` bytes to go. -/
def drain : List WriteOutcome → Nat → Drained
  | [], left => ⟨0, if left = 0 then .done else .waiting, []⟩
  | o :: os, left =>
    if left = 0 then ⟨0, .done, o :: os⟩
    else match o with
    | .eintr => drain os left
    | .error => ⟨0, .failed, os⟩
    | .count k =>
      let r := drain os (left - min k left)
      ⟨min k left + r.count, r.ended, r.sched⟩

/-- The bytes that the outcomes account for. -/
def moved (os : List WriteOutcome) : Nat :=
  (os.map fun
    | .count k => k
    | _ => 0).sum

/-- An error comes before all bytes are written. -/
def FailsFirst (sched : List WriteOutcome) (left : Nat) : Prop :=
  ∃ before after, sched = before ++ .error :: after ∧ .error ∉ before ∧ moved before < left

theorem drain_count_le (sched : List WriteOutcome) : ∀ left, (drain sched left).count ≤ left := by
  induction sched with
  | nil => intro left; exact Nat.zero_le _
  | cons o os ih =>
    intro left
    simp only [drain]
    split
    · exact Nat.zero_le _
    · cases o with
      | eintr => exact ih left
      | error => exact Nat.zero_le _
      | count k =>
        have := ih (left - min k left)
        simp only
        omega

/-- **Success** is that all bytes are written. -/
theorem drain_done_iff (sched : List WriteOutcome) : ∀ left, (drain sched left).ended = .done ↔
    (drain sched left).count = left := by
  induction sched with
  | nil =>
    intro left
    simp only [drain]
    split <;> simp_all [eq_comm]
  | cons o os ih =>
    intro left
    simp only [drain]
    split
    · simp_all
    · rename_i hleft
      cases o with
      | eintr => exact ih left
      | error => simp [Ne.symm hleft]
      | count k =>
        rw [ih]
        simp only
        omega

/-- **Failure** is that an error comes first. -/
theorem drain_failed_iff (sched : List WriteOutcome) : ∀ left, (drain sched left).ended = .failed ↔
    FailsFirst sched left := by
  induction sched with
  | nil =>
    intro left
    have hno : ¬ FailsFirst [] left := by
      rintro ⟨before, after, heq, -⟩
      simp at heq
    simp only [drain, hno, iff_false]
    split <;> simp
  | cons o os ih =>
    intro left
    -- an outcome that is no error is one of those before it
    have hcons : o ≠ .error → (FailsFirst (o :: os) left ↔
        ∃ before after, os = before ++ .error :: after ∧ .error ∉ before ∧ moved (o :: before) < left) := by
      intro ho
      constructor
      · rintro ⟨before, after, heq, hno, hlt⟩
        cases before with
        | nil =>
          obtain ⟨rfl, -⟩ := List.cons.inj heq
          exact absurd rfl ho
        | cons o' before =>
          obtain ⟨rfl, rfl⟩ := List.cons.inj heq
          exact ⟨before, after, rfl, fun h => hno (List.mem_cons_of_mem _ h), hlt⟩
      · rintro ⟨before, after, rfl, hno, hlt⟩
        exact ⟨o :: before, after, rfl, by simp [Ne.symm ho, hno], hlt⟩
    simp only [drain]
    split
    · rename_i hleft
      subst hleft
      simp [FailsFirst]
    · rename_i hleft
      cases o with
      | eintr =>
        rw [ih, hcons (by simp)]
        simp [FailsFirst, moved]
      | error =>
        simp only [true_iff]
        exact ⟨[], os, rfl, by simp, Nat.pos_of_ne_zero hleft⟩
      | count k =>
        rw [ih, hcons (by simp)]
        have hsum : ∀ before, moved (.count k :: before) < left ↔ moved before < left - min k left := by
          intro before
          simp only [moved, List.map_cons, List.sum_cons]
          omega
        simp only [hsum]
        rfl

/-! ## Each loop is a drain -/

def DrainEnd.ret (n : Nat) : DrainEnd → Option Int
  | .waiting => none
  | .done => some n
  | .failed => some (-1)

def DrainEnd.writeEnd (fail : WriteEnd) : DrainEnd → WriteEnd
  | .waiting => .waiting
  | .done => .returned
  | .failed => fail

theorem rioWritenLoop_drain (n : Nat) (sched : List WriteOutcome) : ∀ (bufp sent : Bytes), .count 0 ∉ sched →
    let r := drain sched bufp.length
    rioWritenLoop n sched bufp sent = ⟨r.ended.ret n, sent ++ bufp.take r.count, r.sched⟩ := by
  induction sched with
  | nil =>
    intro bufp sent _
    cases bufp <;> simp [rioWritenLoop, drain, DrainEnd.ret]
  | cons o os ih =>
    intro bufp sent hno
    have hno' : .count 0 ∉ os := fun h => hno (List.mem_cons_of_mem _ h)
    cases bufp with
    | nil => simp [rioWritenLoop, drain, DrainEnd.ret]
    | cons b bufp =>
      have hne : (b :: bufp).length ≠ 0 := by simp
      simp only [drain, hne, if_false]
      cases o with
      | eintr => exact ih (b :: bufp) sent hno'
      | error => simp [rioWritenLoop, DrainEnd.ret]
      | count k =>
        have hk : k ≠ 0 := by
          rintro rfl
          exact hno (List.mem_cons_self ..)
        have htake : (b :: bufp).take k = (b :: bufp).take (min k (b :: bufp).length) := by
          rw [List.take_eq_take_iff]
          omega
        have hdrop : (b :: bufp).drop k = (b :: bufp).drop (min k (b :: bufp).length) := by
          rw [List.drop_eq_drop_iff]
          omega
        simp only [rioWritenLoop, if_neg hk, htake, hdrop]
        rw [ih _ _ hno', List.length_drop, List.append_assoc, ← List.take_add]

/-- **Where a `write_all` stands**: `p` bytes are written and `left` are not. -/
theorem writeAllLoop_drain (fail : WriteEnd) {buf : Bytes} (hfits : buf.length < 2 ^ 63) (sched : List WriteOutcome) :
    ∀ (p left : Nat) (sent : Bytes), p + left = buf.length →
    let r := drain sched left
    writeAllLoop fail buf sched p left sent = ⟨r.ended.writeEnd fail, sent ++ (buf.drop p).take r.count, r.sched⟩ := by
  induction sched with
  | nil =>
    intro p left sent _
    simp only [writeAllLoop, drain, List.take_zero, List.append_nil]
    split <;> rfl
  | cons o os ih =>
    intro p left sent hp
    simp only [writeAllLoop, drain]
    split
    · simp [DrainEnd.writeEnd]
    · cases o with
      | eintr => exact ih p left sent hp
      | error => simp [DrainEnd.writeEnd]
      | count k =>
        have hsize : toSize ((min k left : Nat) : Int) = min k left := by
          unfold toSize
          omega
        simp only [hsize, Int.toNat_natCast]
        rw [sizeSub_eq (by omega) (by omega), ih _ _ _ (by omega), List.append_assoc, ← List.drop_drop, ← List.take_add]

theorem rioWriten_drain {sched : List WriteOutcome} (hshort : .count 0 ∉ sched) (buf : Bytes) :
    let r := drain sched buf.length
    rioWriten sched buf = ⟨r.ended.ret buf.length, buf.take r.count, r.sched⟩ :=
  rioWritenLoop_drain buf.length sched buf [] hshort

theorem unixSocket_drain (sched : List WriteOutcome) (buf : Buffer) :
    let r := drain sched buf.bytes.length
    UnixSocket.writeAll sched buf.bytes =
      ⟨r.ended.writeEnd (.threw (ascii "write")), buf.bytes.take r.count, r.sched⟩ :=
  writeAllLoop_drain _ buf.fits sched 0 buf.bytes.length [] (Nat.zero_add _)

theorem ipcDemo_drain (sched : List WriteOutcome) (buf : Buffer) :
    let r := drain sched buf.bytes.length
    IpcDemo.writeAll sched buf.bytes =
      ⟨r.ended.writeEnd (.died (ascii "write")), buf.bytes.take r.count, r.sched⟩ :=
  writeAllLoop_drain _ buf.fits sched 0 buf.bytes.length [] (Nat.zero_add _)

theorem ret_done (n : Nat) (e : DrainEnd) : e.ret n = some (n : Int) ↔ e = .done := by
  cases e <;> simp [DrainEnd.ret]

theorem ret_failed (n : Nat) (e : DrainEnd) : e.ret n = some (-1) ↔ e = .failed := by
  cases e <;> simp [DrainEnd.ret]

/-- With nothing to write there is no call. -/
theorem drain_zero (sched : List WriteOutcome) : (drain sched 0).sched = sched := by
  cases sched <;> rfl

/-- **The three loops agree** on every schedule in which a `write(2)` that returns moves a byte. -/
theorem write_loops_agree (buf : Buffer) (sched : List WriteOutcome) (hshort : .count 0 ∉ sched) :
    let w := rioWriten sched buf.bytes
    let u := UnixSocket.writeAll sched buf.bytes
    let i := IpcDemo.writeAll sched buf.bytes
    (u.sent = w.sent ∧ i.sent = w.sent ∧ u.sched = w.sched ∧ i.sched = w.sched) ∧ w.sent <+: buf.bytes ∧
    ((w.ret = some (buf.bytes.length : Int) ↔ w.sent = buf.bytes) ∧ (u.ended = .returned ↔ u.sent = buf.bytes) ∧
      (i.ended = .returned ↔ i.sent = buf.bytes)) ∧
    ((w.ret = some (-1) ↔ FailsFirst sched buf.bytes.length) ∧
      (u.ended = .threw (ascii "write") ↔ FailsFirst sched buf.bytes.length) ∧
      (i.ended = .died (ascii "write") ↔ FailsFirst sched buf.bytes.length)) ∧
    (FailsFirst sched buf.bytes.length → w.sent.length < buf.bytes.length) ∧
    (buf.bytes = [] → w.sched = sched ∧ u.sched = sched ∧ i.sched = sched) := by
  have hle := drain_count_le sched buf.bytes.length
  have hdone := drain_done_iff sched buf.bytes.length
  have hfailed := drain_failed_iff sched buf.bytes.length
  have hzero : buf.bytes = [] → (drain sched buf.bytes.length).sched = sched := by
    intro hnil
    rw [hnil]
    exact drain_zero sched
  simp only [rioWriten_drain hshort, unixSocket_drain, ipcDemo_drain]
  generalize drain sched buf.bytes.length = r at hle hdone hfailed hzero
  have hlen : (buf.bytes.take r.count).length = r.count := by
    rw [List.length_take, Nat.min_eq_left hle]
  have hwhole : buf.bytes.take r.count = buf.bytes ↔ r.ended = .done := by
    rw [hdone]
    constructor
    · intro h
      rw [← hlen, h]
    · intro h
      rw [h, List.take_length]
  have hwrite : ∀ fail : WriteEnd, fail ≠ .waiting → fail ≠ .returned →
      (r.ended.writeEnd fail = .returned ↔ r.ended = .done) ∧ (r.ended.writeEnd fail = fail ↔ r.ended = .failed) := by
    intro fail h1 h2
    cases r.ended <;> simp [DrainEnd.writeEnd, h2, Ne.symm h1, Ne.symm h2]
  obtain ⟨hthrown, hthrew⟩ := hwrite (.threw (ascii "write")) (by simp) (by simp)
  obtain ⟨hdead, hdied⟩ := hwrite (.died (ascii "write")) (by simp) (by simp)
  refine ⟨⟨trivial, trivial, trivial, trivial⟩, List.take_prefix _ _, ⟨?_, ?_, ?_⟩, ⟨?_, ?_, ?_⟩, ?_, ?_⟩
  · rw [ret_done, hwhole]
  · rw [hthrown, hwhole]
  · rw [hdead, hwhole]
  · rw [ret_failed, hfailed]
  · rw [hthrew, hfailed]
  · rw [hdied, hfailed]
  · -- an error is no success
    intro hfail
    have hne : r.count ≠ buf.bytes.length := by
      intro heq
      rw [← hdone, hfailed.2 hfail] at heq
      cases heq
    omega
  · intro hnil
    exact ⟨hzero hnil, hzero hnil, hzero hnil⟩

/-- Two of three bytes, an interruption, and an error. -/
theorem write_loops_agree_error :
    (rioWriten [.count 2, .eintr, .error] [1, 2, 3]).ret = some (-1) ∧
    (UnixSocket.writeAll [.count 2, .eintr, .error] [1, 2, 3]).ended = .threw (ascii "write") ∧
    (IpcDemo.writeAll [.count 2, .eintr, .error] [1, 2, 3]).ended = .died (ascii "write") ∧
    (rioWriten [.count 2, .eintr, .error] [1, 2, 3]).sent.length < 3 := by
  have hfirst : FailsFirst [.count 2, .eintr, .error] 3 := ⟨[.count 2, .eintr], [], rfl, by decide, by decide⟩
  obtain ⟨-, -, -, ⟨hret, hthrew, hdied⟩, hproper, -⟩ :=
    write_loops_agree ⟨[1, 2, 3], by decide⟩ [.count 2, .eintr, .error] (by decide)
  exact ⟨hret.2 hfirst, hthrew.2 hfirst, hdied.2 hfirst, hproper hfirst⟩

end ComputerSystem.Rio
