import ComputerSystem.Rio.Basic
/-!
# RIO never loses or repeats a byte

`RioT.Ok` is the invariant of a `rio_t`: `-1 <= rio_cnt <= RIO_BUFSIZE`, with the unread window
inside `rio_buf`. `CallOk` is what one call owes its caller: the `rio_t` is `Ok` again, and the
bytes stored, then the window, then the descriptor's unread bytes are what the window and the
descriptor held before. `rioRead_ok` proves it for `rio_read`; the two loops add up their calls
(`rioReadlineb_ok`, `rioReadnb_ok`), and `runOps_ok` adds up any sequence of the two.
-/

namespace ComputerSystem.Rio

/-- The bytes a `rio_t` and its descriptor have still to deliver, in order. -/
def rest (rp : RioT) (fd : Fd) : Bytes := rp.window ++ fd.unread

structure RioT.Ok (rp : RioT) : Prop where
  cnt_ge : -1 ≤ rp.rioCnt
  cnt_le : rp.rioCnt ≤ RIO_BUFSIZE
  inside : rp.rioBufptr + rp.rioCnt.toNat ≤ RIO_BUFSIZE

/-- A call that starts with `before` still to deliver ends with what it stored taken off. -/
structure CallOk (before : Bytes) (c : Call) : Prop where
  ok       : c.rio.Ok
  conserve : c.usrbuf ++ rest c.rio c.fd = before

theorem window_of_cnt_le {rp : RioT} (h : rp.rioCnt ≤ 0) : rp.window = [] := by
  simp [RioT.window, Int.toNat_of_nonpos h]

theorem window_length {rp : RioT} (h : rp.Ok) : rp.window.length = rp.rioCnt.toNat := by
  have := h.inside
  have := rp.rioBuf.size
  simp only [RioT.window, List.length_take, List.length_drop]
  omega

theorem rioInitb_ok (rp : RioT) : (rioInitb rp).Ok :=
  ⟨by simp [rioInitb], by simp [rioInitb, RIO_BUFSIZE], by simp [rioInitb]⟩

theorem rioInitb_window (rp : RioT) : (rioInitb rp).window = [] := window_of_cnt_le (by simp [rioInitb])

/-! ## `rio_read` -/

/-- After a refill the window is exactly the bytes `read(2)` moved. -/
theorem store_window (b : RioBuf) {bs : Bytes} (h : bs.length ≤ RIO_BUFSIZE) :
    RioT.window ⟨bs.length, 0, b.store bs⟩ = bs := by
  simp only [RioT.window, RioBuf.store, List.drop_zero, Int.toNat_natCast, List.take_take,
    Nat.min_eq_left h]
  simp

/-- The refill loop keeps the invariant and moves bytes from the descriptor to the window only. -/
theorem refill_ok : ∀ (sched : List ReadOutcome) (rp : RioT) (unread : Bytes), rp.Ok → rp.rioCnt ≤ 0 →
    (refill rp unread sched).2.1.Ok ∧
    rest (refill rp unread sched).2.1 (refill rp unread sched).2.2 = unread ∧
    ((refill rp unread sched).1 = .filled → 0 < (refill rp unread sched).2.1.rioCnt)
  | [], rp, unread, hok, hcnt => by
    refine ⟨hok, ?_, by simp [refill]⟩
    simp [refill, rest, window_of_cnt_le hcnt]
  | .eintr :: os, rp, unread, hok, _ => by
    have hok' : RioT.Ok { rp with rioCnt := -1 } :=
      ⟨by simp, by simp [RIO_BUFSIZE], by have := hok.inside; simp; omega⟩
    exact refill_ok os _ unread hok' (by simp)
  | .error :: os, rp, unread, hok, _ => by
    refine ⟨⟨by simp [refill], by simp [refill, RIO_BUFSIZE], ?_⟩, ?_, by simp [refill]⟩
    · have := hok.inside; simp [refill]; omega
    · simp [refill, rest, window_of_cnt_le]
  | .count k :: os, rp, unread, hok, _ => by
    simp only [refill]
    have hlen : (unread.take (min k RIO_BUFSIZE)).length ≤ RIO_BUFSIZE := by
      simp only [List.length_take]; omega
    have hsplit := List.take_append_drop (min k RIO_BUFSIZE) unread
    generalize unread.take (min k RIO_BUFSIZE) = bs at hlen hsplit
    generalize unread.drop (min k RIO_BUFSIZE) = tail at hsplit
    by_cases hbs : bs = []
    · -- end of file: the count is stored, the pointer stays where it was
      subst hbs
      simp only [↓reduceIte]
      refine ⟨⟨by simp, by simp [RIO_BUFSIZE], ?_⟩, ?_, by simp⟩
      · have := hok.inside; simp; omega
      · simpa [rest, window_of_cnt_le] using hsplit
    · simp only [hbs, ↓reduceIte]
      have hpos : 0 < bs.length := List.length_pos_iff.2 hbs
      refine ⟨⟨by simp, by simpa using hlen, by simpa using hlen⟩, ?_, fun _ => ?_⟩
      · rw [rest, store_window _ hlen]
        exact hsplit
      · simpa using hpos

theorem refill_ret : ∀ (sched : List ReadOutcome) (rp : RioT) (unread : Bytes) (r : Int),
    (refill rp unread sched).1 = .ret r → r = -1 ∨ r = 0
  | [], _, _, _, h => by simp [refill] at h
  | .eintr :: os, rp, unread, r, h => refill_ret os _ unread r h
  | .error :: _, _, _, _, h => by simp only [refill, Refill.ret.injEq] at h; omega
  | .count _ :: _, _, _, _, h => by
    simp only [refill] at h
    split at h
    · simp only [Refill.ret.injEq] at h; omega
    · cases h

/-- The number of bytes the copy moves: `min(n, rio_cnt)`, whatever the width of `n`. -/
theorem copyOut_cnt {rp : RioT} (hok : rp.Ok) (hpos : 0 < rp.rioCnt) (n : Nat) :
    (if toSize rp.rioCnt < n then rp.rioCnt else toInt32 n) = (min n rp.rioCnt.toNat : Nat) := by
  have hle := hok.cnt_le
  simp only [RIO_BUFSIZE] at hle
  rw [toSize_eq (by omega) (by unfold INT_MAX; omega)]
  split
  · omega
  · rw [toInt32_eq (by omega) (by unfold INT_MAX; omega)]
    omega

theorem copyOut_ok {rp : RioT} (hok : rp.Ok) (hpos : 0 < rp.rioCnt) (fd : Fd) (n : Nat) :
    CallOk (rest rp fd) (copyOut rp fd n) ∧
    (copyOut rp fd n).ret = some ((copyOut rp fd n).usrbuf.length : Int) ∧
    (copyOut rp fd n).usrbuf.length ≤ n := by
  have hin := hok.inside
  have hge := hok.cnt_ge
  have hle := hok.cnt_le
  have hsize := rp.rioBuf.size
  simp only [copyOut, copyOut_cnt hok hpos n, Int.toNat_natCast]
  refine ⟨⟨⟨by simp; omega, by simp; omega, by simp; omega⟩, ?_⟩, ?_, ?_⟩
  · have hcnt : rp.rioCnt.toNat = min n rp.rioCnt.toNat + (rp.rioCnt - (min n rp.rioCnt.toNat : Nat)).toNat := by
      omega
    have hwin : rp.window = (rp.rioBuf.bytes.drop rp.rioBufptr).take (min n rp.rioCnt.toNat) ++
        ((rp.rioBuf.bytes.drop rp.rioBufptr).drop (min n rp.rioCnt.toNat)).take
          (rp.rioCnt - (min n rp.rioCnt.toNat : Nat)).toNat := by
      rw [← List.take_add, ← hcnt]; rfl
    rw [rest, rest, hwin, List.append_assoc]
    simp [RioT.window, List.drop_drop]
  · simp; omega
  · simp

/-- **`rio_read` (`rio.c:70`)** returns -1 and stores nothing, or returns the number of bytes it
stored; in both cases, and while it is blocked, every byte is still accounted for. -/
theorem rioRead_ok {rp : RioT} (hok : rp.Ok) (fd : Fd) (n : Nat) :
    CallOk (rest rp fd) (rioRead rp fd n) ∧
    (rioRead rp fd n).usrbuf.length ≤ n ∧
    ((rioRead rp fd n).usrbuf = [] ∧ ((rioRead rp fd n).ret = none ∨ (rioRead rp fd n).ret = some (-1)) ∨
      (rioRead rp fd n).ret = some ((rioRead rp fd n).usrbuf.length : Int)) := by
  unfold rioRead
  by_cases hcnt : rp.rioCnt ≤ 0
  · have hrest : rest rp fd = fd.unread := by simp [rest, window_of_cnt_le hcnt]
    obtain ⟨hok', hmove, hfill⟩ := refill_ok fd.sched rp fd.unread hok hcnt
    have hret := refill_ret fd.sched rp fd.unread
    simp only [hcnt, ↓reduceIte, hrest]
    generalize refill rp fd.unread fd.sched = r at hok' hmove hfill hret
    obtain ⟨how, rp', fd'⟩ := r
    cases how with
    | blocked => exact ⟨⟨hok', hmove⟩, Nat.zero_le _, Or.inl ⟨rfl, Or.inl rfl⟩⟩
    | ret r =>
      rcases hret r rfl with rfl | rfl
      · exact ⟨⟨hok', hmove⟩, Nat.zero_le _, Or.inl ⟨rfl, Or.inr rfl⟩⟩
      · exact ⟨⟨hok', hmove⟩, Nat.zero_le _, Or.inr rfl⟩
    | filled =>
      obtain ⟨h1, h2, h3⟩ := copyOut_ok hok' (hfill rfl) fd' n
      exact ⟨hmove ▸ h1, h3, Or.inr h2⟩
  · simp only [hcnt, ↓reduceIte]
    obtain ⟨h1, h2, h3⟩ := copyOut_ok hok (by omega) fd n
    exact ⟨h1, h3, Or.inr h2⟩

/-! ## The two loops -/

/-- The line loop adds what it stores to what was stored before it. -/
theorem rioReadlinebLoop_ok : ∀ (left : Nat) (n : Int) (usrbuf : Bytes) {rp : RioT} (fd : Fd), rp.Ok →
    CallOk (usrbuf ++ rest rp fd) (rioReadlinebLoop left n usrbuf rp fd)
  | 0, _, _, _, _, hok => ⟨hok, rfl⟩
  | left + 1, n, usrbuf, rp, fd, hok => by
    obtain ⟨⟨hok', hcons⟩, hlen, hret⟩ := rioRead_ok hok fd 1
    simp only [rioReadlinebLoop]
    generalize rioRead rp fd 1 = c at hok' hcons hlen hret
    obtain ⟨ret, bs, rp', fd'⟩ := c
    simp only at hok' hcons hlen hret
    -- nothing is stored by a read that blocks, fails or meets the end of file
    have hnone : bs = [] → CallOk (usrbuf ++ rest rp fd) ⟨ret, usrbuf, rp', fd'⟩ := by
      intro hbs
      subst hbs
      exact ⟨hok', by rw [← hcons]; rfl⟩
    have hsome : CallOk (usrbuf ++ rest rp fd) ⟨ret, usrbuf ++ bs, rp', fd'⟩ :=
      ⟨hok', by rw [← hcons, List.append_assoc]⟩
    cases ret with
    | none =>
      have hbs : bs = [] := by simpa using hret
      exact ⟨(hnone hbs).ok, (hnone hbs).conserve⟩
    | some rc =>
      by_cases h1 : rc = 1
      · simp only [h1, ↓reduceIte]
        by_cases hnl : bs = [newline]
        · simp only [hnl, ↓reduceIte]
          exact ⟨hok', by rw [← hnl]; exact hsome.conserve⟩
        · simp only [hnl, ↓reduceIte]
          have ih := rioReadlinebLoop_ok left (n + 1) (usrbuf ++ bs) fd' hok'
          exact ⟨ih.ok, ih.conserve.trans hsome.conserve⟩
      · have hbs : bs = [] := by
          rcases hret with ⟨hbs, _⟩ | hret
          · exact hbs
          · simp only [Option.some.injEq] at hret
            exact List.length_eq_zero_iff.1 (by omega)
        simp only [h1, ↓reduceIte]
        split
        · split <;> exact ⟨(hnone hbs).ok, (hnone hbs).conserve⟩
        · exact ⟨(hnone hbs).ok, (hnone hbs).conserve⟩

theorem rioReadlineb_ok {rp : RioT} (hok : rp.Ok) (fd : Fd) (maxlen : Nat) :
    CallOk (rest rp fd) (rioReadlineb rp fd maxlen) :=
  rioReadlinebLoop_ok (maxlen - 1) 1 [] fd hok

/-- The line loop stores no more than it has iterations left. -/
theorem rioReadlinebLoop_length : ∀ (left : Nat) (n : Int) (usrbuf : Bytes) {rp : RioT} (fd : Fd), rp.Ok →
    (rioReadlinebLoop left n usrbuf rp fd).usrbuf.length ≤ usrbuf.length + left
  | 0, _, _, _, _, _ => Nat.le_refl _
  | left + 1, n, usrbuf, rp, fd, hok => by
    obtain ⟨⟨hok', -⟩, hlen, -⟩ := rioRead_ok hok fd 1
    simp only [rioReadlinebLoop]
    generalize rioRead rp fd 1 = c at hok' hlen
    obtain ⟨ret, bs, rp', fd'⟩ := c
    simp only at hok' hlen
    have hbs : (usrbuf ++ bs).length ≤ usrbuf.length + 1 := by
      rw [List.length_append]
      omega
    have hstop : usrbuf.length ≤ usrbuf.length + (left + 1) := Nat.le_add_right _ _
    cases ret with
    | none => exact hstop
    | some rc =>
      by_cases h1 : rc = 1
      · simp only [h1, ↓reduceIte]
        split
        · exact Nat.le_trans hbs (by omega)
        · have ih := rioReadlinebLoop_length left (n + 1) (usrbuf ++ bs) fd' hok'
          omega
      · simp only [h1, ↓reduceIte]
        split
        · split <;> exact hstop
        · exact hstop

/-- A line leaves room for its NUL. -/
theorem rioReadlineb_length {rp : RioT} (hok : rp.Ok) (fd : Fd) (maxlen : Nat) :
    (rioReadlineb rp fd maxlen).usrbuf.length ≤ maxlen - 1 := by
  have hlen := rioReadlinebLoop_length (maxlen - 1) 1 [] fd hok
  rwa [List.length_nil, Nat.zero_add] at hlen

/-- The block loop adds what it stores to what was stored before it. -/
theorem rioReadnbLoop_ok (n : Nat) : ∀ (rounds nleft : Nat) (usrbuf : Bytes) {rp : RioT} (fd : Fd), rp.Ok →
    CallOk (usrbuf ++ rest rp fd) (rioReadnbLoop n rounds nleft usrbuf rp fd)
  | 0, _, _, _, _, hok => ⟨hok, rfl⟩
  | rounds + 1, nleft, usrbuf, rp, fd, hok => by
    simp only [rioReadnbLoop]
    split
    · exact ⟨hok, rfl⟩
    · obtain ⟨⟨hok', hcons⟩, hlen, hret⟩ := rioRead_ok hok fd nleft
      generalize rioRead rp fd nleft = c at hok' hcons hlen hret
      obtain ⟨ret, bs, rp', fd'⟩ := c
      simp only at hok' hcons hlen hret
      cases ret with
      | none =>
        have hbs : bs = [] := by simpa using hret
        subst hbs
        exact ⟨hok', by rw [← hcons]; rfl⟩
      | some nread =>
        have hbs : nread ≤ 0 → bs = [] := by
          intro h0
          rcases hret with ⟨hbs, _⟩ | hret
          · exact hbs
          · simp only [Option.some.injEq] at hret
            exact List.length_eq_zero_iff.1 (by omega)
        simp only
        split
        · rw [hbs (by omega)] at hcons
          exact ⟨hok', by rw [← hcons]; rfl⟩
        · split
          · rw [hbs (by omega)] at hcons
            exact ⟨hok', by rw [← hcons]; rfl⟩
          · have ih := rioReadnbLoop_ok n rounds (nleft - nread.toNat) (usrbuf ++ bs) fd' hok'
            exact ⟨ih.ok, by rw [ih.conserve, ← hcons, List.append_assoc]⟩

theorem rioReadnb_ok {rp : RioT} (hok : rp.Ok) (fd : Fd) (n : Nat) :
    CallOk (rest rp fd) (rioReadnb rp fd n) :=
  rioReadnbLoop_ok n n n [] fd hok

/-- A block read that does not fail returns the number of bytes it stored. -/
theorem rioReadnbLoop_count (n : Nat) (rounds : Nat) : ∀ (nleft : Nat) (usrbuf : Bytes) {rp : RioT} (fd : Fd), rp.Ok →
    usrbuf.length + nleft = n → ∀ r, (rioReadnbLoop n rounds nleft usrbuf rp fd).ret = some r → 0 ≤ r →
    ((rioReadnbLoop n rounds nleft usrbuf rp fd).usrbuf.length : Int) = r := by
  induction rounds with
  | zero =>
    intro nleft usrbuf rp fd _ hn r hr _
    simp only [rioReadnbLoop, Option.some.injEq] at hr ⊢
    omega
  | succ rounds ih =>
    intro nleft usrbuf rp fd hok hn r
    simp only [rioReadnbLoop]
    by_cases hleft : nleft = 0
    · rw [if_pos hleft]
      intro hr _
      simp only [Option.some.injEq] at hr ⊢
      omega
    · rw [if_neg hleft]
      obtain ⟨⟨hok', -⟩, hlen, hret⟩ := rioRead_ok hok fd nleft
      generalize rioRead rp fd nleft = c at hok' hlen hret
      obtain ⟨ret, bs, rp', fd'⟩ := c
      simp only at hok' hlen hret
      cases ret with
      | none =>
        intro hr
        cases hr
      | some nread =>
        simp only
        split
        · intro hr hpos
          simp only [Option.some.injEq] at hr
          omega
        · split
          · intro hr _
            simp only [Option.some.injEq] at hr ⊢
            omega
          · rename_i hneg hzero
            have hbs : (bs.length : Int) = nread := by
              rcases hret with ⟨-, hret | hret⟩ | hret
              · cases hret
              · simp only [Option.some.injEq] at hret
                omega
              · simp only [Option.some.injEq] at hret
                exact hret.symm
            apply ih _ _ fd' hok'
            rw [List.length_append]
            omega

theorem rioReadnb_count {rp : RioT} (hok : rp.Ok) (fd : Fd) (n : Nat) {r : Int}
    (hr : (rioReadnb rp fd n).ret = some r) (hpos : 0 ≤ r) : ((rioReadnb rp fd n).usrbuf.length : Int) = r :=
  rioReadnbLoop_count n n n [] fd hok (by simp) r hr hpos

/-- A `rio_writen` that does not fail has written its whole buffer. -/
theorem rioWritenLoop_sent (n : Nat) : ∀ (sched : List WriteOutcome) (bufp sent : Bytes) {r : Int},
    (rioWritenLoop n sched bufp sent).ret = some r → 0 ≤ r → (rioWritenLoop n sched bufp sent).sent = sent ++ bufp := by
  intro sched
  induction sched with
  | nil =>
    intro bufp sent r hr _
    cases bufp with
    | nil => simp [rioWritenLoop]
    | cons b bufp => cases hr
  | cons o os ih =>
    intro bufp sent r hr hpos
    cases bufp with
    | nil => simp [rioWritenLoop]
    | cons b bufp =>
      cases o with
      | eintr => exact ih _ _ hr hpos
      | error =>
        simp only [rioWritenLoop, Option.some.injEq] at hr
        omega
      | count k =>
        simp only [rioWritenLoop] at hr ⊢
        by_cases hk : k = 0
        · simp only [if_pos hk, Option.some.injEq] at hr
          omega
        · rw [if_neg hk] at hr ⊢
          rw [ih _ _ hr hpos, List.append_assoc, List.take_append_drop]

/-! ## Any sequence of calls on one `rio_t` -/

/-- One call of a user of the package. -/
inductive Op
  | readlineb (maxlen : Nat) (pos : 1 ≤ maxlen) (fits : maxlen ≤ INT_MAX)
  | readnb (n : Nat) (fits : n < 2 ^ 64)

def Op.call (rp : RioT) (fd : Fd) : Op → Call
  | .readlineb maxlen _ _ => rioReadlineb rp fd maxlen
  | .readnb n _ => rioReadnb rp fd n

/-- Where a user of the package is: `stored` collects the bytes of all calls so far, whatever they
returned, and `blocked` says that the last one is still inside `read(2)`. -/
structure Session where
  rio     : RioT
  fd      : Fd
  stored  : Bytes
  blocked : Bool

/-- `rio_initb` on a `rio_t` with any content. -/
def Session.start (rp : RioT) (stream : Bytes) (sched : List ReadOutcome) : Session :=
  ⟨rioInitb rp, ⟨stream, sched⟩, [], false⟩

/-- Make the calls one after another, up to one that blocks. -/
def runOps : Session → List Op → Session
  | s, [] => s
  | s, op :: ops =>
    let c := op.call s.rio s.fd
    let s' : Session := ⟨c.rio, c.fd, s.stored ++ c.usrbuf, c.ret.isNone⟩
    if s'.blocked then s' else runOps s' ops

theorem Op.call_ok {rp : RioT} (hok : rp.Ok) (fd : Fd) : ∀ op : Op, CallOk (rest rp fd) (op.call rp fd)
  | .readlineb maxlen _ _ => rioReadlineb_ok hok fd maxlen
  | .readnb n _ => rioReadnb_ok hok fd n

theorem runOps_ok : ∀ (ops : List Op) (s : Session), s.rio.Ok →
    (runOps s ops).rio.Ok ∧
    (runOps s ops).stored ++ rest (runOps s ops).rio (runOps s ops).fd = s.stored ++ rest s.rio s.fd
  | [], _, hok => ⟨hok, rfl⟩
  | op :: ops, s, hok => by
    have hc := op.call_ok hok s.fd
    have hstep : s.stored ++ (op.call s.rio s.fd).usrbuf ++
        rest (op.call s.rio s.fd).rio (op.call s.rio s.fd).fd = s.stored ++ rest s.rio s.fd := by
      rw [List.append_assoc, hc.conserve]
    simp only [runOps]
    split
    · exact ⟨hc.ok, hstep⟩
    · obtain ⟨hok', hrun⟩ := runOps_ok ops ⟨_, _, _, _⟩ hc.ok
      exact ⟨hok', hrun.trans hstep⟩

/-- **Conservation over every interleaving of line and block reads.** At every point of every run,
the bytes stored so far, the unread window and the bytes still behind the descriptor are the
stream, in order; and the count and the window stay within their bounds. -/
theorem rio_conservation (rp : RioT) (stream : Bytes) (sched : List ReadOutcome) (ops : List Op) :
    let s := runOps (.start rp stream sched) ops
    s.stored ++ s.rio.window ++ s.fd.unread = stream ∧
    -1 ≤ s.rio.rioCnt ∧ s.rio.rioCnt ≤ RIO_BUFSIZE ∧
    s.rio.rioBufptr + s.rio.rioCnt.toNat ≤ s.rio.rioBuf.bytes.length := by
  intro s
  obtain ⟨hok, hcons⟩ := runOps_ok ops (.start rp stream sched) (rioInitb_ok rp)
  refine ⟨?_, hok.cnt_ge, hok.cnt_le, ?_⟩
  · rw [List.append_assoc]
    exact hcons.trans (by simp [Session.start, rest, rioInitb_window])
  · rw [s.rio.rioBuf.size]
    exact hok.inside

end ComputerSystem.Rio
