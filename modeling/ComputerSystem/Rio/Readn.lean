import ComputerSystem.Rio.Blocks
import ComputerSystem.Rio.Stream
/-!
# Block reads with and without a buffer

`rio_readn` (`Chapter10/rio/rio.c:9`) takes its bytes from `read(2)`, `rio_readnb` (`:123`) from the window
of a `rio_t`. `Reader` is what a sequence of block reads needs to know of either: `Reader.Sound` is the
contract of one call, and `run_spec` says of any reader that keeps it what a sequence of calls returns.
`unbuffered_sound` and `buffered_sound` are the two readers of RIO.
-/

namespace ComputerSystem.Rio

/-! ## `rio_readn` -/

/-- What a `rio_readn` has done so far, as for `Call`. -/
structure DirectCall where
  ret    : Option Int
  usrbuf : Bytes
  fd     : Fd
deriving DecidableEq, Repr

/-- The loop of `rio_readn` (`:14-25`) with `nleft` bytes to go. -/
def rioReadnLoop (n : Nat) : List ReadOutcome → Nat → Bytes → Bytes → DirectCall
  | [], nleft, usrbuf, unread => ⟨if nleft = 0 then some (n - nleft) else none, usrbuf, ⟨unread, []⟩⟩
  | o :: os, nleft, usrbuf, unread =>
    if nleft = 0 then ⟨some (n - nleft), usrbuf, ⟨unread, o :: os⟩⟩
    else match o with
    | .eintr => rioReadnLoop n os nleft usrbuf unread
    | .error => ⟨some (-1), usrbuf, ⟨unread, os⟩⟩
    | .count k =>
      let bs := unread.take (min k nleft)
      if bs = [] then ⟨some (n - nleft), usrbuf, ⟨unread, os⟩⟩
      else rioReadnLoop n os (nleft - bs.length) (usrbuf ++ bs) (unread.drop (min k nleft))

/-- `rio_readn` (`:9`). -/
def rioReadn (fd : Fd) (n : Nat) : DirectCall := rioReadnLoop n fd.sched n [] fd.unread

/-! ## One call -/

/-- How a call for `n` bytes ends that has stored `usrbuf` and used the outcomes `used`, with `left` still to
come: it waits, or a `read(2)` failed, or it returns with all that it was to read, or with all there is. -/
def BlockEnd (n : Nat) (ret : Option Int) (usrbuf left : Bytes) (used sched' : List ReadOutcome) : Prop :=
  (ret = none ∧ sched' = [] ∧ answers used ≤ usrbuf.length) ∨
    (answers used ≤ usrbuf.length + 1 ∧ ((ret = some (-1) ∧ ¬ NoReadFails used) ∨
      (ret = some (usrbuf.length : Int) ∧ (NoReadFails used → usrbuf.length = n ∨ left = []))))

theorem rioReadnLoop_spec (n : Nat) (sched : List ReadOutcome) : ∀ (nleft : Nat) (usrbuf unread : Bytes),
    usrbuf.length + nleft = n →
    let c := rioReadnLoop n sched nleft usrbuf unread
    ∃ out used, c.usrbuf = usrbuf ++ out ∧ out ++ c.fd.unread = unread ∧ out.length ≤ nleft ∧
      used ++ c.fd.sched = sched ∧
      ((c.ret = none ∧ c.fd.sched = [] ∧ answers used ≤ out.length) ∨
        (answers used ≤ out.length + 1 ∧ ((c.ret = some (-1) ∧ ¬ NoReadFails used) ∨
          (c.ret = some ((usrbuf ++ out).length : Int) ∧
            (NoReadFails used → out.length = nleft ∨ c.fd.unread = []))))) := by
  induction sched with
  | nil =>
    intro nleft usrbuf unread hn
    refine ⟨[], [], by simp [rioReadnLoop], rfl, Nat.zero_le _, rfl, ?_⟩
    by_cases hzero : nleft = 0
    · refine .inr ⟨Nat.zero_le _, .inr ⟨?_, fun _ => .inl hzero.symm⟩⟩
      rw [rioReadnLoop, if_pos hzero, List.append_nil, Option.some.injEq]
      omega
    · exact .inl ⟨if_neg hzero, rfl, Nat.le_refl _⟩
  | cons o os ih =>
    intro nleft usrbuf unread hn
    simp only [rioReadnLoop]
    by_cases hzero : nleft = 0
    · rw [if_pos hzero]
      refine ⟨[], [], by simp, rfl, Nat.zero_le _, rfl, .inr ⟨Nat.zero_le _, .inr ⟨?_, fun _ => .inl hzero.symm⟩⟩⟩
      rw [List.append_nil, Option.some.injEq]
      omega
    · rw [if_neg hzero]
      cases o with
      | eintr =>
        -- the interrupted call is made again
        obtain ⟨out, used, hbuf, hcons, hout, hused, hcase⟩ := ih nleft usrbuf unread hn
        have hanswers : answers (.eintr :: used) = answers used := by simp [answers, ReadOutcome.answered]
        have hfails : NoReadFails (.eintr :: used) ↔ NoReadFails used := by
          simp [NoReadFails, ReadOutcome.bad]
        refine ⟨out, .eintr :: used, hbuf, hcons, hout, by rw [List.cons_append, hused], ?_⟩
        rw [hanswers, hfails]
        exact hcase
      | error =>
        refine ⟨[], [.error], by simp, rfl, Nat.zero_le _, rfl, .inr ⟨Nat.le_refl _, .inl ⟨rfl, fun hno => ?_⟩⟩⟩
        cases hno _ (List.mem_singleton_self _)
      | count k =>
        have hone : answers [.count k] = 1 := rfl
        by_cases hbs : unread.take (min k nleft) = []
        · simp only [hbs, if_true]
          refine ⟨[], [.count k], by simp, rfl, Nat.zero_le _, rfl, .inr ⟨Nat.le_of_eq hone, .inr ⟨?_, fun hno => .inr ?_⟩⟩⟩
          · rw [List.append_nil, Option.some.injEq]
            omega
          · -- nothing was read because nothing is there
            rcases List.take_eq_nil_iff.1 hbs with hk | hk
            · obtain rfl : k = 0 := by omega
              cases hno _ (List.mem_singleton_self _)
            · exact hk
        · simp only [if_neg hbs]
          have hpos := List.length_pos_iff.2 hbs
          have hle : (unread.take (min k nleft)).length ≤ nleft := by
            rw [List.length_take]
            omega
          have hsplit := List.take_append_drop (min k nleft) unread
          generalize unread.take (min k nleft) = bs at hpos hle hsplit
          generalize unread.drop (min k nleft) = later at hsplit
          obtain ⟨out, used, hbuf, hcons, hout, hused, hcase⟩ := ih (nleft - bs.length) (usrbuf ++ bs) later
            (by rw [List.length_append]; omega)
          have hadd : (bs ++ out).length = bs.length + out.length := List.length_append
          have hanswers : answers (.count k :: used) = answers used + 1 := by
            rw [← List.singleton_append, answers_append, hone, Nat.add_comm]
          rw [List.append_assoc] at hbuf hcase
          refine ⟨bs ++ out, .count k :: used, hbuf, by rw [List.append_assoc, hcons, hsplit], by omega,
            by rw [List.cons_append, hused], ?_⟩
          rw [hanswers, ← List.singleton_append, noReadFails_append]
          rcases hcase with ⟨hret, hnil, hfew⟩ | ⟨hfew, ⟨hret, hbad⟩ | ⟨hret, hend⟩⟩
          · exact .inl ⟨hret, hnil, by omega⟩
          · exact .inr ⟨by omega, .inl ⟨hret, fun hno => hbad hno.2⟩⟩
          · refine .inr ⟨by omega, .inr ⟨hret, fun hno => (hend hno.2).imp_left fun h => ?_⟩⟩
            omega

/-- **The three ways `rio_readn` ends.** -/
theorem rioReadn_spec (fd : Fd) (n : Nat) :
    let c := rioReadn fd n
    c.usrbuf ++ c.fd.unread = fd.unread ∧ c.usrbuf.length ≤ n ∧
      ∃ used, used ++ c.fd.sched = fd.sched ∧ BlockEnd n c.ret c.usrbuf c.fd.unread used c.fd.sched := by
  obtain ⟨out, used, hbuf, hcons, hout, hused, hcase⟩ := rioReadnLoop_spec n fd.sched n [] fd.unread (by simp)
  rw [List.nil_append] at hbuf hcase
  subst hbuf
  exact ⟨hcons, hout, used, hused, hcase⟩

/-! ## A sequence of calls -/

/-- What a call returned, and the bytes it stored. -/
structure Block where
  ret    : Int
  usrbuf : Bytes
deriving DecidableEq, Repr

/-- A call for a number of bytes, the bytes still to come, and the outcomes not used yet. -/
structure Reader (σ : Type) where
  call  : σ → Nat → Option Int × Bytes × σ
  avail : σ → Bytes
  sched : σ → List ReadOutcome

/-- The contract of one call. -/
def Reader.Sound {σ : Type} (r : Reader σ) (ok : σ → Prop) : Prop :=
  ∀ s n, ok s → let c := r.call s n
    ok c.2.2 ∧ c.2.1 ++ r.avail c.2.2 = r.avail s ∧ c.2.1.length ≤ n ∧
      ∃ used, used ++ r.sched c.2.2 = r.sched s ∧ BlockEnd n c.1 c.2.1 (r.avail c.2.2) used (r.sched c.2.2)

/-- The calls for these numbers of bytes, one after another; `none` while one of them waits. -/
def Reader.run {σ : Type} (r : Reader σ) : List Nat → σ → Option (List Block × σ)
  | [], s => some ([], s)
  | n :: ns, s => match r.call s n with
    | (none, _, _) => none
    | (some ret, usrbuf, s) => (r.run ns s).map fun q => (⟨ret, usrbuf⟩ :: q.1, q.2)

/-- What they are to return of a stream: as much as is asked for, and as is there. -/
def blocks : List Nat → Bytes → List Block
  | [], _ => []
  | n :: ns, stream => ⟨(min n stream.length : Nat), stream.take n⟩ :: blocks ns (stream.drop n)

section
variable {σ : Type} {r : Reader σ} {ok : σ → Prop}

/-- **One call** that has enough outcomes left returns what is there. -/
theorem Reader.Sound.call (hr : r.Sound ok) {s : σ} (hok : ok s) (hno : NoReadFails (r.sched s)) {n : Nat}
    (henough : (r.avail s).length < answers (r.sched s)) :
    ∃ s', r.call s n = (some ((min n (r.avail s).length : Nat) : Int), (r.avail s).take n, s') ∧ ok s' ∧
      r.avail s' = (r.avail s).drop n ∧ NoReadFails (r.sched s') ∧
      answers (r.sched s) + (r.avail s').length ≤ answers (r.sched s') + (r.avail s).length + 1 := by
  obtain ⟨hok', hcons, hfew, used, hused, hend⟩ := hr s n hok
  generalize r.call s n = c at hok' hcons hfew hused hend
  obtain ⟨ret, usrbuf, s'⟩ := c
  simp only at hok' hcons hfew hused hend
  rw [← hused, noReadFails_append] at hno
  rw [← hused, answers_append] at henough ⊢
  have hlen := congrArg List.length hcons
  rw [List.length_append] at hlen
  rcases hend with ⟨-, hnil, hwait⟩ | ⟨hanswers, ⟨-, hbad⟩ | ⟨rfl, hfull⟩⟩
  · rw [hnil] at henough
    simp only [answers, List.countP_nil] at henough hwait
    omega
  · exact absurd hno.1 hbad
  · -- it has all that it was to read, or all there is
    have hcut : usrbuf = (r.avail s).take n ∧ r.avail s' = (r.avail s).drop n := by
      rw [← hcons]
      rcases hfull hno.1 with rfl | hleft
      · exact ⟨List.take_left.symm, List.drop_left.symm⟩
      · rw [hleft, List.append_nil]
        exact ⟨(List.take_of_length_le hfew).symm, (List.drop_eq_nil_of_le hfew).symm⟩
    have hcount : usrbuf.length = min n (r.avail s).length := by
      rw [hcut.1, List.length_take]
    exact ⟨s', by rw [hcount, hcut.1], hok', hcut.2, hno.2, by omega⟩

/-- **A sequence of calls** returns the blocks of the stream, and leaves what comes behind them. -/
theorem Reader.Sound.run (hr : r.Sound ok) (ns : List Nat) : ∀ {s : σ}, ok s → NoReadFails (r.sched s) →
    (r.avail s).length + ns.length ≤ answers (r.sched s) →
    ∃ s', r.run ns s = some (blocks ns (r.avail s), s') ∧ ok s' ∧ r.avail s' = (r.avail s).drop ns.sum := by
  induction ns with
  | nil =>
    intro s hok _ _
    exact ⟨s, rfl, hok, rfl⟩
  | cons n ns ih =>
    intro s hok hno henough
    rw [List.length_cons] at henough
    obtain ⟨s₁, hcall, hok₁, havail₁, hno₁, hanswers⟩ := hr.call hok hno (n := n) (by omega)
    obtain ⟨s', hrun, hok', havail'⟩ := ih hok₁ hno₁ (by omega)
    refine ⟨s', ?_, hok', ?_⟩
    · rw [havail₁] at hrun
      simp only [Reader.run, hcall, hrun, Option.map_some]
      rfl
    · rw [havail', havail₁, List.drop_drop, List.sum_cons]

end

/-! ## The two readers -/

def unbuffered : Reader Fd where
  call fd n := let c := rioReadn fd n; (c.ret, c.usrbuf, c.fd)
  avail fd := fd.unread
  sched fd := fd.sched

def buffered : Reader (RioT × Fd) where
  call s n := let c := rioReadnb s.1 s.2 n; (c.ret, c.usrbuf, c.rio, c.fd)
  avail s := rest s.1 s.2
  sched s := s.2.sched

theorem unbuffered_sound : unbuffered.Sound fun _ => True :=
  fun fd n _ => ⟨trivial, rioReadn_spec fd n⟩

theorem buffered_sound : buffered.Sound fun s => s.1.Ok := by
  rintro ⟨rp, fd⟩ n hok
  obtain ⟨hok', hcons⟩ := rioReadnb_ok hok fd n
  obtain ⟨used, hfew, hused, hend⟩ := rioReadnb_spec hok fd n
  exact ⟨hok', hcons, hfew, used, hused, hend⟩

/-- The calls of `read(2)` that are not interrupted come again and again. -/
theorem Closes.answered {sched : Nat → ReadOutcome} (h : Closes sched) (n : Nat) :
    ∃ enough, ∀ k ≥ enough, n ≤ answers (upTo sched k) := by
  apply unbounded_countP
  intro i
  obtain ⟨j, hj, hret⟩ := h.returns i
  refine ⟨j, hj, ?_⟩
  cases hs : sched j with
  | count k => rfl
  | eintr =>
    rw [hs] at hret
    cases hret
  | error => rfl

/-- **Both readers return the same blocks**, whichever way `read(2)` cuts the stream up for each of them:
`min(n, bytes left)` bytes at every call, with the rest of the stream still to come. -/
theorem block_reads_agree (stream : Bytes) (sizes : List Nat) (rp : RioT) (sched₁ sched₂ : Nat → ReadOutcome)
    (h₁ : Closes sched₁) (h₂ : Closes sched₂) :
    ∃ enough, ∀ k ≥ enough, ∃ fd₁ rp₂ fd₂,
      unbuffered.run sizes ⟨stream, upTo sched₁ k⟩ = some (blocks sizes stream, fd₁) ∧
      buffered.run sizes (rioInitb rp, ⟨stream, upTo sched₂ k⟩) = some (blocks sizes stream, rp₂, fd₂) ∧
      fd₁.unread = stream.drop sizes.sum ∧ rp₂.window ++ fd₂.unread = stream.drop sizes.sum := by
  have hrest : ∀ sched, rest (rioInitb rp) ⟨stream, sched⟩ = stream := by
    intro sched
    rw [rest, rioInitb_window]
    rfl
  obtain ⟨k₁, hk₁⟩ := h₁.answered (stream.length + sizes.length)
  obtain ⟨k₂, hk₂⟩ := h₂.answered (stream.length + sizes.length)
  refine ⟨max k₁ k₂, fun k hk => ?_⟩
  obtain ⟨fd₁, hrun₁, -, hleft₁⟩ := unbuffered_sound.run sizes (s := ⟨stream, upTo sched₁ k⟩) trivial (h₁.noReadFails k)
    (hk₁ k (by omega))
  obtain ⟨⟨rp₂, fd₂⟩, hrun₂, -, hleft₂⟩ := buffered_sound.run sizes (s := (rioInitb rp, ⟨stream, upTo sched₂ k⟩))
    (rioInitb_ok rp) (h₂.noReadFails k) (by
      show (rest _ _).length + _ ≤ _
      rw [hrest]
      exact hk₂ k (by omega))
  have havail : buffered.avail (rioInitb rp, ⟨stream, upTo sched₂ k⟩) = stream := hrest _
  rw [havail] at hrun₂ hleft₂
  exact ⟨fd₁, rp₂, fd₂, hrun₁, hrun₂, hleft₁, hleft₂⟩

/-- Five bytes in blocks of 0, 2 and 9, one schedule byte by byte and one with interruptions. -/
theorem block_reads_agree_five : ∃ k fd₁ rp₂ fd₂,
    unbuffered.run [0, 2, 9] ⟨ascii "abcde", upTo (fun _ => .count 1) k⟩ =
      some ([⟨0, []⟩, ⟨2, ascii "ab"⟩, ⟨3, ascii "cde"⟩], fd₁) ∧
    buffered.run [0, 2, 9] (rioInitb zeroRio, ⟨ascii "abcde", upTo interrupted k⟩) =
      some ([⟨0, []⟩, ⟨2, ascii "ab"⟩, ⟨3, ascii "cde"⟩], rp₂, fd₂) ∧ fd₁.unread = [] := by
  obtain ⟨enough, hk⟩ := block_reads_agree (ascii "abcde") [0, 2, 9] zeroRio (fun _ => .count 1) interrupted
    ⟨fun _ => rfl, fun i => ⟨i, Nat.le_refl i, rfl⟩⟩ interrupted_closes
  obtain ⟨fd₁, rp₂, fd₂, hrun₁, hrun₂, hleft, -⟩ := hk enough (Nat.le_refl _)
  exact ⟨enough, fd₁, rp₂, fd₂, hrun₁, hrun₂, hleft⟩

end ComputerSystem.Rio
