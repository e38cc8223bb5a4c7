import ComputerSystem.Rio.Segments
/-!
# Blocks of bytes through RIO

`rioReadnb_spec` says how `rio_readnb` ends, by the outcomes that it has used. `answers` counts those that
are not an interruption; each of them moved a byte, except the last one of a call of `rio_readnb`. So with
enough of them the call returns, and a schedule without an end has enough (`unbounded_countP`).
-/

namespace ComputerSystem.Rio

/-! ## `rio_read` -/

def ReadOutcome.answered : ReadOutcome → Bool
  | .eintr => false
  | _ => true

def answers (sched : List ReadOutcome) : Nat := sched.countP ReadOutcome.answered

theorem answers_append (a b : List ReadOutcome) : answers (a ++ b) = answers a + answers b := List.countP_append ..

theorem noReadFails_append {a b : List ReadOutcome} : NoReadFails (a ++ b) ↔ NoReadFails a ∧ NoReadFails b :=
  List.forall_mem_append

/-- The refill loop ends with the first answer. -/
theorem refill_used (sched : List ReadOutcome) : ∀ (rp : RioT) (unread : Bytes),
    let r := refill rp unread sched
    ∃ used, used ++ r.2.2.sched = sched ∧
      ((r.1 = .blocked ∧ r.2.2.sched = [] ∧ answers used = 0) ∨
        (answers used = 1 ∧ ((r.1 = .ret (-1) ∧ ¬ NoReadFails used) ∨
          (r.1 = .ret 0 ∧ (NoReadFails used → unread = [])) ∨ r.1 = .filled))) := by
  induction sched with
  | nil =>
    intro rp unread
    exact ⟨[], rfl, .inl ⟨rfl, rfl, rfl⟩⟩
  | cons o os ih =>
    intro rp unread
    cases o with
    | eintr =>
      -- the interrupted call is made again
      obtain ⟨used, hused, hcase⟩ := ih { rp with rioCnt := -1 } unread
      have hanswers : answers (.eintr :: used) = answers used := by simp [answers, ReadOutcome.answered]
      have hfails : NoReadFails (.eintr :: used) ↔ NoReadFails used := by
        simp [NoReadFails, ReadOutcome.bad]
      refine ⟨.eintr :: used, by rw [List.cons_append, refill, hused], ?_⟩
      rw [hanswers, hfails]
      exact hcase
    | error =>
      refine ⟨[.error], rfl, .inr ⟨rfl, .inl ⟨rfl, fun hno => ?_⟩⟩⟩
      cases hno _ (List.mem_singleton_self _)
    | count k =>
      simp only [refill]
      split
      · rename_i hbs
        refine ⟨[.count k], rfl, .inr ⟨rfl, .inr (.inl ⟨rfl, fun hno => ?_⟩)⟩⟩
        rcases List.take_eq_nil_iff.1 hbs with hk | hk
        · obtain rfl : k = 0 := by
            simp only [RIO_BUFSIZE] at hk
            omega
          cases hno _ (List.mem_singleton_self _)
        · exact hk
      · exact ⟨[.count k], rfl, .inr ⟨rfl, .inr (.inr rfl)⟩⟩

theorem rioRead_used {rp : RioT} (hok : rp.Ok) (fd : Fd) {n : Nat} (hn : 0 < n) :
    let c := rioRead rp fd n
    ∃ used, used ++ c.fd.sched = fd.sched ∧
      ((c.ret = none ∧ c.usrbuf = [] ∧ c.fd.sched = [] ∧ answers used = 0) ∨
        (answers used ≤ 1 ∧ ((c.ret = some (-1) ∧ c.usrbuf = [] ∧ ¬ NoReadFails used) ∨
          (c.ret = some 0 ∧ c.usrbuf = [] ∧ (NoReadFails used → rest rp fd = [])) ∨
          (c.ret = some (c.usrbuf.length : Int) ∧ c.usrbuf ≠ [])))) := by
  by_cases hcnt : rp.rioCnt ≤ 0
  · have hrest : rest rp fd = fd.unread := by simp [rest, window_of_cnt_le hcnt]
    obtain ⟨hok', -, hfill⟩ := refill_ok fd.sched rp fd.unread hok hcnt
    obtain ⟨used, hused, hcase⟩ := refill_used fd.sched rp fd.unread
    simp only [rioRead, hcnt, ↓reduceIte, hrest]
    generalize refill rp fd.unread fd.sched = r at hok' hfill hused hcase
    obtain ⟨how, rp', fd'⟩ := r
    simp only at hok' hfill hused hcase
    rcases hcase with ⟨rfl, hnil, hzero⟩ | ⟨hone, ⟨rfl, hbad⟩ | ⟨rfl, heof⟩ | rfl⟩
    · exact ⟨used, hused, .inl ⟨rfl, rfl, hnil, hzero⟩⟩
    · exact ⟨used, hused, .inr ⟨Nat.le_of_eq hone, .inl ⟨rfl, rfl, hbad⟩⟩⟩
    · exact ⟨used, hused, .inr ⟨Nat.le_of_eq hone, .inr (.inl ⟨rfl, rfl, heof⟩)⟩⟩
    · exact ⟨used, hused, .inr ⟨Nat.le_of_eq hone, .inr (.inr (copyOut_moves hok' (hfill rfl) fd' hn))⟩⟩
  · simp only [rioRead, hcnt, ↓reduceIte]
    exact ⟨[], rfl, .inr ⟨Nat.zero_le _, .inr (.inr (copyOut_moves hok (by omega) fd hn))⟩⟩

/-! ## `rio_readnb` -/

/-- How the block loop ends with `out` more bytes: it waits, or a `read(2)` failed, or it returns with all
that it was to read, or with all there is. -/
theorem rioReadnbLoop_spec (n rounds : Nat) : ∀ (nleft : Nat) (usrbuf : Bytes) {rp : RioT} (fd : Fd), rp.Ok →
    nleft ≤ rounds → usrbuf.length + nleft = n →
    let c := rioReadnbLoop n rounds nleft usrbuf rp fd
    ∃ out used, c.usrbuf = usrbuf ++ out ∧ out.length ≤ nleft ∧ used ++ c.fd.sched = fd.sched ∧
      ((c.ret = none ∧ c.fd.sched = [] ∧ answers used ≤ out.length) ∨
        (answers used ≤ out.length + 1 ∧ ((c.ret = some (-1) ∧ ¬ NoReadFails used) ∨
          (c.ret = some ((usrbuf ++ out).length : Int) ∧
            (NoReadFails used → out.length = nleft ∨ rest c.rio c.fd = []))))) := by
  -- all that was asked for is there
  have hfull : ∀ (usrbuf : Bytes) (rp : RioT) (fd : Fd), usrbuf.length = n →
      let c : Call := ⟨some ((n : Int) - ((0 : Nat) : Int)), usrbuf, rp, fd⟩
      ∃ out used, c.usrbuf = usrbuf ++ out ∧ out.length ≤ 0 ∧ used ++ c.fd.sched = fd.sched ∧
        ((c.ret = none ∧ c.fd.sched = [] ∧ answers used ≤ out.length) ∨
          (answers used ≤ out.length + 1 ∧ ((c.ret = some (-1) ∧ ¬ NoReadFails used) ∨
            (c.ret = some ((usrbuf ++ out).length : Int) ∧
              (NoReadFails used → out.length = 0 ∨ rest c.rio c.fd = []))))) := by
    intro usrbuf rp fd hn
    refine ⟨[], [], by simp, Nat.le_refl _, rfl, .inr ⟨Nat.zero_le _, .inr ⟨?_, fun _ => .inl rfl⟩⟩⟩
    simp [hn]
  induction rounds with
  | zero =>
    intro nleft usrbuf rp fd hok hle hn
    obtain rfl : nleft = 0 := by omega
    exact hfull usrbuf rp fd hn
  | succ rounds ih =>
    intro nleft usrbuf rp fd hok hle hn
    simp only [rioReadnbLoop]
    by_cases hzero : nleft = 0
    · subst hzero
      rw [if_pos rfl]
      exact hfull usrbuf rp fd hn
    · rw [if_neg hzero]
      obtain ⟨⟨hok', hcons⟩, hlen, -⟩ := rioRead_ok hok fd nleft
      obtain ⟨used, hused, hcase⟩ := rioRead_used hok fd (n := nleft) (by omega)
      generalize rioRead rp fd nleft = c at hok' hcons hlen hused hcase
      obtain ⟨ret, bs, rp', fd'⟩ := c
      simp only at hok' hcons hlen hused hcase
      rcases hcase with ⟨rfl, rfl, hnil, hanswers⟩ | ⟨hanswers, ⟨rfl, rfl, hbad⟩ | ⟨rfl, rfl, heof⟩ | ⟨rfl, hne⟩⟩
      · exact ⟨[], used, by simp, Nat.zero_le _, hused, .inl ⟨rfl, hnil, Nat.le_of_eq hanswers⟩⟩
      · exact ⟨[], used, by simp, Nat.zero_le _, hused, .inr ⟨hanswers, .inl ⟨rfl, hbad⟩⟩⟩
      · refine ⟨[], used, by simp, Nat.zero_le _, hused, .inr ⟨hanswers, .inr ⟨?_, fun hno => .inr ?_⟩⟩⟩
        · simp only [Int.lt_irrefl, if_false, if_true, List.append_nil, Option.some.injEq]
          omega
        · rw [List.nil_append] at hcons
          exact hcons.trans (heof hno)
      · have hpos := List.length_pos_iff.2 hne
        simp only
        rw [if_neg (by omega), if_neg (by omega), Int.toNat_natCast]
        obtain ⟨out, used', hbuf, hout, hused', hcase⟩ := ih (nleft - bs.length) (usrbuf ++ bs) fd' hok' (by omega)
          (by rw [List.length_append]; omega)
        rw [List.append_assoc] at hbuf hcase
        refine ⟨bs ++ out, used ++ used', hbuf, ?_, by rw [List.append_assoc, hused', hused], ?_⟩
        · rw [List.length_append]
          omega
        · rw [answers_append, noReadFails_append]
          have hadd : (bs ++ out).length = bs.length + out.length := List.length_append
          rcases hcase with ⟨hret, hnil, hle'⟩ | ⟨hle', ⟨hret, hbad⟩ | ⟨hret, hend⟩⟩
          · exact .inl ⟨hret, hnil, by omega⟩
          · exact .inr ⟨by omega, .inl ⟨hret, fun hno => hbad hno.2⟩⟩
          · refine .inr ⟨by omega, .inr ⟨hret, fun hno => (hend hno.2).imp_left fun h => ?_⟩⟩
            omega

/-- **The three ways `rio_readnb` ends.** -/
theorem rioReadnb_spec {rp : RioT} (hok : rp.Ok) (fd : Fd) (n : Nat) :
    let c := rioReadnb rp fd n
    ∃ used, c.usrbuf.length ≤ n ∧ used ++ c.fd.sched = fd.sched ∧
      ((c.ret = none ∧ c.fd.sched = [] ∧ answers used ≤ c.usrbuf.length) ∨
        (answers used ≤ c.usrbuf.length + 1 ∧ ((c.ret = some (-1) ∧ ¬ NoReadFails used) ∨
          (c.ret = some (c.usrbuf.length : Int) ∧
            (NoReadFails used → c.usrbuf.length = n ∨ rest c.rio c.fd = []))))) := by
  obtain ⟨out, used, hbuf, hout, hused, hcase⟩ := rioReadnbLoop_spec n n n [] fd hok (Nat.le_refl n) (by simp)
  rw [List.nil_append] at hbuf hcase
  subst hbuf
  exact ⟨used, hout, hused, hcase⟩

end ComputerSystem.Rio
