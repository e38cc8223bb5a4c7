import ComputerSystem.Rio.Blocks
import ComputerSystem.Tiny.Put
/-!
# A PUT upload takes the body and nothing else (`Chapter11/tiny_web/tiny.c:312-321`)

The body is the first `content_length` bytes that the `rio_t` and the connection have still to deliver.
`round_cases` says what one round of the loop of `serve_put` can do when no `write(2)` to the file fails,
`transferLoop_streamed` what any number of rounds can, and `transferLoop_returns` that the loop ends: a
round that goes on has moved a byte, and has used up at most two calls of `read(2)` for each.

| here         | there                                                                       |
|--------------|-----------------------------------------------------------------------------|
| `want`       | the size that `rio_readnb` is asked for (`:315`)                              |
| `fileSoFar`  | the file at the moment when the schedules end, also inside of a system call   |
| `putStart`   | the loop before its first round                                              |
-/

namespace ComputerSystem.Tiny

open Rio

def want (t : Transfer) : Nat := if t.remaining < MAXBUF then t.remaining.toNat else MAXBUF

/-- The loop as in `transferLoop`; where that one is blocked, what is in the file by then. -/
def fileSoFar : Nat → Transfer → Bytes
  | 0, t => t.file
  | rounds + 1, t =>
    if t.remaining > 0 then
      match rioReadnb t.rio t.fd (want t) with
      | ⟨none, _, _, _⟩ => t.file
      | ⟨some n, buf, rp, fd⟩ =>
        if n ≤ 0 then t.file
        else
          let w := rioWriten t.writes (buf.take n.toNat)
          match w.ret with
          | none => t.file ++ w.sent
          | some _ => fileSoFar rounds ⟨t.remaining - n, t.file ++ w.sent, rp, fd, w.sched⟩
    else t.file

theorem want_le (t : Transfer) : want t ≤ t.remaining.toNat := by
  unfold want MAXBUF
  split <;> omega

theorem want_pos {t : Transfer} (h : t.remaining > 0) : 0 < want t := by
  unfold want MAXBUF
  split <;> omega

/-! ## One round -/

/-- The loop ends because `rio_readnb` returned no more; `lost` was read before a `read(2)` failed. -/
structure Ended (t : Transfer) (lost : Bytes) (used : List ReadOutcome) (t' : Transfer) : Prop where
  remaining : t'.remaining = t.remaining
  file      : t'.file = t.file
  conserve  : lost ++ rest t'.rio t'.fd = rest t.rio t.fd
  few       : lost.length ≤ t.remaining.toNat
  sched     : used ++ t'.fd.sched = t.fd.sched
  clean     : NoReadFails used → rest t.rio t.fd = []

/-- `buf` was read and written. -/
structure Moved (t : Transfer) (buf : Bytes) (used : List ReadOutcome) (t' : Transfer) : Prop where
  ok        : t'.rio.Ok
  noFails   : NoWriteFails t'.writes
  pos       : 0 < buf.length
  le        : buf.length ≤ t.remaining.toNat
  remaining : t'.remaining = t.remaining - buf.length
  file      : t'.file = t.file ++ buf
  conserve  : buf ++ rest t'.rio t'.fd = rest t.rio t.fd
  sched     : used ++ t'.fd.sched = t.fd.sched
  answered  : answers used ≤ 2 * buf.length
  written   : writes t.writes ≤ writes t'.writes + buf.length

/-- **One round**: it waits, in `rio_readnb` or with `out` written, or it ends the loop, or it goes on. -/
theorem round_cases {t : Transfer} (hok : t.rio.Ok) (hno : NoWriteFails t.writes) (hpos : t.remaining > 0) :
    (∃ out, out <+: (rest t.rio t.fd).take t.remaining.toNat ∧
      (answers t.fd.sched ≤ t.remaining.toNat ∨ writes t.writes < t.remaining.toNat) ∧
      ∀ rounds, transferLoop (rounds + 1) t = none ∧ fileSoFar (rounds + 1) t = t.file ++ out) ∨
    (∃ lost used t', Ended t lost used t' ∧
      ∀ rounds, transferLoop (rounds + 1) t = some t' ∧ fileSoFar (rounds + 1) t = t.file) ∨
    (∃ buf used t', Moved t buf used t' ∧
      ∀ rounds, transferLoop (rounds + 1) t = transferLoop rounds t' ∧
        fileSoFar (rounds + 1) t = fileSoFar rounds t') := by
  have hwant := want_le t
  have hwant' := want_pos hpos
  obtain ⟨hok', hcons⟩ := rioReadnb_ok hok t.fd (want t)
  obtain ⟨used, hlen, hused, hcase⟩ := rioReadnb_spec hok t.fd (want t)
  have hsize : (if t.remaining < (MAXBUF : Int) then t.remaining.toNat else MAXBUF) = want t := rfl
  simp only [transferLoop, fileSoFar, if_pos hpos, hsize]
  generalize rioReadnb t.rio t.fd (want t) = c at hok' hcons hlen hused hcase
  obtain ⟨ret, buf, rp, fd⟩ := c
  simp only at hok' hcons hlen hused hcase
  rcases hcase with ⟨rfl, hnil, hanswers⟩ | ⟨hanswers, ⟨rfl, hbad⟩ | ⟨rfl, hend⟩⟩
  · -- in `rio_readnb`
    rw [hnil, List.append_nil] at hused
    rw [hused] at hanswers
    exact .inl ⟨[], List.nil_prefix, .inl (by omega), fun rounds => ⟨rfl, (List.append_nil _).symm⟩⟩
  · -- a `read(2)` failed
    exact .inr (.inl ⟨buf, used, { t with rio := rp, fd := fd },
      ⟨rfl, rfl, hcons, by omega, hused, fun hno => absurd hno hbad⟩, fun rounds => ⟨rfl, rfl⟩⟩)
  · by_cases hnil : buf = []
    · -- the end of file
      subst hnil
      refine .inr (.inl ⟨[], used, { t with rio := rp, fd := fd },
        ⟨rfl, rfl, hcons, Nat.zero_le _, hused, fun hno => ?_⟩, fun rounds => ⟨rfl, rfl⟩⟩)
      rcases hend hno with hzero | hrest
      · rw [List.length_nil] at hzero
        omega
      · rw [← hcons, hrest]
        rfl
    · have hbuf := List.length_pos_iff.2 hnil
      have htake : buf.take ((buf.length : Int)).toNat = buf := by
        rw [Int.toNat_natCast, List.take_length]
      simp only [htake]
      obtain ⟨made, hmade, hpre, hwrite⟩ := rioWriten_spec t.writes buf
      rcases hwrite with ⟨hret, hsent, -, hwrites⟩ | ⟨-, -, hbad⟩ | ⟨hret, hlt, -, hwrites⟩
      · -- all of it is in the file
        refine .inr (.inr ⟨buf, used, ⟨t.remaining - buf.length, t.file ++ buf, rp, fd, (rioWriten t.writes buf).sched⟩,
          ⟨hok', ?_, hbuf, by omega, rfl, rfl, hcons, hused, by omega, hwrites⟩, fun rounds => ?_⟩)
        · rw [← hmade] at hno
          exact (noWriteFails_append.1 hno).2
        · simp only [hret, hsent]
          rw [if_neg (by omega), if_neg (by omega)]
          exact ⟨rfl, rfl⟩
      · rw [← hmade] at hno
        exact absurd (noWriteFails_append.1 hno).1 hbad
      · -- in `rio_writen`
        refine .inl ⟨(rioWriten t.writes buf).sent, ?_, .inr (by omega), fun rounds => ?_⟩
        · apply List.prefix_take_iff.2
          refine ⟨?_, by omega⟩
          rw [← hcons]
          exact hpre.trans (List.prefix_append _ _)
        · simp only [hret]
          rw [if_neg (by omega), if_neg (by omega)]
          exact ⟨rfl, rfl⟩

/-! ## Any number of rounds -/

/-- `body` was moved from the connection to the file, and then `lost` was read but not written. -/
structure Streamed (t : Transfer) (body lost : Bytes) (used : List ReadOutcome) (t' : Transfer) : Prop where
  remaining : t'.remaining = t.remaining - body.length
  file      : t'.file = t.file ++ body
  conserve  : body ++ (lost ++ rest t'.rio t'.fd) = rest t.rio t.fd
  few       : body.length + lost.length ≤ t.remaining.toNat
  sched     : used ++ t'.fd.sched = t.fd.sched

theorem Streamed.refl (t : Transfer) : Streamed t [] [] [] t :=
  ⟨by simp, by simp, rfl, Nat.zero_le _, rfl⟩

theorem Ended.streamed {t t' : Transfer} {lost : Bytes} {used : List ReadOutcome} (h : Ended t lost used t') :
    Streamed t [] lost used t' :=
  ⟨by simp [h.remaining], by simp [h.file], h.conserve, by simpa using h.few, h.sched⟩

theorem Moved.streamed {t t₁ t' : Transfer} {buf body lost : Bytes} {used used' : List ReadOutcome}
    (h : Moved t buf used t₁) (h' : Streamed t₁ body lost used' t') : Streamed t (buf ++ body) lost (used ++ used') t' := by
  have hle := h.le
  have hfew := h'.few
  have hrem := h'.remaining
  rw [h.remaining] at hfew hrem
  refine ⟨?_, ?_, ?_, ?_, ?_⟩
  · rw [hrem, List.length_append]
    omega
  · rw [h'.file, h.file, List.append_assoc]
  · rw [List.append_assoc, h'.conserve, h.conserve]
  · rw [List.length_append]
    omega
  · rw [List.append_assoc, h'.sched, h.sched]

/-- **The loop**, for at most so many rounds. -/
theorem transferLoop_streamed : ∀ (rounds : Nat) {t t' : Transfer}, t.rio.Ok → NoWriteFails t.writes → 0 ≤ t.remaining →
    transferLoop rounds t = some t' → ∃ body lost used, Streamed t body lost used t' ∧
      (t.remaining.toNat ≤ rounds → NoReadFails used → lost = [] ∧ (t'.remaining = 0 ∨ rest t'.rio t'.fd = [])) := by
  intro rounds
  induction rounds with
  | zero =>
    intro t t' _ _ hrem h
    cases h
    exact ⟨[], [], [], .refl t, fun hle _ => ⟨rfl, .inl (by omega)⟩⟩
  | succ rounds ih =>
    intro t t' hok hno hrem h
    by_cases hpos : t.remaining > 0
    · rcases round_cases hok hno hpos with ⟨out, -, -, hloop⟩ | ⟨lost, used, t₁, hend, hloop⟩ | ⟨buf, used, t₁, hmoved, hloop⟩
      · rw [(hloop rounds).1] at h
        cases h
      · rw [(hloop rounds).1] at h
        cases h
        refine ⟨[], lost, used, hend.streamed, fun _ hclean => ?_⟩
        have hcons := hend.conserve
        rw [hend.clean hclean] at hcons
        obtain ⟨hlost, hrest⟩ := List.append_eq_nil_iff.1 hcons
        exact ⟨hlost, .inr hrest⟩
      · rw [(hloop rounds).1] at h
        have hle := hmoved.le
        have hbuf := hmoved.pos
        have hnext := hmoved.remaining
        obtain ⟨body, lost, used', hstreamed, hclean⟩ := ih hmoved.ok hmoved.noFails (by omega) h
        refine ⟨buf ++ body, lost, used ++ used', hmoved.streamed hstreamed, fun hrounds hno' => ?_⟩
        exact hclean (by omega) (noReadFails_append.1 hno').2
    · rw [transferLoop, if_neg hpos] at h
      cases h
      exact ⟨[], [], [], .refl t, fun _ _ => ⟨rfl, .inl (by omega)⟩⟩

/-- **At any moment** the file has the first part of the body. -/
theorem fileSoFar_prefix : ∀ (rounds : Nat) {t : Transfer}, t.rio.Ok → NoWriteFails t.writes →
    ∃ out, fileSoFar rounds t = t.file ++ out ∧ out <+: (rest t.rio t.fd).take t.remaining.toNat := by
  intro rounds
  induction rounds with
  | zero =>
    intro t _ _
    exact ⟨[], (List.append_nil _).symm, List.nil_prefix⟩
  | succ rounds ih =>
    intro t hok hno
    by_cases hpos : t.remaining > 0
    · rcases round_cases hok hno hpos with ⟨out, hpre, -, hloop⟩ | ⟨lost, used, t₁, -, hloop⟩ | ⟨buf, used, t₁, hmoved, hloop⟩
      · exact ⟨out, (hloop rounds).2, hpre⟩
      · exact ⟨[], (hloop rounds).2.trans (List.append_nil _).symm, List.nil_prefix⟩
      · obtain ⟨out, hfile, hpre⟩ := ih hmoved.ok hmoved.noFails
        refine ⟨buf ++ out, ?_, ?_⟩
        · rw [(hloop rounds).2, hfile, hmoved.file, List.append_assoc]
        · have hle := hmoved.le
          have hleft : t₁.remaining.toNat = t.remaining.toNat - buf.length := by
            have hnext := hmoved.remaining
            omega
          rw [hleft] at hpre
          rw [← hmoved.conserve, List.take_append, List.take_of_length_le hle]
          exact (List.prefix_append_right_inj buf).2 hpre
    · rw [fileSoFar, if_neg hpos]
      exact ⟨[], (List.append_nil _).symm, List.nil_prefix⟩

/-- A loop that has ended is not entered again. -/
theorem transferLoop_done {t : Transfer} (h : ¬ t.remaining > 0) (rounds : Nat) : transferLoop rounds t = some t := by
  cases rounds with
  | zero => rfl
  | succ rounds => rw [transferLoop, if_neg h]

/-- **The loop ends**, and more rounds change nothing. -/
theorem transferLoop_returns : ∀ (n : Nat) {t : Transfer}, t.remaining.toNat ≤ n → t.rio.Ok → NoWriteFails t.writes →
    2 * t.remaining.toNat < answers t.fd.sched → t.remaining.toNat ≤ writes t.writes →
    ∃ t', ∀ rounds, t.remaining.toNat ≤ rounds → transferLoop rounds t = some t' := by
  intro n
  induction n with
  | zero =>
    intro t hn _ _ _ _
    exact ⟨t, fun rounds _ => transferLoop_done (by omega) rounds⟩
  | succ n ih =>
    intro t hn hok hno hanswers hwrites
    by_cases hpos : t.remaining > 0
    · have hstep : ∀ {rounds}, t.remaining.toNat ≤ rounds → ∃ r, rounds = r + 1 := by
        intro rounds h
        exact ⟨rounds - 1, by omega⟩
      rcases round_cases hok hno hpos with ⟨out, -, hfew, -⟩ | ⟨lost, used, t₁, -, hloop⟩ | ⟨buf, used, t₁, hmoved, hloop⟩
      · omega
      · refine ⟨t₁, fun rounds hle => ?_⟩
        obtain ⟨rounds, rfl⟩ := hstep hle
        exact (hloop rounds).1
      · have hbuf := hmoved.pos
        have hle := hmoved.le
        have hnext := hmoved.remaining
        have hans := hmoved.answered
        have hwr := hmoved.written
        rw [← hmoved.sched, answers_append] at hanswers
        obtain ⟨t', ht'⟩ := ih (by omega) hmoved.ok hmoved.noFails (by omega) (by omega)
        refine ⟨t', fun rounds hrounds => ?_⟩
        obtain ⟨rounds, rfl⟩ := hstep hrounds
        rw [(hloop rounds).1]
        exact ht' rounds (by omega)
    · exact ⟨t, fun rounds _ => transferLoop_done hpos rounds⟩

/-- Where `transferLoop` has a result, `fileSoFar` is its file. -/
theorem fileSoFar_eq : ∀ (rounds : Nat) {t t' : Transfer}, transferLoop rounds t = some t' → fileSoFar rounds t = t'.file := by
  intro rounds
  induction rounds with
  | zero =>
    intro t t' h
    cases h
    rfl
  | succ rounds ih =>
    intro t t' h
    rw [transferLoop] at h
    rw [fileSoFar]
    by_cases hpos : t.remaining > 0
    · rw [if_pos hpos] at h ⊢
      have hsize : (if t.remaining < (MAXBUF : Int) then t.remaining.toNat else MAXBUF) = want t := rfl
      simp only [hsize] at h
      generalize rioReadnb t.rio t.fd (want t) = c at h
      obtain ⟨ret, buf, rp, fd⟩ := c
      cases ret with
      | none => cases h
      | some n =>
        simp only at h ⊢
        split at h
        · rename_i hn
          cases h
          rw [if_pos hn]
        · rename_i hn
          rw [if_neg hn]
          cases hret : (rioWriten t.writes (buf.take n.toNat)).ret with
          | none =>
            simp only [hret] at h
            cases h
          | some r =>
            simp only [hret] at h ⊢
            exact ih h
    · rw [if_neg hpos] at h ⊢
      cases h
      rfl

/-! ## The upload -/

def putStart (contentLength : Int) (rp : RioT) (fd : Fd) (writes : List WriteOutcome) : Transfer :=
  ⟨contentLength, [], rp, fd, writes⟩

/-- What the loop has made of the bytes `avail`. -/
structure Stored (contentLength : Int) (avail : Bytes) (t : Transfer) : Prop where
  body   : t.file <+: avail.take contentLength.toNat
  length : (t.file.length : Int) = contentLength - t.remaining
  le     : (t.file.length : Int) ≤ contentLength
  beyond : avail.drop contentLength.toNat <:+ rest t.rio t.fd

theorem Streamed.stored {contentLength : Int} (h0 : 0 ≤ contentLength) {rp : RioT} {fd : Fd} {writes : List WriteOutcome}
    {body lost : Bytes} {used : List ReadOutcome} {t : Transfer}
    (h : Streamed (putStart contentLength rp fd writes) body lost used t) : Stored contentLength (rest rp fd) t := by
  have hfile : t.file = body := h.file
  have hrem : t.remaining = contentLength - body.length := h.remaining
  have hcons : body ++ (lost ++ rest t.rio t.fd) = rest rp fd := h.conserve
  have hfew : body.length + lost.length ≤ contentLength.toNat := h.few
  rw [← hcons]
  refine ⟨?_, by rw [hfile, hrem]; omega, by rw [hfile]; omega, ?_⟩
  · rw [hfile]
    exact List.prefix_take_iff.2 ⟨List.prefix_append _ _, by omega⟩
  · rw [← List.append_assoc, List.drop_append, List.drop_eq_nil_of_le (by rw [List.length_append]; omega),
      List.nil_append]
    exact List.drop_suffix _ _

/-- **PUT streams exactly the body**: at every moment, and when the loop has ended, which it does as soon
as the calls of `read(2)` and `write(2)` return. -/
theorem put_streams_body (uri : Bytes) (contentLength : Int) (h0 : 0 ≤ contentLength) (rp : RioT) (hok : rp.Ok)
    (stream : Bytes) :
    (∀ (reads : List ReadOutcome) (writes : List WriteOutcome), NoWriteFails writes → ∀ rounds,
      fileSoFar rounds (putStart contentLength rp ⟨stream, reads⟩ writes) <+:
        (rp.window ++ stream).take contentLength.toNat ∧
      ∀ t, transferLoop rounds (putStart contentLength rp ⟨stream, reads⟩ writes) = some t →
        Stored contentLength (rp.window ++ stream) t) ∧
    ∀ (reads : Nat → ReadOutcome) (writes : Nat → WriteOutcome), (∀ i, ∃ j, i ≤ j ∧ (reads j).answered = true) →
      (∀ i, (writes i).bad = false) → (∀ i, ∃ j, i ≤ j ∧ (writes j).returned = true) →
      ∃ enough, ∀ k ≥ enough, ∃ t used,
        (∀ rounds ≥ contentLength.toNat, transferLoop rounds
          (putStart contentLength rp ⟨stream, upTo reads k⟩ ((List.range k).map writes)) = some t) ∧
        (∀ malloc, servePut ⟨malloc, true, (List.range k).map writes⟩ uri contentLength rp ⟨stream, upTo reads k⟩ =
          .saved (uploadPath uri) t.file (contentLength - t.remaining)) ∧
        used ++ t.fd.sched = upTo reads k ∧
        (NoReadFails used → (t.file.length : Int) = min contentLength (rp.window ++ stream).length ∧
          t.file ++ rest t.rio t.fd = rp.window ++ stream) := by
  refine ⟨fun reads writes hno rounds => ⟨?_, fun t ht => ?_⟩, fun reads writes hreads hclean hwrites => ?_⟩
  · obtain ⟨out, hfile, hpre⟩ := fileSoFar_prefix rounds (t := putStart contentLength rp ⟨stream, reads⟩ writes) hok hno
    rw [hfile]
    exact hpre
  · obtain ⟨body, lost, used, hstreamed, -⟩ := transferLoop_streamed rounds
      (t := putStart contentLength rp ⟨stream, reads⟩ writes) hok hno h0 ht
    exact hstreamed.stored h0
  · obtain ⟨k₁, hk₁⟩ := unbounded_countP hreads (2 * contentLength.toNat + 1)
    obtain ⟨k₂, hk₂⟩ := unbounded_countP hwrites contentLength.toNat
    refine ⟨max k₁ k₂, fun k hk => ?_⟩
    have hno : NoWriteFails ((List.range k).map writes) := by
      intro o ho
      obtain ⟨i, -, rfl⟩ := List.mem_map.1 ho
      exact hclean i
    have hanswers : 2 * contentLength.toNat < answers (upTo reads k) := hk₁ k (by omega)
    have hreturned : contentLength.toNat ≤ Rio.writes ((List.range k).map writes) := hk₂ k (by omega)
    obtain ⟨t, ht⟩ := transferLoop_returns contentLength.toNat
      (t := putStart contentLength rp ⟨stream, upTo reads k⟩ ((List.range k).map writes)) (Nat.le_refl _) hok hno
      hanswers hreturned
    have hloop := ht contentLength.toNat (Nat.le_refl _)
    obtain ⟨body, lost, used, hstreamed, hend⟩ := transferLoop_streamed contentLength.toNat
      (t := putStart contentLength rp ⟨stream, upTo reads k⟩ ((List.range k).map writes)) hok hno h0 hloop
    refine ⟨t, used, ht, fun malloc => ?_, hstreamed.sched, fun hused => ?_⟩
    · have htransfer : transfer ⟨malloc, true, (List.range k).map writes⟩ contentLength rp ⟨stream, upTo reads k⟩ = some t :=
        hloop
      simp only [servePut, htransfer]
      rw [if_neg (by omega)]
      rfl
    · obtain ⟨rfl, hdone⟩ := hend (Nat.le_refl _) hused
      have hfile : t.file = body := hstreamed.file
      have hrem : t.remaining = contentLength - body.length := hstreamed.remaining
      have hcons : body ++ rest t.rio t.fd = rp.window ++ stream := hstreamed.conserve
      have hfew : body.length + 0 ≤ contentLength.toNat := hstreamed.few
      refine ⟨?_, by rw [hfile, hcons]⟩
      have hlen := congrArg List.length hcons
      rw [List.length_append] at hlen
      rw [hfile, ← hlen]
      rcases hdone with hdone | hdone
      · omega
      · rw [hdone, List.length_nil]
        omega

/-- Every second call is interrupted. -/
def everySecond {α : Type} (eintr answer : α) (i : Nat) : α := if i % 2 = 0 then eintr else answer

/-- Three bytes for a body of two, which come one at a time. -/
theorem put_streams_body_two : ∃ k t,
    transferLoop 2 (putStart 2 (rioInitb zeroRio) ⟨[1, 2, 3], upTo (everySecond .eintr (.count 1)) k⟩
      ((List.range k).map (everySecond .eintr (.count 1)))) = some t ∧
    servePut ⟨true, true, (List.range k).map (everySecond .eintr (.count 1))⟩ (ascii "/a") 2 (rioInitb zeroRio)
      ⟨[1, 2, 3], upTo (everySecond .eintr (.count 1)) k⟩ = .saved (ascii "./uploads/a") [1, 2] 2 ∧
    rest t.rio t.fd = [3] := by
  have hodd : ∀ i : Nat, (2 * i + 1) % 2 ≠ 0 := fun i => by omega
  obtain ⟨hmoment, hreturns⟩ := put_streams_body (ascii "/a") 2 (by decide) (rioInitb zeroRio) (rioInitb_ok zeroRio) [1, 2, 3]
  obtain ⟨enough, hk⟩ := hreturns (everySecond .eintr (.count 1)) (everySecond .eintr (.count 1))
    (fun i => ⟨2 * i + 1, by omega, by rw [everySecond, if_neg (hodd i)]; rfl⟩)
    (fun i => by unfold everySecond; split <;> rfl)
    (fun i => ⟨2 * i + 1, by omega, by rw [everySecond, if_neg (hodd i)]; rfl⟩)
  obtain ⟨t, used, hloop, hput, hused, hclean⟩ := hk enough (Nat.le_refl _)
  have hno : NoReadFails used := by
    intro o ho
    have hmem : o ∈ upTo (everySecond .eintr (.count 1)) enough := hused ▸ List.mem_append_left _ ho
    obtain ⟨i, -, rfl⟩ := List.mem_map.1 hmem
    unfold everySecond
    split <;> rfl
  rw [rioInitb_window, List.nil_append] at hclean hmoment
  obtain ⟨hlen, hcons⟩ := hclean hno
  have hstored := (hmoment _ _ (fun o ho => by
    obtain ⟨i, -, rfl⟩ := List.mem_map.1 ho
    unfold everySecond
    split <;> rfl) 2).2 t (hloop 2 (by decide))
  have hfile : t.file = [1, 2] := by
    have htwo : t.file.length = 2 := by
      rw [show min (2 : Int) (([1, 2, 3] : Bytes).length : Int) = 2 by decide] at hlen
      omega
    exact hstored.body.eq_of_length htwo
  have hrem := hstored.length
  rw [hfile] at hcons hput hrem
  refine ⟨enough, t, hloop 2 (by decide), ?_, ?_⟩
  · rw [hput true, ← hrem]
    decide
  · simpa using hcons

end ComputerSystem.Tiny
