import ComputerSystem.Rio.Lines
/-!
# Whole streams through RIO

`piece m bs` is what one `rio_readlineb` with room for `m` bytes takes from `bs`: through the first
newline, or `m` bytes, or all there are. `rioReadlineb_spec` says that this is what it returns,
however `read(2)` cuts the bytes up, unless a `read(2)` fails, reports an early end of file, or has
not returned yet. `Spent` keeps the account of the outcomes: each `read(2)` that returned moved at
least one byte or met the end of file, so a long enough schedule brings a reader to the end.

`rioWriten_spec` says the same of `rio_writen`.
-/

namespace ComputerSystem.Rio

/-! ## Outcomes -/

/-- A `read(2)` that fails, or reports the end of file while bytes are left. -/
def ReadOutcome.bad : ReadOutcome → Bool
  | .error | .count 0 => true
  | _ => false

def ReadOutcome.returned : ReadOutcome → Bool
  | .count _ => true
  | _ => false

def NoReadFails (sched : List ReadOutcome) : Prop := ∀ o ∈ sched, o.bad = false

/-- The calls of `read(2)` that are not interrupted. -/
def reads (sched : List ReadOutcome) : Nat := sched.countP ReadOutcome.returned

theorem NoReadFails.suffix {sched sched' : List ReadOutcome} (h : NoReadFails sched) (hs : sched' <:+ sched) :
    NoReadFails sched' := fun o ho => h o (hs.subset ho)

theorem NoReadFails.no_error {sched : List ReadOutcome} (h : NoReadFails sched) : .error ∉ sched := by
  intro hmem
  cases h _ hmem

theorem NoReadFails.no_early {sched : List ReadOutcome} (h : NoReadFails sched) : .count 0 ∉ sched := by
  intro hmem
  cases h _ hmem

/-- From `fd` to `fd'` the outcomes were taken from the front, and each `read(2)` that returned moved
a byte, except for `eofs` of them. -/
structure Spent (eofs : Nat) (fd fd' : Fd) : Prop where
  suffix : fd'.sched <:+ fd.sched
  moved  : reads fd.sched + fd'.unread.length ≤ reads fd'.sched + fd.unread.length + eofs

theorem Spent.refl (fd : Fd) : Spent 0 fd fd := ⟨List.suffix_refl _, Nat.le_refl _⟩

theorem Spent.trans {a b : Nat} {fd fd' fd'' : Fd} (h : Spent a fd fd') (h' : Spent b fd' fd'') :
    Spent (a + b) fd fd'' := by
  have h1 := h.moved
  have h2 := h'.moved
  exact ⟨h'.suffix.trans h.suffix, by omega⟩

/-! ## `rio_read` -/

theorem refill_spec (sched : List ReadOutcome) : ∀ (rp : RioT) (unread : Bytes),
    ((refill rp unread sched).1 = .blocked ∧ (refill rp unread sched).2.2.sched = [] ∧
      Spent 0 ⟨unread, sched⟩ (refill rp unread sched).2.2) ∨
    ((refill rp unread sched).1 = .ret (-1) ∧ .error ∈ sched ∧ Spent 0 ⟨unread, sched⟩ (refill rp unread sched).2.2) ∨
    ((refill rp unread sched).1 = .ret 0 ∧ (unread = [] ∨ .count 0 ∈ sched) ∧
      Spent 1 ⟨unread, sched⟩ (refill rp unread sched).2.2) ∨
    ((refill rp unread sched).1 = .filled ∧ Spent 0 ⟨unread, sched⟩ (refill rp unread sched).2.2) := by
  induction sched with
  | nil =>
    intro rp unread
    exact .inl ⟨rfl, rfl, Spent.refl _⟩
  | cons o os ih =>
    intro rp unread
    cases o with
    | eintr =>
      -- the interrupted call is made again
      have hspent : Spent 0 ⟨unread, .eintr :: os⟩ ⟨unread, os⟩ :=
        ⟨List.suffix_cons _ _, by simp [reads, ReadOutcome.returned]⟩
      rcases ih { rp with rioCnt := -1 } unread with ⟨h, hs, hsp⟩ | ⟨h, he, hsp⟩ | ⟨h, he, hsp⟩ | ⟨h, hsp⟩
      · exact .inl ⟨h, hs, hspent.trans hsp⟩
      · exact .inr (.inl ⟨h, List.mem_cons_of_mem _ he, hspent.trans hsp⟩)
      · exact .inr (.inr (.inl ⟨h, he.imp_right (List.mem_cons_of_mem _), hspent.trans hsp⟩))
      · exact .inr (.inr (.inr ⟨h, hspent.trans hsp⟩))
    | error =>
      refine .inr (.inl ⟨rfl, List.mem_cons_self .., List.suffix_cons _ _, ?_⟩)
      simp [refill, reads, ReadOutcome.returned]
    | count k =>
      have hreads : reads (.count k :: os) = reads os + 1 := by
        simp [reads, List.countP_cons, ReadOutcome.returned]
      have hlen : (unread.take (min k RIO_BUFSIZE)).length + (unread.drop (min k RIO_BUFSIZE)).length =
          unread.length := by
        rw [← List.length_append, List.take_append_drop]
      by_cases hbs : unread.take (min k RIO_BUFSIZE) = []
      · have heof : unread = [] ∨ k = 0 := by
          rcases List.take_eq_nil_iff.1 hbs with h | h
          · right
            simp only [RIO_BUFSIZE] at h
            omega
          · exact .inl h
        refine .inr (.inr (.inl ⟨by simp [refill, hbs], ?_, ?_⟩))
        · rcases heof with h | rfl
          · exact .inl h
          · exact .inr (List.mem_cons_self ..)
        · simp only [refill, hbs, if_true]
          refine ⟨List.suffix_cons _ _, ?_⟩
          simp only [hreads]
          omega
      · have hpos := List.length_pos_iff.2 hbs
        refine .inr (.inr (.inr ⟨by simp [refill, hbs], ?_⟩))
        simp only [refill, hbs, if_false]
        refine ⟨List.suffix_cons _ _, ?_⟩
        simp only [hreads]
        omega

/-- With bytes in the window at least one is copied. -/
theorem copyOut_moves {rp : RioT} (hok : rp.Ok) (hpos : 0 < rp.rioCnt) (fd : Fd) {n : Nat} (hn : 0 < n) :
    (copyOut rp fd n).ret = some ((copyOut rp fd n).usrbuf.length : Int) ∧ (copyOut rp fd n).usrbuf ≠ [] := by
  obtain ⟨-, hret, -⟩ := copyOut_ok hok hpos fd n
  refine ⟨hret, ?_⟩
  intro hnil
  rw [hnil, List.length_nil] at hret
  simp only [copyOut, copyOut_cnt hok hpos n, Option.some.injEq] at hret
  omega

/-- **The four ways `rio_read` ends.** -/
theorem rioRead_spec {rp : RioT} (hok : rp.Ok) (fd : Fd) {n : Nat} (hn : 0 < n) :
    ((rioRead rp fd n).ret = none ∧ (rioRead rp fd n).usrbuf = [] ∧ (rioRead rp fd n).fd.sched = [] ∧
      Spent 0 fd (rioRead rp fd n).fd) ∨
    ((rioRead rp fd n).ret = some (-1) ∧ (rioRead rp fd n).usrbuf = [] ∧ .error ∈ fd.sched ∧
      Spent 0 fd (rioRead rp fd n).fd) ∨
    ((rioRead rp fd n).ret = some 0 ∧ (rioRead rp fd n).usrbuf = [] ∧ (rest rp fd = [] ∨ .count 0 ∈ fd.sched) ∧
      Spent 1 fd (rioRead rp fd n).fd) ∨
    ((rioRead rp fd n).ret = some ((rioRead rp fd n).usrbuf.length : Int) ∧ (rioRead rp fd n).usrbuf ≠ [] ∧
      Spent 0 fd (rioRead rp fd n).fd) := by
  by_cases hcnt : rp.rioCnt ≤ 0
  · have hrest : rest rp fd = fd.unread := by simp [rest, window_of_cnt_le hcnt]
    obtain ⟨hok', -, hfill⟩ := refill_ok fd.sched rp fd.unread hok hcnt
    have hspec := refill_spec fd.sched rp fd.unread
    simp only [rioRead, hcnt, ↓reduceIte, hrest]
    generalize refill rp fd.unread fd.sched = r at hok' hfill hspec
    obtain ⟨how, rp', fd'⟩ := r
    simp only at hok' hfill hspec
    rcases hspec with ⟨rfl, hs, hsp⟩ | ⟨rfl, he, hsp⟩ | ⟨rfl, he, hsp⟩ | ⟨rfl, hsp⟩
    · exact .inl ⟨rfl, rfl, hs, hsp⟩
    · exact .inr (.inl ⟨rfl, rfl, he, hsp⟩)
    · exact .inr (.inr (.inl ⟨rfl, rfl, he, hsp⟩))
    · obtain ⟨hret, hne⟩ := copyOut_moves hok' (hfill rfl) fd' hn
      exact .inr (.inr (.inr ⟨hret, hne, hsp⟩))
  · obtain ⟨hret, hne⟩ := copyOut_moves hok (by omega) fd hn
    simp only [rioRead, hcnt, ↓reduceIte]
    exact .inr (.inr (.inr ⟨hret, hne, Spent.refl fd⟩))

/-! ## `rio_readlineb` -/

/-- What one call with room for `m` bytes takes of the bytes to come. -/
def piece : Nat → Bytes → Bytes
  | 0, _ => []
  | _ + 1, [] => []
  | m + 1, b :: bs => if b = newline then [b] else b :: piece m bs

theorem piece_nil (m : Nat) : piece m [] = [] := by
  cases m <;> rfl

theorem piece_eq_nil {m : Nat} (hm : 0 < m) {bs : Bytes} : piece m bs = [] ↔ bs = [] := by
  cases m with
  | zero => omega
  | succ m =>
    cases bs with
    | nil => simp [piece]
    | cons b bs =>
      simp only [piece]
      split <;> simp

theorem piece_prefix (m : Nat) : ∀ bs : Bytes, piece m bs <+: bs := by
  induction m with
  | zero =>
    intro bs
    exact List.nil_prefix
  | succ m ih =>
    intro bs
    cases bs with
    | nil => exact List.nil_prefix
    | cons b bs =>
      simp only [piece]
      by_cases hb : b = newline
      · rw [if_pos hb]
        exact ⟨bs, rfl⟩
      · rw [if_neg hb]
        exact (List.prefix_cons_inj b).2 (ih bs)

/-- A newline is the last byte of its piece. -/
theorem piece_newline (m : Nat) : ∀ {bs a c : Bytes}, piece m bs = a ++ newline :: c → c = [] := by
  induction m with
  | zero =>
    intro bs a c h
    simp [piece] at h
  | succ m ih =>
    intro bs a c h
    cases bs with
    | nil => simp [piece] at h
    | cons b bs =>
      simp only [piece] at h
      by_cases hb : b = newline
      · rw [if_pos hb] at h
        cases a with
        | nil => exact (List.cons.inj h).2.symm
        | cons x a => simp at h
      · rw [if_neg hb] at h
        cases a with
        | nil => exact absurd (List.cons.inj h).1 hb
        | cons x a => exact ih (List.cons.inj h).2

/-- The pieces of the whole stream, by at most `n` calls. -/
def segmentsLoop (m : Nat) : Nat → Bytes → List Bytes
  | 0, _ => []
  | n + 1, bs => if bs = [] then [] else piece m bs :: segmentsLoop m n (bs.drop (piece m bs).length)

/-- The pieces of a stream: every call but those at the end takes a byte. -/
def segments (m : Nat) (bs : Bytes) : List Bytes := segmentsLoop m bs.length bs

theorem segments_nil (m : Nat) : segments m [] = [] := rfl

theorem segmentsLoop_enough {m : Nat} (hm : 0 < m) (n : Nat) : ∀ bs : Bytes, bs.length ≤ n →
    segmentsLoop m n bs = segments m bs := by
  induction n using Nat.strongRecOn with
  | ind n ih =>
    intro bs hle
    cases bs with
    | nil => cases n <;> simp [segments, segmentsLoop]
    | cons b bs =>
      have hpos : 0 < (piece m (b :: bs)).length :=
        List.length_pos_iff.2 (mt (piece_eq_nil hm).1 (List.cons_ne_nil b bs))
      cases n with
      | zero => simp at hle
      | succ n =>
        have hdrop : ((b :: bs).drop (piece m (b :: bs)).length).length ≤ bs.length := by
          rw [List.length_drop, List.length_cons]
          omega
        rw [List.length_cons] at hle
        simp only [segments, segmentsLoop, List.length_cons, if_neg (List.cons_ne_nil b bs)]
        rw [ih n (by omega) _ (by omega)]
        rcases Nat.lt_or_ge bs.length (n + 1) with hlt | hge
        · rw [ih bs.length hlt _ hdrop]
        · omega

theorem segments_eq {m : Nat} (hm : 0 < m) {bs : Bytes} (hne : bs ≠ []) :
    segments m bs = piece m bs :: segments m (bs.drop (piece m bs).length) := by
  have hpos : 0 < (piece m bs).length := List.length_pos_iff.2 (mt (piece_eq_nil hm).1 hne)
  obtain ⟨b, bs, rfl⟩ := List.exists_cons_of_ne_nil hne
  simp only [segments, List.length_cons, segmentsLoop, if_neg hne]
  rw [segmentsLoop_enough hm]
  · rfl
  · rw [List.length_drop, List.length_cons]
    omega

/-- The line loop with `u` stored: it has not returned, it has met a failure, or it has stored the
piece. An early end of file cuts the piece short. -/
theorem rioReadlinebLoop_spec (left : Nat) : ∀ (u : Bytes) {rp : RioT} (fd : Fd), rp.Ok →
    let c := rioReadlinebLoop left (u.length + 1 : Nat) u rp fd
    (c.ret = none ∧ c.fd.sched = [] ∧ Spent 0 fd c.fd) ∨
    (c.ret = some (-1) ∧ .error ∈ fd.sched ∧ Spent 0 fd c.fd) ∨
    (c.ret = some (c.usrbuf.length : Int) ∧ (c.usrbuf = u ++ piece left (rest rp fd) ∨ .count 0 ∈ fd.sched) ∧
      (Spent 0 fd c.fd ∨ Spent 1 fd c.fd ∧ (rest c.rio c.fd = [] ∨ .count 0 ∈ fd.sched))) := by
  induction left with
  | zero =>
    intro u rp fd hok
    refine .inr (.inr ⟨?_, .inl (by simp [rioReadlinebLoop, piece]), .inl (Spent.refl fd)⟩)
    simp only [rioReadlinebLoop, Option.some.injEq]
    omega
  | succ left ih =>
    intro u rp fd hok
    obtain ⟨⟨hok', hcons⟩, hlen, -⟩ := rioRead_ok hok fd 1
    have hspec := rioRead_spec hok fd (n := 1) (by decide)
    simp only [rioReadlinebLoop]
    generalize rioRead rp fd 1 = c at hok' hcons hlen hspec
    obtain ⟨ret, bs, rp', fd'⟩ := c
    simp only at hok' hcons hlen hspec
    rcases hspec with ⟨rfl, rfl, hs, hsp⟩ | ⟨rfl, rfl, he, hsp⟩ | ⟨rfl, rfl, he, hsp⟩ | ⟨rfl, hne, hsp⟩
    · exact .inl ⟨rfl, hs, hsp⟩
    · exact .inr (.inl ⟨rfl, he, hsp⟩)
    · -- end of file: the bytes stored so far are the line
      rw [List.nil_append] at hcons
      have hend : rest rp' fd' = [] ∨ .count 0 ∈ fd.sched := by rwa [hcons]
      have hbuf : u = u ++ piece (left + 1) (rest rp fd) ∨ .count 0 ∈ fd.sched := by
        rcases he with he | he
        · left
          rw [he, piece_nil, List.append_nil]
        · exact .inr he
      have hcount : (if ((u.length + 1 : Nat) : Int) = 1 then (⟨some 0, u, rp', fd'⟩ : Call)
          else ⟨some ((u.length + 1 : Nat) - 1), u, rp', fd'⟩) = ⟨some (u.length : Int), u, rp', fd'⟩ := by
        split
        · rename_i h1
          have h0 : u.length = 0 := by omega
          rw [h0]
          rfl
        · congr 2
          omega
      simp only [if_neg (show ¬ (0 : Int) = 1 by decide), if_true, hcount]
      exact .inr (.inr ⟨trivial, hbuf, .inr ⟨hsp, hend⟩⟩)
    · -- one byte
      obtain ⟨b, rfl⟩ : ∃ b, bs = [b] := by
        have := List.length_pos_iff.2 hne
        exact List.length_eq_one_iff.1 (by omega)
      have hrest : rest rp fd = b :: rest rp' fd' := hcons.symm
      simp only [List.length_singleton, Nat.cast_one, if_true]
      by_cases hnl : b = newline
      · subst hnl
        simp only [if_true]
        refine .inr (.inr ⟨?_, .inl (by rw [hrest]; simp [piece]), .inl hsp⟩)
        simp only [List.length_append, List.length_singleton, Option.some.injEq]
        omega
      · have hbs : ¬ [b] = [newline] := fun h => hnl (List.cons.inj h).1
        have hidx : ((u.length + 1 : Nat) : Int) + 1 = (((u ++ [b]).length + 1 : Nat) : Int) := by
          rw [List.length_append, List.length_singleton]
          omega
        simp only [if_neg hbs, hidx]
        have hpiece : u ++ piece (left + 1) (rest rp fd) = (u ++ [b]) ++ piece left (rest rp' fd') := by
          rw [hrest]
          simp [piece, hnl]
        have hmem : ∀ {o : ReadOutcome}, o ∈ fd'.sched → o ∈ fd.sched := fun ho => hsp.suffix.subset ho
        rcases ih (u ++ [b]) fd' hok' with ⟨h, hs, hsp'⟩ | ⟨h, he, hsp'⟩ | ⟨h, hbuf, hend⟩
        · exact .inl ⟨h, hs, hsp.trans hsp'⟩
        · exact .inr (.inl ⟨h, hmem he, hsp.trans hsp'⟩)
        · refine .inr (.inr ⟨h, ?_, ?_⟩)
          · rw [hpiece]
            exact hbuf.imp_right hmem
          · rcases hend with hsp' | ⟨hsp', hend⟩
            · exact .inl (hsp.trans hsp')
            · have hsp'' := hsp.trans hsp'
              exact .inr ⟨by rwa [Nat.zero_add] at hsp'', hend.imp_right hmem⟩

/-- **`rio_readlineb`** returns the next piece of the stream. -/
theorem rioReadlineb_spec {rp : RioT} (hok : rp.Ok) (fd : Fd) (m : Nat) :
    let c := rioReadlineb rp fd (m + 1)
    (c.ret = none ∧ c.fd.sched = [] ∧ Spent 0 fd c.fd) ∨
    (c.ret = some (-1) ∧ .error ∈ fd.sched ∧ Spent 0 fd c.fd) ∨
    (c.ret = some (c.usrbuf.length : Int) ∧ (c.usrbuf = piece m (rest rp fd) ∨ .count 0 ∈ fd.sched) ∧
      (Spent 0 fd c.fd ∨ Spent 1 fd c.fd ∧ (rest c.rio c.fd = [] ∨ .count 0 ∈ fd.sched))) :=
  rioReadlinebLoop_spec m [] fd hok

/-! ## A peer that closes its side -/

/-- The outcomes of the first `k` calls. -/
def upTo (sched : Nat → ReadOutcome) (k : Nat) : List ReadOutcome := (List.range k).map sched

/-- What happens again and again happens any number of times. -/
theorem unbounded_countP {α : Type} {p : α → Bool} {sched : Nat → α} (h : ∀ i, ∃ j, i ≤ j ∧ p (sched j) = true) (n : Nat) :
    ∃ enough, ∀ k ≥ enough, n ≤ ((List.range k).map sched).countP p := by
  have hmono : ∀ {j k}, j ≤ k → ((List.range j).map sched).countP p ≤ ((List.range k).map sched).countP p :=
    fun hle => ((List.range_sublist.2 hle).map sched).countP_le
  induction n with
  | zero => exact ⟨0, fun k _ => Nat.zero_le _⟩
  | succ n ih =>
    obtain ⟨enough, henough⟩ := ih
    obtain ⟨j, hj, hp⟩ := h enough
    refine ⟨j + 1, fun k hk => ?_⟩
    have hlast : ((List.range (j + 1)).map sched).countP p = ((List.range j).map sched).countP p + 1 := by
      rw [List.range_succ, List.map_append, List.countP_append, List.map_singleton, List.countP_singleton, if_pos hp]
    have hbefore := henough j hj
    have hafter := hmono hk
    omega

/-- A peer sends its bytes and closes: no `read(2)` fails, and there is always a later one that
returns, at the end of file from then on. -/
structure Closes (sched : Nat → ReadOutcome) : Prop where
  clean   : ∀ i, (sched i).bad = false
  returns : ∀ i, ∃ j, i ≤ j ∧ (sched j).returned = true

theorem Closes.noReadFails {sched : Nat → ReadOutcome} (h : Closes sched) (k : Nat) : NoReadFails (upTo sched k) := by
  intro o ho
  obtain ⟨i, -, rfl⟩ := List.mem_map.1 ho
  exact h.clean i

/-- Any number of calls return. -/
theorem Closes.enough {sched : Nat → ReadOutcome} (h : Closes sched) (n : Nat) : ∃ k, n ≤ reads (upTo sched k) := by
  obtain ⟨enough, henough⟩ := unbounded_countP h.returns n
  exact ⟨enough, henough enough (Nat.le_refl _)⟩

/-! ## `rio_writen` -/

/-- A `write(2)` that fails, or that moves nothing without being interrupted. -/
def WriteOutcome.bad : WriteOutcome → Bool
  | .error | .count 0 => true
  | _ => false

def WriteOutcome.returned : WriteOutcome → Bool
  | .count _ => true
  | _ => false

def NoWriteFails (sched : List WriteOutcome) : Prop := ∀ o ∈ sched, o.bad = false

/-- The calls of `write(2)` that are not interrupted. -/
def writes (sched : List WriteOutcome) : Nat := sched.countP WriteOutcome.returned

theorem NoWriteFails.suffix {sched sched' : List WriteOutcome} (h : NoWriteFails sched) (hs : sched' <:+ sched) :
    NoWriteFails sched' := fun o ho => h o (hs.subset ho)

theorem NoWriteFails.tail {o : WriteOutcome} {os : List WriteOutcome} (h : NoWriteFails (o :: os)) :
    NoWriteFails os := h.suffix (List.suffix_cons _ _)

theorem noWriteFails_eintr {os : List WriteOutcome} (h : NoWriteFails os) : NoWriteFails (.eintr :: os) := by
  intro o ho
  rcases List.mem_cons.1 ho with rfl | ho
  · rfl
  · exact h o ho

theorem noWriteFails_count {k : Nat} (hk : k ≠ 0) {os : List WriteOutcome} (h : NoWriteFails os) :
    NoWriteFails (.count k :: os) := by
  intro o ho
  rcases List.mem_cons.1 ho with rfl | ho
  · cases k with
    | zero => exact absurd rfl hk
    | succ k => rfl
  · exact h o ho

/-- The write loop, by the outcomes it has used: it has written everything and none was a failure, the
last of them was one, or it has not returned. -/
theorem rioWritenLoop_spec (n : Nat) (sched : List WriteOutcome) : ∀ (bufp sent : Bytes),
    let w := rioWritenLoop n sched bufp sent
    ∃ used, used ++ w.sched = sched ∧ ∃ out, w.sent = sent ++ out ∧ out <+: bufp ∧
      ((w.ret = some (n : Int) ∧ out = bufp ∧ NoWriteFails used ∧ writes sched ≤ writes w.sched + out.length) ∨
        (w.ret = some (-1) ∧ out.length < bufp.length ∧ ¬ NoWriteFails used) ∨
        (w.ret = none ∧ out.length < bufp.length ∧ w.sched = [] ∧ writes sched ≤ out.length)) := by
  have hnone : NoWriteFails [] := fun o ho => by cases ho
  induction sched with
  | nil =>
    intro bufp sent
    refine ⟨[], by cases bufp <;> rfl, ?_⟩
    cases bufp with
    | nil => exact ⟨[], (List.append_nil _).symm, List.prefix_refl _, .inl ⟨rfl, rfl, hnone, by simp [writes]⟩⟩
    | cons b bufp =>
      refine ⟨[], (List.append_nil _).symm, List.nil_prefix, .inr (.inr ⟨rfl, by simp, rfl, ?_⟩)⟩
      simp [writes]
  | cons o os ih =>
    intro bufp sent
    cases bufp with
    | nil =>
      simp only [rioWritenLoop]
      exact ⟨[], rfl, [], (List.append_nil _).symm, List.prefix_refl _, .inl ⟨trivial, rfl, hnone, by simp⟩⟩
    | cons b bufp =>
      -- a failure ends the call at once
      have hfail : ∀ o : WriteOutcome, o.bad = true → ¬ NoWriteFails [o] := by
        intro o ho hno
        rw [hno o (List.mem_singleton_self o)] at ho
        cases ho
      cases o with
      | eintr =>
        have hw : writes (.eintr :: os) = writes os := by simp [writes, WriteOutcome.returned]
        obtain ⟨used, hused, out, hsent, hpre, hcase⟩ := ih (b :: bufp) sent
        simp only [rioWritenLoop, hw]
        refine ⟨.eintr :: used, by rw [List.cons_append, hused], out, hsent, hpre, ?_⟩
        rcases hcase with ⟨h, heq, hno, hle⟩ | ⟨h, hlt, hbad⟩ | h
        · exact .inl ⟨h, heq, noWriteFails_eintr hno, hle⟩
        · exact .inr (.inl ⟨h, hlt, fun hno => hbad hno.tail⟩)
        · exact .inr (.inr h)
      | error =>
        simp only [rioWritenLoop]
        exact ⟨[.error], rfl, [], (List.append_nil _).symm, List.nil_prefix,
          .inr (.inl ⟨trivial, by simp, hfail _ rfl⟩)⟩
      | count k =>
        simp only [rioWritenLoop]
        by_cases hk : k = 0
        · subst hk
          simp only [if_true]
          exact ⟨[.count 0], rfl, [], (List.append_nil _).symm, List.nil_prefix,
            .inr (.inl ⟨trivial, by simp, hfail _ rfl⟩)⟩
        · have hw : writes (.count k :: os) = writes os + 1 := by
            simp [writes, List.countP_cons, WriteOutcome.returned]
          have hsplit := List.take_append_drop k (b :: bufp)
          have htake : 0 < ((b :: bufp).take k).length := by
            rw [List.length_take, List.length_cons]
            omega
          simp only [if_neg hk, hw]
          generalize (b :: bufp).take k = now at hsplit htake
          generalize (b :: bufp).drop k = later at hsplit
          obtain ⟨used, hused, out, hsent, hpre, hcase⟩ := ih later (sent ++ now)
          rw [← hsplit]
          refine ⟨.count k :: used, by rw [List.cons_append, hused], now ++ out, ?_, ?_, ?_⟩
          · rw [hsent, List.append_assoc]
          · exact (List.prefix_append_right_inj now).2 hpre
          · simp only [List.length_append]
            rcases hcase with ⟨h, rfl, hno, hle⟩ | ⟨h, hlt, hbad⟩ | ⟨h, hlt, hs, hle⟩
            · exact .inl ⟨h, rfl, noWriteFails_count hk hno, by omega⟩
            · exact .inr (.inl ⟨h, by omega, fun hno => hbad hno.tail⟩)
            · exact .inr (.inr ⟨h, by omega, hs, by omega⟩)

/-- **`rio_writen`** returns the size of its buffer when it has written all of it, and -1 when a
`write(2)` failed before that. -/
theorem rioWriten_spec (sched : List WriteOutcome) (usrbuf : Bytes) :
    let w := rioWriten sched usrbuf
    ∃ used, used ++ w.sched = sched ∧ w.sent <+: usrbuf ∧
      ((w.ret = some (usrbuf.length : Int) ∧ w.sent = usrbuf ∧ NoWriteFails used ∧
          writes sched ≤ writes w.sched + usrbuf.length) ∨
        (w.ret = some (-1) ∧ w.sent.length < usrbuf.length ∧ ¬ NoWriteFails used) ∨
        (w.ret = none ∧ w.sent.length < usrbuf.length ∧ w.sched = [] ∧ writes sched ≤ w.sent.length)) := by
  obtain ⟨used, hused, out, hsent, hpre, hcase⟩ := rioWritenLoop_spec usrbuf.length sched usrbuf []
  rw [List.nil_append] at hsent
  subst hsent
  refine ⟨used, hused, hpre, ?_⟩
  rcases hcase with ⟨h, heq, hno, hle⟩ | hcase
  · exact .inl ⟨h, heq, hno, by rw [heq] at hle; exact hle⟩
  · exact .inr hcase

end ComputerSystem.Rio
