import ComputerSystem.Rio.Conserve
/-!
# Where `rio_readlineb` cuts

`rio_readlineb` takes bytes one at a time from the window of its `rio_t`, and the window is refilled
by `read(2)` when it is empty. `scan_skip` is the walk over bytes that do not end the line; from it
come the three ways a walk ends (`scan_line`, `scan_full`, `scan_more`), and with one outcome of
`read(2)` in front of them the two cases that matter to a reader on a connection: the bytes that came
leave the line open (`read_open`), or they complete it (`read_complete`).

A line is complete when it ends in a newline or has filled the buffer.
-/

namespace ComputerSystem.Rio

/-! ## One byte -/

theorem cnt_of_window {rp : RioT} (hok : rp.Ok) (h : rp.window = []) : rp.rioCnt ≤ 0 := by
  have := window_length hok
  rw [h] at this
  simp only [List.length_nil] at this
  omega

/-- With a byte in the window `rio_read` takes it and makes no system call. -/
theorem rioRead_window {rp : RioT} (hok : rp.Ok) {b : UInt8} {w : Bytes} (hw : rp.window = b :: w) (fd : Fd) :
    ∃ rp', rioRead rp fd 1 = ⟨some 1, [b], rp', fd⟩ ∧ rp'.Ok ∧ rp'.window = w := by
  have hlen := window_length hok
  rw [hw, List.length_cons] at hlen
  have hpos : 0 < rp.rioCnt := by omega
  obtain ⟨⟨hok', hcons⟩, -, -⟩ := copyOut_ok hok hpos fd 1
  have hcnt := copyOut_cnt hok hpos 1
  have hone : min 1 rp.rioCnt.toNat = 1 := by omega
  rw [hone] at hcnt
  have hbyte : (rp.rioBuf.bytes.drop rp.rioBufptr).take 1 = [b] := by
    have : rp.window.take 1 = [b] := by rw [hw]; rfl
    rwa [RioT.window, List.take_take, Nat.min_eq_left (by omega)] at this
  have hread : rioRead rp fd 1 = copyOut rp fd 1 := by
    simp only [rioRead, if_neg (show ¬ rp.rioCnt ≤ 0 by omega)]
  refine ⟨(copyOut rp fd 1).rio, ?_, hok', ?_⟩
  · rw [hread]
    simp only [copyOut, hcnt, Int.toNat_natCast, hbyte]
    rfl
  · have husr : (copyOut rp fd 1).usrbuf = [b] := by
      simp only [copyOut, hcnt, Int.toNat_natCast, hbyte]
    rw [husr, rest, rest, hw] at hcons
    have := List.cons.inj hcons
    exact List.append_cancel_right this.2

theorem rioRead_blocked {rp : RioT} (hok : rp.Ok) (hw : rp.window = []) (x : Bytes) (n : Nat) :
    rioRead rp ⟨x, []⟩ n = ⟨none, [], rp, ⟨x, []⟩⟩ := by
  simp only [rioRead, if_pos (cnt_of_window hok hw), refill]

/-- A `read(2)` that is interrupted is made again. -/
theorem rioRead_eintr {rp : RioT} (hok : rp.Ok) (hw : rp.window = []) (x : Bytes) (os : List ReadOutcome) (n : Nat) :
    rioRead rp ⟨x, .eintr :: os⟩ n = rioRead { rp with rioCnt := -1 } ⟨x, os⟩ n := by
  simp only [rioRead, if_pos (cnt_of_window hok hw), refill]
  rfl

/-- A `read(2)` that moves bytes fills the window with them. -/
theorem rioRead_count {rp : RioT} (hok : rp.Ok) (hw : rp.window = []) {x : Bytes} {k : Nat} (os : List ReadOutcome)
    (n : Nat) (hbs : x.take (min k RIO_BUFSIZE) ≠ []) :
    rioRead rp ⟨x, .count k :: os⟩ n =
      rioRead ⟨(x.take (min k RIO_BUFSIZE)).length, 0, rp.rioBuf.store (x.take (min k RIO_BUFSIZE))⟩
        ⟨x.drop (min k RIO_BUFSIZE), os⟩ n := by
  have hpos : ¬ ((x.take (min k RIO_BUFSIZE)).length : Int) ≤ 0 := by
    have := List.length_pos_iff.2 hbs
    omega
  simp only [rioRead, if_pos (cnt_of_window hok hw), refill, if_neg hbs, if_neg hpos]

theorem rioRead_eof {rp : RioT} (hok : rp.Ok) (hw : rp.window = []) (k : Nat) (os : List ReadOutcome) (n : Nat) :
    rioRead rp ⟨[], .count k :: os⟩ n = ⟨some 0, [], { rp with rioCnt := 0 }, ⟨[], os⟩⟩ := by
  simp [rioRead, cnt_of_window hok hw, refill]

theorem filled_ok (b : RioBuf) {bs : Bytes} (h : bs.length ≤ RIO_BUFSIZE) :
    RioT.Ok ⟨bs.length, 0, b.store bs⟩ :=
  ⟨by simp, by simpa using h, by simpa using h⟩

theorem interrupted_ok {rp : RioT} (hok : rp.Ok) : RioT.Ok { rp with rioCnt := -1 } :=
  ⟨by simp, by simp [RIO_BUFSIZE], by have := hok.inside; simp; omega⟩

/-! ## The walk over the window -/

theorem loop_congr {left : Nat} {n : Int} {usrbuf : Bytes} {rp rp' : RioT} {fd fd' : Fd}
    (h : rioRead rp fd 1 = rioRead rp' fd' 1) :
    rioReadlinebLoop (left + 1) n usrbuf rp fd = rioReadlinebLoop (left + 1) n usrbuf rp' fd' := by
  simp only [rioReadlinebLoop, h]

/-- Bytes of the window that are not a newline are stored one after another. -/
theorem scan_skip : ∀ (a : Bytes) (left : Nat) (u : Bytes) {rp : RioT} (fd : Fd) {w : Bytes}, rp.Ok →
    rp.window = a ++ w → newline ∉ a →
    ∃ rp', rioReadlinebLoop (left + a.length) (u.length + 1 : Nat) u rp fd =
      rioReadlinebLoop left ((u ++ a).length + 1 : Nat) (u ++ a) rp' fd ∧ rp'.Ok ∧ rp'.window = w
  | [], left, u, rp, fd, w, hok, hw, _ => ⟨rp, by simp, hok, hw⟩
  | b :: a, left, u, rp, fd, w, hok, hw, hnl => by
    obtain ⟨rp', hread, hok', hw'⟩ := rioRead_window hok hw fd
    obtain ⟨hb, ha⟩ := not_or.1 (List.mem_cons.not.1 hnl)
    obtain ⟨rp'', hloop, hok'', hw''⟩ := scan_skip a left (u ++ [b]) fd hok' hw' ha
    refine ⟨rp'', ?_, hok'', hw''⟩
    have hne : ¬ [b] = [newline] := fun h => hb (List.cons.inj h).1.symm
    rw [List.length_cons, ← Nat.add_assoc]
    simp only [rioReadlinebLoop, hread, if_true, hne, if_false]
    rw [List.append_assoc, List.singleton_append] at hloop
    rw [← hloop]
    simp

/-- The walk meets a newline. -/
theorem scan_line {a b : Bytes} (left : Nat) (u : Bytes) {rp : RioT} (fd : Fd) (hok : rp.Ok)
    (hw : rp.window = a ++ newline :: b) (hnl : newline ∉ a) (hlen : a.length < left) :
    ∃ rp', rioReadlinebLoop left (u.length + 1 : Nat) u rp fd =
      ⟨some (u ++ a ++ [newline]).length, u ++ a ++ [newline], rp', fd⟩ ∧ rp'.Ok ∧ rp'.window = b := by
  obtain ⟨left', rfl⟩ : ∃ m, left = (m + 1) + a.length := ⟨left - 1 - a.length, by omega⟩
  obtain ⟨rp', hskip, hok', hw'⟩ := scan_skip a (left' + 1) u fd hok hw hnl
  obtain ⟨rp'', hread, hok'', hw''⟩ := rioRead_window hok' hw' fd
  refine ⟨rp'', ?_, hok'', hw''⟩
  rw [hskip]
  simp only [rioReadlinebLoop, hread, if_true, List.length_append, List.length_singleton]
  congr 2
  omega

/-- The walk fills the buffer. -/
theorem scan_full {a b : Bytes} (u : Bytes) {rp : RioT} (fd : Fd) (hok : rp.Ok) (hw : rp.window = a ++ b)
    (hnl : newline ∉ a) :
    ∃ rp', rioReadlinebLoop a.length (u.length + 1 : Nat) u rp fd = ⟨some (u ++ a).length, u ++ a, rp', fd⟩ ∧
      rp'.Ok ∧ rp'.window = b := by
  obtain ⟨rp', hskip, hok', hw'⟩ := scan_skip a 0 u fd hok hw hnl
  refine ⟨rp', ?_, hok', hw'⟩
  rw [Nat.zero_add] at hskip
  rw [hskip]
  simp only [rioReadlinebLoop]
  congr 2
  omega

/-- The walk runs out of bytes and blocks in `read(2)`. -/
theorem scan_more (left : Nat) (u : Bytes) {rp : RioT} (x : Bytes) (hok : rp.Ok) (hnl : newline ∉ rp.window)
    (hlen : rp.window.length < left) :
    ∃ rp', rioReadlinebLoop left (u.length + 1 : Nat) u rp ⟨x, []⟩ = ⟨none, u ++ rp.window, rp', ⟨x, []⟩⟩ ∧
      rp'.Ok ∧ rp'.window = [] := by
  obtain ⟨left', rfl⟩ : ∃ m, left = (m + 1) + rp.window.length := ⟨left - 1 - rp.window.length, by omega⟩
  obtain ⟨rp', hskip, hok', hw'⟩ := scan_skip rp.window (left' + 1) (w := []) u ⟨x, []⟩ hok (by simp) hnl
  refine ⟨rp', ?_, hok', hw'⟩
  rw [hskip]
  simp only [rioReadlinebLoop, rioRead_blocked hok' hw' x 1]

/-! ## One `read(2)` into a line -/

section
variable {m : Nat}

/-- A line that `rio_readlineb` returns with room for `m` bytes without waiting for more. -/
def Complete (m : Nat) (line : Bytes) : Prop := newline ∈ line ∨ line.length = m

/-- Bytes of a line that is not complete. -/
def Open (m : Nat) (line : Bytes) : Prop := newline ∉ line ∧ line.length < m

theorem open_nil (hm : 0 < m) : Open m [] := ⟨by simp, hm⟩

theorem open_or_complete {line : Bytes} (h : line.length ≤ m) : Open m line ∨ Complete m line := by
  by_cases hn : newline ∈ line
  · exact .inr (.inl hn)
  · by_cases hl : line.length = m
    · exact .inr (.inr hl)
    · exact .inl ⟨hn, by omega⟩

theorem Open.not_complete {line : Bytes} (h : Open m line) : ¬ Complete m line := by
  rintro (hn | hl)
  · exact h.1 hn
  · exact Nat.ne_of_lt h.2 hl

/-- The state of a `rio_readlineb` that is blocked with `u` stored. -/
structure Waiting (m : Nat) (u : Bytes) (rp : RioT) : Prop where
  ok     : rp.Ok
  window : rp.window = []
  isOpen : Open m u

variable {u : Bytes} {rp : RioT}

theorem Waiting.left (h : Waiting m u rp) : ∃ left, m - u.length = left + 1 :=
  ⟨m - u.length - 1, by have := h.isOpen.2; omega⟩

/-- A call that starts, or goes on, with nothing in the window blocks. -/
theorem enter_blocks (h : Waiting m u rp) (x : Bytes) :
    rioReadlinebLoop (m - u.length) (u.length + 1 : Nat) u rp ⟨x, []⟩ = ⟨none, u, rp, ⟨x, []⟩⟩ := by
  obtain ⟨left, hleft⟩ := h.left
  rw [hleft]
  simp only [rioReadlinebLoop, rioRead_blocked h.ok h.window x 1]

theorem read_eintr (h : Waiting m u rp) (x : Bytes) :
    ∃ rp', rioReadlinebLoop (m - u.length) (u.length + 1 : Nat) u rp ⟨x, [.eintr]⟩ = ⟨none, u, rp', ⟨x, []⟩⟩ ∧
      Waiting m u rp' := by
  have hwait : Waiting m u { rp with rioCnt := -1 } :=
    ⟨interrupted_ok h.ok, window_of_cnt_le (by simp), h.isOpen⟩
  refine ⟨_, ?_, hwait⟩
  rw [← enter_blocks hwait x]
  obtain ⟨left, hleft⟩ := h.left
  rw [hleft]
  exact loop_congr (rioRead_eintr h.ok h.window x [] 1)

theorem read_filled (h : Waiting m u rp) {x : Bytes} {k : Nat} (hbs : x.take (min k RIO_BUFSIZE) ≠ []) :
    ∃ rp', rp'.Ok ∧ rp'.window = x.take (min k RIO_BUFSIZE) ∧
      rioReadlinebLoop (m - u.length) (u.length + 1 : Nat) u rp ⟨x, [.count k]⟩ =
        rioReadlinebLoop (m - u.length) (u.length + 1 : Nat) u rp' ⟨x.drop (min k RIO_BUFSIZE), []⟩ := by
  have hlen : (x.take (min k RIO_BUFSIZE)).length ≤ RIO_BUFSIZE := by
    simp only [List.length_take]
    omega
  refine ⟨_, filled_ok rp.rioBuf hlen, store_window rp.rioBuf hlen, ?_⟩
  obtain ⟨left, hleft⟩ := h.left
  rw [hleft]
  exact loop_congr (rioRead_count h.ok h.window [] 1 hbs)

/-- **The bytes that came leave the line open**: the call stores them and waits again. -/
theorem read_open (h : Waiting m u rp) {x : Bytes} {k : Nat} (hbs : x.take (min k RIO_BUFSIZE) ≠ [])
    (hopen : Open m (u ++ x.take (min k RIO_BUFSIZE))) :
    ∃ rp', rioReadlinebLoop (m - u.length) (u.length + 1 : Nat) u rp ⟨x, [.count k]⟩ =
      ⟨none, u ++ x.take (min k RIO_BUFSIZE), rp', ⟨x.drop (min k RIO_BUFSIZE), []⟩⟩ ∧
      Waiting m (u ++ x.take (min k RIO_BUFSIZE)) rp' := by
  obtain ⟨rp', hok', hw', heq⟩ := read_filled h hbs
  obtain ⟨hnl, hlen⟩ := hopen
  rw [List.length_append] at hlen
  have hnl' : newline ∉ rp'.window := fun hmem => hnl (List.mem_append_right _ (hw' ▸ hmem))
  obtain ⟨rp'', hscan, hok'', hw''⟩ := scan_more (m - u.length) u (x.drop (min k RIO_BUFSIZE)) hok' hnl'
    (by rw [hw']; omega)
  rw [hw'] at hscan
  exact ⟨rp'', heq.trans hscan, hok'', hw'', hnl, by rw [List.length_append]; exact hlen⟩

/-- **The bytes that came complete the line** and nothing follows them in the window: the call returns
the line and leaves an empty window. -/
theorem read_complete (h : Waiting m u rp) {x : Bytes} {k : Nat} (hbs : x.take (min k RIO_BUFSIZE) ≠ [])
    (hcut : newline ∉ (u ++ x.take (min k RIO_BUFSIZE)).dropLast)
    (hle : (u ++ x.take (min k RIO_BUFSIZE)).length ≤ m) (hc : Complete m (u ++ x.take (min k RIO_BUFSIZE))) :
    ∃ rp', rioReadlinebLoop (m - u.length) (u.length + 1 : Nat) u rp ⟨x, [.count k]⟩ =
      ⟨some (u ++ x.take (min k RIO_BUFSIZE)).length, u ++ x.take (min k RIO_BUFSIZE), rp',
        ⟨x.drop (min k RIO_BUFSIZE), []⟩⟩ ∧ rp'.Ok ∧ rp'.window = [] := by
  obtain ⟨rp', hok', hw', heq⟩ := read_filled h hbs
  have hulen := h.isOpen.2
  rw [heq]
  generalize x.take (min k RIO_BUFSIZE) = bs at hbs hcut hle hc hw'
  obtain ⟨a, b, rfl⟩ : ∃ a b, bs = a ++ [b] := ⟨bs.dropLast, bs.getLast hbs, (List.dropLast_concat_getLast hbs).symm⟩
  rw [← List.append_assoc, List.dropLast_concat] at hcut
  have ha : newline ∉ a := fun hmem => hcut (List.mem_append_right _ hmem)
  rw [List.length_append, List.length_append, List.length_singleton] at hle
  by_cases hb : b = newline
  · subst hb
    obtain ⟨rp'', hscan, hok'', hw''⟩ := scan_line (m - u.length) (b := []) u
      ⟨x.drop (min k RIO_BUFSIZE), []⟩ hok' hw' ha (by omega)
    rw [List.append_assoc] at hscan
    exact ⟨rp'', hscan, hok'', hw''⟩
  · -- without a newline the line is as long as the buffer
    have hnl : newline ∉ a ++ [b] := by
      intro hmem
      rcases List.mem_append.1 hmem with hmem | hmem
      · exact ha hmem
      · exact hb (List.mem_singleton.1 hmem).symm
    have hfull : (u ++ (a ++ [b])).length = m := by
      rcases hc with hn | hl
      · rcases List.mem_append.1 hn with hn | hn
        · exact absurd hn h.isOpen.1
        · exact absurd hn hnl
      · exact hl
    have hm : m - u.length = (a ++ [b]).length := by
      rw [List.length_append] at hfull
      omega
    obtain ⟨rp'', hscan, hok'', hw''⟩ := scan_full (a := a ++ [b]) (b := []) u
      ⟨x.drop (min k RIO_BUFSIZE), []⟩ hok' (by rw [hw', List.append_nil]) hnl
    rw [hm]
    exact ⟨rp'', hscan, hok'', hw''⟩

/-- End of file before the line has a byte. -/
theorem read_eof (h : Waiting m [] rp) (k : Nat) :
    rioReadlinebLoop (m - 0) (0 + 1 : Nat) [] rp ⟨[], [.count k]⟩ = ⟨some 0, [], { rp with rioCnt := 0 }, ⟨[], []⟩⟩ := by
  obtain ⟨left, hleft⟩ := h.left
  simp only [List.length_nil] at hleft
  rw [hleft]
  simp [rioReadlinebLoop, rioRead_eof h.ok h.window]

end

/-! ## One `write(2)` of a buffer -/

section
variable {n k : Nat} {left : Bytes}

theorem write_blocked (h : left ≠ []) : rioWritenLoop n [] left [] = ⟨none, [], []⟩ := by
  obtain ⟨b, l, rfl⟩ := List.exists_cons_of_ne_nil h
  rfl

theorem write_eintr (h : left ≠ []) : rioWritenLoop n [.eintr] left [] = ⟨none, [], []⟩ := by
  obtain ⟨b, l, rfl⟩ := List.exists_cons_of_ne_nil h
  rfl

/-- A short count: `rio_writen` goes on with the rest. -/
theorem write_part (hk : 0 < k) (h : left.drop k ≠ []) : rioWritenLoop n [.count k] left [] = ⟨none, left.take k, []⟩ := by
  cases left with
  | nil => simp at h
  | cons b l =>
    simp only [rioWritenLoop, if_neg (show ¬ k = 0 by omega), List.nil_append]
    obtain ⟨c, r, hdrop⟩ := List.exists_cons_of_ne_nil h
    rw [hdrop]
    rfl

theorem write_all (hk : 0 < k) (hne : left ≠ []) (h : left.drop k = []) :
    rioWritenLoop n [.count k] left [] = ⟨some n, left, []⟩ := by
  have htake : left.take k = left := List.take_of_length_le (List.drop_eq_nil_iff.1 h)
  cases left with
  | nil => exact absurd rfl hne
  | cons b l =>
    simp only [rioWritenLoop, if_neg (show ¬ k = 0 by omega), List.nil_append, h, htake]

/-- **One `write(2)` that does not fail** leaves a rest to write, or writes everything. -/
theorem write_cases {o : WriteOutcome} (herr : o ≠ .error) (hzero : o ≠ .count 0) (hne : left ≠ []) :
    (∃ sent, rioWritenLoop n [o] left [] = ⟨none, sent, []⟩ ∧ sent ++ left.drop sent.length = left ∧
      left.drop sent.length ≠ []) ∨
    rioWritenLoop n [o] left [] = ⟨some n, left, []⟩ := by
  cases o with
  | error => exact absurd rfl herr
  | eintr => exact .inl ⟨[], write_eintr hne, rfl, hne⟩
  | count k =>
    have hk : 0 < k := Nat.pos_of_ne_zero fun h0 => hzero (h0 ▸ rfl)
    by_cases hdrop : left.drop k = []
    · exact .inr (write_all hk hne hdrop)
    · have hlen : (left.take k).length = k := by
        have : ¬ left.length ≤ k := fun hle => hdrop (List.drop_eq_nil_iff.2 hle)
        simp only [List.length_take]
        omega
      exact .inl ⟨left.take k, write_part hk hdrop, by rw [hlen, List.take_append_drop], by rwa [hlen]⟩

end

end ComputerSystem.Rio
