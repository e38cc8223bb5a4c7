import ComputerSystem.Rio.Segments
/-!
# A stream read line by line (`Chapter10/rio/rio.c:96`)

The reader calls `rio_readlineb` with one `maxlen` until it returns 0. `segments_induct` is the
induction over the pieces it gets: every piece takes a byte, so the bytes behind it are fewer. What is
said of one piece (`piece_length_le`, `piece_dropLast`, `piece_full`) is said of all of them, and
`rioReadlineb_cases` says that one call returns the next piece and leaves the bytes behind it.

| here        | there                                                                      |
|-------------|----------------------------------------------------------------------------|
| `Line`      | what a call returns, and the bytes it stored before the NUL                 |
| `readLines` | `while ((count = rio_readlineb(rp, usrbuf, maxlen)) != 0)`                  |
-/

namespace ComputerSystem.Rio

/-! ## One piece -/

theorem piece_length_le (m : Nat) : ∀ bs : Bytes, (piece m bs).length ≤ m := by
  induction m with
  | zero =>
    intro bs
    exact Nat.le_refl 0
  | succ m ih =>
    intro bs
    cases bs with
    | nil => exact Nat.zero_le _
    | cons b bs =>
      simp only [piece]
      by_cases hb : b = newline
      · rw [if_pos hb, List.length_singleton]
        omega
      · rw [if_neg hb, List.length_cons]
        exact Nat.succ_le_succ (ih bs)

/-- A newline can only be the last byte. -/
theorem piece_dropLast (m : Nat) (bs : Bytes) : newline ∉ (piece m bs).dropLast := by
  intro hmem
  obtain ⟨a, c, hac⟩ := List.append_of_mem hmem
  have hne : piece m bs ≠ [] := by
    intro hnil
    rw [hnil] at hac
    simp at hac
  have hsplit := List.dropLast_concat_getLast hne
  rw [hac, List.append_assoc, List.cons_append] at hsplit
  have hnil := piece_newline m hsplit.symm
  simp at hnil

/-- Without a newline at its end the piece is as long as it may be, or it is all there is. -/
theorem piece_full (m : Nat) : ∀ bs : Bytes, (piece m bs).getLast? ≠ some newline →
    (piece m bs).length = m ∨ piece m bs = bs := by
  induction m with
  | zero =>
    intro bs _
    exact .inl rfl
  | succ m ih =>
    intro bs hlast
    cases bs with
    | nil => exact .inr rfl
    | cons b bs =>
      simp only [piece] at hlast ⊢
      by_cases hb : b = newline
      · rw [if_pos hb] at hlast
        exact absurd (by rw [hb]; rfl) hlast
      · rw [if_neg hb] at hlast ⊢
        by_cases hnil : piece m bs = []
        · rcases ih bs (by rw [hnil]; simp) with h | h
          · exact .inl (by rw [List.length_cons, h])
          · exact .inr (by rw [h])
        · rw [List.getLast?_cons_of_ne_nil hnil] at hlast
          rcases ih bs hlast with h | h
          · exact .inl (by rw [List.length_cons, h])
          · exact .inr (by rw [h])

/-- What is behind bytes that end in a newline is not looked at. -/
theorem piece_append {m : Nat} : ∀ {a : Bytes} (c : Bytes), piece m (a ++ newline :: c) = piece m (a ++ [newline]) := by
  induction m with
  | zero =>
    intro a c
    rfl
  | succ m ih =>
    intro a c
    cases a with
    | nil => simp [piece]
    | cons b a => simp only [List.cons_append, piece, ih]

/-- Without a newline it is the first bytes. -/
theorem piece_take {m : Nat} : ∀ {bs : Bytes}, newline ∉ bs → piece m bs = bs.take m := by
  induction m with
  | zero =>
    intro bs _
    rfl
  | succ m ih =>
    intro bs hnl
    cases bs with
    | nil => rfl
    | cons b bs =>
      obtain ⟨hb, hbs⟩ := not_or.1 (List.mem_cons.not.1 hnl)
      simp only [piece, if_neg (Ne.symm hb), ih hbs, List.take_succ_cons]

/-! ## All pieces -/

section
variable {m : Nat}

/-- Induction over the pieces: from the bytes behind the first one. -/
theorem segments_induct (hm : 0 < m) {motive : Bytes → Prop} (nil : motive [])
    (step : ∀ bs, bs ≠ [] → motive (bs.drop (piece m bs).length) → motive bs) (bs : Bytes) : motive bs := by
  induction hn : bs.length using Nat.strongRecOn generalizing bs with
  | ind n ih =>
    by_cases hne : bs = []
    · rw [hne]
      exact nil
    · have hpos : 0 < (piece m bs).length := List.length_pos_iff.2 (mt (piece_eq_nil hm).1 hne)
      have hbs := List.length_pos_iff.2 hne
      refine step bs hne (ih _ ?_ _ rfl)
      rw [List.length_drop]
      omega

theorem segments_flatten (hm : 0 < m) (bs : Bytes) : (segments m bs).flatten = bs := by
  induction bs using segments_induct hm with
  | nil => rfl
  | step bs hne ih => rw [segments_eq hm hne, List.flatten_cons, ih, List.prefix_iff_eq_append.1 ( piece_prefix m bs)]

theorem mem_segments (hm : 0 < m) {bs p : Bytes} (hp : p ∈ segments m bs) :
    p ≠ [] ∧ p.length ≤ m ∧ newline ∉ p.dropLast := by
  induction bs using segments_induct hm with
  | nil => cases hp
  | step bs hne ih =>
    rw [segments_eq hm hne] at hp
    rcases List.mem_cons.1 hp with rfl | hp
    · exact ⟨mt (piece_eq_nil hm).1 hne, piece_length_le m bs, piece_dropLast m bs⟩
    · exact ih hp

/-- A piece that does not end in a newline is full, or the last one. -/
theorem segments_full (hm : 0 < m) {bs p : Bytes} {before after : List Bytes}
    (h : segments m bs = before ++ p :: after) (hlast : p.getLast? ≠ some newline) : p.length = m ∨ after = [] := by
  induction bs using segments_induct hm generalizing before with
  | nil => simp [segments_nil] at h
  | step bs hne ih =>
    rw [segments_eq hm hne] at h
    cases before with
    | nil =>
      obtain ⟨rfl, rfl⟩ := List.cons.inj h
      rcases piece_full m bs hlast with hlen | hall
      · exact .inl hlen
      · right
        rw [hall, List.drop_length, segments_nil]
    | cons q before => exact ih (List.cons.inj h).2

/-- The pieces of bytes that end in a newline do not depend on what is behind them. -/
theorem segments_append (hm : 0 < m) (a c : Bytes) :
    segments m (a ++ newline :: c) = segments m (a ++ [newline]) ++ segments m c := by
  induction hn : a.length using Nat.strongRecOn generalizing a with
  | ind n ih =>
    have hpre := List.prefix_iff_eq_append.1 ( piece_prefix m (a ++ [newline]))
    rw [segments_eq hm (by simp), segments_eq hm (show a ++ [newline] ≠ [] by simp), piece_append c]
    have hne : piece m (a ++ [newline]) ≠ [] := mt (piece_eq_nil hm).1 (by simp)
    have hpos := List.length_pos_iff.2 hne
    generalize hp : piece m (a ++ [newline]) = p at hpre hne hpos
    by_cases hlen : p.length ≤ a.length
    · rw [List.drop_append_of_le_length hlen, List.drop_append_of_le_length hlen, List.cons_append,
        ih (a.drop p.length).length (by rw [List.length_drop]; omega) _ rfl]
    · have hle : p.length ≤ a.length + 1 := by
        have := congrArg List.length hpre
        simp only [List.length_append, List.length_singleton] at this
        omega
      have hall : p.length = (a ++ [newline]).length := by
        rw [List.length_append, List.length_singleton]
        omega
      have hcut : a ++ newline :: c = (a ++ [newline]) ++ c := by simp
      rw [hcut, hall, List.drop_left, List.drop_length, segments_nil, List.cons_append, List.nil_append]

end

/-! ## One call -/

/-- **One call on a connection whose reads do not fail.** It returns the next piece, with the number of
its bytes, and leaves the bytes behind it; it waits only when the outcomes are used up. The last piece
may take a `read(2)` that meets the end of file. -/
theorem rioReadlineb_cases {rp : RioT} (hok : rp.Ok) {fd : Fd} (hno : NoReadFails fd.sched) (m : Nat) :
    ((rioReadlineb rp fd (m + 1)).ret = none ∧ reads fd.sched ≤ fd.unread.length) ∨
    ∃ rp' fd', rioReadlineb rp fd (m + 1) = ⟨some (piece m (rest rp fd)).length, piece m (rest rp fd), rp', fd'⟩ ∧
      rp'.Ok ∧ NoReadFails fd'.sched ∧ rest rp' fd' = (rest rp fd).drop (piece m (rest rp fd)).length ∧
      reads fd.sched + fd'.unread.length ≤ reads fd'.sched + fd.unread.length + 1 ∧
      (rest rp' fd' ≠ [] → reads fd.sched + fd'.unread.length ≤ reads fd'.sched + fd.unread.length) := by
  obtain ⟨hok', hcons⟩ := rioReadlineb_ok hok fd (m + 1)
  have hspec := rioReadlineb_spec hok fd m
  simp only at hspec
  generalize rioReadlineb rp fd (m + 1) = c at hok' hcons hspec
  obtain ⟨ret, usrbuf, rp', fd'⟩ := c
  simp only at hok' hcons hspec
  rcases hspec with ⟨rfl, hs, hsp⟩ | ⟨-, he, -⟩ | ⟨rfl, hbuf, hend⟩
  · refine .inl ⟨rfl, ?_⟩
    have := hsp.moved
    simp only [hs, reads, List.countP_nil] at this ⊢
    omega
  · exact absurd he hno.no_error
  · obtain rfl := hbuf.resolve_right hno.no_early
    refine .inr ⟨rp', fd', rfl, hok', ?_, ?_, ?_⟩
    · rcases hend with hsp | ⟨hsp, -⟩
      · exact hno.suffix hsp.suffix
      · exact hno.suffix hsp.suffix
    · have := congrArg (List.drop (piece m (rest rp fd)).length) hcons
      rwa [List.drop_left] at this
    · rcases hend with hsp | ⟨hsp, hend⟩
      · have := hsp.moved
        exact ⟨by omega, fun _ => by omega⟩
      · have := hsp.moved
        refine ⟨by omega, fun hne => ?_⟩
        rcases hend with hnil | hearly
        · exact absurd hnil hne
        · exact absurd hearly hno.no_early

/-! ## Until it returns 0 -/

structure Line where
  count  : Int
  usrbuf : Bytes
deriving DecidableEq, Repr

/-- The lines that at most so many calls return before one returns 0; `none` while a call is blocked,
and when no call has returned 0. -/
def readLines (maxlen : Nat) : Nat → RioT → Fd → Option (List Line)
  | 0, _, _ => none
  | calls + 1, rp, fd =>
    match rioReadlineb rp fd maxlen with
    | ⟨none, _, _, _⟩ => none
    | ⟨some count, usrbuf, rp, fd⟩ =>
      if count = 0 then some [] else (readLines maxlen calls rp fd).map (⟨count, usrbuf⟩ :: ·)

def lineOf (p : Bytes) : Line := ⟨p.length, p⟩

section
variable {m : Nat}

/-- What was read, if a call returned 0. -/
theorem readLines_eq (hm : 0 < m) : ∀ (calls : Nat) {rp : RioT} {fd : Fd}, rp.Ok → NoReadFails fd.sched →
    ∀ lines, readLines (m + 1) calls rp fd = some lines → lines = (segments m (rest rp fd)).map lineOf := by
  intro calls
  induction calls with
  | zero =>
    intro rp fd hok hno lines h
    cases h
  | succ calls ih =>
    intro rp fd hok hno lines h
    simp only [readLines] at h
    rcases rioReadlineb_cases hok hno m with ⟨hnone, -⟩ | ⟨rp', fd', hcall, hok', hno', hrest, -⟩
    · generalize rioReadlineb rp fd (m + 1) = c at h hnone
      obtain ⟨ret, usrbuf, rp', fd'⟩ := c
      simp only at hnone
      subst hnone
      cases h
    · simp only [hcall] at h
      by_cases hnil : rest rp fd = []
      · rw [hnil, piece_nil] at h
        simp only [List.length_nil, Nat.cast_zero, if_true, Option.some.injEq] at h
        rw [hnil, ← h]
        rfl
      · have hpos := List.length_pos_iff.2 (mt (piece_eq_nil hm).1 hnil)
        rw [if_neg (by omega)] at h
        obtain ⟨lines', hlines', rfl⟩ := Option.map_eq_some_iff.1 h
        rw [ih hok' hno' _ hlines', segments_eq hm hnil, hrest]
        rfl

/-- With two reads more than there are bytes left to read, a call returns 0: the last line may take one
read that meets the end of file, and the call that returns 0 makes another. -/
theorem readLines_ends (hm : 0 < m) : ∀ (calls : Nat) {rp : RioT} {fd : Fd}, rp.Ok → NoReadFails fd.sched →
    (rest rp fd).length < calls → (fd.unread.length + 2 ≤ reads fd.sched ∨ rest rp fd = [] ∧ 1 ≤ reads fd.sched) →
    ∃ lines, readLines (m + 1) calls rp fd = some lines := by
  intro calls
  induction calls with
  | zero =>
    intro rp fd hok hno hlen henough
    omega
  | succ calls ih =>
    intro rp fd hok hno hlen henough
    have hunread : rest rp fd = [] → fd.unread.length = 0 := by
      intro hnil
      have := congrArg List.length hnil
      rw [rest, List.length_append, List.length_nil] at this
      omega
    rcases rioReadlineb_cases hok hno m with ⟨-, hfew⟩ | ⟨rp', fd', hcall, hok', hno', hrest, hone, hmore⟩
    · rcases henough with h | ⟨hnil, h⟩
      · omega
      · have := hunread hnil
        omega
    · simp only [readLines, hcall]
      by_cases hnil : rest rp fd = []
      · refine ⟨[], ?_⟩
        rw [hnil, piece_nil]
        rfl
      · have hpos := List.length_pos_iff.2 (mt (piece_eq_nil hm).1 hnil)
        rw [if_neg (by omega)]
        have hlen' : (rest rp' fd').length < calls := by
          rw [hrest, List.length_drop]
          have := List.length_pos_iff.2 hnil
          omega
        have henough' : fd'.unread.length + 2 ≤ reads fd'.sched ∨ rest rp' fd' = [] ∧ 1 ≤ reads fd'.sched := by
          have h2 := henough.resolve_right fun h => hnil h.1
          by_cases hnil' : rest rp' fd' = []
          · exact .inr ⟨hnil', by omega⟩
          · have := hmore hnil'
            exact .inl (by omega)
        obtain ⟨lines, hlines⟩ := ih hok' hno' hlen' henough'
        exact ⟨_, by rw [hlines]; rfl⟩

end

/-- What the lines of a stream have in common with it, for calls with room for `maxlen` bytes. The
counter of `rio_readlineb` is one more than the count when it returns, and it is an `int`. -/
structure LinesOf (maxlen : Nat) (stream : Bytes) (lines : List Line) : Prop where
  joined  : (lines.map (·.usrbuf)).flatten = stream
  count   : ∀ l ∈ lines, l.count = l.usrbuf.length ∧ 1 ≤ l.count ∧ l.count ≤ maxlen - 1 ∧
    toInt32 (l.count + 1) = l.count + 1
  inner   : ∀ l ∈ lines, newline ∉ l.usrbuf.dropLast
  full    : ∀ before l after, lines = before ++ l :: after → l.usrbuf.getLast? ≠ some newline →
    l.usrbuf.length = maxlen - 1 ∨ after = []

theorem linesOf_segments {m : Nat} (hm : 0 < m) (hmax : ((m + 1 : Nat) : Int) ≤ INT_MAX) (stream : Bytes) :
    LinesOf (m + 1) stream ((segments m stream).map lineOf) where
  joined := by
    rw [List.map_map, show (fun l : Line => l.usrbuf) ∘ lineOf = id from rfl, List.map_id, segments_flatten hm]
  count := by
    intro l hl
    obtain ⟨p, hp, rfl⟩ := List.mem_map.1 hl
    obtain ⟨hne, hle, -⟩ := mem_segments hm hp
    have hpos := List.length_pos_iff.2 hne
    simp only [lineOf]
    refine ⟨trivial, by omega, by omega, toInt32_eq (by omega) (by omega)⟩
  inner := by
    intro l hl
    obtain ⟨p, hp, rfl⟩ := List.mem_map.1 hl
    exact (mem_segments hm hp).2.2
  full := by
    intro before l after h hlast
    obtain ⟨before', tail, hseg, -, htail⟩ := List.map_eq_append_iff.1 h
    obtain ⟨p, after', rfl, rfl, rfl⟩ := List.map_eq_cons_iff.1 htail
    rcases segments_full hm hseg hlast with hlen | hnil
    · exact .inl hlen
    · exact .inr (by rw [hnil]; rfl)

/-- **The lines do not depend on how `read(2)` cuts the stream up.** A stream has one list of lines for
each `maxlen`, and every connection that delivers the stream, partly in the window already, gives that
list. -/
theorem line_segmentation (maxlen : Nat) (h2 : 2 ≤ maxlen) (hmax : (maxlen : Int) ≤ INT_MAX) (stream : Bytes) :
    ∃ lines, LinesOf maxlen stream lines ∧
      ∀ (rp : RioT) (unread : Bytes) (sched : Nat → ReadOutcome), rp.Ok → rp.window ++ unread = stream →
        Closes sched →
        (∃ reads calls, readLines maxlen calls rp ⟨unread, upTo sched reads⟩ = some lines) ∧
        ∀ reads calls lines', readLines maxlen calls rp ⟨unread, upTo sched reads⟩ = some lines' → lines' = lines := by
  obtain ⟨m, rfl⟩ : ∃ m, maxlen = m + 1 := ⟨maxlen - 1, by omega⟩
  have hm : 0 < m := by omega
  refine ⟨_, linesOf_segments hm hmax stream, ?_⟩
  rintro rp unread sched hok rfl hcl
  have heq : ∀ reads calls lines', readLines (m + 1) calls rp ⟨unread, upTo sched reads⟩ = some lines' →
      lines' = (segments m (rp.window ++ unread)).map lineOf := by
    intro reads calls lines' h
    exact readLines_eq hm calls hok (hcl.noReadFails reads) lines' h
  refine ⟨?_, heq⟩
  obtain ⟨k, hk⟩ := hcl.enough (unread.length + 2)
  have hno : NoReadFails (Fd.sched ⟨unread, upTo sched k⟩) := hcl.noReadFails k
  obtain ⟨lines, hlines⟩ := readLines_ends hm ((rp.window ++ unread).length + 1) hok hno (Nat.lt_succ_self _) (.inl hk)
  exact ⟨k, _, heq k _ _ hlines ▸ hlines⟩

/-- Every other `read(2)` is interrupted, and the others move two bytes. -/
def interrupted : Nat → ReadOutcome := fun i => if i % 2 = 0 then .eintr else .count 2

theorem interrupted_closes : Closes interrupted where
  clean := by
    intro i
    unfold interrupted
    split <;> rfl
  returns := by
    intro i
    refine ⟨2 * i + 1, by omega, ?_⟩
    rw [interrupted, if_neg (by omega)]
    rfl

theorem line_segmentation_interrupted : ∃ lines, LinesOf 3 (ascii "abc\nd") lines ∧
    ∃ reads calls, readLines 3 calls (rioInitb zeroRio) ⟨ascii "abc\nd", upTo interrupted reads⟩ = some lines := by
  obtain ⟨lines, hof, hrun⟩ := line_segmentation 3 (by decide) (by decide) (ascii "abc\nd")
  refine ⟨lines, hof, (hrun (rioInitb zeroRio) (ascii "abc\nd") interrupted (rioInitb_ok _) ?_ interrupted_closes).1⟩
  rw [rioInitb_window]
  rfl

end ComputerSystem.Rio
