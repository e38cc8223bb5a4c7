import ComputerSystem.EpollEt.Buffer
/-!
# `append_output` as an atomic bounded append

`Chapter12/12.2/experiments/epoll_et_echo_server.c:101-162`. `appendChecked` is `append_output` once
more, with a test at every place where C has none: it is `none` where a `size_t` would wrap, where a
copy would leave the allocation, and where the capacity loop does not stop. Under `BufOk` it is never
`none` and does what `appendOutput` does (`appendChecked_eq`), and `append_atomic` says what that is:
the data is appended when it fits below the limit and a `realloc` that is called succeeds, and nothing
changes otherwise, also behind the `memmove`.

| here          | there                                                                     |
|---------------|---------------------------------------------------------------------------|
| `sizeMinus`, `sizePlus` | `a - b` and `a + b` on `size_t`                                  |
| `memmoveFront`, `memcpyAt` | the two copies (`:110`, `:136`)                               |
| `flushOutput` | `flush_output` (`:142`), with the outcomes of its `write(2)`s             |
-/

namespace ComputerSystem.EpollEt

def sizeMinus (a b : Nat) : Option Nat := if b ≤ a then some (a - b) else none

def sizePlus (a b : Nat) : Option Nat := if a + b < 2 ^ 64 then some (a + b) else none

/-- `memmove(output, output + begin, n)`. -/
def memmoveFront (output : Bytes) (start n : Nat) : Option Bytes :=
  if start + n ≤ output.length then some ((output.drop start).take n ++ output.drop n) else none

/-- `memcpy(output + end, data, length)`. -/
def memcpyAt (output : Bytes) (stop : Nat) (data : Bytes) : Option Bytes :=
  if stop + data.length ≤ output.length then some (output.take stop ++ data ++ output.drop (stop + data.length)) else none

/-- The end of `append_output` (`:136-138`). -/
def storeChecked (conn : Connection) (data : Bytes) : Option (Except Errno Unit × Connection) := do
  let output ← memcpyAt conn.output conn.outputEnd data
  let outputEnd ← sizePlus conn.outputEnd data.length
  return (.ok (), { conn with output := output, outputEnd := outputEnd })

/-- From the compaction on (`:115-138`). -/
def growChecked (conn : Connection) (data : Bytes) (reallocOk : Bool) : Option (Except Errno Unit × Connection) := do
  let required ← sizePlus conn.outputEnd data.length
  if required > conn.outputCapacity then
    let capacity ← growLoop 64 (firstCapacity conn.outputCapacity) required
    if reallocOk then storeChecked (grow conn capacity) data
    else return (.error .ENOMEM, conn)
  else storeChecked conn data

/-- `append_output` (`:101`). -/
def appendChecked (conn : Connection) (data : Bytes) (reallocOk : Bool) : Option (Except Errno Unit × Connection) := do
  let pending ← sizeMinus conn.outputEnd conn.outputBegin
  let room ← sizeMinus MAX_OUTPUT_CAPACITY pending
  if data.length > room then return (.error .ENOBUFS, conn)
  else
    let required ← sizePlus conn.outputEnd data.length
    if conn.outputBegin > 0 ∧ required > conn.outputCapacity then
      let output ← memmoveFront conn.output conn.outputBegin pending
      growChecked { conn with output := output, outputBegin := 0, outputEnd := pending } data reallocOk
    else growChecked conn data reallocOk

/-- `flush_output` (`:142`) with these outcomes of `write(2)`, which moves no more than it is given; it
has not returned when they are used up. -/
def flushOutput : List (Except Errno Nat) → Connection → Option Int × Connection
  | [], conn => if pendingOutput conn > 0 then (none, conn) else (some 0, resetOutput conn)
  | r :: outcomes, conn =>
    if pendingOutput conn > 0 then
      match r with
      | .ok 0 => (some (-1), conn)
      | .ok (n + 1) => flushOutput outcomes (advanceOutput conn (min (n + 1) (pendingOutput conn)))
      | .error .EINTR => flushOutput outcomes conn
      | .error .EAGAIN => (some 0, conn)
      | .error _ => (some (-1), conn)
    else (some 0, resetOutput conn)

/-- `flush_output` keeps the invariant, and takes pending bytes off the front. -/
theorem flushOutput_ok : ∀ (outcomes : List (Except Errno Nat)) {conn : Connection}, BufOk conn →
    BufOk (flushOutput outcomes conn).2 ∧ (flushOutput outcomes conn).2.pending <:+ conn.pending := by
  intro outcomes
  -- the reset is made with nothing pending
  have hreset : ∀ {conn : Connection}, BufOk conn → ¬ pendingOutput conn > 0 →
      BufOk (resetOutput conn) ∧ (resetOutput conn).pending <:+ conn.pending := by
    intro conn h hno
    obtain ⟨hok, hpend⟩ := resetOutput_ok h (by omega)
    refine ⟨hok, ?_⟩
    simp only [hpend, List.suffix_refl]
  induction outcomes with
  | nil =>
    intro conn h
    unfold flushOutput
    split
    · exact ⟨h, List.suffix_refl _⟩
    · rename_i hno
      exact hreset h hno
  | cons r outcomes ih =>
    intro conn h
    unfold flushOutput
    split
    · split
      · exact ⟨h, List.suffix_refl _⟩
      · rename_i n
        obtain ⟨hok, hpend⟩ := advanceOutput_ok h (Nat.min_le_right (n + 1) (pendingOutput conn))
        obtain ⟨h1, h2⟩ := ih hok
        exact ⟨h1, h2.trans (hpend ▸ List.drop_suffix _ _)⟩
      · exact ih h
      · exact ⟨h, List.suffix_refl _⟩
      · exact ⟨h, List.suffix_refl _⟩
    · rename_i hno
      exact hreset h hno

/-! ## No expression wraps and no copy leaves the allocation -/

section
variable {conn : Connection} {data : Bytes}

theorem sizePlus_eq (h : BufOk conn) (hlen : data.length ≤ MAX_OUTPUT_CAPACITY) :
    sizePlus conn.outputEnd data.length = some (conn.outputEnd + data.length) := by
  have hin := h.inside
  have hmax := h.max
  simp only [MAX_OUTPUT_CAPACITY] at hmax hlen
  rw [sizePlus, if_pos (by omega)]

theorem storeChecked_eq (h : BufOk conn) (hfit : conn.outputEnd + data.length ≤ conn.outputCapacity) :
    storeChecked conn data = some (.ok (), store conn data) := by
  have hmax := h.max
  have hlen : data.length ≤ MAX_OUTPUT_CAPACITY := by omega
  have hcopy : memcpyAt conn.output conn.outputEnd data =
      some (conn.output.take conn.outputEnd ++ data ++ conn.output.drop (conn.outputEnd + data.length)) := by
    rw [memcpyAt, if_pos (by rw [h.size]; exact hfit)]
  simp only [storeChecked, hcopy, sizePlus_eq h hlen]
  rfl

/-- The end of the window and the data, when they have to fit behind it. -/
theorem growChecked_eq (h : BufOk conn) (hreq : conn.outputEnd + data.length ≤ MAX_OUTPUT_CAPACITY) (reallocOk : Bool) :
    ∃ r, growChecked conn data reallocOk = some r ∧
      (if conn.outputEnd + data.length > conn.outputCapacity then
        match growLoop 64 (firstCapacity conn.outputCapacity) (conn.outputEnd + data.length) with
        | none => none
        | some capacity =>
          if reallocOk then some (.ok (), store (grow conn capacity) data) else some (.error .ENOMEM, conn)
      else some (.ok (), store conn data)) = some r ∧
      BufOk r.2 ∧ (r.1 = .ok () ↔ (conn.outputCapacity < conn.outputEnd + data.length → reallocOk = true)) ∧
      (r.1 = .ok () → r.2.pending = conn.pending ++ data) ∧ (r.1 ≠ .ok () → r.2.pending = conn.pending) := by
  have hlen : data.length ≤ MAX_OUTPUT_CAPACITY := by omega
  simp only [growChecked, sizePlus_eq h hlen, Option.bind_eq_bind, Option.bind_some]
  by_cases hgrow : conn.outputEnd + data.length > conn.outputCapacity
  · obtain ⟨f1, f2, f3⟩ := firstCapacity_spec h.max
    have hrounds : MAX_OUTPUT_CAPACITY < firstCapacity conn.outputCapacity * 2 ^ 64 := by
      have := Nat.mul_le_mul_right (2 ^ 64) f1
      simp only [MAX_OUTPUT_CAPACITY]
      omega
    obtain ⟨capacity, hg, hle, hcapreq, hcapmax⟩ := growLoop_spec 64 f1 f3 hreq hrounds
    simp only [if_pos hgrow, hg, Option.bind_some]
    obtain ⟨g1, g2⟩ := grow_ok h (show conn.outputCapacity ≤ capacity by omega) hcapmax
    cases reallocOk with
    | true =>
      obtain ⟨s1, s2⟩ := store_ok g1 data hcapreq
      simp only [if_true, storeChecked_eq g1 hcapreq]
      exact ⟨_, rfl, rfl, s1, by simp, fun _ => by rw [s2, g2], fun hne => absurd rfl hne⟩
    | false =>
      simp only [Bool.false_eq_true, if_false]
      refine ⟨_, rfl, rfl, h, ?_, fun hok => (by cases hok), fun _ => rfl⟩
      simp only [reduceCtorEq, false_iff]
      intro himp
      cases himp hgrow
  · obtain ⟨s1, s2⟩ := store_ok h data (by omega)
    simp only [if_neg hgrow, storeChecked_eq h (Nat.le_of_not_lt hgrow)]
    exact ⟨_, rfl, rfl, s1, by simp; omega, fun _ => s2, fun hne => absurd rfl hne⟩

/-- **`append_output` with its tests and without them**: it returns, and it returns 0 if and only if the
data fits below the limit and a `realloc` that it needs succeeds. -/
theorem appendChecked_eq (h : BufOk conn) (data : Bytes) (reallocOk : Bool) :
    ∃ r, appendChecked conn data reallocOk = some r ∧ appendOutput conn data reallocOk = some r ∧ BufOk r.2 ∧
      (r.1 = .ok () ↔ conn.pending.length + data.length ≤ MAX_OUTPUT_CAPACITY ∧
        (conn.outputCapacity < conn.pending.length + data.length → reallocOk = true)) ∧
      (r.1 = .ok () → r.2.pending = conn.pending ++ data) ∧ (r.1 ≠ .ok () → r.2.pending = conn.pending) := by
  have hwin := h.window
  have hin := h.inside
  have hmax := h.max
  have hpend := pendingOutput_eq h
  have hminus : sizeMinus conn.outputEnd conn.outputBegin = some (pendingOutput conn) := by
    rw [sizeMinus, if_pos hwin, hpend]
  have hroom : sizeMinus MAX_OUTPUT_CAPACITY (pendingOutput conn) =
      some (MAX_OUTPUT_CAPACITY - pendingOutput conn) := by
    rw [sizeMinus, if_pos (by omega)]
  have hsub : sizeSub MAX_OUTPUT_CAPACITY (pendingOutput conn) = MAX_OUTPUT_CAPACITY - pendingOutput conn :=
    sizeSub_eq (by omega) (by decide)
  rw [pending_length h]
  simp only [appendChecked, appendOutput, hminus, hroom, hsub, Option.bind_eq_bind, Option.bind_some]
  by_cases hlen : data.length > MAX_OUTPUT_CAPACITY - pendingOutput conn
  · simp only [if_pos hlen]
    refine ⟨_, rfl, rfl, h, ?_, fun hok => (by cases hok), fun _ => rfl⟩
    simp only [reduceCtorEq, false_iff]
    omega
  · have hmost : data.length ≤ MAX_OUTPUT_CAPACITY := by omega
    simp only [if_neg hlen, sizePlus_eq h hmost, Option.bind_some]
    by_cases hslide : conn.outputBegin > 0 ∧ conn.outputEnd + data.length > conn.outputCapacity
    · -- the window goes to the front
      have hmove : memmoveFront conn.output conn.outputBegin (pendingOutput conn) =
          some ((conn.output.drop conn.outputBegin).take (pendingOutput conn) ++ conn.output.drop (pendingOutput conn)) := by
        rw [memmoveFront, if_pos (by rw [h.size]; omega)]
      obtain ⟨hok, hsame⟩ := compact_ok h
      obtain ⟨r, hgrow, happend, hok', hret, hyes, hno⟩ := growChecked_eq hok
        (show (compact conn (pendingOutput conn)).outputEnd + data.length ≤ MAX_OUTPUT_CAPACITY by
          simp only [compact]
          omega) reallocOk
      simp only [if_pos hslide, hmove, Option.bind_some]
      refine ⟨r, hgrow, happend, hok', ?_, ?_, ?_⟩
      · rw [hret]
        exact (and_iff_right (by omega)).symm
      · rw [hsame] at hyes
        exact hyes
      · rw [hsame] at hno
        exact hno
    · have hreq : conn.outputEnd + data.length ≤ MAX_OUTPUT_CAPACITY := by omega
      obtain ⟨r, hgrow, happend, hok', hret, hyes, hno⟩ := growChecked_eq h hreq reallocOk
      simp only [if_neg hslide]
      refine ⟨r, hgrow, happend, hok', ?_, hyes, hno⟩
      rw [hret]
      -- without a slide the window is at the front, or there is room behind it
      constructor
      · intro himp
        exact ⟨by omega, fun hcap => himp (by omega)⟩
      · rintro ⟨-, himp⟩ hcap
        exact himp (by omega)

end

/-- **`append_output` appends all of the data or nothing.** The invariant is what `calloc` leaves and
what `flush_output` keeps; under it every call returns, nothing wraps, every copy lies in the
allocation, the invariant is kept, and the value returned says which of the two has happened. -/
theorem append_atomic :
    (∀ fd, BufOk (.new fd)) ∧
    (∀ outcomes conn, BufOk conn → BufOk (flushOutput outcomes conn).2) ∧
    ∀ conn, BufOk conn → ∀ (data : Bytes) (reallocOk : Bool), ∃ rc conn',
      appendChecked conn data reallocOk = some (rc, conn') ∧ appendOutput conn data reallocOk = some (rc, conn') ∧
      BufOk conn' ∧
      (rc = .ok () ↔ conn.pending.length + data.length ≤ MAX_OUTPUT_CAPACITY ∧
        (conn.outputCapacity < conn.pending.length + data.length → reallocOk = true)) ∧
      (rc = .ok () → conn'.pending = conn.pending ++ data) ∧ (rc ≠ .ok () → conn'.pending = conn.pending) := by
  refine ⟨new_ok, fun outcomes conn h => (flushOutput_ok outcomes h).1, fun conn h data reallocOk => ?_⟩
  obtain ⟨⟨rc, conn'⟩, hr⟩ := appendChecked_eq h data reallocOk
  exact ⟨rc, conn', hr⟩

/-- Two bytes pending at the end of four; two more fit after the slide, three need a `realloc`. -/
def slidConn : Connection := ⟨5, [1, 2, 3, 4], 4, 2, 4, false⟩

theorem append_atomic_slid : BufOk slidConn ∧
    ∃ rc conn', appendChecked slidConn [5, 6, 7] false = some (rc, conn') ∧ rc = .error .ENOMEM ∧
      conn'.outputBegin = 0 ∧ conn'.pending = slidConn.pending := by
  have hok : BufOk slidConn := ⟨by decide, by decide, by decide, by decide⟩
  obtain ⟨rc, conn', hchecked, -, -, -, -, hno⟩ := append_atomic.2.2 slidConn hok [5, 6, 7] false
  have hrun : appendChecked slidConn [5, 6, 7] false = some (.error .ENOMEM, ⟨5, [3, 4, 3, 4], 4, 0, 2, false⟩) := by
    decide
  rw [hrun] at hchecked
  cases hchecked
  exact ⟨hok, _, _, hrun, rfl, rfl, hno (fun h => by cases h)⟩

end ComputerSystem.EpollEt
