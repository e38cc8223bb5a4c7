import ComputerSystem.CTypes
/-!
# The output buffer of the edge-triggered echo server

`Chapter12/12.2/experiments/epoll_et_echo_server.c:16-162`. `output` is the allocation of
`outputCapacity` bytes; the pending bytes are the window `output[outputBegin .. outputEnd)`.

`append_output` either finds room, or slides the window to the front, or grows the allocation.
`BufOk` is what `calloc` establishes and every operation keeps; under it no `size_t` expression
wraps and the capacity loop stops (`appendOutput_spec`).
-/

namespace ComputerSystem.EpollEt

def MAX_EVENTS : Nat := 1024
def READ_BUFFER_SIZE : Nat := 8192
def INITIAL_OUTPUT_CAPACITY : Nat := 4096
def MAX_OUTPUT_CAPACITY : Nat := 1024 * 1024

inductive Errno
  | EINTR | EAGAIN | ENOBUFS | ENOMEM | ECONNRESET | ECONNABORTED | EPIPE
  | other (n : Nat)
deriving DecidableEq, Repr

/-- `struct connection` (`:21`). -/
structure Connection where
  fd             : Nat
  output         : Bytes
  outputCapacity : Nat
  outputBegin    : Nat
  outputEnd      : Nat
  peerEof        : Bool
deriving DecidableEq, Repr

/-- A connection as `calloc` leaves it, with its descriptor filled in (`:222-228`). -/
def Connection.new (fd : Nat) : Connection := ⟨fd, [], 0, 0, 0, false⟩

/-- `pending_output` (`:52`). -/
def pendingOutput (conn : Connection) : Nat := sizeSub conn.outputEnd conn.outputBegin

/-- The bytes `output[output_begin .. output_end)`. -/
def Connection.pending (conn : Connection) : Bytes :=
  (conn.output.drop conn.outputBegin).take (conn.outputEnd - conn.outputBegin)

/-- The `memmove` of `append_output` (`:109-111`). -/
def compact (conn : Connection) (pending : Nat) : Connection :=
  { conn with
    output := (conn.output.drop conn.outputBegin).take pending ++ conn.output.drop pending
    outputBegin := 0
    outputEnd := pending }

/-- Where the capacity loop starts (`:116-119`). -/
def firstCapacity (capacity : Nat) : Nat := if capacity = 0 then INITIAL_OUTPUT_CAPACITY else capacity

/-- The capacity loop of `append_output` (`:120-126`) for at most so many rounds; `none` when it has
not stopped by then. -/
def growLoop : Nat → Nat → Nat → Option Nat
  | rounds, capacity, required =>
    if capacity < required then
      match rounds with
      | 0 => none
      | rounds + 1 =>
        growLoop rounds (if capacity > MAX_OUTPUT_CAPACITY / 2 then MAX_OUTPUT_CAPACITY else capacity * 2) required
    else some capacity

/-- `realloc` to a larger `capacity` (`:128-133`); the bytes it adds are not initialised, zero
stands for them. -/
def grow (conn : Connection) (capacity : Nat) : Connection :=
  { conn with
    output := conn.output ++ List.replicate (capacity - conn.output.length) 0
    outputCapacity := capacity }

/-- The `memcpy` of `append_output` (`:136-137`). -/
def store (conn : Connection) (data : Bytes) : Connection :=
  { conn with
    output := conn.output.take conn.outputEnd ++ data ++ conn.output.drop (conn.outputEnd + data.length)
    outputEnd := conn.outputEnd + data.length }

/-- `append_output` (`:101`); `reallocOk` is the outcome of `realloc` when it is called, and `none`
means that the capacity loop does not stop. -/
def appendOutput (conn : Connection) (data : Bytes) (reallocOk : Bool) :
    Option (Except Errno Unit × Connection) :=
  let pending := pendingOutput conn
  if data.length > sizeSub MAX_OUTPUT_CAPACITY pending then some (.error .ENOBUFS, conn)
  else
    let conn :=
      if conn.outputBegin > 0 ∧ conn.outputEnd + data.length > conn.outputCapacity then compact conn pending
      else conn
    let required := conn.outputEnd + data.length
    if required > conn.outputCapacity then
      match growLoop 64 (firstCapacity conn.outputCapacity) required with
      | none => none
      | some capacity =>
        if reallocOk then some (.ok (), store (grow conn capacity) data) else some (.error .ENOMEM, conn)
    else some (.ok (), store conn data)

/-- `flush_output` after `write` moved `n` bytes (`:147`). -/
def advanceOutput (conn : Connection) (n : Nat) : Connection :=
  { conn with outputBegin := conn.outputBegin + n }

/-- `flush_output` with nothing left (`:159-160`). -/
def resetOutput (conn : Connection) : Connection := { conn with outputBegin := 0, outputEnd := 0 }

/-! ## The invariant of the buffer -/

structure BufOk (conn : Connection) : Prop where
  window : conn.outputBegin ≤ conn.outputEnd
  inside : conn.outputEnd ≤ conn.outputCapacity
  max    : conn.outputCapacity ≤ MAX_OUTPUT_CAPACITY
  size   : conn.output.length = conn.outputCapacity

theorem new_ok (fd : Nat) : BufOk (.new fd) :=
  ⟨Nat.le_refl 0, Nat.le_refl 0, Nat.zero_le _, rfl⟩

theorem pendingOutput_eq {conn : Connection} (h : BufOk conn) :
    pendingOutput conn = conn.outputEnd - conn.outputBegin := by
  have h1 := h.inside
  have h2 := h.max
  simp only [MAX_OUTPUT_CAPACITY] at h2
  exact sizeSub_eq h.window (by omega)

theorem pending_length {conn : Connection} (h : BufOk conn) : conn.pending.length = pendingOutput conn := by
  have h1 := h.window
  have h2 := h.inside
  have h3 := h.size
  rw [pendingOutput_eq h]
  simp only [Connection.pending, List.length_take, List.length_drop]
  omega

theorem pending_eq_nil {conn : Connection} (h : BufOk conn) : conn.pending = [] ↔ pendingOutput conn = 0 := by
  rw [← pending_length h, List.length_eq_zero_iff]

theorem compact_ok {conn : Connection} (h : BufOk conn) :
    BufOk (compact conn (pendingOutput conn)) ∧ (compact conn (pendingOutput conn)).pending = conn.pending := by
  have h1 := h.window
  have h2 := h.inside
  have h3 := h.size
  rw [pendingOutput_eq h]
  refine ⟨⟨Nat.zero_le _, by simp only [compact]; omega, h.max, ?_⟩, ?_⟩
  · simp only [compact, List.length_append, List.length_take, List.length_drop]
    omega
  · simp only [compact, Connection.pending, List.drop_zero, Nat.sub_zero]
    rw [List.take_append_of_le_length (by simp only [List.length_take, List.length_drop]; omega), List.take_take,
      Nat.min_self]

theorem grow_ok {conn : Connection} (h : BufOk conn) {capacity : Nat} (hle : conn.outputCapacity ≤ capacity)
    (hmax : capacity ≤ MAX_OUTPUT_CAPACITY) :
    BufOk (grow conn capacity) ∧ (grow conn capacity).pending = conn.pending := by
  have h1 := h.window
  have h2 := h.inside
  have h3 := h.size
  refine ⟨⟨h.window, by simp only [grow]; omega, hmax, ?_⟩, ?_⟩
  · simp only [grow, List.length_append, List.length_replicate]
    omega
  · simp only [grow, Connection.pending]
    rw [List.drop_append_of_le_length (by omega), List.take_append_of_le_length]
    simp only [List.length_drop]
    omega

theorem store_ok {conn : Connection} (h : BufOk conn) (data : Bytes)
    (hfit : conn.outputEnd + data.length ≤ conn.outputCapacity) :
    BufOk (store conn data) ∧ (store conn data).pending = conn.pending ++ data := by
  have h1 := h.window
  have h2 := h.inside
  have h3 := h.size
  refine ⟨⟨by simp only [store]; omega, hfit, h.max, ?_⟩, ?_⟩
  · simp only [store, List.length_append, List.length_take, List.length_drop]
    omega
  · have hlen : (conn.output.take conn.outputEnd).length = conn.outputEnd := by
      simp only [List.length_take]; omega
    simp only [store, Connection.pending]
    rw [List.append_assoc, List.drop_append_of_le_length (by omega), ← List.append_assoc,
      List.take_append_of_le_length (by simp only [List.length_append, List.length_drop]; omega),
      List.drop_take, List.take_of_length_le (by simp only [List.length_append, List.length_take, List.length_drop]; omega)]

theorem firstCapacity_spec {capacity : Nat} (h : capacity ≤ MAX_OUTPUT_CAPACITY) :
    0 < firstCapacity capacity ∧ capacity ≤ firstCapacity capacity ∧
      firstCapacity capacity ≤ MAX_OUTPUT_CAPACITY := by
  unfold firstCapacity
  split
  · subst_vars; decide
  · exact ⟨by omega, Nat.le_refl _, h⟩

/-- The capacity loop stops between `required` and the limit. -/
theorem growLoop_spec : ∀ (rounds : Nat) {capacity required : Nat}, 0 < capacity →
    capacity ≤ MAX_OUTPUT_CAPACITY → required ≤ MAX_OUTPUT_CAPACITY →
    MAX_OUTPUT_CAPACITY < capacity * 2 ^ rounds →
    ∃ c, growLoop rounds capacity required = some c ∧ capacity ≤ c ∧ required ≤ c ∧ c ≤ MAX_OUTPUT_CAPACITY
  | rounds, capacity, required, hpos, hcap, hreq, hpow => by
    unfold growLoop
    split
    · rename_i hlt
      cases rounds with
      | zero => omega
      | succ rounds =>
        simp only
        split
        · -- one more round reaches the limit, where the loop stops
          refine ⟨MAX_OUTPUT_CAPACITY, ?_, hcap, hreq, Nat.le_refl _⟩
          unfold growLoop
          simp [Nat.not_lt.2 hreq]
        · rename_i hhalf
          have hpow' : MAX_OUTPUT_CAPACITY < capacity * 2 * 2 ^ rounds := by
            rw [Nat.pow_succ, Nat.mul_comm (2 ^ rounds), ← Nat.mul_assoc] at hpow
            exact hpow
          obtain ⟨c, h1, h2, h3, h4⟩ := growLoop_spec rounds (by omega) (by omega) hreq hpow'
          exact ⟨c, h1, by omega, h3, h4⟩
    · exact ⟨capacity, rfl, Nat.le_refl _, by omega, hcap⟩

/-- **`append_output` (`:101`)** returns; it appends exactly `data` to the pending bytes, or fails and
leaves them as they were. -/
theorem appendOutput_spec {conn : Connection} (h : BufOk conn) (data : Bytes) (reallocOk : Bool) :
    ∃ rc conn', appendOutput conn data reallocOk = some (rc, conn') ∧ BufOk conn' ∧
      conn'.peerEof = conn.peerEof ∧ conn'.fd = conn.fd ∧
      (rc = .ok () ∧ conn'.pending = conn.pending ++ data ∨ (∃ e, rc = .error e) ∧ conn'.pending = conn.pending) := by
  have hwin := h.window
  have hin := h.inside
  have hmax := h.max
  unfold appendOutput
  simp only
  have hsub : sizeSub MAX_OUTPUT_CAPACITY (pendingOutput conn) = MAX_OUTPUT_CAPACITY - pendingOutput conn := by
    rw [pendingOutput_eq h]
    exact sizeSub_eq (by omega) (by decide)
  rw [hsub]
  split
  · exact ⟨_, _, rfl, h, rfl, rfl, Or.inr ⟨⟨_, rfl⟩, rfl⟩⟩
  · rename_i hlen
    -- with the window at the front, or with room behind it, the end is within reach of the limit
    obtain ⟨c, hc, hok, heof, hfd, hpend, hreq⟩ : ∃ c, (if conn.outputBegin > 0 ∧
          conn.outputEnd + data.length > conn.outputCapacity then compact conn (pendingOutput conn) else conn) = c ∧
        BufOk c ∧ c.peerEof = conn.peerEof ∧ c.fd = conn.fd ∧ c.pending = conn.pending ∧
        c.outputEnd + data.length ≤ MAX_OUTPUT_CAPACITY := by
      have hp := pendingOutput_eq h
      split
      · obtain ⟨h1, h2⟩ := compact_ok h
        exact ⟨_, rfl, h1, rfl, rfl, h2, by simp only [compact]; omega⟩
      · exact ⟨_, rfl, h, rfl, rfl, rfl, by omega⟩
    rw [hc]
    clear hc
    split
    · obtain ⟨f1, f2, f3⟩ := firstCapacity_spec hok.max
      have hrounds : MAX_OUTPUT_CAPACITY < firstCapacity c.outputCapacity * 2 ^ 64 := by
        have := Nat.mul_le_mul_right (2 ^ 64) f1
        simp only [MAX_OUTPUT_CAPACITY]
        omega
      obtain ⟨capacity, hg, hle, hcapreq, hcapmax⟩ := growLoop_spec 64 f1 f3 hreq hrounds
      rw [hg]
      simp only
      have hle' : c.outputCapacity ≤ capacity := by omega
      split
      · obtain ⟨g1, g2⟩ := grow_ok hok hle' hcapmax
        obtain ⟨s1, s2⟩ := store_ok g1 data hcapreq
        exact ⟨_, _, rfl, s1, heof, hfd, Or.inl ⟨rfl, by rw [s2, g2, hpend]⟩⟩
      · exact ⟨_, _, rfl, hok, heof, hfd, Or.inr ⟨⟨_, rfl⟩, hpend⟩⟩
    · obtain ⟨s1, s2⟩ := store_ok hok data (by omega)
      exact ⟨_, _, rfl, s1, heof, hfd, Or.inl ⟨rfl, by rw [s2, hpend]⟩⟩

theorem advanceOutput_ok {conn : Connection} (h : BufOk conn) {n : Nat} (hn : n ≤ pendingOutput conn) :
    BufOk (advanceOutput conn n) ∧ (advanceOutput conn n).pending = conn.pending.drop n := by
  have h1 := h.window
  rw [pendingOutput_eq h] at hn
  refine ⟨⟨by simp only [advanceOutput]; omega, h.inside, h.max, h.size⟩, ?_⟩
  simp only [advanceOutput, Connection.pending]
  rw [List.drop_take, List.drop_drop]
  congr 1
  omega

theorem resetOutput_ok {conn : Connection} (h : BufOk conn) (h0 : pendingOutput conn = 0) :
    BufOk (resetOutput conn) ∧ (resetOutput conn).pending = conn.pending := by
  refine ⟨⟨Nat.le_refl 0, Nat.zero_le _, h.max, h.size⟩, ?_⟩
  rw [(pending_eq_nil h).2 h0]
  simp [resetOutput, Connection.pending]

end ComputerSystem.EpollEt
