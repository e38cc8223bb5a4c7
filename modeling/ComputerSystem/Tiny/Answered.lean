import ComputerSystem.Tiny.Store
/-!
# Every request to Tiny is answered

`store_refines` is about the connections that the main loop comes to the end of. Here the clients send
their requests and close, and the calls of `read(2)` and `write(2)` come back again and again: then the
loop comes to the end of any number of them (`store_answers`).
-/

namespace ComputerSystem.Tiny

open Rio

/-- No `write(2)` fails, and there is always a later one that returns. -/
structure Accepts (sched : Nat → WriteOutcome) : Prop where
  clean   : ∀ i, (sched i).bad = false
  returns : ∀ i, ∃ j, i ≤ j ∧ (sched j).returned = true

def firstWrites (sched : Nat → WriteOutcome) (k : Nat) : List WriteOutcome := (List.range k).map sched

theorem Accepts.noWriteFails {sched : Nat → WriteOutcome} (h : Accepts sched) (k : Nat) : NoWriteFails (firstWrites sched k) := by
  intro o ho
  obtain ⟨i, -, rfl⟩ := List.mem_map.1 ho
  exact h.clean i

theorem Accepts.enough {sched : Nat → WriteOutcome} (h : Accepts sched) (n : Nat) :
    ∃ enough, ∀ k ≥ enough, n ≤ writes (firstWrites sched k) := unbounded_countP h.returns n

/-- A request with its header lines, what the client sends behind it, and the calls to come. -/
structure Client where
  request   : Request
  lines     : List HeaderLine
  more      : Bytes
  hdr       : Bytes
  rio       : RioT
  reads     : Nat → ReadOutcome
  stores    : Nat → WriteOutcome
  sends     : Nat → WriteOutcome
  harmless  : CutsHarmless lines
  announced : request.Announced (lastValue lengthValue (lines.map HeaderLine.bytes))
    (lastValue typeValue (lines.map HeaderLine.bytes))
  closes    : Closes reads
  stored    : Accepts stores
  accepted  : Accepts sends

def Client.unread (c : Client) : Bytes :=
  c.request.words ++ newline :: (headerBlock c.lines ++ (c.request.body ++ c.more))

/-- With so many calls of each kind, and turns of the loop for the headers. -/
def Client.conn (k : Nat) (c : Client) : Conn where
  turns := k
  env := ⟨true, true, firstWrites c.stores k⟩
  hdr := c.hdr
  rio := c.rio
  fd := ⟨c.unread, upTo c.reads k⟩
  answers := firstWrites c.sends k

theorem Client.carries (c : Client) (k : Nat) : Carries c.request c.lines (c.conn k) where
  sent := ⟨c.more, rfl⟩
  harmless := c.harmless
  announced := c.announced
  reads := c.closes.noReadFails k
  malloc := rfl
  opened := rfl
  writes := c.stored.noWriteFails k
  answers := c.accepted.noWriteFails k

/-- In the end nothing waits for more calls. -/
theorem Client.not_starved (c : Client) : ∃ enough, ∀ k ≥ enough, ¬ Starved (c.conn k) := by
  obtain ⟨e₁, h₁⟩ := unbounded_countP c.closes.returns (3 * c.unread.length + 1)
  obtain ⟨e₂, h₂⟩ := c.stored.enough c.unread.length
  refine ⟨c.unread.length + e₁ + e₂, fun k hk hstarved => ?_⟩
  have hreads : 3 * c.unread.length + 1 ≤ Rio.reads (upTo c.reads k) := h₁ k (by omega)
  have hwrites := h₂ k (by omega)
  have hturns : c.unread.length ≤ k := by omega
  rcases hstarved with (hturns' | hfew) | hfew | hfew
  · exact absurd hturns' (Nat.not_lt_of_le hturns)
  · have hfew : Rio.reads (upTo c.reads k) ≤ c.unread.length := hfew
    omega
  · have hfew : Rio.reads (upTo c.reads k) ≤ 3 * c.unread.length := hfew
    omega
  · exact absurd hfew (Nat.not_lt_of_le hwrites)

/-! ## The answer -/

/-- With a write that returns for each byte all buffers are sent. -/
theorem send_returns (bufs : List Bytes) : ∀ {sched : List WriteOutcome}, NoWriteFails sched →
    bufs.flatten.length ≤ writes sched → ∃ sent, send sched bufs = some sent := by
  induction bufs with
  | nil => exact fun _ _ => ⟨[], rfl⟩
  | cons buf bufs ih =>
    intro sched hno henough
    rw [List.flatten_cons, List.length_append] at henough
    obtain ⟨used, hused, -, hcase⟩ := rioWriten_spec sched buf
    rcases hcase with ⟨hret, -, -, hspent⟩ | ⟨-, -, hbad⟩ | ⟨-, hshort, -, hfew⟩
    · have hno' : NoWriteFails (rioWriten sched buf).sched := hno.suffix ⟨used, hused⟩
      obtain ⟨sent, hsent⟩ := ih hno' (by omega)
      exact ⟨_, by simp only [send, hret, hsent, Option.map_some]; rfl⟩
    · rw [← hused, noWriteFails_append] at hno
      exact absurd hno.1 hbad
    · omega

/-- No text overflows its buffer. -/
theorem bufs_exist {r : Request} {length : Option Int} {type : Option Bytes} (h : r.Announced length type) (stock : Stock) :
    ∃ bufs, r.bufs stock = some bufs := by
  have hpath : ∀ name : Name, (0 : UInt8) ∉ name.path ∧ name.path.length ≤ 265 := by
    intro name
    have hdir : (UPLOAD_DIR ++ [slash]).length = 10 := rfl
    have hshort := name.short
    refine ⟨name.contained.nul, ?_⟩
    rw [Name.path, List.length_append, hdir]
    unfold NAME_MAX at hshort
    omega
  have hupload : ∀ (name : Name) {status : Bytes} (n : Nat), status ∈ uploadStatuses → (n : Int) ≤ INT_MAX →
      ∃ bufs, (Response.upload status name.path n).buffers = some bufs := by
    intro name status n hstatus hn
    have hfits : (Response.upload status name.path n).Fits := by
      apply upload_fits hstatus
      · exact Int.natCast_nonneg n
      · unfold INT_MAX at hn
        omega
      · rw [cstring_eq (hpath name).1]
        have := (hpath name).2
        unfold MAXBUF
        omega
    exact hfits.imp fun _ h => h.1
  have herror : ∀ (name : Name) {errnum shortmsg longmsg : Bytes}, (errnum, shortmsg, longmsg) ∈ errorTexts →
      ∃ bufs, (Response.error name.path errnum shortmsg longmsg).buffers = some bufs := by
    intro name errnum shortmsg longmsg hcalled
    have hlen := (hpath name).2
    have hcause : name.path.length < PATH_MAX := by
      unfold PATH_MAX
      omega
    exact (error_fits hcalled hcause).imp fun _ h => h.1
  have hfits := Request.announced_fits h
  cases r with
  | put name file => exact hupload name _ (by simp [uploadStatuses]) hfits
  | post name file => exact hupload name _ (by simp [uploadStatuses]) hfits
  | form name f => exact hupload name _ (by simp [uploadStatuses]) hfits
  | get name =>
    simp only [Request.bufs]
    split
    · exact herror name (by simp [errorTexts])
    · split
      · exact ⟨_, rfl⟩
      · exact herror name (by simp [errorTexts])

/-- **One client.** How many calls it takes does not depend on the disk. -/
theorem turn_returns (cgi : Bytes → Bytes → Bytes) (cwd : List Bytes) (stock : Stock) (c : Client) :
    ∃ enough, ∀ k ≥ enough, ∀ disk, Holds cwd disk stock → ∃ disk' sent,
      turn cgi cwd disk (c.conn k) = some (disk', sent) ∧ Holds cwd disk' (c.request.apply stock) ∧
        (c.request.answer stock).Sent sent := by
  obtain ⟨bufs, hbufs⟩ := bufs_exist c.announced stock
  obtain ⟨e₁, h₁⟩ := c.not_starved
  obtain ⟨e₂, h₂⟩ := c.accepted.enough bufs.flatten.length
  refine ⟨e₁ + e₂, fun k hk disk h => ?_⟩
  have hc := c.carries k
  rcases hc.ends h with ⟨-, hstarved⟩ | hends
  · exact absurd hstarved (h₁ k (by omega))
  · have hgo : (c.conn k).doit cwd disk ≠ .blocked := by
      rw [hends]
      cases c.request <;> simp [Request.ends]
    have hmethod : requestMethod (c.conn k).line = some c.request.method := hc.method hgo
    obtain ⟨sent, hsend⟩ := send_returns bufs hc.answers (h₂ k (by omega))
    have hreply : reply cgi cwd disk (c.conn k) ((c.conn k).doit cwd disk) = some sent := by
      rw [hends, reply_ends h hmethod, hbufs]
      exact hsend
    have hturn : turn cgi cwd disk (c.conn k) = some (disk.after cwd ((c.conn k).doit cwd disk), sent) := by
      rw [turn, hreply, Option.map_some]
    exact ⟨_, _, hturn, turn_simulates h hc hturn⟩

def putHi : Client where
  request := .put letterA (ascii "hi")
  lines := [twoBytes]
  more := []
  hdr := []
  rio := zeroRio
  reads := byteWise
  stores := fun _ => .count 1
  sends := fun _ => .count 1
  harmless := twoBytes_harmless
  announced := twoBytes_announced
  closes := byteWise_closes
  stored := ⟨fun _ => rfl, fun i => ⟨i, Nat.le_refl i, rfl⟩⟩
  accepted := ⟨fun _ => rfl, fun i => ⟨i, Nat.le_refl i, rfl⟩⟩

end ComputerSystem.Tiny
