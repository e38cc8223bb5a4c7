import ComputerSystem.MuxEcho.World
/-!
# The system calls of the echo servers

`World.Ok` is what holds of the descriptors: a connection is in the backlog, or has one descriptor, or
is closed. There is one lemma for each call. It says that the call keeps `World.Ok`, what it leaves
alone (`Frame`), and what it does to every single connection (`Serve`).
-/

namespace ComputerSystem.MuxEcho

open Rio (ReadOutcome WriteOutcome)
open Relation (ReflTransGen)

structure World.Ok (w : World) : Prop where
  listen : w.listenfd ∈ w.taken
  taken  : ∀ fd ∈ w.taken, w.table fd = none
  inj    : ∀ {fd fd' c}, w.table fd = some c → w.table fd' = some c → fd = fd'
  made   : ∀ {fd c}, w.table fd = some c → c < w.count
  queued : ∀ c ∈ w.pending, c < w.count
  apart  : ∀ {fd c}, w.table fd = some c → c ∉ w.pending
  nodup  : w.pending.Nodup
  owned  : ∀ c < w.count, (w.conns c).closed = false ↔ c ∈ w.pending ∨ ∃ fd, w.table fd = some c
  fresh  : ∀ c, w.count ≤ c → w.conns c = Conn.new

theorem World.start_ok (listenfd : Nat) (others : List Nat) : (World.start listenfd others).Ok where
  listen := List.mem_cons_self ..
  taken  := fun _ _ => rfl
  inj    := fun h => by cases h
  made   := fun h => by cases h
  queued := fun _ h => by cases h
  apart  := fun h => by cases h
  nodup  := List.nodup_nil
  owned  := fun _ h => by cases h
  fresh  := fun _ _ => rfl

/-- The descriptors stay, and so does what can be read, except perhaps at `busy`. -/
structure Frame (busy : Option Nat) (w w' : World) : Prop where
  listenfd : w'.listenfd = w.listenfd
  taken    : w'.taken = w.taken
  table    : w'.table = w.table
  readable : ∀ fd, busy ≠ some fd → w.readable fd = true → w'.readable fd = true

theorem Frame.refl (busy : Option Nat) (w : World) : Frame busy w w := ⟨rfl, rfl, rfl, fun _ _ h => h⟩

/-! ## One connection changes -/

variable {w w' : World} {c : Nat} {f : Conn → Conn}

@[simp] theorem World.update_pending : (w.update c f).pending = w.pending := rfl
@[simp] theorem World.update_table : (w.update c f).table = w.table := rfl

@[simp] theorem World.update_self : (w.update c f).conns c = f (w.conns c) := by
  simp [World.update]

theorem World.update_ne {d : Nat} (h : d ≠ c) : (w.update c f).conns d = w.conns d := by
  simp [World.update, h]

/-- `closed` stays, and the connection was made. -/
theorem World.Ok.update (h : w.Ok) (hc : c < w.count) (hf : (f (w.conns c)).closed = (w.conns c).closed) :
    (w.update c f).Ok where
  listen := h.listen
  taken  := h.taken
  inj    := h.inj
  made   := h.made
  queued := h.queued
  apart  := h.apart
  nodup  := h.nodup
  owned  := by
    intro d hd
    rw [World.update_pending, World.update_table, ← h.owned d hd]
    by_cases hdc : d = c
    · rw [hdc, World.update_self, hf]
    · rw [World.update_ne hdc]
  fresh  := by
    intro d hd
    rw [World.update_ne (by have : w.count ≤ d := hd; omega)]
    exact h.fresh d hd

theorem World.readable_listen : w.readable w.listenfd = decide (w.pending ≠ []) := by
  rw [World.readable, if_pos rfl]

theorem World.readable_conn {fd : Nat} (hl : fd ≠ w.listenfd) (h : w.table fd = some c) :
    w.readable fd = (w.conns c).readable := by
  simp only [World.readable, if_neg hl, h]

theorem World.readable_none {fd : Nat} (hl : fd ≠ w.listenfd) (h : w.table fd = none) :
    w.readable fd = false := by
  simp only [World.readable, if_neg hl, h]

theorem World.readable_update_ne {fd : Nat} (h : w.table fd ≠ some c) :
    (w.update c f).readable fd = w.readable fd := by
  by_cases hl : fd = w.listenfd
  · subst hl
    exact (w.update c f).readable_listen.trans w.readable_listen.symm
  · cases htable : w.table fd with
    | none => rw [World.readable_none hl htable, World.readable_none (w := w.update c f) hl htable]
    | some d =>
      rw [World.readable_conn hl htable, World.readable_conn (w := w.update c f) hl htable, World.update_ne]
      rintro rfl
      exact h htable

/-- An end of file can be read. -/
theorem World.readable_fin (h : w.Ok) {fd : Nat} (hfin : w.fin fd = true) : w.readable fd = true := by
  cases htable : w.table fd with
  | none => simp [World.fin, htable] at hfin
  | some c =>
    have hl : fd ≠ w.listenfd := by
      rintro rfl
      rw [h.taken _ h.listen] at htable
      cases htable
    have hfin' : (w.conns c).fin = true := by simpa [World.fin, htable] using hfin
    rw [World.readable_conn hl htable]
    simp [Conn.readable, hfin']

/-- A change that takes nothing from the input. -/
theorem World.readable_update (hf : (w.conns c).readable = true → (f (w.conns c)).readable = true) {fd : Nat}
    (h : w.readable fd = true) : (w.update c f).readable fd = true := by
  by_cases htable : w.table fd = some c
  · by_cases hl : fd = w.listenfd
    · subst hl
      exact ((w.update c f).readable_listen.trans w.readable_listen.symm).trans h
    · rw [World.readable_conn hl htable] at h
      rw [World.readable_conn (w := w.update c f) hl htable, World.update_self]
      exact hf h
  · rw [World.readable_update_ne htable]
    exact h

/-- A change at `fd`'s connection. -/
theorem Frame.update {fd : Nat} (h : w.Ok) (hfd : w.table fd = some c) : Frame (some fd) w (w.update c f) := by
  refine ⟨rfl, rfl, rfl, fun fd' hne hr => ?_⟩
  rw [World.readable_update_ne]
  · exact hr
  · intro h'
    exact hne (congrArg some (h.inj hfd h'))

/-- What is in hand does not depend on the other fields. -/
theorem World.view_hand (h : w.hand = none) (c : Nat) : w.view c = ⟨w.conns c, []⟩ := by
  simp [World.view, h]

theorem World.view_here {fd : Nat} {left : Bytes} (h : w.hand = some (fd, left)) (hfd : w.table fd = some c) :
    w.view c = ⟨w.conns c, left⟩ := by
  simp [World.view, h, hfd]

/-- Only the connection that changes is served. -/
theorem World.serve_update (hserve : Serve (w.view c) ⟨f (w.conns c), (w.view c).hand⟩) (d : Nat) :
    ReflTransGen Serve (w.view d) ((w.update c f).view d) := by
  by_cases hd : d = c
  · subst hd
    have hview : (w.update d f).view d = ⟨f (w.conns d), (w.view d).hand⟩ := by
      simp only [World.view, World.update_self]
      rfl
    rw [hview]
    exact .single hserve
  · have hview : (w.update c f).view d = w.view d := by
      simp only [World.view, World.update_ne hd]
      rfl
    rw [hview]

/-! ## The clients -/

theorem World.client_ok (h : w.Ok) {m : ClientMove} (hs : w.client m = some w') :
    w'.Ok ∧ Frame none w w' ∧ w'.hand = w.hand ∧ ∀ c, ReflTransGen Serve (w.view c) (w'.view c) := by
  cases m with
  | connect =>
    cases hs
    refine ⟨⟨h.listen, h.taken, h.inj, ?_, ?_, ?_, ?_, ?_, ?_⟩, ⟨rfl, rfl, rfl, ?_⟩, rfl, fun c => .refl⟩
    · intro fd c hfd
      exact Nat.lt_succ_of_lt (h.made hfd)
    · intro c hc
      rcases List.mem_append.1 hc with hc | hc
      · exact Nat.lt_succ_of_lt (h.queued c hc)
      · rw [List.mem_singleton.1 hc]
        exact Nat.lt_succ_self _
    · intro fd c hfd hc
      rcases List.mem_append.1 hc with hc | hc
      · exact h.apart hfd hc
      · have := h.made hfd
        rw [List.mem_singleton.1 hc] at this
        omega
    · refine List.nodup_append.2 ⟨h.nodup, by simp, fun a ha b hb => ?_⟩
      have := h.queued a ha
      rw [List.mem_singleton.1 hb]
      omega
    · intro c hc
      by_cases hlast : c = w.count
      · subst hlast
        have hnew := h.fresh w.count (Nat.le_refl _)
        simp only [hnew, Conn.new, List.mem_append, List.mem_singleton, or_true, true_or]
      · have hold := h.owned c (by have : c < w.count + 1 := hc; omega)
        simp only [List.mem_append, List.mem_singleton, hlast, or_false]
        exact hold
    · intro c hc
      exact h.fresh c (by have : w.count + 1 ≤ c := hc; omega)
    · intro fd _ hr
      simp only [World.readable] at hr ⊢
      split at hr
      · rename_i hl
        simp [hl]
      · rename_i hl
        rw [if_neg hl]
        exact hr
  | send c bs =>
    simp only [World.client] at hs
    split at hs
    · rename_i hc
      cases hs
      refine ⟨h.update hc.1 rfl, ⟨rfl, rfl, rfl, fun fd _ => World.readable_update ?_⟩, rfl,
        World.serve_update (Serve.send (v := w.view c) bs hc.2)⟩
      intro hr
      simp only [Conn.readable, decide_eq_true_eq] at hr ⊢
      rcases hr with hr | hr
      · exact .inl fun happ => hr (List.append_eq_nil_iff.1 happ).1
      · exact .inr hr
    · cases hs
  | shutdown c =>
    simp only [World.client] at hs
    split at hs
    · rename_i hc
      cases hs
      refine ⟨h.update hc rfl, ⟨rfl, rfl, rfl, fun fd _ => World.readable_update ?_⟩, rfl,
        World.serve_update (Serve.shutdown (v := w.view c))⟩
      intro _
      simp [Conn.readable]
    · cases hs

/-! ## `accept` and `close` -/

/-- `fd` was free and has a connection now. -/
structure Accepted (fd : Nat) (w w' : World) : Prop where
  listenfd : w'.listenfd = w.listenfd
  taken    : w'.taken = w.taken
  free     : w.table fd = none
  other    : fd ≠ w.listenfd
  here     : w'.table fd ≠ none
  table    : ∀ fd', fd' ≠ fd → w'.table fd' = w.table fd'
  readable : ∀ fd', fd' ≠ fd → fd' ≠ w.listenfd → w'.readable fd' = w.readable fd'

/-- `fd` is free. -/
structure Closed (fd : Nat) (w w' : World) : Prop where
  listenfd : w'.listenfd = w.listenfd
  taken    : w'.taken = w.taken
  gone     : w'.table fd = none
  table    : ∀ fd', fd' ≠ fd → w'.table fd' = w.table fd'
  readable : ∀ fd', fd' ≠ fd → w'.readable fd' = w.readable fd'

theorem World.accept_some {fd : Nat} (hs : w.accept fd = some w') :
    ∃ c rest, w.pending = c :: rest ∧ fd ∉ w.taken ∧ w.table fd = none ∧
      w' = { w with pending := rest, table := Function.update w.table fd (some c) } := by
  simp only [World.accept] at hs
  split at hs
  · cases hs
  · rename_i c rest hpending
    split at hs
    · cases hs
    · rename_i hopen
      obtain ⟨htaken, hfree⟩ : fd ∉ w.taken ∧ w.table fd = none := by
        simpa [World.isOpen] using hopen
      exact ⟨c, rest, hpending, htaken, hfree, (Option.some.inj hs).symm⟩

theorem World.accept_ok (h : w.Ok) {fd : Nat} (hhand : w.hand = none) (hs : w.accept fd = some w') :
    w'.Ok ∧ Accepted fd w w' ∧ w'.hand = none ∧ ∀ c, w'.view c = w.view c := by
  obtain ⟨c, rest, hpending, htaken, hfree, hw'⟩ := World.accept_some hs
  have htable : ∀ {fd' d}, w'.table fd' = some d ↔ fd' = fd ∧ d = c ∨ fd' ≠ fd ∧ w.table fd' = some d := by
    intro fd' d
    by_cases heq : fd' = fd
    · simp [hw', heq, eq_comm]
    · simp [hw', heq]
  obtain ⟨hl, ht, hn, hc, hp, hh⟩ : w'.listenfd = w.listenfd ∧ w'.taken = w.taken ∧ w'.count = w.count ∧
      w'.conns = w.conns ∧ w'.pending = rest ∧ w'.hand = w.hand := by simp [hw']
  have hothers : ∀ fd', fd' ≠ fd → w'.table fd' = w.table fd' := fun fd' hne => by
    simp [hw', hne]
  have hother : fd ≠ w.listenfd := fun heq => htaken (heq ▸ h.listen)
  have hhead : c ∈ w.pending := by rw [hpending]; exact List.mem_cons_self ..
  have hrest : ∀ d ∈ rest, d ∈ w.pending := fun d hd => by rw [hpending]; exact List.mem_cons_of_mem _ hd
  obtain ⟨hnotin, hnodup⟩ := List.nodup_cons.1 (hpending ▸ h.nodup)
  refine ⟨⟨?_, ?_, ?_, ?_, ?_, ?_, ?_, ?_, ?_⟩, ⟨hl, ht, hfree, hother, ?_, hothers, ?_⟩, hh.trans hhand, ?_⟩
  · rw [hl, ht]
    exact h.listen
  · rw [ht]
    intro fd' hfd'
    rw [hothers fd' fun heq => htaken (heq ▸ hfd')]
    exact h.taken fd' hfd'
  · intro fd₁ fd₂ d h₁ h₂
    rcases htable.1 h₁ with ⟨e₁, d₁⟩ | ⟨-, t₁⟩ <;> rcases htable.1 h₂ with ⟨e₂, d₂⟩ | ⟨-, t₂⟩
    · exact e₁.trans e₂.symm
    · exact absurd (d₁ ▸ hhead) (h.apart t₂)
    · exact absurd (d₂ ▸ hhead) (h.apart t₁)
    · exact h.inj t₁ t₂
  · rw [hn]
    intro fd' d hd
    rcases htable.1 hd with ⟨-, rfl⟩ | ⟨-, hd⟩
    · exact h.queued _ hhead
    · exact h.made hd
  · rw [hn, hp]
    exact fun d hd => h.queued d (hrest d hd)
  · rw [hp]
    intro fd' d hd hin
    rcases htable.1 hd with ⟨-, rfl⟩ | ⟨-, hd⟩
    · exact hnotin hin
    · exact h.apart hd (hrest d hin)
  · rw [hp]
    exact hnodup
  · rw [hn, hc, hp]
    intro d hd
    refine (h.owned d hd).trans ⟨?_, ?_⟩
    · rintro (hin | ⟨fd', hfd'⟩)
      · rw [hpending] at hin
        rcases List.mem_cons.1 hin with rfl | hin
        · exact .inr ⟨fd, htable.2 (.inl ⟨rfl, rfl⟩)⟩
        · exact .inl hin
      · refine .inr ⟨fd', htable.2 (.inr ⟨?_, hfd'⟩)⟩
        rintro rfl
        rw [hfree] at hfd'
        cases hfd'
    · rintro (hin | ⟨fd', hfd'⟩)
      · exact .inl (hrest d hin)
      · rcases htable.1 hfd' with ⟨-, rfl⟩ | ⟨-, hfd'⟩
        · exact .inl hhead
        · exact .inr ⟨fd', hfd'⟩
  · rw [hn, hc]
    exact h.fresh
  · rw [htable.2 (.inl ⟨rfl, rfl⟩)]
    exact Option.some_ne_none c
  · intro fd' hne hne'
    simp only [World.readable, hl, if_neg hne', hothers fd' hne, hc]
  · intro d
    rw [World.view_hand hhand, World.view_hand (hh.trans hhand), hc]

@[simp] theorem World.close_listenfd (fd : Nat) : (w.close fd).listenfd = w.listenfd := by
  unfold World.close; split <;> rfl

@[simp] theorem World.close_taken (fd : Nat) : (w.close fd).taken = w.taken := by
  unfold World.close; split <;> rfl

@[simp] theorem World.close_count (fd : Nat) : (w.close fd).count = w.count := by
  unfold World.close; split <;> rfl

@[simp] theorem World.close_pending (fd : Nat) : (w.close fd).pending = w.pending := by
  unfold World.close; split <;> rfl

@[simp] theorem World.close_hand (fd : Nat) : (w.close fd).hand = w.hand := by
  unfold World.close; split <;> rfl

@[simp] theorem World.close_table (fd : Nat) : (w.close fd).table = Function.update w.table fd none := by
  unfold World.close
  split
  · rename_i hfree
    rw [← hfree, Function.update_eq_self]
  · rfl

theorem World.close_self {fd : Nat} (hc : w.table fd = some c) :
    (w.close fd).conns c = { w.conns c with closed := true } := by
  simp [World.close, hc]

theorem World.close_ne {fd d : Nat} (hd : w.table fd ≠ some d) : (w.close fd).conns d = w.conns d := by
  unfold World.close
  split
  · rfl
  · rename_i c hc
    rw [hc] at hd
    exact World.update_ne (w := w) (f := fun k => { k with closed := true }) fun heq => hd (congrArg some heq).symm

theorem World.close_closed (h : w.Ok) (fd : Nat) : Closed fd w (w.close fd) := by
  have htable : ∀ fd', fd' ≠ fd → (w.close fd).table fd' = w.table fd' := fun fd' hne => by
    rw [World.close_table, Function.update_of_ne hne]
  refine ⟨w.close_listenfd fd, w.close_taken fd, by simp, htable, fun fd' hne => ?_⟩
  simp only [World.readable, World.close_listenfd, World.close_pending, htable fd' hne]
  split
  · rfl
  · split
    · rename_i d hd
      rw [World.close_ne fun hc => hne (h.inj hd hc)]
    · rfl

/-- The descriptor of a connection whose end was read. -/
theorem World.close_ok (h : w.Ok) {fd : Nat} (hc : w.table fd = some c) (hhand : w.hand = none)
    (heof : (w.conns c).sawEof = true) :
    (w.close fd).Ok ∧ (w.close fd).hand = none ∧ ∀ d, ReflTransGen Serve (w.view d) ((w.close fd).view d) := by
  have htable : ∀ {fd' d}, (w.close fd).table fd' = some d ↔ fd' ≠ fd ∧ w.table fd' = some d := by
    intro fd' d
    by_cases heq : fd' = fd
    · simp [heq]
    · simp [heq]
  have hhand' : (w.close fd).hand = none := (w.close_hand fd).trans hhand
  have hother : ∀ d, d ≠ c → (w.close fd).conns d = w.conns d := fun d hd =>
    World.close_ne fun h' => hd (Option.some.inj (hc.symm.trans h')).symm
  refine ⟨⟨?_, ?_, ?_, ?_, ?_, ?_, ?_, ?_, ?_⟩, hhand', fun d => ?_⟩
  · rw [World.close_listenfd, World.close_taken]
    exact h.listen
  · rw [World.close_taken]
    intro fd' hfd'
    rw [World.close_table]
    by_cases heq : fd' = fd
    · rw [heq, Function.update_self]
    · rw [Function.update_of_ne heq, h.taken fd' hfd']
  · exact fun h₁ h₂ => h.inj (htable.1 h₁).2 (htable.1 h₂).2
  · rw [World.close_count]
    exact fun hd => h.made (htable.1 hd).2
  · rw [World.close_count, World.close_pending]
    exact h.queued
  · rw [World.close_pending]
    exact fun hd => h.apart (htable.1 hd).2
  · rw [World.close_pending]
    exact h.nodup
  · rw [World.close_count, World.close_pending]
    intro d hd
    by_cases hdc : d = c
    · subst hdc
      rw [World.close_self hc]
      constructor
      · intro hclosed
        cases hclosed
      · rintro (hin | ⟨fd', hfd'⟩)
        · exact absurd hin (h.apart hc)
        · exact absurd (h.inj (htable.1 hfd').2 hc) (htable.1 hfd').1
    · rw [hother d hdc]
      refine (h.owned d hd).trans (or_congr_right ⟨?_, ?_⟩)
      · rintro ⟨fd', hfd'⟩
        refine ⟨fd', htable.2 ⟨?_, hfd'⟩⟩
        rintro rfl
        exact hdc (Option.some.inj (hc.symm.trans hfd')).symm
      · rintro ⟨fd', hfd'⟩
        exact ⟨fd', (htable.1 hfd').2⟩
  · rw [World.close_count]
    intro d hd
    have := h.made hc
    rw [hother d (by omega)]
    exact h.fresh d hd
  · rw [World.view_hand hhand, World.view_hand hhand']
    by_cases hd : d = c
    · subst hd
      rw [World.close_self hc]
      exact .single (Serve.close (v := ⟨w.conns d, []⟩) heof rfl)
    · rw [hother d hd]

/-! ## `read` and `write` -/

/-- What is in hand belongs to `fd`. -/
def World.handAt (w : World) (fd : Nat) : Prop := ∀ p, w.hand = some p → p.1 = fd

theorem World.view_other {fd d : Nat} (h : w.handAt fd) (hc : w.table fd = some c) (hd : d ≠ c) :
    w.view d = ⟨w.conns d, []⟩ := by
  cases hhand : w.hand with
  | none => exact w.view_hand hhand d
  | some p =>
    obtain ⟨fd', left⟩ := p
    obtain rfl : fd' = fd := h _ hhand
    simp [World.view, hhand, hc, Ne.symm hd]

/-- A call on `fd` changes its connection, and leaves `left` in hand. -/
theorem World.Ok.call (h : w.Ok) {fd : Nat} (hat : w.handAt fd) (hc : w.table fd = some c)
    {x : Option (Nat × Bytes)} {left : Bytes} (hx : x = none ∧ left = [] ∨ x = some (fd, left))
    (hf : (f (w.conns c)).closed = (w.conns c).closed) (hserve : Serve (w.view c) ⟨f (w.conns c), left⟩)
    (hw' : w' = { w.update c f with hand := x }) :
    w'.Ok ∧ Frame (some fd) w w' ∧ ∀ d, ReflTransGen Serve (w.view d) (w'.view d) := by
  have hok := h.update (h.made hc) hf
  have hframe := Frame.update (f := f) h hc
  have hc' : w'.table fd = some c := by rw [hw']; exact hc
  have hconns : w'.conns = (w.update c f).conns := by rw [hw']
  have hhand : w'.hand = x := by rw [hw']
  refine ⟨?_, ?_, fun d => ?_⟩
  · rw [hw']
    exact ⟨hok.listen, hok.taken, hok.inj, hok.made, hok.queued, hok.apart, hok.nodup, hok.owned, hok.fresh⟩
  · rw [hw']
    exact ⟨rfl, rfl, rfl, hframe.readable⟩
  · by_cases hd : d = c
    · subst hd
      have hview : w'.view d = ⟨f (w.conns d), left⟩ := by
        rw [← World.update_self (w := w) (f := f), ← hconns]
        rcases hx with ⟨hx, rfl⟩ | hx
        · exact w'.view_hand (hhand.trans hx) d
        · exact World.view_here (hhand.trans hx) hc'
      rw [hview]
      exact .single hserve
    · have hat' : w'.handAt fd := fun p hp => by
        rcases hx with ⟨hx, -⟩ | hx
        · rw [hhand, hx] at hp
          cases hp
        · rw [hhand, hx] at hp
          cases hp
          rfl
      rw [World.view_other hat hc hd, World.view_other hat' hc' hd, hconns, World.update_ne hd]

/-- What a call on `fd` without error leaves behind. -/
def World.after (w' : World) (fd c : Nat) : Echo → Prop
  | .writing => ∃ left, left ≠ [] ∧ w'.hand = some (fd, left)
  | .returned true => w'.hand = none
  | .returned false => w'.hand = none ∧ (w'.conns c).sawEof = true

theorem World.read_ok (h : w.Ok) {fd : Nat} (hc : w.table fd = some c) (hhand : w.hand = none)
    {o : ReadOutcome} (ho : o ≠ .error) {e : Echo} (hs : w.read fd o = some (w', e)) :
    w'.Ok ∧ Frame (some fd) w w' ∧ (∀ d, ReflTransGen Serve (w.view d) (w'.view d)) ∧ w'.after fd c e := by
  have hat : w.handAt fd := fun p hp => by
    rw [hhand] at hp
    cases hp
  cases o with
  | error => exact absurd rfl ho
  | eintr =>
    cases hs
    exact ⟨h, .refl _ _, fun _ => .refl, hhand⟩
  | count k =>
    simp only [World.read, hc] at hs
    split at hs
    · rename_i hempty
      split at hs
      · rename_i hfin
        have hserve : Serve (w.view c) ⟨{ w.conns c with sawEof := true }, []⟩ := by
          rw [World.view_hand hhand]
          exact Serve.eof (v := ⟨w.conns c, []⟩) hempty hfin rfl
        obtain ⟨hw', rfl⟩ := Prod.mk.inj (Option.some.inj hs)
        obtain ⟨hok, hframe, hviews⟩ := h.call (f := fun k => { k with sawEof := true }) hat hc (.inl ⟨rfl, rfl⟩)
          rfl hserve (hw'.symm.trans (by rw [← hhand]; rfl))
        refine ⟨hok, hframe, hviews, ?_, ?_⟩
        · rw [← hw']
          exact hhand
        · rw [← hw', World.update_self]
      · cases hs
    · rename_i hne
      split at hs
      · cases hs
      · rename_i hn
        have hserve := Serve.read (v := w.view c) (min k MAXLINE) (by rw [World.view_hand hhand]) hne
        obtain ⟨hw', rfl⟩ := Prod.mk.inj (Option.some.inj hs)
        obtain ⟨hok, hframe, hviews⟩ := h.call hat hc (.inr rfl) rfl hserve hw'.symm
        refine ⟨hok, hframe, hviews, _, ?_, (congrArg World.hand hw').symm⟩
        rw [Ne, List.take_eq_nil_iff]
        rintro (h0 | h0)
        · exact hn h0
        · exact hne h0

theorem World.write_ok (h : w.Ok) {fd : Nat} {left : Bytes} (hc : w.table fd = some c) (hleft : left ≠ [])
    (hhand : w.hand = some (fd, left)) {o : WriteOutcome} (ho : o ≠ .error) (ho' : o ≠ .count 0) {e : Echo}
    (hs : w.write o = some (w', e)) :
    w'.Ok ∧ Frame (some fd) w w' ∧ (∀ d, ReflTransGen Serve (w.view d) (w'.view d)) ∧ w'.after fd c e := by
  have hat : w.handAt fd := fun p hp => by
    rw [hhand] at hp
    cases hp
    rfl
  simp only [World.write, hhand, hc] at hs
  cases o with
  | error => exact absurd rfl ho
  | eintr =>
    cases hs
    exact ⟨h, .refl _ _, fun _ => .refl, left, hleft, hhand⟩
  | count k =>
    have hserve : Serve (w.view c) ⟨{ w.conns c with written := (w.conns c).written ++ left.take k },
        left.drop k⟩ := by
      rw [World.view_here hhand hc]
      exact Serve.write (v := ⟨w.conns c, left⟩) k
    have hk : k ≠ 0 := by
      rintro rfl
      exact ho' rfl
    simp only [hk, if_false] at hs
    split at hs
    · rename_i hdone
      obtain ⟨hw', rfl⟩ := Prod.mk.inj (Option.some.inj hs)
      obtain ⟨hok, hframe, hviews⟩ := h.call (f := fun conn => { conn with written := conn.written ++ left.take k })
        hat hc (.inl ⟨rfl, hdone⟩) rfl hserve hw'.symm
      exact ⟨hok, hframe, hviews, (congrArg World.hand hw').symm⟩
    · rename_i hmore
      obtain ⟨hw', rfl⟩ := Prod.mk.inj (Option.some.inj hs)
      obtain ⟨hok, hframe, hviews⟩ := h.call (f := fun conn => { conn with written := conn.written ++ left.take k })
        hat hc (.inr rfl) rfl hserve hw'.symm
      exact ⟨hok, hframe, hviews, left.drop k, hmore, (congrArg World.hand hw').symm⟩

/-- On a readable descriptor `read` returns. -/
theorem World.read_returns {fd : Nat} (hl : fd ≠ w.listenfd) (hc : w.table fd = some c)
    (hr : w.readable fd = true) {k : Nat} (hk : 0 < k) : (w.read fd (.count k)).isSome := by
  rw [World.readable_conn hl hc] at hr
  simp only [Conn.readable, decide_eq_true_eq] at hr
  have hn : min k MAXLINE ≠ 0 := by
    have : 0 < MAXLINE := by decide
    omega
  simp only [World.read, hc]
  by_cases hempty : (w.conns c).unread = []
  · have hfin : (w.conns c).fin = true := hr.resolve_left fun h => h hempty
    simp [hempty, hfin]
  · simp [hempty, hn]

end ComputerSystem.MuxEcho
