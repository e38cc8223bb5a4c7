import ComputerSystem.Lib.Descriptors
import ComputerSystem.ProcessEcho.Server
/-!
# Who has the connections of the process-per-client server (`process_echo_server.c:82-117`)

The machine of `Server.lean` with the descriptor tables of its processes and with what a child runs. A child
starts with the parent's table, so that for a while both have the connection; a client comes to the end of
what it is sent only when neither has.

| here              | there                                                                |
|-------------------|----------------------------------------------------------------------|
| `ChildPc`         | `:102-107`; a signal can end a child at each of these                   |
| `Label.io`        | a `read(2)` or `write(2)` in `echo` (`:49-66`), on the child's `connfd`  |
| `Label.echoed`    | `echo` returns                                                          |
| `State.served`    | for each child, in the order of their forks, the connection `main` had   |
| `State.touched`   | what each of these calls was made on, with the number of the child       |

`accept` gives the connection the lowest number that is not in use. What the parent sends to `stdout` is
left out, and the process number 0 stands for it.
-/

namespace ComputerSystem.ProcessEcho.Descriptors

open ComputerSystem.Descriptors

inductive Desc
  | inherited (fd : Nat)
  | listen
  /-- the connections are counted -/
  | conn (c : Nat)
deriving DecidableEq, Repr

inductive ChildPc
  /-- `close(listenfd)` (`:102`) -/
  | closeListen
  /-- in `echo` (`:104`) -/
  | echo
  /-- `close(connfd)` (`:105`) -/
  | closeConn
  /-- `_exit(0)` (`:107`) -/
  | exit
deriving DecidableEq, Repr

structure Child where
  pc     : ChildPc
  connfd : Nat
  number : Nat
deriving DecidableEq, Repr

/-- What `main` comes to its loop with. -/
structure Setup where
  inherited : Nat → Bool
  listenfd  : Nat
  fresh     : inherited listenfd = false

def Setup.table (u : Setup) : Table Desc := fun fd =>
  if fd = u.listenfd then some .listen else if u.inherited fd then some (.inherited fd) else none

structure State where
  server   : ProcessEcho.State
  tables   : Tables Pid Desc
  children : Pid → Option Child
  accepted : Nat
  served   : List Nat
  touched  : List (Nat × Desc)

def start (u : Setup) (blocked : Bool) : State :=
  ⟨ProcessEcho.start blocked, Function.update (fun _ _ => none) 0 u.table, fun _ => none, 0, [], []⟩

inductive Label
  | server (l : ProcessEcho.Label)
  | close (pid : Pid)
  | io (pid : Pid)
  | echoed (pid : Pid)
deriving DecidableEq, Repr

/-- What a step of the server changes here. -/
def State.after (s : State) : ProcessEcho.Label → Option State
  | .accept (some connfd) =>
    if (s.tables 0).Lowest connfd then
      some { s with tables := s.tables.install 0 connfd (.conn s.accepted), accepted := s.accepted + 1 }
    else none
  | .fork (some pid) => match s.server.pc with
    | .fork connfd => some { s with
        tables := s.tables.fork 0 pid
        children := Function.update s.children pid (some ⟨.closeListen, connfd, s.served.length⟩)
        served := s.served ++ [s.accepted - 1] }
    | _ => none
  | .close => match s.server.pc with
    | .close connfd => some { s with tables := s.tables.close 0 connfd }
    | _ => none
  | .exit pid => some { s with tables := s.tables.exit pid, children := Function.update s.children pid none }
  | _ => some s

def State.setChild (s : State) (pid : Pid) (ch : Child) (pc : ChildPc) : State :=
  { s with children := Function.update s.children pid (some { ch with pc := pc }) }

def step (u : Setup) (s : State) : Label → Option State
  | .server l => match ProcessEcho.step s.server l, s.after l with
    | some server, some s' => some { s' with server := server }
    | _, _ => none
  | .close pid => match s.children pid with
    | some ch => match ch.pc with
      | .closeListen => some { s.setChild pid ch .echo with tables := s.tables.close pid u.listenfd }
      | .closeConn => some { s.setChild pid ch .exit with tables := s.tables.close pid ch.connfd }
      | _ => none
    | none => none
  | .io pid => match s.children pid with
    | some ch => match ch.pc, s.tables pid ch.connfd with
      | .echo, some d => some { s with touched := s.touched ++ [(ch.number, d)] }
      | _, _ => none
    | none => none
  | .echoed pid => match s.children pid with
    | some ch => match ch.pc with
      | .echo => some (s.setChild pid ch .closeConn)
      | _ => none
    | none => none

/-! ## What each table has -/

/-- The connection between the `accept` and the `close` of the parent. -/
def held (pc : ParentPc) : Option Nat := match pc with
  | .accept => none
  | .fork connfd | .close connfd => some connfd

def Setup.parent (u : Setup) (s : State) : Table Desc := match held s.server.pc with
  | none => u.table
  | some connfd => Function.update u.table connfd (some (.conn (s.accepted - 1)))

/-- With the connection `c`. -/
def Setup.child (u : Setup) (c : Nat) (ch : Child) : Table Desc := match ch.pc with
  | .closeListen => Function.update u.table ch.connfd (some (.conn c))
  | .echo | .closeConn => Function.update (Function.update u.table ch.connfd (some (.conn c))) u.listenfd none
  | .exit => Function.update (Function.update (Function.update u.table ch.connfd (some (.conn c))) u.listenfd none) ch.connfd none

structure Inv (u : Setup) (s : State) : Prop where
  parent   : s.tables 0 = u.parent s
  connfd   : ∀ connfd, held s.server.pc = some connfd → u.table.Lowest connfd ∧ 0 < s.accepted
  child    : ∀ pid ch, s.children pid = some ch → ∃ c, s.served[ch.number]? = some c ∧ u.table.Lowest ch.connfd ∧
    s.tables pid = u.child c ch
  ended    : ∀ pid, pid ≠ 0 → s.children pid = none → s.tables pid = fun _ => none
  alive    : ∀ pid ch, s.children pid = some ch → ∃ k ∈ s.server.kids, k.pid = pid
  zombie   : ∀ k ∈ s.server.kids, k.zombie = true → s.children k.pid = none
  kids     : ∀ k ∈ s.server.kids, k.pid ≠ 0
  numbers  : ∀ pid pid' ch ch', s.children pid = some ch → s.children pid' = some ch' → ch.number = ch'.number → pid = pid'
  accepted : ∀ c ∈ s.served, c < s.accepted
  /-- the parent forks for a connection that no child has had -/
  next     : ∀ connfd, s.server.pc = .fork connfd → s.accepted - 1 ∉ s.served
  once     : s.served.Nodup
  touched  : ∀ k d, (k, d) ∈ s.touched → ∃ c, d = .conn c ∧ s.served[k]? = some c

section
variable {u : Setup} {c : Nat} {ch : Child}

theorem Setup.lowest_ne (u : Setup) {fd : Nat} (h : u.table.Lowest fd) : fd ≠ u.listenfd := by
  rintro rfl
  have hnone := h.1
  rw [Setup.table, if_pos rfl] at hnone
  cases hnone

theorem Setup.table_refers (u : Setup) {d : Desc} : u.table.Refers d ↔ d = .listen ∨ ∃ fd, u.inherited fd = true ∧ d = .inherited fd := by
  constructor
  · rintro ⟨fd, hfd⟩
    unfold Setup.table at hfd
    split at hfd
    · exact .inl (Option.some.inj hfd).symm
    · split at hfd
      · rename_i hin
        exact .inr ⟨fd, hin, (Option.some.inj hfd).symm⟩
      · cases hfd
  · rintro (rfl | ⟨fd, hin, rfl⟩)
    · exact ⟨u.listenfd, if_pos rfl⟩
    · have hne : fd ≠ u.listenfd := by
        rintro rfl
        rw [u.fresh] at hin
        cases hin
      exact ⟨fd, by rw [Setup.table, if_neg hne, if_pos hin]⟩

theorem Setup.no_conn (u : Setup) : ¬ u.table.Refers (.conn c) := by
  rw [u.table_refers]
  rintro (h | ⟨fd, -, h⟩) <;> cases h

/-- Until it is closed. -/
theorem Setup.child_connfd (u : Setup) (c : Nat) (hlow : u.table.Lowest ch.connfd) (hpc : ch.pc ≠ .exit) :
    u.child c ch ch.connfd = some (.conn c) := by
  unfold Setup.child
  cases hat : ch.pc with
  | exit => exact absurd hat hpc
  | closeListen => exact Function.update_self ..
  | echo | closeConn =>
    simp only [Function.update_of_ne (u.lowest_ne hlow)]
    exact Function.update_self ..

/-- **A child has** what its parent was started with, the listening socket at first, and its own connection
to the end. -/
theorem Setup.child_refers (u : Setup) (hlow : u.table.Lowest ch.connfd) {d : Desc} (h : (u.child c ch).Refers d) :
    (∃ fd, u.inherited fd = true ∧ d = .inherited fd) ∨ d = .listen ∧ ch.pc = .closeListen ∨ d = .conn c ∧ ch.pc ≠ .exit := by
  have hfull : ∀ {d : Desc}, Table.Refers (Function.update u.table ch.connfd (some (.conn c))) d →
      d = .conn c ∨ d = .listen ∨ ∃ fd, u.inherited fd = true ∧ d = .inherited fd := by
    intro d hd
    rcases (refers_install hlow.1).1 hd with hd | hd
    · exact .inl hd.symm
    · exact .inr (u.table_refers.1 hd)
  have hlisten : ¬ Table.Refers (Function.update (Function.update u.table ch.connfd (some (.conn c))) u.listenfd none) .listen := by
    refine refers_close fun m hm => ?_
    by_cases hmc : m = ch.connfd
    · subst hmc
      rw [Function.update_self] at hm
      cases hm
    · rw [Function.update_of_ne hmc, Setup.table] at hm
      split at hm
      · assumption
      · split at hm <;> cases hm
  unfold Setup.child at h
  cases hpc : ch.pc with
  | closeListen =>
    rw [hpc] at h
    rcases hfull h with hd | hd | hd
    · exact .inr (.inr ⟨hd, nofun⟩)
    · exact .inr (.inl ⟨hd, rfl⟩)
    · exact .inl hd
  | echo | closeConn =>
    rw [hpc] at h
    rcases hfull (refers_of_none h) with hd | rfl | hd
    · exact .inr (.inr ⟨hd, nofun⟩)
    · exact absurd h hlisten
    · exact .inl hd
  | exit =>
    rw [hpc] at h
    rcases hfull (refers_of_none (refers_of_none h)) with rfl | rfl | hd
    · refine absurd h (refers_close fun m hm => ?_)
      -- no other number was the connection's
      by_contra hmc
      have hmn : m ≠ u.listenfd := by
        rintro rfl
        rw [Function.update_self] at hm
        cases hm
      rw [Function.update_of_ne hmn, Function.update_of_ne hmc] at hm
      exact u.no_conn ⟨m, hm⟩
    · exact absurd (refers_of_none h) hlisten
    · exact .inl hd

end

/-! ## The steps of the server -/

section
variable {s s' : ProcessEcho.State}

theorem accept_server {connfd : Nat} (hs : ProcessEcho.step s (.accept (some connfd)) = some s') :
    s.pc = .accept ∧ s' = { s with pc := .fork connfd } := by
  simp only [ProcessEcho.step] at hs
  split at hs
  · rename_i hpc hr
    cases hr
    exact ⟨hpc, (Option.some.inj hs).symm⟩
  · rename_i hr
    cases hr
  · cases hs

theorem fork_server {pid : Pid} (hs : ProcessEcho.step s (.fork (some pid)) = some s') :
    ∃ connfd, s.pc = .fork connfd ∧ pid ≠ 0 ∧ (∀ k ∈ s.kids, k.pid ≠ pid) ∧
      s' = { s with pc := .close connfd, kids := ⟨pid, connfd, false⟩ :: s.kids } := by
  simp only [ProcessEcho.step] at hs
  split at hs
  · rename_i connfd _ _ hpc hr
    cases hr
    split at hs
    · cases hs
    · rename_i hfree
      obtain ⟨hpid, hnew⟩ := not_or.1 hfree
      exact ⟨connfd, hpc, hpid, fun k hk hkpid => hnew (List.mem_map.2 ⟨k, hk, hkpid⟩), (Option.some.inj hs).symm⟩
  · rename_i hr
    cases hr
  · cases hs

theorem close_server (hs : ProcessEcho.step s .close = some s') :
    ∃ connfd, s.pc = .close connfd ∧ s' = { s with pc := .accept } := by
  simp only [ProcessEcho.step] at hs
  split at hs
  · rename_i connfd _ hpc
    exact ⟨connfd, hpc, (Option.some.inj hs).symm⟩
  · cases hs

theorem exit_server {pid : Pid} (hs : ProcessEcho.step s (.exit pid) = some s') :
    (∃ k ∈ s.kids, k.pid = pid ∧ k.zombie = false) ∧ s'.pc = s.pc ∧
      s'.kids = s.kids.map fun k => if k.pid = pid then { k with zombie := true } else k := by
  simp only [ProcessEcho.step] at hs
  split at hs
  · rename_i hk
    cases hs
    exact ⟨hk, rfl, rfl⟩
  · cases hs

/-- The connection is the parent's as before, and no child that runs is reaped. -/
structure Quiet (s s' : ProcessEcho.State) : Prop where
  held : held s'.pc = held s.pc
  fork : ∀ connfd, s'.pc = .fork connfd → s.pc = .fork connfd
  kids : ∀ k ∈ s'.kids, k ∈ s.kids
  stay : ∀ k ∈ s.kids, (∀ z ∈ s.kids, z.pid = k.pid → z.zombie = false) → k ∈ s'.kids

theorem Quiet.same (hpc : s'.pc = s.pc) (hkids : s'.kids = s.kids) : Quiet s s' :=
  ⟨by rw [hpc], fun _ h => hpc ▸ h, fun _ h => hkids ▸ h, fun _ h _ => hkids ▸ h⟩

/-- The other steps are quiet, and change nothing here. -/
theorem quiet_server {l : ProcessEcho.Label} (hs : ProcessEcho.step s l = some s') :
    (∃ connfd, l = .accept (some connfd)) ∨ (∃ pid, l = .fork (some pid)) ∨ l = .close ∨ (∃ pid, l = .exit pid) ∨
      Quiet s s' ∧ ∀ t : State, t.after l = some t := by
  cases l with
  | accept r =>
    cases r with
    | some connfd => exact .inl ⟨connfd, rfl⟩
    | none =>
      simp only [ProcessEcho.step] at hs
      split at hs
      · rename_i hr
        cases hr
      · cases hs
        exact .inr (.inr (.inr (.inr ⟨.same rfl rfl, fun _ => rfl⟩)))
      · cases hs
  | fork r =>
    cases r with
    | some pid => exact .inr (.inl ⟨pid, rfl⟩)
    | none =>
      simp only [ProcessEcho.step] at hs
      split at hs
      · rename_i hr
        cases hr
      · rename_i connfd _ hpc _
        cases hs
        refine .inr (.inr (.inr (.inr ⟨⟨?_, by rintro _ ⟨⟩, fun _ h => h, fun _ h _ => h⟩, fun _ => rfl⟩)))
        rw [hpc]
        rfl
      · cases hs
  | close => exact .inr (.inr (.inl rfl))
  | exit pid => exact .inr (.inr (.inr (.inl ⟨pid, rfl⟩)))
  | deliver =>
    simp only [ProcessEcho.step] at hs
    split at hs <;> cases hs
    exact .inr (.inr (.inr (.inr ⟨.same rfl rfl, fun _ => rfl⟩)))
  | waitpid r =>
    refine .inr (.inr (.inr (.inr ⟨?_, fun _ => rfl⟩)))
    simp only [ProcessEcho.step] at hs
    split at hs
    · rename_i pid _
      split at hs <;> cases hs
      rename_i hzombie
      refine ⟨rfl, fun _ h => h, fun k hk => List.mem_of_mem_filter hk, fun k hk hruns => List.mem_filter.2 ⟨hk, ?_⟩⟩
      obtain ⟨z, hz, hpid, hend⟩ := hzombie
      refine decide_eq_true fun hkpid => ?_
      rw [hruns z hz (hpid.trans hkpid.symm)] at hend
      cases hend
    · split at hs <;> cases hs
      exact .same rfl rfl
    · cases hs
  | ret =>
    simp only [ProcessEcho.step] at hs
    split at hs <;> cases hs
    exact .inr (.inr (.inr (.inr ⟨.same rfl rfl, fun _ => rfl⟩)))
  | spurious =>
    cases hs
    exact .inr (.inr (.inr (.inr ⟨.same rfl rfl, fun _ => rfl⟩)))

end

/-! ## Each step keeps the tables -/

section
variable {u : Setup} {s s' : State}

theorem start_inv (u : Setup) (blocked : Bool) : Inv u (start u blocked) where
  parent := show Function.update (fun _ _ => none) 0 u.table 0 = u.table from Function.update_self ..
  connfd := nofun
  child := nofun
  ended pid hpid _ := show Function.update (fun _ _ => none) 0 u.table pid = fun _ => none from Function.update_of_ne hpid ..
  alive := nofun
  zombie := nofun
  kids := nofun
  numbers := nofun
  accepted := nofun
  next := nofun
  once := List.nodup_nil
  touched := nofun

theorem Inv.child_ne (h : Inv u s) {pid : Pid} {ch : Child} (hch : s.children pid = some ch) : pid ≠ 0 := by
  rintro rfl
  obtain ⟨k, hk, hpid⟩ := h.alive 0 ch hch
  exact h.kids k hk hpid

theorem Inv.quiet (h : Inv u s) {server : ProcessEcho.State} (hq : Quiet s.server server) :
    Inv u { s with server := server } where
  parent := by
    have hparent := h.parent
    simp only [Setup.parent, ← hq.held] at hparent ⊢
    exact hparent
  connfd connfd hpc := h.connfd connfd (hq.held ▸ hpc)
  child := h.child
  ended := h.ended
  alive pid ch hch := by
    obtain ⟨k, hk, hpid⟩ := h.alive pid ch hch
    refine ⟨k, hq.stay k hk fun z hz hzpid => ?_, hpid⟩
    by_contra hzombie
    have hnone := h.zombie z hz (Bool.eq_true_of_not_eq_false hzombie)
    rw [hzpid, hpid, hch] at hnone
    cases hnone
  zombie k hk := h.zombie k (hq.kids k hk)
  kids k hk := h.kids k (hq.kids k hk)
  numbers := h.numbers
  accepted := h.accepted
  next connfd hpc := h.next connfd (hq.fork connfd hpc)
  once := h.once
  touched := h.touched

theorem Inv.at_accept (h : Inv u s) (hpc : s.server.pc = .accept) : s.tables 0 = u.table := by
  rw [h.parent, Setup.parent, hpc]
  rfl

theorem Inv.at_connfd (h : Inv u s) {connfd : Nat} (hpc : held s.server.pc = some connfd) :
    s.tables 0 = Function.update u.table connfd (some (.conn (s.accepted - 1))) := by
  rw [h.parent, Setup.parent, hpc]

theorem accept_inv (h : Inv u s) {connfd : Nat} (hpc : s.server.pc = .accept) (hlow : (s.tables 0).Lowest connfd) :
    Inv u { s with
      server := { s.server with pc := .fork connfd }
      tables := s.tables.install 0 connfd (.conn s.accepted)
      accepted := s.accepted + 1 } := by
  have htable := h.at_accept hpc
  rw [htable] at hlow
  refine { h with parent := ?_, connfd := ?_, child := ?_, ended := ?_, accepted := ?_, next := ?_ }
  · simp only [install_self, htable]
    rfl
  · rintro _ ⟨⟩
    exact ⟨hlow, Nat.succ_pos _⟩
  · intro pid ch hch
    simp only [install_other (h.child_ne hch)]
    exact h.child pid ch hch
  · intro pid hpid hnone
    simp only [install_other hpid]
    exact h.ended pid hpid hnone
  · exact fun c hc => Nat.lt_succ_of_lt (h.accepted c hc)
  · intro _ _ hmem
    exact absurd (h.accepted _ hmem) (by simp)

theorem fork_inv (h : Inv u s) {connfd : Nat} {pid : Pid} (hpc : s.server.pc = .fork connfd) (hpid : pid ≠ 0)
    (hnew : ∀ k ∈ s.server.kids, k.pid ≠ pid) :
    Inv u { s with
      server := { s.server with pc := .close connfd, kids := ⟨pid, connfd, false⟩ :: s.server.kids }
      tables := s.tables.fork 0 pid
      children := Function.update s.children pid (some ⟨.closeListen, connfd, s.served.length⟩)
      served := s.served ++ [s.accepted - 1] } := by
  have hheld : held s.server.pc = some connfd := by rw [hpc]; rfl
  obtain ⟨hlow, hpos⟩ := h.connfd connfd hheld
  have hnone : s.children pid = none := by
    cases hch : s.children pid with
    | none => rfl
    | some ch =>
      obtain ⟨k, hk, hkpid⟩ := h.alive pid ch hch
      exact absurd hkpid (hnew k hk)
  have hbefore : ∀ {k : Nat} {c : Nat}, s.served[k]? = some c → (s.served ++ [s.accepted - 1])[k]? = some c := by
    intro k c hk
    rw [List.getElem?_append_left (List.getElem?_eq_some_iff.1 hk).1, hk]
  refine ⟨?_, ?_, ?_, ?_, ?_, ?_, ?_, ?_, ?_, nofun, ?_, ?_⟩
  · simp only [fork_other hpid.symm, h.at_connfd hheld]
    rfl
  · rintro _ ⟨⟩
    exact ⟨hlow, hpos⟩
  · intro p ch hch
    by_cases hp : p = pid
    · subst hp
      simp only [Function.update_self, Option.some.injEq] at hch
      subst hch
      refine ⟨s.accepted - 1, by simp, hlow, ?_⟩
      simp only [fork_self, h.at_connfd hheld]
      rfl
    · simp only [Function.update_of_ne hp] at hch
      obtain ⟨c, hc, hlow', htable⟩ := h.child p ch hch
      exact ⟨c, hbefore hc, hlow', (fork_other hp).trans htable⟩
  · intro p hp hch
    have hne : p ≠ pid := by
      rintro rfl
      simp only [Function.update_self] at hch
      cases hch
    simp only [Function.update_of_ne hne] at hch
    exact (fork_other hne).trans (h.ended p hp hch)
  · intro p ch hch
    by_cases hp : p = pid
    · exact ⟨_, List.mem_cons_self .., hp.symm⟩
    · simp only [Function.update_of_ne hp] at hch
      obtain ⟨k, hk, hkpid⟩ := h.alive p ch hch
      exact ⟨k, List.mem_cons_of_mem _ hk, hkpid⟩
  · intro k hk hzombie
    rcases List.mem_cons.1 hk with rfl | hk
    · cases hzombie
    · simp only [Function.update_of_ne (hnew k hk)]
      exact h.zombie k hk hzombie
  · intro k hk
    rcases List.mem_cons.1 hk with rfl | hk
    · exact hpid
    · exact h.kids k hk
  · -- the numbers of the other children are smaller
    have hlt : ∀ p ch, s.children p = some ch → ch.number ≠ s.served.length := by
      intro p ch hch
      obtain ⟨c, hc, -⟩ := h.child p ch hch
      exact Nat.ne_of_lt (List.getElem?_eq_some_iff.1 hc).1
    intro p p' ch ch' hch hch' hnum
    by_cases hp : p = pid <;> by_cases hp' : p' = pid
    · rw [hp, hp']
    · subst hp
      simp only [Function.update_self, Option.some.injEq] at hch
      simp only [Function.update_of_ne hp'] at hch'
      exact absurd (hnum.symm.trans (by rw [← hch])) (hlt p' ch' hch')
    · subst hp'
      simp only [Function.update_self, Option.some.injEq] at hch'
      simp only [Function.update_of_ne hp] at hch
      exact absurd (hnum.trans (by rw [← hch'])) (hlt p ch hch)
    · simp only [Function.update_of_ne hp] at hch
      simp only [Function.update_of_ne hp'] at hch'
      exact h.numbers p p' ch ch' hch hch' hnum
  · intro c hc
    rcases List.mem_append.1 hc with hc | hc
    · exact h.accepted c hc
    · obtain rfl := List.mem_singleton.1 hc
      show s.accepted - 1 < s.accepted
      omega
  · exact List.nodup_append.2 ⟨h.once, List.nodup_singleton _, fun a ha b hb => by
      rintro rfl
      obtain rfl := List.mem_singleton.1 hb
      exact h.next connfd hpc ha⟩
  · intro k d hk
    obtain ⟨c, hd, hc⟩ := h.touched k d hk
    exact ⟨c, hd, hbefore hc⟩

theorem close_inv (h : Inv u s) {connfd : Nat} (hpc : s.server.pc = .close connfd) :
    Inv u { s with server := { s.server with pc := .accept }, tables := s.tables.close 0 connfd } := by
  have hheld : held s.server.pc = some connfd := by rw [hpc]; rfl
  obtain ⟨hlow, -⟩ := h.connfd connfd hheld
  refine { h with parent := ?_, connfd := nofun, child := ?_, ended := ?_, next := nofun }
  · simp only [close_self, h.at_connfd hheld, Function.update_idem, ← hlow.1, Function.update_eq_self]
    rfl
  · intro pid ch hch
    simp only [close_other (h.child_ne hch)]
    exact h.child pid ch hch
  · intro pid hpid hnone
    simp only [close_other hpid]
    exact h.ended pid hpid hnone

theorem exit_inv (h : Inv u s) {pid : Pid} {server : ProcessEcho.State}
    (hkid : ∃ k ∈ s.server.kids, k.pid = pid ∧ k.zombie = false) (hpc : server.pc = s.server.pc)
    (hkids : server.kids = s.server.kids.map fun k => if k.pid = pid then { k with zombie := true } else k) :
    Inv u { s with server := server, tables := s.tables.exit pid, children := Function.update s.children pid none } := by
  have hpid : pid ≠ 0 := by
    obtain ⟨k, hk, hkpid, -⟩ := hkid
    exact hkpid ▸ h.kids k hk
  have hrest : ∀ {p : Pid} {ch : Child}, Function.update s.children pid none p = some ch → p ≠ pid ∧ s.children p = some ch := by
    intro p ch hch
    by_cases hp : p = pid
    · subst hp
      rw [Function.update_self] at hch
      cases hch
    · rw [Function.update_of_ne hp] at hch
      exact ⟨hp, hch⟩
  refine { h with
    parent := ?_, connfd := ?_, child := ?_, ended := ?_, alive := ?_, zombie := ?_, kids := ?_, numbers := ?_, next := ?_ }
  · have hparent := h.parent
    simp only [exit_other hpid.symm, Setup.parent, hpc] at hparent ⊢
    exact hparent
  · intro connfd hheld
    simp only [hpc] at hheld
    exact h.connfd connfd hheld
  · intro p ch hch
    obtain ⟨hp, hch⟩ := hrest hch
    simp only [exit_other hp]
    exact h.child p ch hch
  · intro p hp hnone
    by_cases hpp : p = pid
    · subst hpp
      exact exit_self
    · simp only [Function.update_of_ne hpp] at hnone
      simp only [exit_other hpp]
      exact h.ended p hp hnone
  · intro p ch hch
    obtain ⟨hp, hch⟩ := hrest hch
    obtain ⟨k, hk, hkpid⟩ := h.alive p ch hch
    refine ⟨k, ?_, hkpid⟩
    rw [hkids]
    exact List.mem_map.2 ⟨k, hk, if_neg (hkpid ▸ hp)⟩
  · intro k hk hzombie
    rw [hkids] at hk
    obtain ⟨k₀, hk₀, rfl⟩ := List.mem_map.1 hk
    split at hzombie
    · rename_i heq
      simp only [if_pos heq]
      rw [heq]
      exact Function.update_self ..
    · rename_i hne
      simp only [if_neg hne, Function.update_of_ne hne]
      exact h.zombie k₀ hk₀ hzombie
  · intro k hk
    rw [hkids] at hk
    obtain ⟨k₀, hk₀, rfl⟩ := List.mem_map.1 hk
    split <;> exact h.kids k₀ hk₀
  · intro p p' ch ch' hch hch'
    exact h.numbers p p' ch ch' (hrest hch).2 (hrest hch').2
  · intro connfd hfork
    simp only [hpc] at hfork
    exact h.next connfd hfork

/-- A child goes on, and only its own table may change. -/
theorem child_inv (h : Inv u s) {pid : Pid} {ch : Child} (hch : s.children pid = some ch) {pc : ChildPc} {tables : Tables Pid Desc}
    (hself : ∀ c, u.table.Lowest ch.connfd → s.tables pid = u.child c ch → tables pid = u.child c { ch with pc := pc })
    (hother : ∀ p, p ≠ pid → tables p = s.tables p) : Inv u { s.setChild pid ch pc with tables := tables } := by
  have hpid := h.child_ne hch
  have hat : ∀ {p : Pid} {ch' : Child}, Function.update s.children pid (some { ch with pc := pc }) p = some ch' →
      ∃ old, s.children p = some old ∧ old.number = ch'.number := by
    intro p ch' hch'
    by_cases hp : p = pid
    · subst hp
      rw [Function.update_self] at hch'
      cases hch'
      exact ⟨ch, hch, rfl⟩
    · rw [Function.update_of_ne hp] at hch'
      exact ⟨ch', hch', rfl⟩
  refine { h with parent := ?_, child := ?_, ended := ?_, alive := ?_, zombie := ?_, numbers := ?_ }
  · exact (hother 0 hpid.symm).trans h.parent
  · intro p ch' hch'
    by_cases hp : p = pid
    · subst hp
      simp only [State.setChild, Function.update_self, Option.some.injEq] at hch'
      subst hch'
      obtain ⟨c, hc, hlow, htable⟩ := h.child p ch hch
      exact ⟨c, hc, hlow, hself c hlow htable⟩
    · simp only [State.setChild, Function.update_of_ne hp] at hch'
      obtain ⟨c, hc, hlow, htable⟩ := h.child p ch' hch'
      exact ⟨c, hc, hlow, (hother p hp).trans htable⟩
  · intro p hp hnone
    have hne : p ≠ pid := by
      rintro rfl
      simp only [State.setChild, Function.update_self] at hnone
      cases hnone
    simp only [State.setChild, Function.update_of_ne hne] at hnone
    exact (hother p hne).trans (h.ended p hp hnone)
  · intro p ch' hch'
    obtain ⟨old, hold, -⟩ := hat hch'
    exact h.alive p old hold
  · intro k hk hzombie
    have hnone := h.zombie k hk hzombie
    have hne : k.pid ≠ pid := by
      rintro heq
      rw [heq, hch] at hnone
      cases hnone
    simp only [State.setChild, Function.update_of_ne hne]
    exact hnone
  · intro p p' ch₁ ch₂ h₁ h₂ hnum
    obtain ⟨old₁, hold₁, hnum₁⟩ := hat h₁
    obtain ⟨old₂, hold₂, hnum₂⟩ := hat h₂
    exact h.numbers p p' old₁ old₂ hold₁ hold₂ (by rw [hnum₁, hnum₂, hnum])

theorem step_inv (h : Inv u s) {l : Label} (hs : step u s l = some s') : Inv u s' := by
  cases l with
  | server l =>
    simp only [step] at hs
    split at hs
    · rename_i server after hserver hafter
      cases hs
      rcases quiet_server hserver with ⟨connfd, rfl⟩ | ⟨pid, rfl⟩ | rfl | ⟨pid, rfl⟩ | ⟨hquiet, hsame⟩
      · obtain ⟨hpc, rfl⟩ := accept_server hserver
        simp only [State.after] at hafter
        split at hafter <;> cases hafter
        rename_i hlow
        exact accept_inv h hpc hlow
      · obtain ⟨connfd, hpc, hpid, hnew, rfl⟩ := fork_server hserver
        simp only [State.after, hpc] at hafter
        cases hafter
        exact fork_inv h hpc hpid hnew
      · obtain ⟨connfd, hpc, rfl⟩ := close_server hserver
        simp only [State.after, hpc] at hafter
        cases hafter
        exact close_inv h hpc
      · obtain ⟨hkid, hpc, hkids⟩ := exit_server hserver
        cases hafter
        exact exit_inv h hkid hpc hkids
      · rw [hsame s] at hafter
        cases hafter
        exact h.quiet hquiet
    · cases hs
  | close pid =>
    simp only [step] at hs
    split at hs
    · rename_i ch hch
      split at hs
      · rename_i hpc
        cases hs
        refine child_inv h hch (fun c hlow htable => ?_) fun p hp => close_other hp
        simp only [close_self, htable, Setup.child, hpc]
      · rename_i hpc
        cases hs
        refine child_inv h hch (fun c hlow htable => ?_) fun p hp => close_other hp
        simp only [close_self, htable, Setup.child, hpc]
      · cases hs
    · cases hs
  | io pid =>
    simp only [step] at hs
    split at hs
    · rename_i ch hch
      split at hs
      · rename_i d hpc hd
        cases hs
        refine { h with touched := ?_ }
        intro k d' hmem
        rcases List.mem_append.1 hmem with hmem | hmem
        · exact h.touched k d' hmem
        · obtain ⟨rfl, rfl⟩ := Prod.mk.inj (List.mem_singleton.1 hmem)
          obtain ⟨c, hc, hlow, htable⟩ := h.child pid ch hch
          rw [htable, u.child_connfd c hlow (by rw [hpc]; nofun)] at hd
          exact ⟨c, (Option.some.inj hd).symm, hc⟩
      · cases hs
    · cases hs
  | echoed pid =>
    simp only [step] at hs
    split at hs
    · rename_i ch hch
      split at hs
      · rename_i hpc
        cases hs
        refine child_inv h hch (fun c _ htable => ?_) fun _ _ => rfl
        rw [htable, Setup.child, Setup.child, hpc]
      · cases hs
    · cases hs

theorem reach_inv {blocked : Bool} (h : Reach (step u) always (start u blocked) s) : Inv u s :=
  h.invariant (start_inv u blocked) fun _ _ _ hi _ hs => step_inv hi hs

/-- **The parent** has the connection from `accept` to `close`, and besides what it was started with only the
listening socket. -/
theorem Inv.parent_refers (h : Inv u s) {c : Nat} : (s.tables 0).Refers (.conn c) ↔ s.server.pc ≠ .accept ∧ c + 1 = s.accepted := by
  cases hheld : held s.server.pc with
  | none =>
    have hpc : s.server.pc = .accept := by
      cases hpc : s.server.pc with
      | accept => rfl
      | fork connfd | close connfd =>
        rw [hpc] at hheld
        cases hheld
    rw [h.at_accept hpc]
    exact ⟨fun hc => absurd hc u.no_conn, fun hc => absurd hpc hc.1⟩
  | some connfd =>
    obtain ⟨hlow, hpos⟩ := h.connfd connfd hheld
    have hpc : s.server.pc ≠ .accept := by
      intro hpc
      rw [hpc] at hheld
      cases hheld
    rw [h.at_connfd hheld, refers_install hlow.1]
    constructor
    · rintro (hc | hc)
      · have : s.accepted - 1 = c := Desc.conn.inj hc
        exact ⟨hpc, by omega⟩
      · exact absurd hc u.no_conn
    · rintro ⟨-, hc⟩
      exact .inl (by rw [← hc]; rfl)

theorem Inv.child_conn (h : Inv u s) {pid : Pid} {ch : Child} (hch : s.children pid = some ch) {c : Nat} :
    (s.tables pid).Refers (.conn c) ↔ s.served[ch.number]? = some c ∧ ch.pc ≠ .exit := by
  obtain ⟨own, hown, hlow, htable⟩ := h.child pid ch hch
  rw [htable, hown]
  constructor
  · intro hc
    rcases u.child_refers hlow hc with ⟨fd, -, hd⟩ | ⟨hd, -⟩ | ⟨hd, hpc⟩
    · cases hd
    · cases hd
    · exact ⟨congrArg some (Desc.conn.inj hd).symm, hpc⟩
  · rintro ⟨hc, hpc⟩
    obtain rfl := Option.some.inj hc
    exact ⟨ch.connfd, u.child_connfd own hlow hpc⟩

/-- **A client comes to its end** as soon as the parent has closed the connection and the child that serves it
has closed it or ended, and not before. At `accept` the parent has the table it came to the loop with. -/
theorem connection_ends_iff {blocked : Bool} (h : Reach (step u) always (start u blocked) s) :
    (s.server.pc = .accept → s.tables 0 = u.table) ∧
    ∀ c < s.accepted, ¬ s.tables.Held (.conn c) ↔
      (s.server.pc = .accept ∨ c + 1 < s.accepted) ∧
      ∀ pid ch, s.children pid = some ch → s.served[ch.number]? = some c → ch.pc = .exit := by
  have hinv := reach_inv h
  refine ⟨hinv.at_accept, fun c hc => ⟨fun hfree => ⟨?_, ?_⟩, ?_⟩⟩
  · by_contra hparent
    obtain ⟨hpc, hlast⟩ := not_or.1 hparent
    exact hfree ⟨0, hinv.parent_refers.2 ⟨hpc, by omega⟩⟩
  · intro pid ch hch hserved
    by_contra hpc
    exact hfree ⟨pid, (hinv.child_conn hch).2 ⟨hserved, hpc⟩⟩
  · rintro ⟨hparent, hchildren⟩ ⟨pid, hrefers⟩
    by_cases hpid : pid = 0
    · subst hpid
      obtain ⟨hpc, hlast⟩ := hinv.parent_refers.1 hrefers
      rcases hparent with hparent | hparent
      · exact hpc hparent
      · omega
    · cases hch : s.children pid with
      | none =>
        rw [hinv.ended pid hpid hch] at hrefers
        exact refers_none hrefers
      | some ch =>
        obtain ⟨hserved, hpc⟩ := (hinv.child_conn hch).1 hrefers
        exact hpc (hchildren pid ch hch hserved)

def threeNumbers : Setup := ⟨fun fd => decide (fd < 3), 3, rfl⟩

/-- Both clients get the number 4, and the first child is at `_exit`. -/
def twoClients : List Label :=
  [.server (.accept (some 4)), .server (.fork (some 11)), .close 11, .server .close, .io 11, .server (.accept (some 4)),
    .server (.fork (some 12)), .echoed 11, .close 12, .close 11, .io 12, .server .close]

theorem twoClients_ends : (runFrom (step threeNumbers) (start threeNumbers false) twoClients).map (fun s =>
    (s.server.pc, s.server.kids.map (·.pid), s.accepted, s.children 11, s.children 12, s.served, s.touched)) =
      some (.accept, [12, 11], 2, some ⟨.exit, 4, 0⟩, some ⟨.echo, 4, 1⟩, [0, 1], [(0, .conn 0), (1, .conn 1)]) := rfl

theorem connection_ends_iff_two : ∃ s, runFrom (step threeNumbers) (start threeNumbers false) twoClients = some s ∧
    ¬ s.tables.Held (.conn 0) ∧ s.tables.Held (.conn 1) := by
  obtain ⟨s, hrun, hend⟩ := Option.map_eq_some_iff.1 twoClients_ends
  simp only [Prod.mk.injEq] at hend
  obtain ⟨hpc, hkids, haccepted, hfirst, hsecond, hserved, -⟩ := hend
  have hreach := runFrom_reach hrun
  obtain ⟨-, hends⟩ := connection_ends_iff hreach
  refine ⟨s, hrun, (hends 0 (by omega)).2 ⟨.inl hpc, ?_⟩, ?_⟩
  · intro pid ch hch hclient
    obtain ⟨k, hk, hpid⟩ := (reach_inv hreach).alive pid ch hch
    have hmem : pid ∈ s.server.kids.map (·.pid) := List.mem_map.2 ⟨k, hk, hpid⟩
    rw [hkids] at hmem
    rcases List.mem_pair.1 hmem with rfl | rfl
    · rw [hsecond] at hch
      cases hch
      rw [hserved] at hclient
      cases hclient
    · rw [hfirst] at hch
      cases hch
      rfl
  · by_contra hfree
    have hpc := ((hends 1 (by omega)).1 hfree).2 12 _ hsecond (by rw [hserved]; rfl)
    cases hpc

/-- **One child, one client**: what a child reads and writes is one connection, and no other child's, also
of those that have ended. -/
theorem child_client {blocked : Bool} (h : Reach (step u) always (start u blocked) s) {k k' : Nat} {d d' : Desc}
    (hk : (k, d) ∈ s.touched) (hk' : (k', d') ∈ s.touched) : (k = k' ↔ d = d') ∧ ∃ c < s.accepted, d = .conn c := by
  have hinv := reach_inv h
  obtain ⟨c, rfl, hc⟩ := hinv.touched k d hk
  obtain ⟨c', rfl, hc'⟩ := hinv.touched k' d' hk'
  refine ⟨⟨?_, ?_⟩, c, hinv.accepted c (List.mem_of_getElem? hc), rfl⟩
  · rintro rfl
    rw [hc] at hc'
    rw [Option.some.inj hc']
  · intro hd
    obtain rfl := Desc.conn.inj hd
    obtain ⟨hlt, hget⟩ := List.getElem?_eq_some_iff.1 hc
    obtain ⟨hlt', hget'⟩ := List.getElem?_eq_some_iff.1 hc'
    exact (List.Nodup.getElem_inj_iff hinv.once).1 (hget.trans hget'.symm)

theorem child_client_two : ∃ s, runFrom (step threeNumbers) (start threeNumbers false) twoClients = some s ∧
    (0, .conn 0) ∈ s.touched ∧ (1, .conn 1) ∈ s.touched ∧ (∃ c < s.accepted, Desc.conn 1 = .conn c) ∧ (0 = 1 ↔ Desc.conn 0 = .conn 1) := by
  obtain ⟨s, hrun, hend⟩ := Option.map_eq_some_iff.1 twoClients_ends
  simp only [Prod.mk.injEq] at hend
  obtain ⟨-, -, -, -, -, -, htouched⟩ := hend
  have hreach := runFrom_reach hrun
  have h0 : (0, .conn 0) ∈ s.touched := by rw [htouched]; exact List.mem_cons_self ..
  have h1 : (1, .conn 1) ∈ s.touched := by rw [htouched]; exact List.mem_cons_of_mem _ (List.mem_singleton_self _)
  exact ⟨s, hrun, h0, h1, (child_client hreach h1 h0).2, (child_client hreach h0 h1).1⟩

end

end ComputerSystem.ProcessEcho.Descriptors
