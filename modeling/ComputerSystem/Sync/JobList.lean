import Mathlib.Data.Finset.Card
import ComputerSystem.Lib.Machine
import ComputerSystem.Lib.Roster
import ComputerSystem.Lib.SwapRemove
import ComputerSystem.Shell.Jobs
/-!
# The job list of `procmask`, and the job table of the shell

`Chapter8/8.5-8.6/sync/joblist.c` keeps its pids without a gap in `jobs[0 .. njobs)`: `addjob` appends,
and `deletejob` moves the last pid into the place of the one that goes. The shell
(`Chapter8/8.5-8.6/shell/main.c:37-67`) leaves the others where they are and uses a free slot again. Both
are the same roster: `addjob_members` and `deletejob_members` here, `addJob_pids` and `deleteJob_pids`
for the shell. What the functions print is left out.
-/

namespace ComputerSystem.Sync

open Shell (Pid Job)

/-- `joblist.h:6`. -/
def MAXJOBS : Nat := 16

/-- The two static variables (`:4-5`). -/
structure JobList where
  jobs  : List Pid
  njobs : Nat
  size  : jobs.length = MAXJOBS
  room  : njobs ≤ MAXJOBS
deriving DecidableEq, Repr

/-- `initjobs` (`:7`). -/
def initjobs : JobList := ⟨List.replicate MAXJOBS 0, 0, List.length_replicate, Nat.zero_le _⟩

/-- `jobs_remaining` (`:14`). -/
def jobsRemaining (l : JobList) : Nat := l.njobs

/-- `addjob` (`:17`). -/
def addjob (pid : Pid) (l : JobList) : JobList :=
  if h : l.njobs ≥ MAXJOBS then l
  else ⟨l.jobs.set l.njobs pid, l.njobs + 1, by rw [List.length_set, l.size], by omega⟩

/-- `jobs[i] = jobs[--njobs]` (`:29`). -/
def JobList.fill (l : JobList) (i : Nat) : JobList :=
  ⟨l.jobs.set i (l.jobs.getD (l.njobs - 1) 0), l.njobs - 1, by rw [List.length_set, l.size],
    Nat.le_trans (Nat.sub_le ..) l.room⟩

/-- The loop of `deletejob` (`:27-35`) at `i`, with `n = njobs - i` turns left, and whether it found the pid. -/
def deleteLoop (pid : Pid) (l : JobList) : Nat → Nat → Bool × JobList
  | 0, _ => (false, l)
  | n + 1, i => if l.jobs.getD i 0 = pid then (true, l.fill i) else deleteLoop pid l n (i + 1)

/-- `deletejob` (`:26`); `false` is the message of a race (`:36-39`). -/
def deletejob (pid : Pid) (l : JobList) : Bool × JobList := deleteLoop pid l l.njobs 0

/-- `jobs[0 .. njobs)`. -/
def JobList.members (l : JobList) : List Pid := l.jobs.take l.njobs

/-- The pids other than 0 in the slots of the shell. -/
def pids (table : List Job) : List Pid := (Shell.entries table).map (·.1)

/-! ## The list is a roster -/

theorem JobList.members_length (l : JobList) : l.members.length = l.njobs := by
  rw [members, List.length_take, l.size, Nat.min_eq_left l.room]

/-- Moving the last pid into a place takes the pid there out of the members. -/
theorem JobList.fill_members (l : JobList) {i : Nat} (hi : i < l.njobs) :
    (l.fill i).members = swapRemove l.members i := by
  have hroom := l.room
  have hlast : l.members.getLast? = some (l.jobs.getD (l.njobs - 1) 0) := by
    have hlt : l.njobs - 1 < l.jobs.length := by
      rw [l.size]
      omega
    rw [List.getLast?_eq_getElem?, members_length, members, List.getElem?_take_of_lt (by omega),
      List.getD_eq_getElem?_getD, List.getElem?_eq_getElem hlt]
    rfl
  rw [swapRemove, hlast]
  simp only [members, fill]
  rw [← List.take_set, List.dropLast_eq_take, List.take_take, List.length_take, List.length_set, l.size,
    Nat.min_eq_left hroom, Nat.min_eq_left (Nat.sub_le ..)]

theorem addjob_members (pid : Pid) (l : JobList) :
    (addjob pid l).members.Perm (Roster.next MAXJOBS l.members (.add pid)) := by
  rw [Roster.next, JobList.members_length]
  unfold addjob
  by_cases h : l.njobs ≥ MAXJOBS
  · rw [dif_pos h, if_neg (by omega)]
  · have hlt : l.njobs < l.jobs.length := by
      rw [l.size]
      omega
    rw [dif_neg h, if_pos (by omega)]
    have hset : (l.jobs.set l.njobs pid).take (l.njobs + 1) = l.members ++ [pid] := by
      rw [List.take_add_one, List.take_set_of_le (Nat.le_refl _), List.getElem?_set_self hlt]
      rfl
    rw [JobList.members, hset]
    exact List.perm_append_singleton pid l.members

/-- The loop finds the first place at or behind `i`, if there is one. -/
theorem deleteLoop_spec (pid : Pid) (l : JobList) (n : Nat) : ∀ i, i + n = l.njobs → pid ∉ l.jobs.take i →
    (pid ∉ l.members ∧ deleteLoop pid l n i = (false, l)) ∨
      ∃ k, k < l.njobs ∧ l.members.getD k 0 = pid ∧ pid ∉ l.members.take k ∧ deleteLoop pid l n i = (true, l.fill k) := by
  induction n with
  | zero =>
    intro i hi hbefore
    obtain rfl : i = l.njobs := by omega
    exact .inl ⟨hbefore, rfl⟩
  | succ n ih =>
    intro i hi hbefore
    have hroom := l.room
    have hsize := l.size
    simp only [deleteLoop]
    by_cases h : l.jobs.getD i 0 = pid
    · refine .inr ⟨i, by omega, ?_, ?_, if_pos h⟩
      · rw [JobList.members, List.getD_eq_getElem?_getD, List.getElem?_take_of_lt (by omega),
          ← List.getD_eq_getElem?_getD, h]
      · rw [JobList.members, List.take_take, Nat.min_eq_left (by omega)]
        exact hbefore
    · rw [if_neg h]
      apply ih (i + 1) (by omega)
      rw [List.take_add_one, List.mem_append, not_or]
      refine ⟨hbefore, fun hmem => h ?_⟩
      rw [List.getD_eq_getElem?_getD]
      cases hget : l.jobs[i]? with
      | none =>
        rw [hget] at hmem
        cases hmem
      | some p =>
        rw [hget] at hmem
        exact (List.mem_singleton.1 hmem).symm

theorem deletejob_absent {pid : Pid} {l : JobList} (h : pid ∉ l.members) : deletejob pid l = (false, l) := by
  rcases deleteLoop_spec pid l l.njobs 0 (by omega) (by simp) with ⟨-, heq⟩ | ⟨k, hk, hget, -, -⟩
  · exact heq
  · refine absurd ?_ h
    rw [← hget, List.getD_eq_getElem?_getD, List.getElem?_eq_getElem (by rw [JobList.members_length]; exact hk)]
    exact List.getElem_mem _

theorem deletejob_members (pid : Pid) (l : JobList) :
    (deletejob pid l).2.members.Perm (Roster.next MAXJOBS l.members (.delete pid)) := by
  rw [Roster.next]
  unfold deletejob
  rcases deleteLoop_spec pid l l.njobs 0 (by omega) (by simp) with ⟨habsent, heq⟩ | ⟨k, hk, hget, -, heq⟩
  · rw [heq, List.erase_of_not_mem habsent]
  · -- the place is one of `pid`'s, and all of these are the same to `erase`
    have hlt : k < l.members.length := by rw [JobList.members_length]; exact hk
    rw [List.getD_eq_getElem?_getD, List.getElem?_eq_getElem hlt, Option.getD_some] at hget
    rw [heq, JobList.fill_members l hk]
    have hcons := cons_swapRemove_perm hlt
    rw [hget] at hcons
    have herase := hcons.erase pid
    rw [List.erase_cons_head] at herase
    exact herase

/-! ## The table is one too -/

theorem addJob_pids {pid : Pid} (hpid : pid ≠ 0) (bg : Bool) (cmdline : Bytes) {table : List Job}
    (hlen : table.length = MAXJOBS) :
    (pids (Shell.addJob pid bg cmdline table)).Perm (Roster.next MAXJOBS (pids table) (.add pid)) := by
  rw [Roster.next]
  by_cases h : (pids table).length < MAXJOBS
  · have hroom : Shell.Room table := Shell.room_of_length (by rw [hlen]; simpa [pids] using h)
    rw [if_pos h]
    exact (Shell.addJob_spec hpid bg cmdline hroom).map (·.1)
  · rw [if_neg h, Shell.addJob_full fun hroom => h ?_]
    rw [← hlen]
    simpa [pids] using Shell.length_of_room hroom

theorem deleteJob_pids {pid : Pid} (hpid : pid ≠ 0) {table : List Job} (hnodup : (pids table).Nodup) :
    (pids (Shell.deleteJob pid table).2).Perm (Roster.next MAXJOBS (pids table) (.delete pid)) := by
  rw [Roster.next]
  by_cases h : pid ∈ pids table
  · obtain ⟨⟨p, bg⟩, hmem, rfl⟩ := List.mem_map.1 h
    have hperm := ((Shell.deleteJob_spec hnodup hmem).2.map (·.1)).erase p
    rw [List.map_cons, List.erase_cons_head] at hperm
    exact hperm.symm
  · rw [Shell.deleteJob_absent hpid h, List.erase_of_not_mem h]

/-! ## The two side by side -/

inductive Op
  | add (pid : Pid) (bg : Bool) (cmdline : Bytes)
  | delete (pid : Pid)
deriving DecidableEq, Repr

def Op.pid : Op → Pid
  | .add pid _ _ => pid
  | .delete pid => pid

def Op.roster : Op → Roster.Op Pid
  | .add pid _ _ => .add pid
  | .delete pid => .delete pid

structure Both where
  list  : JobList
  table : List Job
deriving DecidableEq, Repr

def Both.init : Both := ⟨initjobs, Shell.initJobs⟩

def step (s : Both) : Op → Option Both
  | .add pid bg cmdline => some ⟨addjob pid s.list, Shell.addJob pid bg cmdline s.table⟩
  | .delete pid => some ⟨(deletejob pid s.list).2, (Shell.deleteJob pid s.table).2⟩

/-- Pids are positive, and one that is added is not there. -/
def Proper (s : Both) (op : Op) : Prop := 0 < op.pid ∧ Roster.Fresh s.list.members op.roster

instance (s : Both) (op : Op) : Decidable (Proper s op) := inferInstanceAs (Decidable (_ ∧ _))

/-- Both hold the same pids, none of them twice. -/
structure Agree (s : Both) : Prop where
  same  : s.list.members.Perm (pids s.table)
  nodup : s.list.members.Nodup
  slots : s.table.length = MAXJOBS

theorem Agree.init : Agree Both.init := ⟨by decide, by decide, by decide⟩

/-- **One operation.** -/
theorem step_agree (s : Both) (op : Op) (s' : Both) (h : Agree s) (hp : Proper s op) (hs : step s op = some s') :
    Agree s' := by
  obtain ⟨hsame, hnodup, hslots⟩ := h
  obtain ⟨hpos, hfresh⟩ := hp
  have hroster := Roster.next_perm MAXJOBS hsame op.roster
  have hkept := Roster.next_nodup MAXJOBS hnodup hfresh
  have hpid : op.pid ≠ 0 := Nat.ne_of_gt hpos
  cases op with
  | add pid bg cmdline =>
    cases hs
    have hlist := addjob_members pid s.list
    have htable := addJob_pids hpid bg cmdline hslots
    refine ⟨hlist.trans (hroster.trans htable.symm), hlist.nodup_iff.2 hkept, ?_⟩
    rw [Shell.addJob_length, hslots]
  | delete pid =>
    cases hs
    have hlist := deletejob_members pid s.list
    have htable := deleteJob_pids hpid (hsame.nodup_iff.1 hnodup)
    refine ⟨hlist.trans (hroster.trans htable.symm), hlist.nodup_iff.2 hkept, ?_⟩
    rw [Shell.deleteJob_length, hslots]

theorem reach_agree {s : Both} (h : Reach step Proper Both.init s) : Agree s := h.invariant Agree.init step_agree

/-- An addition changes the list unless it is full. -/
theorem addjob_ignored (pid : Pid) (l : JobList) : addjob pid l = l ↔ l.members.length = MAXJOBS := by
  rw [JobList.members_length]
  have hroom := l.room
  unfold addjob
  by_cases h : l.njobs ≥ MAXJOBS
  · rw [dif_pos h]
    exact ⟨fun _ => Nat.le_antisymm hroom h, fun _ => rfl⟩
  · rw [dif_neg h]
    constructor
    · intro heq
      have := congrArg JobList.njobs heq
      simp only at this
      omega
    · intro heq
      omega

theorem addJob_ignored {pid : Pid} (hpid : pid ≠ 0) (bg : Bool) (cmdline : Bytes) {table : List Job}
    (hlen : table.length = MAXJOBS) : Shell.addJob pid bg cmdline table = table ↔ (pids table).length = MAXJOBS := by
  have hle : (pids table).length ≤ MAXJOBS := by
    rw [← hlen, pids, List.length_map]
    exact Shell.entries_length_le table
  have hperm := (addJob_pids hpid bg cmdline hlen).length_eq
  constructor
  · intro heq
    rw [heq, Roster.next] at hperm
    split at hperm
    · simp at hperm
    · omega
  · intro heq
    apply Shell.addJob_full
    intro hroom
    have := Shell.length_of_room hroom
    rw [pids, List.length_map] at heq
    omega

/-- **After every operation** the list and the table hold the same pids, each once, and
`jobs_remaining` is their number; the next addition is ignored by both exactly when `MAXJOBS` pids are
there, and the deletion of an absent pid changes neither. -/
theorem job_lists_agree {s : Both} (h : Reach step Proper Both.init s) :
    (∀ pid, pid ∈ s.list.members ↔ pid ∈ pids s.table) ∧ s.list.members.Nodup ∧ (pids s.table).Nodup ∧
    jobsRemaining s.list = s.list.members.toFinset.card ∧
    (∀ pid bg cmdline, Proper s (.add pid bg cmdline) →
      (addjob pid s.list = s.list ↔ s.list.members.toFinset.card = MAXJOBS) ∧
      (Shell.addJob pid bg cmdline s.table = s.table ↔ s.list.members.toFinset.card = MAXJOBS)) ∧
    ∀ pid, 0 < pid → pid ∉ s.list.members →
      deletejob pid s.list = (false, s.list) ∧ Shell.deleteJob pid s.table = (none, s.table) := by
  obtain ⟨hsame, hnodup, hslots⟩ := reach_agree h
  have hcard : s.list.members.toFinset.card = s.list.members.length := List.toFinset_card_of_nodup hnodup
  refine ⟨fun pid => hsame.mem_iff, hnodup, hsame.nodup_iff.1 hnodup, ?_, ?_, ?_⟩
  · rw [hcard, JobList.members_length, jobsRemaining]
  · intro pid bg cmdline hp
    have hpid : pid ≠ 0 := Nat.ne_of_gt hp.1
    rw [hcard]
    refine ⟨addjob_ignored pid s.list, ?_⟩
    rw [hsame.length_eq]
    exact addJob_ignored hpid bg cmdline hslots
  · intro pid hpos habsent
    exact ⟨deletejob_absent habsent, Shell.deleteJob_absent (Nat.ne_of_gt hpos) fun hmem => habsent (hsame.mem_iff.2 hmem)⟩

/-- The first of three pids is deleted, and another is added: the list has it at the end, the table in the
first slot. -/
def moved : Option Both := runWhile step Proper Both.init
  [.add 1 false [], .add 2 true [], .add 3 true [], .delete 1, .add 4 true []]

theorem job_lists_agree_moved : ∃ s, moved = some s ∧ s.list.members = [3, 2, 4] ∧ pids s.table = [4, 2, 3] ∧
    (∀ pid, pid ∈ s.list.members ↔ pid ∈ pids s.table) := by
  obtain ⟨s, hs⟩ : ∃ s, moved = some s := Option.isSome_iff_exists.1 (by decide)
  have hmembers : moved.map (·.list.members) = some [3, 2, 4] := by decide
  have hpids : moved.map (pids ·.table) = some [4, 2, 3] := by decide
  rw [hs] at hmembers hpids
  exact ⟨s, hs, Option.some.inj hmembers, Option.some.inj hpids, (job_lists_agree (runWhile_reach hs)).1⟩

end ComputerSystem.Sync
