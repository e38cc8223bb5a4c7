import ComputerSystem.CTypes
import Mathlib.Data.List.Perm.Basic
import Mathlib.Data.List.Nodup
/-!
# The job table

`Chapter8/8.5-8.6/shell/main.c:20-77`. The table is `MAXJOBS` slots, a slot with pid 0 is free.
`add_job` fills the first free slot and only prints a message when there is none; `delete_job` frees
the first slot that holds the pid.

`entries` is what the table says: the pairs of pid and `bg` in its used slots.
-/

namespace ComputerSystem.Shell

def MAXARGS : Nat := 128
def MAXLINE : Nat := 8192
def MAXJOBS : Nat := 16

abbrev Pid := Nat

/-- `struct job_t` (`:26`). -/
structure Job where
  pid     : Pid
  bg      : Bool
  cmdline : Bytes
deriving DecidableEq, Repr

/-- `init_jobs` (`:37`) on the static table. -/
def initJobs : List Job := List.replicate MAXJOBS ⟨0, false, []⟩

/-- `add_job` (`:44`). -/
def addJob (pid : Pid) (bg : Bool) (cmdline : Bytes) : List Job → List Job
  | [] => []
  | j :: js => if j.pid = 0 then ⟨pid, bg, cmdline⟩ :: js else j :: addJob pid bg cmdline js

/-- `delete_job` (`:58`): the flag of the job deleted, `none` for the return value -1. -/
def deleteJob (pid : Pid) : List Job → Option Bool × List Job
  | [] => (none, [])
  | j :: js =>
    if j.pid = pid then (some j.bg, { j with pid := 0 } :: js)
    else ((deleteJob pid js).1, j :: (deleteJob pid js).2)

/-- The used slots of the table. -/
def entries : List Job → List (Pid × Bool)
  | [] => []
  | j :: js => if j.pid = 0 then entries js else (j.pid, j.bg) :: entries js

/-- `add_job` finds a free slot. -/
def Room (jobs : List Job) : Prop := ∃ j ∈ jobs, j.pid = 0

instance (jobs : List Job) : Decidable (Room jobs) := inferInstanceAs (Decidable (∃ j ∈ jobs, j.pid = 0))

/-! ## What the operations do to the entries -/

theorem initJobs_entries : entries initJobs = [] := by decide

@[simp] theorem addJob_length (pid : Pid) (bg : Bool) (cmdline : Bytes) : ∀ jobs,
    (addJob pid bg cmdline jobs).length = jobs.length
  | [] => rfl
  | j :: js => by
    simp only [addJob]
    split
    · rfl
    · simp [addJob_length pid bg cmdline js]

@[simp] theorem deleteJob_length (pid : Pid) : ∀ jobs, (deleteJob pid jobs).2.length = jobs.length
  | [] => rfl
  | j :: js => by
    simp only [deleteJob]
    split
    · rfl
    · simp [deleteJob_length pid js]

/-- **`add_job` (`:44`)** with a free slot enters the job. -/
theorem addJob_spec {pid : Pid} (hpid : pid ≠ 0) (bg : Bool) (cmdline : Bytes) : ∀ {jobs : List Job}, Room jobs →
    (entries (addJob pid bg cmdline jobs)).Perm ((pid, bg) :: entries jobs) := by
  intro jobs
  induction jobs with
  | nil =>
    rintro ⟨j, hj, -⟩
    cases hj
  | cons j js ih =>
    intro h
    simp only [addJob]
    split
    · rename_i h0
      simp [entries, h0, hpid]
    · rename_i h0
      have hroom : Room js := by
        obtain ⟨k, hk, hk0⟩ := h
        rcases List.mem_cons.1 hk with rfl | hk
        · exact absurd hk0 h0
        · exact ⟨k, hk, hk0⟩
      simp only [entries, h0, if_false]
      exact ((ih hroom).cons (j.pid, j.bg)).trans (.swap ..)

/-- Without a free slot `add_job` leaves the table as it is. -/
theorem addJob_full {pid : Pid} {bg : Bool} {cmdline : Bytes} : ∀ {jobs : List Job}, ¬ Room jobs →
    addJob pid bg cmdline jobs = jobs := by
  intro jobs
  induction jobs with
  | nil =>
    intro _
    rfl
  | cons j js ih =>
    intro h
    have h0 : j.pid ≠ 0 := fun h0 => h ⟨j, List.mem_cons_self .., h0⟩
    have hroom : ¬ Room js := fun ⟨k, hk, hk0⟩ => h ⟨k, List.mem_cons_of_mem _ hk, hk0⟩
    simp only [addJob, h0, if_false, ih hroom]

theorem entries_pos {p : Pid} {b : Bool} : ∀ {jobs : List Job}, (p, b) ∈ entries jobs → p ≠ 0 := by
  intro jobs
  induction jobs with
  | nil =>
    intro h
    cases h
  | cons j js ih =>
    intro h
    simp only [entries] at h
    split at h
    · exact ih h
    · rename_i h0
      rcases List.mem_cons.1 h with heq | h
      · cases heq; exact h0
      · exact ih h

/-- **`delete_job` (`:58`)** of a pid entered once removes its entry and returns its flag. -/
theorem deleteJob_spec {pid : Pid} {bg : Bool} : ∀ {jobs : List Job}, ((entries jobs).map (·.1)).Nodup →
    (pid, bg) ∈ entries jobs →
    (deleteJob pid jobs).1 = some bg ∧ (entries jobs).Perm ((pid, bg) :: entries (deleteJob pid jobs).2) := by
  intro jobs
  induction jobs with
  | nil =>
    intro _ h
    cases h
  | cons j js ih =>
    intro hnodup h
    have hpid := entries_pos h
    simp only [entries] at hnodup h ⊢
    simp only [deleteJob]
    by_cases h0 : j.pid = 0
    · simp only [h0, if_true] at hnodup h ⊢
      obtain ⟨h1, h2⟩ := ih hnodup h
      simp only [if_neg (Ne.symm hpid), entries, h0, if_true]
      exact ⟨h1, h2⟩
    · simp only [h0, if_false] at hnodup h ⊢
      by_cases hj : j.pid = pid
      · -- the first slot with the pid is the only one
        have hbg : bg = j.bg := by
          rcases List.mem_cons.1 h with heq | hmem
          · exact (Prod.mk.inj heq).2
          · have hin : j.pid ∈ (entries js).map (·.1) := List.mem_map.2 ⟨(pid, bg), hmem, hj.symm⟩
            exact absurd hin (List.nodup_cons.1 hnodup).1
        simp only [hj, if_true, entries]
        exact ⟨by rw [hbg], by rw [hbg]⟩
      · have hmem : (pid, bg) ∈ entries js := by
          rcases List.mem_cons.1 h with heq | hmem
          · exact absurd (Prod.mk.inj heq).1.symm hj
          · exact hmem
        obtain ⟨h1, h2⟩ := ih (List.nodup_cons.1 hnodup).2 hmem
        simp only [hj, if_false, entries, h0]
        exact ⟨h1, (h2.cons (j.pid, j.bg)).trans (.swap ..)⟩

/-- `delete_job` of a pid that is not in the table returns -1 and leaves it as it is. -/
theorem deleteJob_absent {pid : Pid} (hpid : pid ≠ 0) : ∀ {jobs : List Job}, pid ∉ (entries jobs).map (·.1) →
    deleteJob pid jobs = (none, jobs) := by
  intro jobs
  induction jobs with
  | nil =>
    intro _
    rfl
  | cons j js ih =>
    intro h
    simp only [entries] at h
    have hj : j.pid ≠ pid := by
      rintro rfl
      simp [hpid] at h
    have hjs : pid ∉ (entries js).map (·.1) := by
      split at h
      · exact h
      · exact fun hmem => h (List.mem_cons_of_mem _ hmem)
    simp only [deleteJob, hj, if_false, ih hjs]

/-- `delete_job` keeps the entries of the other pids. -/
theorem mem_deleteJob {pid : Pid} {e : Pid × Bool} (hne : e.1 ≠ pid) : ∀ {jobs : List Job}, e ∈ entries jobs →
    e ∈ entries (deleteJob pid jobs).2 := by
  intro jobs
  induction jobs with
  | nil => exact id
  | cons j js ih =>
    intro h
    simp only [entries] at h
    simp only [deleteJob]
    split at h
    · rename_i h0
      split
      · simpa only [entries, if_true] using h
      · simpa only [entries, h0, if_true] using ih h
    · rename_i h0
      split
      · rename_i hj
        rcases List.mem_cons.1 h with rfl | h
        · exact absurd hj hne
        · simpa only [entries, if_true] using h
      · simp only [entries, h0, if_false]
        rcases List.mem_cons.1 h with rfl | h
        · exact List.mem_cons_self ..
        · exact List.mem_cons_of_mem _ (ih h)

/-- A table with fewer entries than slots has a free slot. -/
theorem room_of_length : ∀ {jobs : List Job}, (entries jobs).length < jobs.length → Room jobs := by
  intro jobs
  induction jobs with
  | nil =>
    intro h
    exact absurd h (Nat.lt_irrefl 0)
  | cons j js ih =>
    intro h
    simp only [entries] at h
    split at h
    · rename_i h0
      exact ⟨j, List.mem_cons_self .., h0⟩
    · obtain ⟨k, hk, hk0⟩ := ih (Nat.lt_of_succ_lt_succ h)
      exact ⟨k, List.mem_cons_of_mem _ hk, hk0⟩

theorem entries_length_le (jobs : List Job) : (entries jobs).length ≤ jobs.length := by
  induction jobs with
  | nil => exact Nat.le_refl 0
  | cons j js ih =>
    simp only [entries]
    split
    · exact Nat.le_succ_of_le ih
    · exact Nat.succ_le_succ ih

/-- A free slot is no entry. -/
theorem length_of_room : ∀ {jobs : List Job}, Room jobs → (entries jobs).length < jobs.length := by
  intro jobs
  induction jobs with
  | nil =>
    rintro ⟨j, hj, -⟩
    cases hj
  | cons j js ih =>
    rintro ⟨k, hk, hk0⟩
    have hle := entries_length_le js
    simp only [entries]
    split
    · exact Nat.lt_succ_of_le hle
    · rename_i h0
      rcases List.mem_cons.1 hk with rfl | hk
      · exact absurd hk0 h0
      · exact Nat.succ_lt_succ (ih ⟨k, hk, hk0⟩)

end ComputerSystem.Shell
