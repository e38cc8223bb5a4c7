import ComputerSystem.RaceWrite.Writers
/-!
# What is in the file in the end

The file is a list of lines in both modes. With `O_APPEND` it is any shuffle of all the lines and
nothing else (`append_final`). Without it the two writers go through the same places, and each place
they share keeps the line of the one who came last: the file is as long as the longer writer, and any
choice at the shared places can come out (`plain_final`).
-/

namespace ComputerSystem.RaceWrite

def Who.other : Who → Who
  | .parent => .child
  | .child => .parent

theorem other_ne (who : Who) : who.other ≠ who := by
  cases who <;> decide

theorem eq_or_other (who x : Who) : x = who ∨ x = who.other := by
  cases who <;> cases x <;> decide

/-! ## The runs -/

/-- In the loops: `n` lines written, at these offsets. -/
def mid (file : Bytes) (n off : Who → Nat) : State := ⟨file, some true, fun x => ⟨.looping (n x), some (off x)⟩, false⟩

section
variable {append : Bool} {count : Who → Nat}

theorem reach_mid : Reach (step append count) Complete start (mid [] (fun _ => 0) fun _ => 0) := by
  have hfork : step append count start (.fork true) = some { start with forked := some true } := rfl
  have hparent : step append count { start with forked := some true } (.open .parent true) =
      some (({ start with forked := some true }).setWriter .parent ⟨.looping 0, some 0⟩) := rfl
  have hchild : step append count (({ start with forked := some true }).setWriter .parent ⟨.looping 0, some 0⟩)
      (.open .child true) = some (mid [] (fun _ => 0) fun _ => 0) := by
    simp only [step]
    rw [if_pos ⟨rfl, rfl⟩]
    congr 1
    simp only [mid, State.setWriter, start, State.mk.injEq, true_and, and_true]
    funext x
    cases x <;> rfl
  have h₁ : Reach (step append count) Complete start { start with forked := some true } :=
    .tail (l := Label.fork true) .refl rfl hfork
  have h₂ : Reach (step append count) Complete start _ := .tail (l := Label.open .parent true) h₁ rfl hparent
  exact .tail (l := Label.open .child true) h₂ rfl hchild

/-- One line more. -/
theorem mid_write {file : Bytes} {n off : Who → Nat} (who : Who) (h : n who < count who)
    (hr : Reach (step append count) Complete start (mid file n off)) :
    Reach (step append count) Complete start
      (mid (writeAt 0 (if append then file.length else off who) (line who) file) (bump n who)
        fun x => if x = who then (if append then file.length else off who) + 7 else off x) := by
  refine hr.tail (l := .write who (some (line who).length)) rfl ?_
  have hpc : ((mid file n off).writer who).pc = .looping (n who) := rfl
  have hfd : ((mid file n off).writer who).fd = some (off who) := rfl
  simp only [step, hpc, hfd, if_pos h, State.put, State.setWriter, List.take_length]
  congr 1
  simp only [mid, State.mk.injEq, true_and, and_true, line_length]
  funext x
  unfold bump
  by_cases hx : x = who
  · simp only [hx, if_true]
  · simp only [if_neg hx]

/-- When all lines are written both close and the parent waits. -/
theorem mid_final {file : Bytes} {off : Who → Nat} (hr : Reach (step append count) Complete start (mid file count off)) :
    ∃ s, Reach (step append count) Complete start s ∧ s.waited = true ∧ s.file = file := by
  let s₁ := (mid file count off).setWriter .parent ⟨.closed, none⟩
  let s₂ := s₁.setWriter .child ⟨.closed, none⟩
  have h₁ : step append count (mid file count off) (.close .parent) = some s₁ := by
    simp only [step, mid, if_true]
    rfl
  have h₂ : step append count s₁ (.close .child) = some s₂ := by
    have hpc : (s₁.writer .child).pc = .looping (count .child) := rfl
    simp only [step, hpc, if_true]
    rfl
  have h₃ : step append count s₂ .wait = some { s₂ with waited := true } := by
    have hg : s₂.waited = false ∧ (s₂.writer .parent).pc = .closed ∧
        (s₂.forked = some true → (s₂.writer .child).pc = .closed) := ⟨rfl, rfl, fun _ => rfl⟩
    simp only [step, if_pos hg]
  exact ⟨_, ((hr.tail (l := Label.close .parent) trivial h₁).tail (l := Label.close .child) trivial h₂).tail (l := Label.wait) trivial h₃,
    rfl, rfl⟩

end

/-! ## With `O_APPEND` -/

/-- The lines of `tags`, `n` of them each. -/
def Shuffled (file : Bytes) (n : Who → Nat) : Prop :=
  ∃ tags : List Who, (∀ who, tags.count who = n who) ∧ file = tags.flatMap line

theorem shuffled_keeps (count : Who → Nat) : Keeps true count Shuffled := by
  rintro who file n - ⟨tags, hcount, rfl⟩
  refine ⟨tags ++ [who], ?_, ?_⟩
  · intro x
    unfold bump
    rw [List.count_append, hcount, List.count_singleton]
    by_cases hx : x = who
    · rw [if_pos hx, if_pos (beq_iff_eq.2 hx.symm)]
    · rw [if_neg hx, if_neg fun h => hx (beq_iff_eq.1 h).symm, Nat.add_zero]
  · rw [if_pos rfl, writeAt_end, List.flatMap_append, List.flatMap_singleton]

/-- Every shuffle so far comes from a run. -/
theorem shuffled_reach {count : Who → Nat} (tags : List Who) (h : ∀ who, tags.count who ≤ count who) :
    ∃ off, Reach (step true count) Complete start (mid (tags.flatMap line) (fun who => tags.count who) off) := by
  induction tags using List.reverseRecOn with
  | nil => exact ⟨_, reach_mid⟩
  | append_singleton tags who ih =>
    have hlt : tags.count who < count who := by
      have := h who
      rw [List.count_append, List.count_singleton_self] at this
      exact this
    obtain ⟨off, hr⟩ := ih fun x => Nat.le_trans (by rw [List.count_append]; exact Nat.le_add_right _ _) (h x)
    have hnext := mid_write who hlt hr
    rw [if_pos rfl, writeAt_end] at hnext
    have hcount : (fun x => (tags ++ [who]).count x) = bump (fun x => tags.count x) who := by
      funext x
      unfold bump
      rw [List.count_append, List.count_singleton]
      by_cases hx : x = who
      · rw [if_pos hx, if_pos (beq_iff_eq.2 hx.symm)]
      · rw [if_neg hx, if_neg fun h => hx (beq_iff_eq.1 h).symm, Nat.add_zero]
    rw [hcount, List.flatMap_append, List.flatMap_singleton]
    exact ⟨_, hnext⟩

theorem shuffled_end {count : Who → Nat} {s : State} (hr : Reach (step true count) Complete start s)
    (hw : s.waited = true) : Shuffled s.file count :=
  final_file (shuffled_keeps count) ⟨[], fun _ => rfl, rfl⟩ hr hw

/-- **With `O_APPEND` no line is lost or torn**: the files that complete runs leave are the shuffles of
the lines of both, each line as often as it was written. -/
theorem append_final (count : Who → Nat) (f : Bytes) :
    (∃ s, Reach (step true count) Complete start s ∧ s.waited = true ∧ s.file = f) ↔
      ∃ tags : List Who, (∀ who, tags.count who = count who) ∧ f = tags.flatMap line := by
  constructor
  · rintro ⟨s, hr, hw, rfl⟩
    exact shuffled_end hr hw
  · rintro ⟨tags, hcount, rfl⟩
    obtain ⟨off, hr⟩ := shuffled_reach tags fun who => Nat.le_of_eq (hcount who)
    rw [show (fun who => tags.count who) = count from funext hcount] at hr
    exact mid_final hr

/-! ## Without -/

/-- Each place has a line of a writer who has been there. -/
def Overwritten (file : Bytes) (n : Who → Nat) : Prop :=
  ∃ tags : List Who, tags.length = max (n .parent) (n .child) ∧ (∀ i who, tags[i]? = some who → i < n who) ∧
    file = tags.flatMap line

theorem max_both (n : Who → Nat) (who : Who) : max (n .parent) (n .child) = max (n who) (n who.other) := by
  cases who with
  | parent => rfl
  | child => exact Nat.max_comm _ _

theorem overwritten_keeps (count : Who → Nat) : Keeps false count Overwritten := by
  rintro who file n - ⟨tags, hlen, hat, rfl⟩
  have hle : n who ≤ tags.length := by
    rw [hlen, max_both n who]
    exact Nat.le_max_left _ _
  refine ⟨putAt (n who) who tags, ?_, ?_, ?_⟩
  · rw [putAt_length hle, hlen, max_both n who, max_both (bump n who) who]
    simp only [bump, if_true, if_neg (other_ne who)]
    omega
  · intro i x hx
    rw [putAt_getElem? hle] at hx
    unfold bump
    by_cases hi : i = n who
    · rw [if_pos hi] at hx
      cases hx
      rw [if_pos rfl]
      omega
    · rw [if_neg hi] at hx
      have := hat i x hx
      split <;> omega
  · rw [if_neg (by decide), writeAt_records 0 line_length (by decide) hle]

/-- Round `k` leaves the line that `tags` wants at place `k`. -/
theorem overwritten_round {count : Who → Nat} {tags : List Who} (hat : ∀ i who, tags[i]? = some who → i < count who)
    {k : Nat} (hk : k < tags.length)
    (hr : Reach (step false count) Complete start
      (mid ((tags.take k).flatMap line) (fun who => min k (count who)) fun who => 7 * min k (count who))) :
    Reach (step false count) Complete start
      (mid ((tags.take (k + 1)).flatMap line) (fun who => min (k + 1) (count who))
        fun who => 7 * min (k + 1) (count who)) := by
  have htk : (tags.take k).length = k := by rw [List.length_take]; omega
  obtain ⟨who, hwho⟩ : ∃ who, tags[k]? = some who := ⟨_, List.getElem?_eq_getElem hk⟩
  have hlt := hat k who hwho
  have htake : tags.take (k + 1) = tags.take k ++ [who] := by rw [List.take_add_one, hwho]; rfl
  have hwrite : ∀ (x : Who) (l : List Who), k ≤ l.length →
      writeAt 0 (7 * k) (line x) (l.flatMap line) = (putAt k x l).flatMap line :=
    fun x l hl => writeAt_records 0 line_length (by decide) hl x
  have hput : putAt k who (tags.take k) = tags.take (k + 1) := by
    rw [putAt, List.take_of_length_le (by omega), List.drop_of_length_le (by omega), htake]
  by_cases hother : k < count who.other
  · -- the other one first
    have h₁ := mid_write who.other (by show min k (count who.other) < count who.other; omega) hr
    rw [if_neg (by decide), Nat.min_eq_left (Nat.le_of_lt hother), hwrite _ _ (by omega)] at h₁
    have h₂ := mid_write who (by
      unfold bump
      rw [if_neg (other_ne who).symm]
      show min k (count who) < count who
      omega) h₁
    rw [if_neg (by decide)] at h₂
    simp only [if_neg (other_ne who).symm, Nat.min_eq_left (Nat.le_of_lt hlt)] at h₂
    rw [hwrite _ _ (by rw [putAt_length (by omega)]; omega)] at h₂
    have hputs : putAt k who (putAt k who.other (tags.take k)) = tags.take (k + 1) := by
      have htk' : (putAt k who.other (tags.take k)).take k = tags.take k := by
        rw [putAt, List.take_of_length_le (l := tags.take k) (by omega), List.take_left' htk]
      have hdrop : (putAt k who.other (tags.take k)).drop (k + 1) = [] := by
        rw [List.drop_eq_nil_iff, putAt_length (by omega)]
        omega
      rw [putAt, htk', hdrop, htake]
    rw [hputs] at h₂
    convert h₂ using 2
    · funext x
      unfold bump
      rcases eq_or_other who x with rfl | rfl
      · rw [if_pos rfl, if_neg (other_ne x).symm]
        show min (k + 1) (count x) = min k (count x) + 1
        omega
      · rw [if_neg (other_ne who), if_pos rfl]
        show min (k + 1) (count who.other) = min k (count who.other) + 1
        omega
    · funext x
      rcases eq_or_other who x with rfl | rfl
      · rw [if_pos rfl]
        omega
      · rw [if_neg (other_ne who), if_pos rfl]
        omega
  · -- the other one has no line left
    have h₁ := mid_write who (by show min k (count who) < count who; omega) hr
    rw [if_neg (by decide), Nat.min_eq_left (Nat.le_of_lt hlt), hwrite _ _ (by omega), hput] at h₁
    convert h₁ using 2
    · funext x
      unfold bump
      rcases eq_or_other who x with rfl | rfl
      · rw [if_pos rfl]
        show min (k + 1) (count x) = min k (count x) + 1
        omega
      · rw [if_neg (other_ne who)]
        show min (k + 1) (count who.other) = min k (count who.other)
        omega
    · funext x
      rcases eq_or_other who x with rfl | rfl
      · rw [if_pos rfl]
        omega
      · rw [if_neg (other_ne who)]
        omega

theorem overwritten_end {count : Who → Nat} {s : State} (hr : Reach (step false count) Complete start s)
    (hw : s.waited = true) : Overwritten s.file count :=
  final_file (overwritten_keeps count) ⟨[], rfl, fun i who h => by simp at h, rfl⟩ hr hw

/-- **Without `O_APPEND` the shorter writer's number of lines is lost**: the files that complete runs
leave have a line at each place of the longer writer, of any writer whose lines come that far. -/
theorem plain_final (count : Who → Nat) (f : Bytes) :
    (∃ s, Reach (step false count) Complete start s ∧ s.waited = true ∧ s.file = f) ↔
      ∃ tags : List Who, tags.length = max (count .parent) (count .child) ∧
        (∀ i who, tags[i]? = some who → i < count who) ∧ f = tags.flatMap line := by
  constructor
  · rintro ⟨s, hr, hw, rfl⟩
    exact overwritten_end hr hw
  · rintro ⟨tags, hlen, hat, rfl⟩
    have hrounds : ∀ k, k ≤ tags.length → Reach (step false count) Complete start
        (mid ((tags.take k).flatMap line) (fun who => min k (count who)) fun who => 7 * min k (count who)) := by
      intro k
      induction k with
      | zero =>
        intro _
        have h : Reach (step false count) Complete start (mid [] (fun _ => 0) fun _ => 0) := reach_mid
        simpa using h
      | succ k ih => exact fun hk => overwritten_round hat hk (ih (Nat.le_of_succ_le hk))
    have hend := hrounds tags.length (Nat.le_refl _)
    have hmin : ∀ who, min tags.length (count who) = count who := by
      intro who
      have := max_both count who
      omega
    simp only [List.take_length, hmin] at hend
    exact mid_final hend

/-! ## How many lines there are -/

theorem newlines (tags : List Who) : (tags.flatMap line).count 10 = tags.length := by
  induction tags with
  | nil => rfl
  | cons who tags ih =>
    have hline : (line who).count 10 = 1 := by cases who <;> decide
    rw [List.flatMap_cons, List.count_append, ih, hline, List.length_cons, Nat.add_comm]

theorem length_eq_counts (tags : List Who) : tags.length = tags.count .parent + tags.count .child := by
  induction tags with
  | nil => rfl
  | cons who tags ih =>
    cases who <;> simp [ih] <;> omega

/-- The number that `main` prints (`:35`) is the number of lines with `O_APPEND`, and what is missing
without it is what the shorter one wrote. -/
theorem lines_lost (append : Bool) (count : Who → Nat) {s : State}
    (hr : Reach (step append count) Complete start s) (hw : s.waited = true) :
    s.file.count 10 + (if append then 0 else min (count .parent) (count .child)) =
      count .parent + count .child := by
  cases append with
  | true =>
    obtain ⟨tags, hcount, hf⟩ := shuffled_end hr hw
    rw [hf, newlines, length_eq_counts, hcount, hcount]
    rfl
  | false =>
    obtain ⟨tags, hlen, -, hf⟩ := overwritten_end hr hw
    rw [hf, newlines, hlen, if_neg (by decide)]
    omega

end ComputerSystem.RaceWrite
