import Mathlib.Data.List.Basic
/-!
# Words between separators

`words sep bs` are the maximal runs of elements of `bs` other than `sep`, in order. A separator cuts
(`words_append_sep`), what is between two separators is a word (`words_single`), and the words together
are the elements that are not separators (`flatten_words`). `runs` are the words with their places.
-/

namespace ComputerSystem

section
variable {α : Type} [DecidableEq α] {sep : α}

def words (sep : α) (bs : List α) : List (List α) := (bs.splitOn sep).filter (· ≠ [])

/-- The elements that are not separators. -/
def inked (sep : α) (bs : List α) : List α := bs.filter (· ≠ sep)

theorem words_nil : words sep [] = [] := by
  rw [words, List.splitOn_nil]
  rfl

theorem words_append_sep (xs as : List α) : words sep (xs ++ sep :: as) = words sep xs ++ words sep as := by
  rw [words, List.splitOn_append_cons_self, List.filter_append]
  rfl

theorem words_sep (as : List α) : words sep (sep :: as) = words sep as := by
  have h : words sep ([] ++ sep :: as) = words sep [] ++ words sep as := words_append_sep [] as
  rw [words_nil, List.nil_append, List.nil_append] at h
  exact h

theorem words_single {w : List α} (hsep : sep ∉ w) (hne : w ≠ []) : words sep w = [w] := by
  rw [words, List.splitOn_eq_singleton hsep]
  simp [hne]

theorem ne_nil_of_mem_words {bs w : List α} (h : w ∈ words sep bs) : w ≠ [] := by
  obtain ⟨-, hne⟩ := List.mem_filter.1 h
  simpa using hne

theorem inked_append (a b : List α) : inked sep (a ++ b) = inked sep a ++ inked sep b := List.filter_append ..

theorem inked_of_not_mem {w : List α} (h : sep ∉ w) : inked sep w = w := by
  rw [inked, List.filter_eq_self]
  intro x hx
  simp only [decide_eq_true_eq]
  rintro rfl
  exact h hx

/-- **Induction rule**: a list without a separator, and one with a first separator. -/
theorem words_induction (sep : α) {P : List α → Prop} (hword : ∀ w, sep ∉ w → P w)
    (hsep : ∀ w as, sep ∉ w → P as → P (w ++ sep :: as)) (bs : List α) : P bs := by
  induction hn : bs.length using Nat.strongRecOn generalizing bs with
  | ind n ih =>
    by_cases h : sep ∈ bs
    · obtain ⟨w, as, rfl, hw⟩ := List.eq_append_cons_of_mem h
      rw [List.length_append, List.length_cons] at hn
      exact hsep w as hw (ih as.length (by omega) as rfl)
    · exact hword bs h

/-- Nothing but separators is lost. -/
theorem flatten_words (bs : List α) : (words sep bs).flatten = inked sep bs := by
  have hword : ∀ w : List α, sep ∉ w → (words sep w).flatten = inked sep w := by
    intro w hw
    rw [inked_of_not_mem hw]
    by_cases hne : w = []
    · rw [hne, words_nil]
      rfl
    · rw [words_single hw hne, List.flatten_singleton]
  induction bs using words_induction sep with
  | hword w hw => exact hword w hw
  | hsep w as hw ih =>
    rw [words_append_sep, List.flatten_append, hword w hw, ih, inked_append]
    simp [inked]

theorem words_eq_nil {bs : List α} : words sep bs = [] ↔ inked sep bs = [] := by
  constructor
  · intro h
    rw [← flatten_words, h]
    rfl
  · intro h
    rw [← flatten_words, List.flatten_eq_nil_iff] at h
    cases hws : words sep bs with
    | nil => rfl
    | cons w ws =>
      have hmem : w ∈ words sep bs := by
        rw [hws]
        exact List.mem_cons_self ..
      exact absurd (h w hmem) (ne_nil_of_mem_words hmem)

/-- A single element that is no separator is the only word. -/
theorem words_of_inked_single {bs : List α} {c : α} (h : inked sep bs = [c]) : words sep bs = [[c]] := by
  rw [← flatten_words] at h
  cases hws : words sep bs with
  | nil =>
    rw [hws] at h
    cases h
  | cons w ws =>
    have hne : ∀ v ∈ w :: ws, v ≠ [] := by
      intro v hv
      rw [← hws] at hv
      exact ne_nil_of_mem_words hv
    obtain ⟨x, t, rfl⟩ := List.exists_cons_of_ne_nil (hne w (List.mem_cons_self ..))
    rw [hws, List.flatten_cons, List.cons_append, List.cons.injEq, List.append_eq_nil_iff] at h
    obtain ⟨rfl, rfl, hnil⟩ := h
    cases ws with
    | nil => rfl
    | cons v ws =>
      rw [List.flatten_eq_nil_iff] at hnil
      exact absurd (hnil v (List.mem_cons_self ..)) (hne v (List.mem_cons_of_mem _ (List.mem_cons_self ..)))

theorem words_blank_append {a : List α} (h : inked sep a = []) (bs : List α) : words sep (a ++ bs) = words sep bs := by
  induction a with
  | nil => rfl
  | cons x a ih =>
    rw [inked, List.filter_eq_nil_iff] at h
    have hx : x = sep := by simpa using h x (List.mem_cons_self ..)
    rw [hx, List.cons_append, words_sep]
    apply ih
    rw [inked, List.filter_eq_nil_iff]
    exact fun y hy => h y (List.mem_cons_of_mem _ hy)

theorem words_append_blank {b : List α} (h : inked sep b = []) (bs : List α) : words sep (bs ++ b) = words sep bs := by
  cases b with
  | nil => rw [List.append_nil]
  | cons x b =>
    have hx : x = sep := by
      rw [inked, List.filter_eq_nil_iff] at h
      simpa using h x (List.mem_cons_self ..)
    subst hx
    have hb : words x b = [] := by
      rw [words_eq_nil]
      simpa [inked] using h
    rw [words_append_sep, hb, List.append_nil]

/-- **What has all the ink has all the words.** -/
theorem words_of_inked {a p b : List α} (h : (inked sep p).length = (inked sep (a ++ p ++ b)).length) :
    words sep p = words sep (a ++ p ++ b) := by
  rw [inked_append, inked_append, List.length_append, List.length_append] at h
  have ha : inked sep a = [] := List.length_eq_zero_iff.1 (by omega)
  have hb : inked sep b = [] := List.length_eq_zero_iff.1 (by omega)
  rw [words_append_blank hb, words_blank_append ha]

end

/-! ## Places -/

section
variable {α : Type} {sep : α}

/-- `w` is a maximal run of `bs` without a separator, and begins at `p`. -/
structure Run (sep : α) (bs : List α) (p : Nat) (w : List α) : Prop where
  ne    : w ≠ []
  clean : sep ∉ w
  cut   : ∃ a b, bs = a ++ (w ++ b) ∧ a.length = p ∧ (a = [] ∨ a.getLast? = some sep) ∧ (b = [] ∨ b.head? = some sep)

theorem run_clean {w : List α} (hsep : sep ∉ w) {p : Nat} {v : List α} : Run sep w p v ↔ w ≠ [] ∧ p = 0 ∧ v = w := by
  constructor
  · rintro ⟨hne, -, a, b, rfl, rfl, ha, hb⟩
    have hanil : a = [] := by
      rcases ha with ha | ha
      · exact ha
      · exact absurd (List.mem_append_left _ (List.mem_of_getLast? ha)) hsep
    have hbnil : b = [] := by
      rcases hb with hb | hb
      · exact hb
      · exact absurd (by simp [List.mem_of_head? hb]) hsep
    subst hanil hbnil
    simp [hne]
  · rintro ⟨hne, rfl, rfl⟩
    exact ⟨hne, hsep, [], [], by simp, rfl, .inl rfl, .inl rfl⟩

/-- A run of a list with a separator is the piece before it or a run behind it. -/
theorem run_append_sep {w : List α} (hsep : sep ∉ w) (as : List α) {p : Nat} {v : List α} :
    Run sep (w ++ sep :: as) p v ↔ Run sep w p v ∨ ∃ q, p = w.length + 1 + q ∧ Run sep as q v := by
  constructor
  · rintro ⟨hne, hclean, a, b, hcut, rfl, ha, hb⟩
    rcases List.append_eq_append_iff.1 hcut with ⟨c, rfl, hc⟩ | ⟨c, rfl, hc⟩
    · -- it begins behind the piece
      right
      cases c with
      | nil =>
        obtain ⟨x, v, rfl⟩ := List.exists_cons_of_ne_nil hne
        injection hc with hx
        exact absurd (by rw [hx]; exact List.mem_cons_self ..) hclean
      | cons x c =>
        injection hc with hx has
        subst hx has
        refine ⟨c.length, by simp [Nat.add_assoc, Nat.add_comm 1], hne, hclean, c, b, rfl, rfl, ?_, hb⟩
        rcases ha with ha | ha
        · simp at ha
        · cases c with
          | nil => exact .inl rfl
          | cons y c =>
            right
            rw [List.getLast?_append_of_ne_nil _ (List.cons_ne_nil _ _), List.getLast?_cons_cons] at ha
            exact ha
    · -- it begins in the piece, so with it
      left
      have hanil : a = [] := by
        rcases ha with ha | ha
        · exact ha
        · exact absurd (List.mem_append_left _ (List.mem_of_getLast? ha)) hsep
      subst hanil
      rw [List.nil_append] at hsep ⊢
      refine (run_clean hsep).2 ?_
      have hvc : v = c := by
        rcases List.append_eq_append_iff.1 hc with ⟨d, rfl, hd⟩ | ⟨d, rfl, hd⟩
        · cases d with
          | nil => exact (List.append_nil v).symm
          | cons x d =>
            rcases hb with hb | hb
            · rw [hb] at hd
              cases hd
            · rw [hd, List.cons_append, List.head?_cons] at hb
              injection hb with hx
              exact absurd (by simp [hx]) hsep
        · cases d with
          | nil => exact List.append_nil c
          | cons x d =>
            injection hd with hx
            exact absurd (by simp [hx]) hclean
      subst hvc
      exact ⟨hne, rfl, rfl⟩
  · rintro (h | ⟨q, rfl, hne, hclean, a, b, rfl, rfl, ha, hb⟩)
    · obtain ⟨hne, rfl, rfl⟩ := (run_clean hsep).1 h
      exact ⟨hne, hsep, [], sep :: as, rfl, rfl, .inl rfl, .inr rfl⟩
    · refine ⟨hne, hclean, w ++ sep :: a, b, by simp, by simp; omega, .inr ?_, hb⟩
      rw [List.getLast?_append_of_ne_nil _ (List.cons_ne_nil _ _)]
      rcases ha with rfl | ha
      · rfl
      · rw [List.getLast?_cons, ha]
        rfl

end

section
variable {α : Type} [DecidableEq α] {sep : α}

/-- The pieces that are not empty, the first of them beginning at `i`. -/
def runsFrom : Nat → List (List α) → List (Nat × List α)
  | _, [] => []
  | i, w :: ws => if w = [] then runsFrom (i + 1) ws else (i, w) :: runsFrom (i + w.length + 1) ws

/-- The words of `bs`, each with its place, if `bs` begins at `i`. -/
def runs (sep : α) (i : Nat) (bs : List α) : List (Nat × List α) := runsFrom i (bs.splitOn sep)

theorem runs_single {w : List α} (hsep : sep ∉ w) (i : Nat) : runs sep i w = if w = [] then [] else [(i, w)] := by
  rw [runs, List.splitOn_eq_singleton hsep]
  rfl

theorem runs_nil (i : Nat) : runs sep i [] = [] := by
  rw [runs_single (List.not_mem_nil) i, if_pos rfl]

theorem runs_append_sep {w : List α} (hsep : sep ∉ w) (i : Nat) (as : List α) :
    runs sep i (w ++ sep :: as) = runs sep i w ++ runs sep (i + w.length + 1) as := by
  rw [runs_single hsep, runs, List.splitOn_append_cons_self, List.splitOn_eq_singleton hsep, List.singleton_append,
    runsFrom]
  split
  · rename_i h
    subst h
    rfl
  · rfl

theorem runs_blank_append (b : List α) : ∀ (i : Nat) (bs : List α), (∀ x ∈ b, x = sep) →
    runs sep i (b ++ bs) = runs sep (i + b.length) bs := by
  induction b with
  | nil => intro i bs _; rfl
  | cons x b ih =>
    intro i bs hb
    obtain rfl := hb x (List.mem_cons_self ..)
    have hcut : runs x i ([] ++ x :: (b ++ bs)) = runs x i [] ++ runs x (i + 0 + 1) (b ++ bs) :=
      runs_append_sep (List.not_mem_nil) i (b ++ bs)
    rw [runs_nil, List.nil_append, List.nil_append] at hcut
    rw [List.cons_append, hcut, ih (i + 0 + 1) bs fun y hy => hb y (List.mem_cons_of_mem _ hy), List.length_cons]
    congr 1
    omega

/-- A separator at the end begins no word. -/
theorem runs_concat_sep (bs : List α) : ∀ i, runs sep i (bs ++ [sep]) = runs sep i bs := by
  induction bs using words_induction sep with
  | hword w hw =>
    intro i
    rw [runs_append_sep hw, runs_nil, List.append_nil]
  | hsep w as hw ih =>
    intro i
    rw [List.append_assoc, List.cons_append, runs_append_sep hw, ih, runs_append_sep hw]

theorem map_snd_runs (sep : α) (bs : List α) : ∀ i, (runs sep i bs).map (·.2) = words sep bs := by
  have hword : ∀ w : List α, sep ∉ w → ∀ i, (runs sep i w).map (·.2) = words sep w := by
    intro w hw i
    rw [runs_single hw]
    by_cases hne : w = []
    · rw [if_pos hne, hne, words_nil]
      rfl
    · rw [if_neg hne, words_single hw hne]
      rfl
  induction bs using words_induction sep with
  | hword w hw => exact hword w hw
  | hsep w as hw ih =>
    intro i
    rw [runs_append_sep hw, List.map_append, hword w hw, ih, words_append_sep]

/-- Every run lies within the list. -/
theorem runs_bounds (bs : List α) : ∀ i, ∀ r ∈ runs sep i bs, i ≤ r.1 ∧ r.1 + r.2.length ≤ i + bs.length := by
  have hword : ∀ w : List α, sep ∉ w → ∀ i, ∀ r ∈ runs sep i w, i ≤ r.1 ∧ r.1 + r.2.length ≤ i + w.length := by
    intro w hw i r hr
    rw [runs_single hw] at hr
    split at hr
    · cases hr
    · rw [List.mem_singleton] at hr
      subst hr
      exact ⟨Nat.le_refl _, Nat.le_refl _⟩
  induction bs using words_induction sep with
  | hword w hw => exact hword w hw
  | hsep w as hw ih =>
    intro i r hr
    rw [runs_append_sep hw, List.mem_append] at hr
    rw [List.length_append, List.length_cons]
    rcases hr with hr | hr
    · have := hword w hw i r hr
      omega
    · have := ih _ r hr
      omega

/-- The runs stand in order, a separator at least between two of them. -/
theorem runs_pairwise (bs : List α) : ∀ i, (runs sep i bs).Pairwise fun r r' => r.1 + r.2.length < r'.1 := by
  induction bs using words_induction sep with
  | hword w hw =>
    intro i
    rw [runs_single hw]
    split
    · exact List.Pairwise.nil
    · exact List.pairwise_singleton _ _
  | hsep w as hw ih =>
    intro i
    rw [runs_append_sep hw, List.pairwise_append]
    refine ⟨?_, ih _, ?_⟩
    · rw [runs_single hw]
      split
      · exact List.Pairwise.nil
      · exact List.pairwise_singleton _ _
    · intro r hr r' hr'
      have h1 := runs_bounds w i r hr
      have h2 := runs_bounds as _ r' hr'
      omega

/-- **`runs` are the runs.** -/
theorem mem_runs (sep : α) (bs : List α) : ∀ {i p : Nat} {v : List α}, (i + p, v) ∈ runs sep i bs ↔ Run sep bs p v := by
  have hword : ∀ w : List α, sep ∉ w → ∀ {i p : Nat} {v : List α}, (i + p, v) ∈ runs sep i w ↔ Run sep w p v := by
    intro w hw i p v
    rw [runs_single hw, run_clean hw]
    split
    · simp_all
    · simp_all
  induction bs using words_induction sep with
  | hword w hw => exact hword w hw
  | hsep w as hw ih =>
    intro i p v
    rw [runs_append_sep hw, List.mem_append, hword w hw, run_append_sep hw]
    refine or_congr Iff.rfl ⟨fun h => ?_, fun h => ?_⟩
    · have hb := runs_bounds as _ _ h
      obtain ⟨q, rfl⟩ := Nat.exists_eq_add_of_le (show w.length + 1 ≤ p by simp only at hb; omega)
      refine ⟨q, rfl, (ih (i := i + w.length + 1)).1 ?_⟩
      rw [Nat.add_assoc i, Nat.add_assoc i]
      exact h
    · obtain ⟨q, rfl, hq⟩ := h
      rw [← Nat.add_assoc, ← Nat.add_assoc]
      exact ih.2 hq

end

end ComputerSystem
