import ComputerSystem.Lib.Search
/-!
# Blocks of lines

A block is a list of lines, each ended by the two elements `a b`, then an empty line, then anything.
`block_spec` says what a reader who cuts at the first empty line finds: the lines and what follows
them, as long as no line is empty and none has an `a`.
-/

namespace ComputerSystem

section
variable {α : Type}

/-- `ls` as a block, followed by `body`. -/
def block (a b : α) (ls : List (List α)) (body : List α) : List α :=
  match ls with
  | [] => a :: b :: body
  | l :: ls => l ++ a :: b :: block a b ls body

/-- Put in front of the first line. -/
def consFirst (x : α) : List (List α) → List (List α)
  | [] => [[x]]
  | l :: ls => (x :: l) :: ls

variable [DecidableEq α]

/-- Cut at each `a b`. -/
def linesBy (a b : α) : List α → List (List α)
  | [] => [[]]
  | [x] => [[x]]
  | x :: y :: t => if x = a ∧ y = b then [] :: linesBy a b t else consFirst x (linesBy a b (y :: t))

/-- Lines of which no block is misread. -/
def Plain (a : α) (ls : List (List α)) : Prop := ∀ l ∈ ls, l ≠ [] ∧ a ∉ l

theorem linesBy_single {a b : α} {l : List α} (h : a ∉ l) : linesBy a b l = [l] := by
  induction l with
  | nil => rfl
  | cons x l ih =>
    have hx : x ≠ a := fun hx => h (hx ▸ List.mem_cons_self ..)
    have ih := ih fun hmem => h (List.mem_cons_of_mem _ hmem)
    cases l with
    | nil => rfl
    | cons y t => rw [linesBy, if_neg fun hxy => hx hxy.1, ih, consFirst]

theorem linesBy_line {a b : α} {l : List α} (t : List α) (h : a ∉ l) :
    linesBy a b (l ++ a :: b :: t) = l :: linesBy a b t := by
  induction l with
  | nil => rw [List.nil_append, linesBy, if_pos ⟨rfl, rfl⟩]
  | cons x l ih =>
    have hx : x ≠ a := fun hx => h (hx ▸ List.mem_cons_self ..)
    have ih := ih fun hmem => h (List.mem_cons_of_mem _ hmem)
    obtain ⟨y, s, hs⟩ := List.exists_cons_of_ne_nil (show l ++ a :: b :: t ≠ [] by simp)
    rw [List.cons_append, hs, linesBy, if_neg fun hxy => hx hxy.1, ← hs, ih, consFirst]

/-- Where a line and its end are followed by another line, the empty line is looked for behind them. -/
theorem find_line {a b : α} {l hay : List α} (hl : a ∉ l) (hhay : hay.head? ≠ some a) (hab : a ≠ b) :
    find [a, b, a, b] (l ++ a :: b :: hay) = (find [a, b, a, b] hay).map (· + (l.length + 2)) := by
  have hend : find [a, b, a, b] (a :: b :: hay) = (find [a, b, a, b] hay).map (· + 2) := by
    apply find_skip_of [a, b]
    rintro j hj ⟨post, hpost⟩
    simp only [List.length_cons, List.length_nil] at hj
    rcases Nat.lt_or_ge j 1 with h | h
    · obtain rfl : j = 0 := by omega
      apply hhay
      simp only [List.cons_append, List.drop_zero, List.cons.injEq, true_and, List.nil_append] at hpost
      rw [← hpost]
      rfl
    · obtain rfl : j = 1 := by omega
      simp only [List.drop_succ_cons, List.drop_zero, List.cons_append, List.cons.injEq] at hpost
      exact hab hpost.1
  rw [find_skip _ hl, hend, Option.map_map]
  congr 1
  funext n
  simp only [Function.comp]
  omega

/-- **Reading a block.** The first empty line is the one behind the last line. -/
theorem block_spec {a b : α} (hab : a ≠ b) (body : List α) (ls : List (List α)) (hne : ls ≠ []) (h : Plain a ls) :
    ∃ k, find [a, b, a, b] (block a b ls body) = some k ∧ linesBy a b ((block a b ls body).take k) = ls ∧
      (block a b ls body).drop (k + 4) = body := by
  induction ls with
  | nil => exact absurd rfl hne
  | cons l ls ih =>
    obtain ⟨-, hl⟩ := h l (List.mem_cons_self ..)
    have hls : Plain a ls := fun m hm => h m (List.mem_cons_of_mem _ hm)
    by_cases hlast : ls = []
    · subst hlast
      refine ⟨l.length, ?_, ?_, ?_⟩
      · have hend : [a, b, a, b] <+: a :: b :: a :: b :: body := ⟨body, rfl⟩
        rw [block, block, find_skip _ hl, find_of_prefix hend, Option.map_some, Nat.zero_add]
      · rw [block, List.take_left, linesBy_single hl]
      · rw [block, block, ← List.drop_drop, List.drop_left]
        rfl
    · obtain ⟨k, hfind, hlines, hbody⟩ := ih hlast hls
      have hhead : (block a b ls body).head? ≠ some a := by
        obtain ⟨m, ms, rfl⟩ := List.exists_cons_of_ne_nil hlast
        obtain ⟨hm, ham⟩ := hls m (List.mem_cons_self ..)
        obtain ⟨x, t, rfl⟩ := List.exists_cons_of_ne_nil hm
        rintro hx
        apply ham
        rw [← Option.some.inj hx]
        exact List.mem_cons_self ..
      refine ⟨k + (l.length + 2), ?_, ?_, ?_⟩
      · rw [block, find_line hl hhead hab, hfind]
        rfl
      · have htake : (block a b (l :: ls) body).take (k + (l.length + 2)) =
            l ++ a :: b :: (block a b ls body).take k := by
          rw [block, show k + (l.length + 2) = l.length + (k + 2) by omega, List.take_length_add_append]
          rfl
        rw [htake, linesBy_line _ hl, hlines]
      · rw [block, show k + (l.length + 2) + 4 = l.length + (k + 4 + 2) by omega, List.drop_length_add_append]
        exact hbody

end

end ComputerSystem
