import Mathlib.Data.List.Basic
/-!
# Files of records

A file is a list; `writeAt` is a positional write, which replaces what is there and fills a hole behind
the end. A file is made of records when it is the codes of a list of values, all codes of one width:
then writing a record at the place of one is writing one value, or adding it at the end
(`writeAt_records`).
-/

namespace ComputerSystem

section
variable {α β : Type}

/-- What is there from `off` on is replaced by `bs`; a hole is filled with `zero`. -/
def writeAt (zero : α) (off : Nat) (bs file : List α) : List α :=
  if bs = [] then file
  else file.take off ++ List.replicate (off - file.length) zero ++ bs ++ file.drop (off + bs.length)

theorem writeAt_end (zero : α) (bs file : List α) : writeAt zero file.length bs file = file ++ bs := by
  unfold writeAt
  split
  · rename_i hbs
    rw [hbs, List.append_nil]
  · rw [List.take_length, Nat.sub_self, List.replicate_zero, List.append_nil, List.drop_of_length_le (by omega),
      List.append_nil]

/-- The value at `i` is replaced by `a`; at the end it is added. -/
def putAt (i : Nat) (a : β) (l : List β) : List β := l.take i ++ a :: l.drop (i + 1)

theorem putAt_length {i : Nat} {l : List β} (h : i ≤ l.length) (a : β) :
    (putAt i a l).length = max l.length (i + 1) := by
  simp only [putAt, List.length_append, List.length_take, List.length_cons, List.length_drop]
  omega

theorem putAt_getElem? {i : Nat} {l : List β} (h : i ≤ l.length) (a : β) (j : Nat) :
    (putAt i a l)[j]? = if j = i then some a else l[j]? := by
  have hlen : (l.take i).length = i := by rw [List.length_take]; omega
  unfold putAt
  by_cases hj : j < i
  · rw [List.getElem?_append_left (by omega), List.getElem?_take_of_lt hj, if_neg (by omega)]
  · rw [List.getElem?_append_right (by omega), hlen]
    by_cases hji : j = i
    · rw [hji, Nat.sub_self, if_pos rfl, List.getElem?_cons_zero]
    · obtain ⟨k, rfl⟩ : ∃ k, j = i + 1 + k := ⟨j - (i + 1), by omega⟩
      rw [if_neg hji, show i + 1 + k - i = k + 1 by omega, List.getElem?_cons_succ, List.getElem?_drop]

variable {enc : β → List α} {w : Nat}

theorem records_length (henc : ∀ b, (enc b).length = w) (l : List β) : (l.flatMap enc).length = w * l.length := by
  induction l with
  | nil => rfl
  | cons b l ih => rw [List.flatMap_cons, List.length_append, ih, henc, List.length_cons, Nat.mul_succ, Nat.add_comm]

theorem records_take (henc : ∀ b, (enc b).length = w) (l : List β) : ∀ i : Nat,
    (l.flatMap enc).take (w * i) = (l.take i).flatMap enc := by
  induction l with
  | nil => intro i; simp
  | cons b l ih =>
    intro i
    cases i with
    | zero => simp
    | succ i =>
      rw [List.flatMap_cons, List.take_succ_cons, List.flatMap_cons, Nat.mul_succ, Nat.add_comm,
        ← henc b, List.take_length_add_append, henc b, ih]

theorem records_drop (henc : ∀ b, (enc b).length = w) (l : List β) : ∀ i : Nat,
    (l.flatMap enc).drop (w * i) = (l.drop i).flatMap enc := by
  induction l with
  | nil => intro i; simp
  | cons b l ih =>
    intro i
    cases i with
    | zero => simp
    | succ i =>
      rw [List.flatMap_cons, List.drop_succ_cons, Nat.mul_succ, Nat.add_comm, ← henc b,
        List.drop_length_add_append, henc b, ih]

/-- **A record written over a record**, or behind the last one. -/
theorem writeAt_records (zero : α) (henc : ∀ b, (enc b).length = w) (hw : 0 < w) {i : Nat} {l : List β}
    (hi : i ≤ l.length) (b : β) : writeAt zero (w * i) (enc b) (l.flatMap enc) = (putAt i b l).flatMap enc := by
  have hne : enc b ≠ [] := by
    intro h
    have := henc b
    rw [h] at this
    simp only [List.length_nil] at this
    omega
  have hhole : w * i - (l.flatMap enc).length = 0 := by
    rw [records_length henc]
    exact Nat.sub_eq_zero_of_le (Nat.mul_le_mul_left w hi)
  unfold writeAt putAt
  rw [if_neg hne, hhole, List.replicate_zero, List.append_nil, henc, ← Nat.mul_succ, records_take henc, records_drop henc,
    List.flatMap_append, List.flatMap_cons, List.append_assoc]

end

end ComputerSystem
