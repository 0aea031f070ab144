import Mathlib.Order.MinMax
import Swarm.Lib.Words

/-!
# The loop that keeps a maximum

`maxLoop f start l` is the accumulator loop that replaces its value by `f a` whenever that is
greater. The result is the least bound of the start value and the visited ones.
-/

/-- Visit the list and keep the greatest of `start` and the values of `f`. -/
def maxLoop {α β : Type} [LinearOrder β] (f : α → β) (start : β) (l : List α) : β :=
  l.foldl (fun m a => if m < f a then f a else m) start

namespace MaxLoop

variable {α β : Type} [LinearOrder β] (f : α → β)

theorem cons (start : β) (a : α) (l : List α) :
    maxLoop f start (a :: l) = maxLoop f (max start (f a)) l := by
  have hstep : (if start < f a then f a else start) = max start (f a) := by
    split_ifs with h
    · exact (max_eq_right h.le).symm
    · exact (max_eq_left (not_lt.mp h)).symm
  unfold maxLoop
  rw [List.foldl_cons, hstep]

/-- The result is below a bound exactly when everything it was taken of is. -/
theorem le_iff (start : β) (l : List α) (b : β) :
    maxLoop f start l ≤ b ↔ start ≤ b ∧ ∀ a ∈ l, f a ≤ b := by
  induction l generalizing start with
  | nil => simp [maxLoop]
  | cons a l ih =>
    rw [cons, ih, max_le_iff, List.forall_mem_cons, and_assoc]

theorem lt_iff (start : β) (l : List α) (b : β) :
    maxLoop f start l < b ↔ start < b ∧ ∀ a ∈ l, f a < b := by
  induction l generalizing start with
  | nil => simp [maxLoop]
  | cons a l ih =>
    rw [cons, ih, max_lt_iff, List.forall_mem_cons, and_assoc]

theorem start_le (start : β) (l : List α) : start ≤ maxLoop f start l :=
  ((le_iff f start l _).mp le_rfl).1

theorem le_of_mem (start : β) {l : List α} {a : α} (ha : a ∈ l) : f a ≤ maxLoop f start l :=
  ((le_iff f start l _).mp le_rfl).2 a ha

/-- The result is the start value or one that was visited. -/
theorem eq_start_or_mem (start : β) (l : List α) :
    maxLoop f start l = start ∨ ∃ a ∈ l, f a = maxLoop f start l := by
  induction l generalizing start with
  | nil => exact Or.inl rfl
  | cons a l ih =>
    rw [cons]
    rcases ih (max start (f a)) with h | ⟨b, hb, h⟩
    · rw [h]
      rcases max_choice start (f a) with hm | hm
      · exact Or.inl hm
      · exact Or.inr ⟨a, List.mem_cons_self, hm.symm⟩
    · exact Or.inr ⟨b, List.mem_cons_of_mem _ hb, h⟩

end MaxLoop
