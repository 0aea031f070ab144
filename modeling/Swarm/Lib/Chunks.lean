import Mathlib.Data.List.Basic
import Mathlib.Tactic.SplitIfs

/-!
# Cutting a list into slices of one size

`split size l` is the list of the slices `l[i:i+size]` for `i = 0, size, 2 * size, …`, the last one
cut at the end of `l`. The first `k` slices are the first `k * size` elements
(`flatten_take_split`).
-/

namespace Chunks

variable {α : Type} {l : List α} {size : ℕ}

/-- The slice `l[i:j]`. -/
def slice (l : List α) (i j : ℕ) : List α := (l.take j).drop i

/-- The loop `for i := start; i < len(l); i += size`, for at most `fuel` turns. -/
def slices (l : List α) (size : ℕ) : ℕ → ℕ → List (List α)
  | 0, _ => []
  | fuel + 1, i =>
    if i < l.length then slice l i (min (i + size) l.length) :: slices l size fuel (i + size)
    else []

/-- The slices of a list. -/
def split (size : ℕ) (l : List α) : List (List α) := slices l size l.length 0

theorem slice_eq (l : List α) (i size : ℕ) :
    slice l i (min (i + size) l.length) = (l.drop i).take size := by
  unfold slice
  rw [List.drop_take, List.take_eq_take_iff, List.length_drop]
  omega

/-- From `i` on, the first `k` slices are the next `k * size` elements, given fuel for the rest. -/
theorem flatten_take_slices (hsize : 0 < size) {fuel i : ℕ} (hfuel : l.length ≤ i + fuel)
    (k : ℕ) : ((slices l size fuel i).take k).flatten = (l.drop i).take (k * size) := by
  induction fuel generalizing i k with
  | zero =>
    have hdrop : l.drop i = [] := List.drop_eq_nil_of_le (by omega)
    simp [slices, hdrop]
  | succ fuel ih =>
    unfold slices
    split_ifs with hi
    · cases k with
      | zero => simp
      | succ k =>
        have hrest := ih (i := i + size) (by omega) k
        rw [List.take_succ_cons, List.flatten_cons, slice_eq, hrest, ← List.drop_drop,
          Nat.succ_mul, Nat.add_comm (k * size) size, List.take_add]
    · have hdrop : l.drop i = [] := List.drop_eq_nil_of_le (by omega)
      simp [hdrop]

theorem flatten_take_split (hsize : 0 < size) (l : List α) (k : ℕ) :
    ((split size l).take k).flatten = l.take (k * size) := by
  unfold split
  rw [flatten_take_slices hsize (by omega), List.drop_zero]

/-- The slices make up the list. -/
theorem flatten_split (hsize : 0 < size) (l : List α) : (split size l).flatten = l := by
  have hall := flatten_take_split hsize l ((split size l).length + l.length)
  rw [List.take_of_length_le (by omega)] at hall
  rw [hall, List.take_of_length_le]
  calc l.length ≤ (split size l).length + l.length := by omega
    _ ≤ ((split size l).length + l.length) * size := Nat.le_mul_of_pos_right _ hsize

end Chunks
