import Mathlib.Data.List.Sort
import Swarm.Lib.Words

/-!
# Sorting a slice by a comparison

`sortSlice less` sorts by a strict comparison given as a Boolean function. When `less` compares
a key in a linear order, the result is ordered by that key, and when no two elements share a
key it depends only on the multiset that was sorted (`SortSlice.congr`). A filter by an interval of
keys then keeps a contiguous run (`SortSlice.kept_contiguous`).
-/

/-- Sort by the strict comparison `less`. -/
def sortSlice {α : Type} (less : α → α → Bool) (l : List α) : List α :=
  l.insertionSort fun a b => ¬ less b a = true

namespace SortSlice

variable {α β : Type} [LinearOrder β] {less : α → α → Bool} {k : α → β}

theorem perm (less : α → α → Bool) (l : List α) : (sortSlice less l).Perm l :=
  List.perm_insertionSort _ l

theorem mem_iff {l : List α} {a : α} : a ∈ sortSlice less l ↔ a ∈ l := (perm less l).mem_iff

theorem pairwise_le (hless : ∀ a b, less a b = true ↔ k a < k b) (l : List α) :
    (sortSlice less l).Pairwise fun a b => k a ≤ k b := by
  have hr : (fun a b => ¬ less b a = true) = fun a b => k a ≤ k b := by
    funext a b
    rw [hless b a, not_lt]
  have htot : Std.Total fun a b => k a ≤ k b := ⟨fun a b => le_total (k a) (k b)⟩
  have htrans : IsTrans α fun a b => k a ≤ k b := ⟨fun _ _ _ => le_trans⟩
  unfold sortSlice
  simp only [hr]
  exact List.pairwise_insertionSort _ l

/-- With distinct keys the sorted slice is strictly ascending. -/
theorem pairwise_lt (hless : ∀ a b, less a b = true ↔ k a < k b) {l : List α}
    (hnd : (l.map k).Nodup) : (sortSlice less l).Pairwise fun a b => k a < k b := by
  have hnd' : ((sortSlice less l).map k).Nodup := ((perm less l).map k).nodup_iff.mpr hnd
  have hne : (sortSlice less l).Pairwise fun a b => k a ≠ k b := List.pairwise_map.mp hnd'
  exact ((pairwise_le hless l).and hne).imp fun h => lt_of_le_of_ne h.1 h.2

/-- With distinct keys the result forgets the order of the input. -/
theorem congr (hless : ∀ a b, less a b = true ↔ k a < k b) {l l' : List α} (hp : l.Perm l')
    (hnd : (l.map k).Nodup) : sortSlice less l = sortSlice less l' := by
  have h := pairwise_lt hless hnd
  have h' := pairwise_lt hless ((hp.map k).nodup_iff.mp hnd)
  refine List.Perm.eq_of_pairwise (fun a b _ _ hab hba => absurd (hab.trans hba) (lt_irrefl _))
    h h' ?_
  exact (perm less l).trans (hp.trans (perm less l').symm)

/-! ## Comparisons that order -/

/-- A strict total order given as a Boolean comparison. -/
structure StrictTotal {α : Type} (less : α → α → Bool) : Prop where
  irrefl : ∀ a, less a a = false
  trans : ∀ a b c, less a b = true → less b c = true → less a c = true
  exactly_one : ∀ a b,
    (less a b = true ∧ a ≠ b ∧ less b a = false) ∨ (less a b = false ∧ a = b ∧ less b a = false) ∨
      (less a b = false ∧ a ≠ b ∧ less b a = true)

/-- A comparison of distinct keys in a linear order is one. -/
theorem StrictTotal.of_key (hless : ∀ a b, less a b = true ↔ k a < k b)
    (hk : Function.Injective k) : StrictTotal less where
  irrefl a := by
    rw [← Bool.not_eq_true, hless]
    exact lt_irrefl _
  trans a b c hab hbc := (hless a c).mpr (((hless a b).mp hab).trans ((hless b c).mp hbc))
  exactly_one a b := by
    simp only [← Bool.not_eq_true, hless, ← hk.ne_iff, ← hk.eq_iff]
    rcases lt_trichotomy (k a) (k b) with h | h | h
    · exact Or.inl ⟨h, h.ne, h.not_gt⟩
    · exact Or.inr (Or.inl ⟨h.not_lt, h, h.not_gt⟩)
    · exact Or.inr (Or.inr ⟨h.not_gt, h.ne', h⟩)

/-! ## Intervals of a sorted slice -/

section Intervals

variable {p : α → Bool}

/-- Behind a kept element the kept ones come first. -/
theorem kept_first {a : α} {l : List α} (hl : (a :: l).Pairwise fun x y => k x ≤ k y)
    (hp : ∀ x y z, k x ≤ k y → k y ≤ k z → p x = true → p z = true → p y = true)
    (ha : p a = true) : l.filter p <+: l := by
  induction l generalizing a with
  | nil => exact ⟨[], rfl⟩
  | cons b l ih =>
    obtain ⟨hab, hbl⟩ := List.pairwise_cons.mp hl
    by_cases hb : p b = true
    · rw [List.filter_cons_of_pos hb]
      exact List.cons_prefix_cons.mpr ⟨rfl, ih hbl hb⟩
    · -- what is kept behind `b` would put `b` between two kept elements
      have hnone : (b :: l).filter p = [] := by
        refine List.filter_eq_nil_iff.mpr fun c hc hpc => hb ?_
        rcases List.mem_cons.mp hc with rfl | hc
        · exact hpc
        · exact hp a b c (hab b List.mem_cons_self) ((List.pairwise_cons.mp hbl).1 c hc) ha hpc
      rw [hnone]
      exact ⟨b :: l, rfl⟩

/-- A filter that keeps what lies between kept elements keeps a contiguous run. -/
theorem kept_contiguous {l : List α} (hl : l.Pairwise fun x y => k x ≤ k y)
    (hp : ∀ x y z, k x ≤ k y → k y ≤ k z → p x = true → p z = true → p y = true) :
    l.filter p <:+: l := by
  induction l with
  | nil => exact ⟨[], [], rfl⟩
  | cons a l ih =>
    by_cases ha : p a = true
    · rw [List.filter_cons_of_pos ha]
      exact (List.cons_prefix_cons.mpr ⟨rfl, kept_first hl hp ha⟩).isInfix
    · rw [List.filter_cons_of_neg ha]
      exact List.infix_cons (ih (List.pairwise_cons.mp hl).2)

end Intervals

end SortSlice
