import Mathlib.Algebra.Group.Int.Defs
import Mathlib.Algebra.Group.Nat.Defs
import Mathlib.Data.Nat.Basic

/-!
# Machine words as linear orders

Fixed-width words carry their order as separate lemmas. Here the three widths in use become
`LinearOrder`s over the comparison they already have, so byte strings get the lexicographic
linear order and `max`, sorting and trichotomy apply to all of them. Arithmetic that does not leave
the width is arithmetic.
-/

instance uint8LinearOrder : LinearOrder UInt8 where
  le_refl := UInt8.le_refl
  le_trans _ _ _ := UInt8.le_trans
  lt_iff_le_not_ge a b := by
    rw [UInt8.lt_iff_toNat_lt, UInt8.le_iff_toNat_le, UInt8.le_iff_toNat_le]
    omega
  le_antisymm _ _ := UInt8.le_antisymm
  le_total := UInt8.le_total
  toDecidableLE := inferInstance
  toDecidableEq := inferInstance
  toDecidableLT := inferInstance

instance uint64LinearOrder : LinearOrder UInt64 where
  le_refl := UInt64.le_refl
  le_trans _ _ _ := UInt64.le_trans
  lt_iff_le_not_ge a b := by
    rw [UInt64.lt_iff_toNat_lt, UInt64.le_iff_toNat_le, UInt64.le_iff_toNat_le]
    omega
  le_antisymm _ _ := UInt64.le_antisymm
  le_total := UInt64.le_total
  toDecidableLE := inferInstance
  toDecidableEq := inferInstance
  toDecidableLT := inferInstance

instance int64LinearOrder : LinearOrder Int64 where
  le_refl := Int64.le_refl
  le_trans _ _ _ := Int64.le_trans
  lt_iff_le_not_ge a b := by
    rw [Int64.lt_iff_toInt_lt, Int64.le_iff_toInt_le, Int64.le_iff_toInt_le]
    omega
  le_antisymm _ _ := Int64.le_antisymm
  le_total := Int64.le_total
  toDecidableLE := inferInstance
  toDecidableEq := inferInstance
  toDecidableLT := inferInstance

namespace Words

/-- What holds of the 256 bytes by number holds of every byte. -/
theorem forall_byte {P : UInt8 → Prop} (h : ∀ i : Fin 256, P (UInt8.ofNat i.val)) (b : UInt8) :
    P b := by
  simpa using h ⟨b.toNat, b.toNat_lt⟩

/-- The successor of a word below the top is above it. -/
theorem lt_add_one {x : UInt64} (h : x.toNat < 2 ^ 64 - 1) : x < x + 1 := by
  rw [UInt64.lt_iff_toNat_lt, UInt64.toNat_add]
  have h1 : (1 : UInt64).toNat = 1 := rfl
  omega

theorem lt_add_one_of_lt {x y : UInt64} (h : x < y) : x < x + 1 := by
  refine lt_add_one ?_
  rw [UInt64.lt_iff_toNat_lt] at h
  have := y.toNat_lt
  omega

/-- The successor of a word is above it unless it wraps to zero. -/
theorem lt_add_one_of_ne {x : UInt64} (h : x + 1 ≠ 0) : x < x + 1 := by
  refine lt_add_one (lt_of_not_ge fun hge => h ?_)
  rw [← UInt64.toNat_inj, UInt64.toNat_add]
  have h1 : (1 : UInt64).toNat = 1 := rfl
  have h0 : (0 : UInt64).toNat = 0 := rfl
  have := x.toNat_lt
  omega

theorem add_one_le_iff {x y : UInt64} (h : x < x + 1) : x + 1 ≤ y ↔ x < y := by
  rw [UInt64.lt_iff_toNat_lt, UInt64.toNat_add] at h
  rw [UInt64.le_iff_toNat_le, UInt64.lt_iff_toNat_lt, UInt64.toNat_add]
  have h1 : (1 : UInt64).toNat = 1 := rfl
  omega

/-- Successors are ordered as the words are when the later one does not wrap. -/
theorem add_one_le_add_one {x y : UInt64} (hle : x ≤ y) (h : y < y + 1) : x + 1 ≤ y + 1 := by
  rw [UInt64.lt_iff_toNat_lt, UInt64.toNat_add] at h
  rw [UInt64.le_iff_toNat_le] at hle ⊢
  rw [UInt64.toNat_add, UInt64.toNat_add]
  have h1 : (1 : UInt64).toNat = 1 := rfl
  omega

/-- A sum that fits is the sum. -/
theorem toInt_add {a b : Int64} (h : -2 ^ 63 ≤ a.toInt + b.toInt)
    (h' : a.toInt + b.toInt < 2 ^ 63) : (a + b).toInt = a.toInt + b.toInt := by
  rw [Int64.toInt_add]
  exact Int.bmod_eq_of_le (by omega) (by omega)

/-- A difference that fits is the difference. -/
theorem toInt_sub {a b : Int64} (h : -2 ^ 63 ≤ a.toInt - b.toInt)
    (h' : a.toInt - b.toInt < 2 ^ 63) : (a - b).toInt = a.toInt - b.toInt := by
  rw [Int64.toInt_sub]
  exact Int.bmod_eq_of_le (by omega) (by omega)

/-- A product that fits is the product. -/
theorem toInt_mul {a b : Int64} (h : -2 ^ 63 ≤ a.toInt * b.toInt)
    (h' : a.toInt * b.toInt < 2 ^ 63) : (a * b).toInt = a.toInt * b.toInt := by
  rw [Int64.toInt_mul]
  exact Int.bmod_eq_of_le (by omega) (by omega)

end Words
