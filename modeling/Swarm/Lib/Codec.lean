import Mathlib.Algebra.Order.Ring.Nat
import Mathlib.Tactic.Positivity
import Swarm.Lib.Words

/-!
# Fixed-width big-endian fields

`beBytes w n` writes the low `w` bytes of `n`, most significant first; higher bytes are dropped,
as when a length is cast to a narrow integer before it is written. Two numbers share their bytes
exactly when they agree modulo `256 ^ w` (`beBytes_inj`).
-/

namespace Codec

/-- The low `w` bytes of `n`, most significant first. -/
def beBytes : ℕ → ℕ → List UInt8
  | 0, _ => []
  | w + 1, n => UInt8.ofNat (n / 256 ^ w) :: beBytes w n

@[simp] theorem length_beBytes (w n : ℕ) : (beBytes w n).length = w := by
  induction w with
  | zero => rfl
  | succ w ih => rw [beBytes, List.length_cons, ih]

/-- The bytes determine the number modulo the width. -/
theorem beBytes_inj {w n m : ℕ} : beBytes w n = beBytes w m ↔ n % 256 ^ w = m % 256 ^ w := by
  induction w with
  | zero => simp [beBytes, Nat.mod_one]
  | succ w ih =>
    have hpos : 0 < 256 ^ w := by positivity
    have hbyte : UInt8.ofNat (n / 256 ^ w) = UInt8.ofNat (m / 256 ^ w) ↔
        n / 256 ^ w % 256 = m / 256 ^ w % 256 := by
      rw [← UInt8.toNat_inj, UInt8.toNat_ofNat', UInt8.toNat_ofNat']
    rw [beBytes, beBytes, List.cons.injEq, ih, hbyte, pow_succ, Nat.mod_mul, Nat.mod_mul]
    constructor
    · rintro ⟨hhi, hlo⟩
      rw [hhi, hlo]
    · intro h
      have hlo : n % 256 ^ w = m % 256 ^ w := by
        have := congrArg (· % 256 ^ w) h
        simpa [Nat.add_mul_mod_self_left] using this
      refine ⟨?_, hlo⟩
      rw [hlo] at h
      exact Nat.eq_of_mul_eq_mul_left hpos (Nat.add_left_cancel h)

/-- Numbers that fit the width are recovered. -/
theorem eq_of_beBytes_eq {w n m : ℕ} (hn : n < 256 ^ w) (hm : m < 256 ^ w)
    (h : beBytes w n = beBytes w m) : n = m := by
  rw [beBytes_inj, Nat.mod_eq_of_lt hn, Nat.mod_eq_of_lt hm] at h
  exact h

theorem uint64_inj {x y : UInt64} (h : beBytes 8 x.toNat = beBytes 8 y.toNat) : x = y :=
  UInt64.toNat_inj.mp (eq_of_beBytes_eq x.toNat_lt y.toNat_lt h)

/-- A signed word is written as the unsigned one with its bits. -/
theorem int64_inj {x y : Int64}
    (h : beBytes 8 x.toUInt64.toNat = beBytes 8 y.toUInt64.toNat) : x = y :=
  congrArg Int64.ofUInt64 (uint64_inj h)

/-- A string that fits its length field is read off the front. -/
theorem field_inj {w : ℕ} {s s' rest rest' : List UInt8} (hs : s.length < 256 ^ w)
    (hs' : s'.length < 256 ^ w)
    (h : beBytes w s.length ++ (s ++ rest) = beBytes w s'.length ++ (s' ++ rest')) :
    s = s' ∧ rest = rest' := by
  obtain ⟨hlen, h⟩ := List.append_inj h (by simp)
  exact List.append_inj h (eq_of_beBytes_eq hs hs' hlen)

end Codec
