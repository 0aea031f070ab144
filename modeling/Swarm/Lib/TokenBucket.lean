import Mathlib.Algebra.Order.Ring.Int
import Mathlib.Tactic.Linarith

/-!
# Token buckets

A bucket of size `cap` gains `cap` tokens per `unit` of time and never holds more than `cap` after
a gain. `refilled` is the ideal refill, on integers.

`Paid` is what one call may do: the tokens it hands out and the tokens it leaves are covered by
those it found and by the time its base moved. It leaves open how the refill rounds, when it is
skipped, and whether the base follows a reading that went back. `Within` is the sum of such calls
over a run, and `Within.granted_le` the bound it gives on what was handed out.
-/

namespace TokenBucket

/-- The tokens after the ideal refill for the time `elapsed`. -/
def refilled (cap unit tokens elapsed : ℤ) : ℤ :=
  if 0 < cap * elapsed / unit then min cap (tokens + cap * elapsed / unit) else tokens

/-- After a unit of time the ideal bucket is full. -/
theorem refilled_of_unit_le {cap unit tokens elapsed : ℤ} (hcap : 0 < cap) (hunit : 0 < unit)
    (htokens : 0 ≤ tokens) (helapsed : unit ≤ elapsed) :
    refilled cap unit tokens elapsed = cap := by
  have hgain : cap ≤ cap * elapsed / unit := by
    rw [Int.le_ediv_iff_mul_le hunit]
    exact Int.mul_le_mul_of_nonneg_left helapsed hcap.le
  unfold refilled
  rw [if_pos (hcap.trans_le hgain)]
  exact min_eq_left (by omega)

/-! ## What calls hand out -/

/-- Tokens at hand, and the reading that refills count from. -/
structure Level where
  tokens : ℤ
  base : ℤ

/-- A call at the reading `now` that hands out `cost` tokens, none if it refuses. -/
structure Paid (rate unit now cost : ℤ) (b b' : Level) : Prop where
  forward : b.base ≤ b'.base
  read : b'.base ≤ max b.base now
  covered : unit * (cost + b'.tokens) ≤ unit * b.tokens + rate * (b'.base - b.base)

/-- Since the level `b₀` the tokens `granted` were handed out, at readings up to `top`. -/
structure Within (rate unit : ℤ) (b₀ : Level) (top granted : ℤ) (b : Level) : Prop where
  forward : b₀.base ≤ b.base
  read : b.base ≤ top
  covered : unit * (granted + b.tokens) ≤ unit * b₀.tokens + rate * (b.base - b₀.base)

variable {rate unit now cost top granted : ℤ} {b₀ b b' : Level}

theorem Paid.trans {b'' : Level} (h : Paid rate unit now 0 b b')
    (h' : Paid rate unit now cost b' b'') : Paid rate unit now cost b b'' where
  forward := h.forward.trans h'.forward
  read := h'.read.trans (max_le h.read (le_max_right _ _))
  covered := by
    have hfirst := h.covered
    have hsecond := h'.covered
    linarith

theorem within_start (htop : b₀.base ≤ top) : Within rate unit b₀ top 0 b₀ where
  forward := le_rfl
  read := htop
  covered := by linarith

theorem Within.step (h : Within rate unit b₀ top granted b) (hpaid : Paid rate unit now cost b b')
    (hnow : now ≤ top) : Within rate unit b₀ top (granted + cost) b' where
  forward := h.forward.trans hpaid.forward
  read := hpaid.read.trans (max_le h.read hnow)
  covered := by
    have hsofar := h.covered
    have hcall := hpaid.covered
    linarith

/-- What was handed out is the first level and what the rate gives for the time passed. -/
theorem Within.granted_le (h : Within rate unit b₀ top granted b) (hrate : 0 ≤ rate)
    (hunit : 0 < unit) (htokens : 0 ≤ b.tokens) :
    granted ≤ b₀.tokens + rate * (top - b₀.base) / unit := by
  have htime : rate * (b.base - b₀.base) ≤ rate * (top - b₀.base) :=
    Int.mul_le_mul_of_nonneg_left (by linarith [h.read]) hrate
  have hspent : unit * granted ≤ unit * (granted + b.tokens) :=
    Int.mul_le_mul_of_nonneg_left (by omega) hunit.le
  have hover : (granted - b₀.tokens) * unit ≤ rate * (top - b₀.base) := by
    have hcovered := h.covered
    linarith
  have := (Int.le_ediv_iff_mul_le hunit).mpr hover
  omega

end TokenBucket
