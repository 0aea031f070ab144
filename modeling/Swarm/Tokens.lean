import Swarm.Lib.TokenBucket
import Swarm.Peers

/-!
# What the token bucket grants

`ConsumeTokens` of `peer.go` against the ideal bucket of `TokenBucket`. The refill is computed as
`cap * elapsed / second` in 64 bits. The product wraps once `cap * elapsed` reaches `2 ^ 63`, for
100 MB/s after 93 idle seconds, and a wrapped product that is not positive skips the refill and
leaves `lastRefill` where it was (`refill_exact_iff`).

A wrapped product is never above the true one, so the bucket errs on the safe side only: over any
readings the costs granted stay within the first level and the cap for the time passed
(`granted_within_cap`).
-/

namespace Swarm

open TokenBucket

/-! ## 64-bit arithmetic on integers -/

theorem toInt_timeSub (t u : Time) :
    (Time.sub t u).toInt = max (-9223372036854775808) (min 9223372036854775807 (t - u)) :=
  Int64.toInt_ofInt_of_le (by omega) (by omega)

theorem toInt_toInt64 {c : UInt64} (h : c.toNat < 2 ^ 63) : c.toInt64.toInt = c.toNat := by
  show c.toBitVec.toInt = _
  rw [BitVec.toInt_eq_toNat_of_lt]
  · rfl
  · show 2 * c.toNat < 2 ^ 64
    omega

theorem toInt_clamp (cap x : Int64) :
    (if cap < x then cap else x).toInt = min cap.toInt x.toInt := by
  split_ifs with hfull
  · exact (min_eq_left (Int64.lt_iff_toInt_lt.mp hfull).le).symm
  · exact (min_eq_right (Int64.le_iff_toInt_le.mp (not_lt.mp hfull))).symm

/-- The seconds in a number of nanoseconds, as Go divides. -/
theorem tdiv_second (d : ℤ) :
    0 ≤ d ∧ d.tdiv 1000000000 = d / 1000000000 ∨ d < 0 ∧ d.tdiv 1000000000 ≤ 0 := by
  rcases le_or_gt 0 d with h | h
  · exact Or.inl ⟨h, Int.tdiv_eq_ediv_of_nonneg h⟩
  · right
    refine ⟨h, ?_⟩
    have hneg : (-d).tdiv 1000000000 = -(d.tdiv 1000000000) := Int.neg_tdiv _ _
    rw [Int.tdiv_eq_ediv_of_nonneg (by omega)] at hneg
    omega

/-- The tokens for `elapsed` nanoseconds as 64 bits compute them: the product wraps, then it is
divided. -/
def wrappedAdd (cap elapsed : ℤ) : ℤ := ((cap * elapsed).bmod (2 ^ 64)).tdiv 1000000000

theorem toInt_refillAdd (p : PeerCtx) (cap : Int64) (now : Time) :
    (p.refillAdd cap now).toInt = wrappedAdd cap.toInt (Time.sub now p.lastRefill).toInt := by
  unfold PeerCtx.refillAdd wrappedAdd
  rw [Int64.toInt_div_of_ne_right _ second (by decide), Int64.toInt_mul]
  rfl

/-- The wrapped tokens are exact while the product fits, too few once it wrapped, and leave room in
64 bits. -/
theorem wrappedAdd_cases {cap elapsed : ℤ} (hpos : 0 ≤ cap * elapsed) :
    (cap * elapsed < 9223372036854775808 ∧
        wrappedAdd cap elapsed = cap * elapsed / 1000000000 ∨
      9223372036854775808 ≤ cap * elapsed ∧
        wrappedAdd cap elapsed < cap * elapsed / 1000000000) ∧
    wrappedAdd cap elapsed < 2 ^ 62 := by
  have hdiv := tdiv_second ((cap * elapsed).bmod (2 ^ 64))
  unfold wrappedAdd
  rw [Int.bmod_def] at hdiv ⊢
  split_ifs at hdiv ⊢ <;> omega

/-! ## One refill -/

section Refill

variable (p : PeerCtx) (cap : Int64) (now : Time)

theorem refill_eq : p.refill cap now =
    if 0 < Time.sub now (p.openBucket cap now).lastRefill ∧
        0 < (p.openBucket cap now).refillAdd cap now then
      { p.openBucket cap now with
        tokens :=
          if cap < (p.openBucket cap now).tokens + (p.openBucket cap now).refillAdd cap now then cap
          else (p.openBucket cap now).tokens + (p.openBucket cap now).refillAdd cap now
        lastRefill := now }
    else p.openBucket cap now := rfl

end Refill

/-- What an exact refill needs: the product and the sum fit in 64 bits, or the bucket is full all
the same, since it was and the wrapped product adds nothing, or since the wrapped product still
fills it. -/
def RefillFits (cap tokens elapsed : ℤ) : Prop :=
  (cap * elapsed < 2 ^ 63 ∧ tokens + cap * elapsed / 1000000000 < 2 ^ 63) ∨
  (tokens = cap ∧ wrappedAdd cap elapsed ≤ 0) ∨
  (0 < wrappedAdd cap elapsed ∧ cap ≤ tokens + wrappedAdd cap elapsed ∧
    tokens + wrappedAdd cap elapsed < 2 ^ 63)

/-- What a refill needs to leave the whole cap in the bucket. -/
def RefillFills (cap tokens elapsed : ℤ) : Prop :=
  (wrappedAdd cap elapsed ≤ 0 ∧ cap ≤ tokens) ∨
  (0 < wrappedAdd cap elapsed ∧ cap ≤ tokens + wrappedAdd cap elapsed ∧
    tokens + wrappedAdd cap elapsed < 2 ^ 63)

theorem openBucket_of_ne {p : PeerCtx} (h : p.lastRefill ≠ Time.zero) (cap : Int64) (now : Time) :
    p.openBucket cap now = p := by
  unfold PeerCtx.openBucket Time.isZero
  rw [if_neg (by simpa using h)]

/-- The elapsed time is the difference of the readings, unless that is beyond 64 bits. -/
theorem elapsed_bounds {last now : ℤ} (h : last ≤ now) :
    0 ≤ (Time.sub now last).toInt ∧ (Time.sub now last).toInt ≤ now - last := by
  rw [toInt_timeSub]
  omega

/-- Tokens are only added for time that passed. -/
theorem elapsed_pos_of_refillAdd {p : PeerCtx} {cap : Int64} {now : Time}
    (hlate : p.lastRefill ≤ now) (hadd : 0 < p.refillAdd cap now) :
    0 < Time.sub now p.lastRefill := by
  obtain ⟨helapsed, -⟩ := elapsed_bounds hlate
  rw [Int64.lt_iff_toInt_lt] at hadd ⊢
  refine lt_of_le_of_ne helapsed fun hzero => ?_
  have hadd' : 0 < (p.refillAdd cap now).toInt := hadd
  rw [toInt_refillAdd, ← hzero, Int64.toInt_zero, wrappedAdd, mul_zero] at hadd'
  exact absurd hadd' (by decide)

/-- The tokens after a refill, on integers. -/
theorem toInt_tokens_refill (p : PeerCtx) {cap : Int64} {now : Time}
    (hlate : (p.openBucket cap now).lastRefill ≤ now) {elapsed : ℤ}
    (helapsed : elapsed = (Time.sub now (p.openBucket cap now).lastRefill).toInt) :
    (p.refill cap now).tokens.toInt =
      if 0 < wrappedAdd cap.toInt elapsed then
        min cap.toInt
          (((p.openBucket cap now).tokens.toInt + wrappedAdd cap.toInt elapsed).bmod (2 ^ 64))
      else (p.openBucket cap now).tokens.toInt := by
  rw [helapsed, ← toInt_refillAdd, refill_eq]
  generalize p.openBucket cap now = o at hlate ⊢
  rw [← Int64.toInt_add]
  by_cases hadd : 0 < o.refillAdd cap now
  · rw [if_pos ⟨elapsed_pos_of_refillAdd hlate hadd, hadd⟩,
      if_pos (show 0 < (o.refillAdd cap now).toInt from Int64.lt_iff_toInt_lt.mp hadd)]
    exact toInt_clamp cap _
  · have hnone : ¬ 0 < (o.refillAdd cap now).toInt :=
      fun h => hadd (Int64.lt_iff_toInt_lt.mpr h)
    rw [if_neg fun h => hadd h.2, if_neg hnone]

section Level

variable {c t d : ℤ}

/-- A refill is the ideal one exactly when it fits. -/
theorem refilled_eq_iff (hc : 0 < c) (hc' : c < 2 ^ 63) (ht : -2 ^ 63 ≤ t) (ht' : t < 2 ^ 63)
    (hd : 0 ≤ d) :
    (if 0 < wrappedAdd c d then min c ((t + wrappedAdd c d).bmod (2 ^ 64)) else t) =
        refilled c 1000000000 t d ↔ RefillFits c t d := by
  obtain ⟨hcases, hroom⟩ := wrappedAdd_cases (mul_nonneg hc.le hd)
  unfold refilled RefillFits
  rw [Int.bmod_def]
  generalize c * d = x at hcases ⊢
  rcases hcases with ⟨hfits, hadd⟩ | ⟨hwraps, hless⟩
  · rw [hadd] at hroom ⊢
    split_ifs <;> omega
  · rw [if_pos (show 0 < x / 1000000000 by omega)]
    generalize wrappedAdd c d = a at hless hroom ⊢
    split_ifs <;> omega

/-- A refill leaves the whole cap exactly when it fills the bucket. -/
theorem le_refilled_iff (hc : 0 < c) (ht : -2 ^ 63 ≤ t) (ht' : t < 2 ^ 63) (hd : 0 ≤ d) :
    c ≤ (if 0 < wrappedAdd c d then min c ((t + wrappedAdd c d).bmod (2 ^ 64)) else t) ↔
      RefillFills c t d := by
  obtain ⟨-, hroom⟩ := wrappedAdd_cases (mul_nonneg hc.le hd)
  unfold RefillFills
  rw [Int.bmod_def]
  generalize wrappedAdd c d = a at hroom ⊢
  split_ifs <;> omega

end Level

/-! ## Calls -/

namespace PeerTable

/-- The `int64` a peer's cap is read as. -/
def cap (pt : PeerTable) (id : NodeID) : Int64 := (pt.ctx id).cfg.bandwidthCap.toInt64

/-- A peer's bucket as a call finds it, filled if it is the first. -/
def bucket (pt : PeerTable) (id : NodeID) (now : Time) : PeerCtx :=
  (pt.ctx id).openBucket (pt.cap id) now

/-- A peer's bucket after the refill step of a call. -/
def refillAt (pt : PeerTable) (id : NodeID) (now : Time) : PeerCtx :=
  (pt.ctx id).refill (pt.cap id) now

@[simp] theorem ctx_setCtx (pt : PeerTable) (id : NodeID) (p : PeerCtx) :
    (pt.setCtx id p).ctx id = p := by
  rw [ctx_setCtx_eq, if_pos rfl]

end PeerTable

/-- A call of positive cost on a capped bucket: the refill, and the cost if the tokens cover it. -/
theorem consumeTokens_eq (pt : PeerTable) (id : NodeID) {cost : Int64} (now : Time)
    (hcost : 0 < cost) (hcap : 0 < pt.cap id) :
    pt.consumeTokens id cost now =
      if (pt.refillAt id now).tokens < cost then (false, pt.setCtx id (pt.refillAt id now))
      else (true, pt.setCtx id { pt.refillAt id now with
        tokens := (pt.refillAt id now).tokens - cost }) := by
  unfold PeerTable.consumeTokens
  rw [if_neg (not_le.mpr hcost)]
  dsimp only
  rw [if_neg (show (pt.ctx id).cfg.bandwidthCap.toInt64 ≠ 0 from hcap.ne')]
  rfl

/-- Every cost up to the cap is granted exactly when the refill leaves the whole cap. -/
theorem grants_cap_iff (pt : PeerTable) (id : NodeID) (now : Time) (hcap : 0 < pt.cap id) :
    (∀ cost, cost ≤ pt.cap id → (pt.consumeTokens id cost now).1 = true) ↔
      (pt.cap id).toInt ≤ (pt.refillAt id now).tokens.toInt := by
  rw [← Int64.le_iff_toInt_le]
  constructor
  · intro h
    have hall := h (pt.cap id) le_rfl
    rw [consumeTokens_eq pt id now hcap hcap] at hall
    split_ifs at hall with hshort
    exact not_lt.mp hshort
  · intro hfull cost hcost
    rcases le_or_gt cost 0 with hfree | hpaid
    · unfold PeerTable.consumeTokens
      rw [if_pos hfree]
    · rw [consumeTokens_eq pt id now hpaid hcap, if_neg (not_lt.mpr (hcost.trans hfull))]

/-- **The refill of the token bucket.** For every cap below `2 ^ 63`, every bucket and every elapsed
time, the tokens after the refill step are those of the ideal bucket exactly when `RefillFits`:
the product of cap and elapsed time and its sum with the tokens fit in 64 bits, or the bucket ends
up full all the same. Every cost up to the cap is granted exactly when `RefillFills`, and that is
so a second or more after the last refill when the refill fits and the tokens are not negative. -/
theorem refill_exact_iff (pt : PeerTable) (id : NodeID) (now : Time)
    (hpos : 0 < (pt.ctx id).cfg.bandwidthCap.toNat)
    (hcap : (pt.ctx id).cfg.bandwidthCap.toNat < 2 ^ 63)
    (hlate : (pt.bucket id now).lastRefill ≤ now) :
    ((pt.refillAt id now).tokens.toInt =
        refilled (pt.ctx id).cfg.bandwidthCap.toNat 1000000000 (pt.bucket id now).tokens.toInt
          (Time.sub now (pt.bucket id now).lastRefill).toInt ↔
      RefillFits (pt.ctx id).cfg.bandwidthCap.toNat (pt.bucket id now).tokens.toInt
        (Time.sub now (pt.bucket id now).lastRefill).toInt) ∧
    ((∀ cost, cost ≤ pt.cap id → (pt.consumeTokens id cost now).1 = true) ↔
      RefillFills (pt.ctx id).cfg.bandwidthCap.toNat (pt.bucket id now).tokens.toInt
        (Time.sub now (pt.bucket id now).lastRefill).toInt) ∧
    (RefillFits (pt.ctx id).cfg.bandwidthCap.toNat (pt.bucket id now).tokens.toInt
        (Time.sub now (pt.bucket id now).lastRefill).toInt →
      1000000000 ≤ (Time.sub now (pt.bucket id now).lastRefill).toInt →
      0 ≤ (pt.bucket id now).tokens.toInt →
      ∀ cost, cost ≤ pt.cap id → (pt.consumeTokens id cost now).1 = true) := by
  have hint : (pt.cap id).toInt = (pt.ctx id).cfg.bandwidthCap.toNat := toInt_toInt64 hcap
  have hcappos : 0 < (pt.cap id).toInt := by omega
  have hlevel : (pt.refillAt id now).tokens.toInt = _ := toInt_tokens_refill (pt.ctx id) hlate rfl
  have hmin := (pt.bucket id now).tokens.le_toInt
  have hmax := (pt.bucket id now).tokens.toInt_lt
  have helapsed := (elapsed_bounds hlate).1
  have hfits := refilled_eq_iff hcappos (by omega) hmin hmax helapsed
  rw [grants_cap_iff pt id now (Int64.lt_iff_toInt_lt.mpr hcappos), hlevel, ← hint]
  refine ⟨hfits, le_refilled_iff hcappos hmin hmax helapsed, fun hok hsecond htokens => ?_⟩
  have hfull := (hfits.mpr hok).trans (refilled_of_unit_le hcappos (by decide) htokens hsecond)
  exact hfull.ge

/-- A peer capped at 100 MB/s whose bucket was emptied at the epoch. -/
def idlePeer : PeerTable :=
  PeerTable.setCtx {} [1] { cfg := { bandwidthCap := 100000000 }, lastRefill := 0 }

/-- After 100 idle seconds the bucket is still empty and a single byte is refused. -/
theorem idle_bucket_starves :
    (idlePeer.ctx [1]).cfg.bandwidthCap.toNat = 100000000 ∧
    (idlePeer.bucket [1] 100000000000).lastRefill = 0 ∧
    (idlePeer.bucket [1] 100000000000).tokens.toInt = 0 ∧
    refilled 100000000 1000000000 0 (Time.sub 100000000000 0).toInt = 100000000 ∧
    (idlePeer.refillAt [1] 100000000000).tokens.toInt = 0 ∧
    (idlePeer.consumeTokens [1] 1 100000000000).1 = false := by
  decide

/-- A peer capped at ten bytes a second whose bucket is one token short. -/
def overdrawnPeer : PeerTable :=
  PeerTable.setCtx {} [1] { cfg := { bandwidthCap := 10 }, tokens := -1, lastRefill := 0 }

/-- After ten idle seconds the product fits: the bucket is full and grants its whole size. The
overdrawn bucket does so after two. -/
theorem rested_bucket_refills :
    (idlePeer.refillAt [1] 10000000000).tokens.toInt =
      refilled 100000000 1000000000 0 (Time.sub 10000000000 0).toInt ∧
    (idlePeer.consumeTokens [1] 100000000 10000000000).1 = true ∧
    (overdrawnPeer.bucket [1] 2000000000).tokens.toInt = -1 ∧
    (overdrawnPeer.consumeTokens [1] 10 2000000000).1 = true := by
  have h := refill_exact_iff idlePeer [1] 10000000000 (by decide) (by decide) (by decide)
  have h' := refill_exact_iff overdrawnPeer [1] 2000000000 (by decide) (by decide) (by decide)
  have hfits : RefillFits 100000000 0 10000000000 := Or.inl (by decide)
  have hfills : RefillFills 10 (-1) 2000000000 := Or.inr (by decide)
  exact ⟨h.1.mpr hfits, h.2.2 hfits (by decide) (by decide) 100000000 (by decide), by decide,
    h'.2.1.mpr hfills 10 (by decide)⟩

/-! ## Runs -/

/-- One call of a run: what was granted so far, and the table. -/
def PeerTable.spend (id : NodeID) (acc : ℤ × PeerTable) (call : Int64 × Int64) : ℤ × PeerTable :=
  let (granted, pt) := acc.2.consumeTokens id call.1 call.2.toInt
  (if granted then acc.1 + call.1.toInt else acc.1, pt)

def PeerCtx.level (p : PeerCtx) : Level := ⟨p.tokens.toInt, p.lastRefill⟩

/-- A bucket in use: its tokens are neither negative nor near the end of 64 bits. -/
structure InUse (p : PeerCtx) : Prop where
  opened : p.lastRefill ≠ Time.zero
  nonneg : 0 ≤ p.tokens.toInt
  small : p.tokens.toInt < 2 ^ 62

/-- No 64-bit reading is the zero time. -/
theorem toInt_ne_zero (t : Int64) : (t.toInt : Time) ≠ Time.zero := by
  have := t.le_toInt
  unfold Time.zero
  omega

section Spend

variable {o : PeerCtx} {cap : Int64} {now : ℤ}

/-- The tokens added are paid for by the time that passed, and leave room in 64 bits. -/
theorem refillAdd_covered (hcap : 0 < cap.toInt) (hlate : o.lastRefill ≤ now) :
    1000000000 * (o.refillAdd cap now).toInt ≤ cap.toInt * (now - o.lastRefill) ∧
      (o.refillAdd cap now).toInt < 2 ^ 62 := by
  obtain ⟨helapsed, hle⟩ := elapsed_bounds hlate
  obtain ⟨hcases, hroom⟩ := wrappedAdd_cases (mul_nonneg hcap.le helapsed)
  have hmono : cap.toInt * (Time.sub now o.lastRefill).toInt ≤ cap.toInt * (now - o.lastRefill) :=
    mul_le_mul_of_nonneg_left hle hcap.le
  rw [toInt_refillAdd]
  omega

/-- Time passed only if the reading is after the last refill. -/
theorem lt_of_elapsed_pos {last now : ℤ} (h : 0 < Time.sub now last) : last < now := by
  have hpos := toInt_pos h
  rw [toInt_timeSub] at hpos
  omega

/-- A refill is paid for, whatever the reading. -/
theorem refill_paid (p : PeerCtx) (hcap : 0 < cap.toInt) (hsmall : cap.toInt < 2 ^ 62)
    (hnow : now ≠ Time.zero) (h : InUse (p.openBucket cap now)) :
    InUse (p.refill cap now) ∧
      Paid cap.toInt 1000000000 now 0 (p.openBucket cap now).level (p.refill cap now).level := by
  rw [refill_eq]
  generalize p.openBucket cap now = o at h ⊢
  by_cases hgo : 0 < Time.sub now o.lastRefill ∧ 0 < o.refillAdd cap now
  · have hlate : o.lastRefill < now := lt_of_elapsed_pos hgo.1
    obtain ⟨hcovered, hadd⟩ := refillAdd_covered hcap hlate.le
    have hpos : 0 < (o.refillAdd cap now).toInt := Int64.lt_iff_toInt_lt.mp hgo.2
    have htok := h.nonneg
    have htok' := h.small
    have hsum : (o.tokens + o.refillAdd cap now).toInt =
        o.tokens.toInt + (o.refillAdd cap now).toInt := by
      rw [Int64.toInt_add, Int.bmod_def]
      omega
    have htokens := toInt_clamp cap (o.tokens + o.refillAdd cap now)
    rw [hsum] at htokens
    rw [if_pos hgo]
    generalize (if cap < o.tokens + o.refillAdd cap now then cap
      else o.tokens + o.refillAdd cap now) = tokens at htokens ⊢
    refine ⟨⟨hnow, ?_, ?_⟩, ⟨hlate.le, le_max_right _ _, ?_⟩⟩
    · show 0 ≤ tokens.toInt
      omega
    · show tokens.toInt < 2 ^ 62
      omega
    · show 1000000000 * (0 + tokens.toInt) ≤
        1000000000 * o.tokens.toInt + cap.toInt * (now - o.lastRefill)
      omega
  · rw [if_neg hgo]
    exact ⟨h, ⟨le_rfl, le_max_left _ _, by linarith⟩⟩

/-- And so is a call: what it grants was in the bucket. -/
theorem consume_paid (pt : PeerTable) (id : NodeID) {cost : Int64} (hcost : 0 < cost)
    (hcap : 0 < (pt.cap id).toInt) (hsmall : (pt.cap id).toInt < 2 ^ 62) (hnow : now ≠ Time.zero)
    (h : InUse (pt.bucket id now)) :
    InUse ((pt.consumeTokens id cost now).2.ctx id) ∧
      ((pt.consumeTokens id cost now).2.ctx id).cfg = (pt.ctx id).cfg ∧
      Paid (pt.cap id).toInt 1000000000 now
        (if (pt.consumeTokens id cost now).1 then cost.toInt else 0) (pt.bucket id now).level
        ((pt.consumeTokens id cost now).2.ctx id).level := by
  obtain ⟨huse, hpaid⟩ := refill_paid (pt.ctx id) hcap hsmall hnow h
  have hcfg : (pt.refillAt id now).cfg = (pt.ctx id).cfg := by
    unfold PeerTable.refillAt PeerCtx.refill PeerCtx.openBucket
    dsimp only
    split_ifs <;> rfl
  rw [consumeTokens_eq pt id now hcost (Int64.lt_iff_toInt_lt.mpr hcap)]
  by_cases hshort : (pt.refillAt id now).tokens < cost
  · rw [if_pos hshort]
    dsimp only
    rw [PeerTable.ctx_setCtx]
    exact ⟨huse, hcfg, hpaid⟩
  · rw [if_neg hshort]
    dsimp only
    rw [PeerTable.ctx_setCtx]
    have hle : cost.toInt ≤ (pt.refillAt id now).tokens.toInt :=
      Int64.le_iff_toInt_le.mp (not_lt.mp hshort)
    have hcost' : 0 < cost.toInt := Int64.lt_iff_toInt_lt.mp hcost
    have htok' : (pt.refillAt id now).tokens.toInt < 2 ^ 62 := huse.small
    have hsub : ((pt.refillAt id now).tokens - cost).toInt =
        (pt.refillAt id now).tokens.toInt - cost.toInt := by
      rw [Int64.toInt_sub, Int.bmod_def]
      omega
    refine ⟨⟨huse.opened, ?_, ?_⟩, hcfg, hpaid.trans ⟨le_rfl, le_max_left _ _, ?_⟩⟩
    · show 0 ≤ ((pt.refillAt id now).tokens - cost).toInt
      omega
    · show ((pt.refillAt id now).tokens - cost).toInt < 2 ^ 62
      omega
    · show 1000000000 * (cost.toInt + ((pt.refillAt id now).tokens - cost).toInt) ≤
        1000000000 * (pt.refillAt id now).tokens.toInt + _ * ((pt.refillAt id now).lastRefill -
          (pt.refillAt id now).lastRefill)
      rw [hsub, sub_self, mul_zero]
      omega

end Spend

/-- What a bucket holds before its first refill: `EgressTokens`, or the cap when that is zero. -/
def PerPeerConfig.firstTokens (cfg : PerPeerConfig) : ℤ :=
  if cfg.egressTokens.toNat = 0 then cfg.bandwidthCap.toNat else cfg.egressTokens.toNat

theorem toInt64_eq_zero {x : UInt64} : x.toInt64 = 0 ↔ x.toNat = 0 := by
  rw [← Int64.toBitVec_inj, ← BitVec.toNat_inj]
  rfl

/-- The first call opens the bucket at its reading. -/
theorem bucket_first {pt : PeerTable} {id : NodeID} (hnew : (pt.ctx id).lastRefill = Time.zero)
    (hcap : (pt.ctx id).cfg.bandwidthCap.toNat < 2 ^ 62)
    (hegress : (pt.ctx id).cfg.egressTokens.toNat < 2 ^ 62) (t : Int64) :
    InUse (pt.bucket id t.toInt) ∧
      (pt.bucket id t.toInt).level = ⟨(pt.ctx id).cfg.firstTokens, t.toInt⟩ := by
  have hopen : pt.bucket id t.toInt = { pt.ctx id with
      tokens := if (pt.ctx id).cfg.egressTokens.toInt64 = 0 then pt.cap id
        else (pt.ctx id).cfg.egressTokens.toInt64
      lastRefill := t.toInt } := by
    unfold PeerTable.bucket PeerCtx.openBucket
    rw [if_pos (by rw [hnew]; rfl)]
  have htokens : (pt.bucket id t.toInt).tokens.toInt = (pt.ctx id).cfg.firstTokens := by
    rw [hopen]
    dsimp only
    unfold PerPeerConfig.firstTokens
    rw [apply_ite Int64.toInt, toInt_toInt64 (by omega)]
    unfold PeerTable.cap
    rw [toInt_toInt64 (by omega)]
    simp only [toInt64_eq_zero]
  have hlast : (pt.bucket id t.toInt).lastRefill = t.toInt := by rw [hopen]
  have hbounds : 0 ≤ (pt.ctx id).cfg.firstTokens ∧ (pt.ctx id).cfg.firstTokens < 2 ^ 62 := by
    unfold PerPeerConfig.firstTokens
    split_ifs <;> omega
  refine ⟨⟨?_, ?_, ?_⟩, ?_⟩
  · rw [hlast]
    exact toInt_ne_zero t
  · rw [htokens]
    exact hbounds.1
  · rw [htokens]
    exact hbounds.2
  · unfold PeerCtx.level
    rw [htokens, hlast]

/-- The state of a run: the configuration stands, the bucket is in use, and what was granted is
paid for. -/
structure Metered (id : NodeID) (cfg : PerPeerConfig) (b₀ : Level) (top : ℤ)
    (acc : ℤ × PeerTable) : Prop where
  same : (acc.2.ctx id).cfg = cfg
  inUse : InUse (acc.2.ctx id)
  within : Within cfg.bandwidthCap.toNat 1000000000 b₀ top acc.1 (acc.2.ctx id).level

/-- A call meters what it grants from the bucket it finds. -/
theorem metered_spend {id : NodeID} {cfg : PerPeerConfig} {b₀ : Level} {top : ℤ}
    {acc : ℤ × PeerTable} {call : Int64 × Int64} (hpos : 0 < cfg.bandwidthCap.toNat)
    (hcap : cfg.bandwidthCap.toNat < 2 ^ 62) (hcost : 0 < call.1) (htop : call.2.toInt ≤ top)
    (hsame : (acc.2.ctx id).cfg = cfg) (huse : InUse (acc.2.bucket id call.2.toInt))
    (hwithin : Within cfg.bandwidthCap.toNat 1000000000 b₀ top acc.1
      (acc.2.bucket id call.2.toInt).level) :
    Metered id cfg b₀ top (PeerTable.spend id acc call) := by
  have hint : (acc.2.cap id).toInt = cfg.bandwidthCap.toNat := by
    unfold PeerTable.cap
    rw [hsame, toInt_toInt64 (by omega)]
  obtain ⟨huse', hcfg, hpaid⟩ := consume_paid acc.2 id hcost (by omega) (by omega)
    (toInt_ne_zero call.2) huse
  rw [hint] at hpaid
  refine ⟨hcfg.trans hsame, huse', ?_⟩
  have hstep := hwithin.step hpaid htop
  show Within _ _ b₀ top (if (acc.2.consumeTokens id call.1 call.2.toInt).1 then
    acc.1 + call.1.toInt else acc.1) ((acc.2.consumeTokens id call.1 call.2.toInt).2.ctx id).level
  split_ifs at hstep ⊢
  · exact hstep
  · rw [add_zero] at hstep
    exact hstep

/-- **The bandwidth cap holds.** Over every sequence of calls of positive cost for one peer, at any
64-bit clock readings, the costs granted are at most what the bucket first holds and the cap for
the time from the first reading to the largest, and the tokens are never negative. -/
theorem granted_within_cap (pt : PeerTable) (id : NodeID)
    (hnew : (pt.ctx id).lastRefill = Time.zero)
    (hpos : 0 < (pt.ctx id).cfg.bandwidthCap.toNat)
    (hcap : (pt.ctx id).cfg.bandwidthCap.toNat < 2 ^ 62)
    (hegress : (pt.ctx id).cfg.egressTokens.toNat < 2 ^ 62)
    (first : Int64 × Int64) (calls : List (Int64 × Int64)) (top : Int64)
    (hcost : ∀ call ∈ first :: calls, 0 < call.1) (htop : ∀ call ∈ first :: calls, call.2 ≤ top) :
    ((first :: calls).foldl (PeerTable.spend id) (0, pt)).1 ≤ (pt.ctx id).cfg.firstTokens +
        (pt.ctx id).cfg.bandwidthCap.toNat * (top.toInt - first.2.toInt) / 1000000000 ∧
      0 ≤ (((first :: calls).foldl (PeerTable.spend id) (0, pt)).2.ctx id).tokens.toInt := by
  have htop' : ∀ call ∈ first :: calls, call.2.toInt ≤ top.toInt :=
    fun call hcall => Int64.le_iff_toInt_le.mp (htop call hcall)
  obtain ⟨huse, hlevel⟩ := bucket_first hnew hcap hegress first.2
  have hstart : Metered id (pt.ctx id).cfg ⟨(pt.ctx id).cfg.firstTokens, first.2.toInt⟩ top.toInt
      (PeerTable.spend id (0, pt) first) := by
    refine metered_spend hpos hcap (hcost first List.mem_cons_self)
      (htop' first List.mem_cons_self) rfl huse ?_
    show Within _ _ _ _ _ (pt.bucket id first.2.toInt).level
    rw [hlevel]
    exact within_start (htop' first List.mem_cons_self)
  have hrun : Metered id (pt.ctx id).cfg ⟨(pt.ctx id).cfg.firstTokens, first.2.toInt⟩ top.toInt
      (calls.foldl (PeerTable.spend id) (PeerTable.spend id (0, pt) first)) := by
    refine List.foldlRecOn calls _ hstart fun acc h call hcall => ?_
    have hmem := List.mem_cons_of_mem first hcall
    have hbucket : acc.2.bucket id call.2.toInt = acc.2.ctx id := openBucket_of_ne h.inUse.opened ..
    exact metered_spend hpos hcap (hcost call hmem) (htop' call hmem) h.same
      (by rw [hbucket]; exact h.inUse) (by rw [hbucket]; exact h.within)
  exact ⟨hrun.within.granted_le (by omega) (by decide) hrun.inUse.nonneg, hrun.inUse.nonneg⟩

/-- A peer capped at a byte per nanosecond, with 30 tokens to start with. -/
def cappedPeer : PeerTable :=
  { configFn := fun _ => { bandwidthCap := 1000000000, egressTokens := 30 } }

/-- Three calls, the second at a reading that went back: it is refused, and 35 of the 40 bytes that
the first tokens and ten nanoseconds allow are granted. -/
theorem cappedPeer_metered :
    (([(25, 5), (8, 0), (10, 15)] : List (Int64 × Int64)).foldl (PeerTable.spend [1])
      (0, cappedPeer)).1 = 35 ∧
    (35 : ℤ) ≤ (cappedPeer.ctx [1]).cfg.firstTokens + 1000000000 * (15 - 5) / 1000000000 := by
  have h := granted_within_cap cappedPeer [1] rfl (by decide) (by decide) (by decide) (25, 5)
    [(8, 0), (10, 15)] 15 (by simp) (by simp)
  have hgranted : (([(25, 5), (8, 0), (10, 15)] : List (Int64 × Int64)).foldl
      (PeerTable.spend [1]) (0, cappedPeer)).1 = 35 := by decide
  rw [hgranted] at h
  exact ⟨hgranted, h.1⟩

end Swarm
