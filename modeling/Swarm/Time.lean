import Mathlib.Data.Int.Order.Basic
import Mathlib.Order.Basic
import Swarm.Lib.Words

/-!
# Durations, instants and the observer constants

`time.Duration` is a signed 64-bit count of nanoseconds. An instant is the integer number of
nanoseconds since the Unix epoch; differences of instants saturate as `time.Time.Sub` does.
-/

namespace Swarm

/-- `time.Duration`. -/
abbrev Duration : Type := Int64

/-- `time.Time`, in nanoseconds since the epoch. -/
abbrev Time : Type := ℤ

/-- `Duration.Milliseconds`: truncated division. -/
def Duration.milliseconds (d : Duration) : Int64 := d / 1000000

/-- `Time.UnixMilli`. -/
def Time.unixMilli (t : Time) : Int64 := Int64.ofInt (t / 1000000)

/-- `Time.Sub`: the difference, clamped to what a duration can hold. -/
def Time.sub (t u : Time) : Duration :=
  Int64.ofInt (max (-9223372036854775808) (min 9223372036854775807 (t - u)))

/-- The zero `time.Time`, the first instant of year 1. -/
def Time.zero : Time := -62135596800000000000

/-- `Time.IsZero`. -/
def Time.isZero (t : Time) : Bool := decide (t = Time.zero)

/-- `Time.UnixNano`. -/
def Time.unixNano (t : Time) : Int64 := Int64.ofInt t

/-- `Time.Add`. -/
def Time.add (t : Time) (d : Duration) : Time := t + d.toInt

def second : Duration := 1000000000

def minute : Duration := 60 * second

def defaultObserverQuorum : ℕ := 2

def defaultObserverCorroborationWindow : Duration := 5 * minute

/-- How far ahead of the receiver's clock an attestation or a remote stamp may be. -/
def observerForwardSkewBudget : Duration := 2 * defaultObserverCorroborationWindow

theorem toInt_milliseconds (d : Duration) : d.milliseconds.toInt = d.toInt.tdiv 1000000 :=
  Int64.toInt_div_of_ne_right d 1000000 (by decide)

theorem toInt_pos {d : Duration} (h : 0 < d) : 0 < d.toInt := Int64.lt_iff_toInt_lt.mp h

theorem milliseconds_nonneg {d : Duration} (h : 0 < d) : 0 ≤ d.milliseconds.toInt := by
  rw [toInt_milliseconds]
  exact Int.tdiv_nonneg (toInt_pos h).le (by omega)

theorem observerForwardSkewBudget_milliseconds :
    observerForwardSkewBudget.milliseconds.toInt = 600000 := by decide

end Swarm
