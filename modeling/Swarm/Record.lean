import Mathlib.Data.List.Lex
import Mathlib.Data.Prod.Lex
import Swarm.Lib.SortSlice
import Swarm.Lib.LastWriter

/-!
# Records and the orders on them

The signed envelope of `swarm.go`, the slot it lands in, and the three byte comparisons of the
package: `sigLess` (`crdt.go`), `bytesLess` (`merkle.go`) and the string order `lessRecordKey`
sorts by. They are one order, the lexicographic one (`byteLoopLess_iff`), so slots are linearly
ordered and records of a slot are ranked by `(hlc, sig)`.
-/

namespace Swarm

/-- A byte slice or a string: strings are arbitrary bytes and compare bytewise. -/
abbrev Bytes : Type := List UInt8

abbrev NodeID : Type := Bytes

abbrev Topic : Type := Bytes

/-- The signed envelope carried over the swarm. Zero values are the field defaults. -/
structure Record where
  topic : Topic := []
  nodeID : NodeID := []
  hlc : UInt64 := 0
  body : Bytes := []
  tombstone : Bool := false
  pubKey : Bytes := []
  sig : Bytes := []
  key : Bytes := []
  observerNodeID : NodeID := []
  observedAtUnixMs : Int64 := 0
  deriving DecidableEq, Inhabited

/-- An observer-signed attestation, as opposed to an owner record or an owner tombstone. -/
def Record.isObserverAttestation (r : Record) : Bool :=
  r.tombstone && r.observerNodeID != []

/-- One slot within a topic. -/
structure RecordKey where
  nodeID : NodeID
  key : Bytes := []
  deriving DecidableEq

/-- The slot of a record. -/
def keyOf (r : Record) : RecordKey := { nodeID := r.nodeID, key := r.key }

/-! ## Byte orders -/

/-- The loop of `sigLess` and `bytesLess`: the first differing byte decides, then the length. -/
def byteLoopLess : Bytes → Bytes → Bool
  | [], [] => false
  | [], _ :: _ => true
  | _ :: _, [] => false
  | a :: as, b :: bs => if a ≠ b then decide (a < b) else byteLoopLess as bs

/-- The tie-break of equal clocks. -/
def sigLess (a b : Bytes) : Bool := byteLoopLess a b

/-- The comparison of range bounds with node ids. -/
def bytesLess (a b : Bytes) : Bool := byteLoopLess a b

/-- The canonical slot order: node id first, then key. -/
def lessRecordKey (a b : RecordKey) : Bool :=
  if a.nodeID ≠ b.nodeID then decide (a.nodeID < b.nodeID) else decide (a.key < b.key)

theorem byteLoopLess_iff (a b : Bytes) : byteLoopLess a b = true ↔ a < b := by
  induction a generalizing b with
  | nil =>
    cases b with
    | nil => simp [byteLoopLess]
    | cons b bs => simp [byteLoopLess]
  | cons a as ih =>
    cases b with
    | nil => simp [byteLoopLess]
    | cons b bs =>
      rw [List.cons_lt_cons_iff]
      by_cases hab : a = b
      · subst hab
        simp [byteLoopLess, ih bs]
      · simp [byteLoopLess, hab]

theorem sigLess_iff (a b : Bytes) : sigLess a b = true ↔ a < b := byteLoopLess_iff a b

theorem bytesLess_iff (a b : Bytes) : bytesLess a b = true ↔ a < b := byteLoopLess_iff a b

/-- A slot as a pair in lexicographic order. -/
def RecordKey.lex (k : RecordKey) : Bytes ×ₗ Bytes := toLex (k.nodeID, k.key)

theorem RecordKey.lex_injective : Function.Injective RecordKey.lex := by
  rintro ⟨n, k⟩ ⟨n', k'⟩ h
  have h' : (n, k) = (n', k') := toLex.injective h
  cases h'
  rfl

theorem lessRecordKey_iff (a b : RecordKey) : lessRecordKey a b = true ↔ a.lex < b.lex := by
  unfold lessRecordKey RecordKey.lex
  rw [Prod.Lex.toLex_lt_toLex]
  by_cases h : a.nodeID = b.nodeID
  · simp [h]
  · simp [h]

/-! ## The rank of a record in its slot -/

/-- The full slot of a record: the topic, and the slot within it. -/
def slotOf (r : Record) : Topic × RecordKey := (r.topic, keyOf r)

/-- What the merge compares: the clock, then the signature. -/
def rankOf (r : Record) : UInt64 ×ₗ Bytes := toLex (r.hlc, r.sig)

theorem rankOf_lt_iff (c r : Record) :
    rankOf c < rankOf r ↔ c.hlc < r.hlc ∨ (r.hlc = c.hlc ∧ sigLess c.sig r.sig = true) := by
  unfold rankOf
  rw [Prod.Lex.toLex_lt_toLex, sigLess_iff, eq_comm (a := c.hlc)]

theorem rankOf_le_iff (c r : Record) :
    rankOf c ≤ rankOf r ↔
      c.hlc < r.hlc ∨ (c.hlc = r.hlc ∧ (c.sig < r.sig ∨ c.sig = r.sig)) := by
  unfold rankOf
  rw [Prod.Lex.toLex_le_toLex, le_iff_lt_or_eq]

theorem rankOf_eq_iff (c r : Record) : rankOf c = rankOf r ↔ c.hlc = r.hlc ∧ c.sig = r.sig := by
  unfold rankOf
  rw [toLex_inj, Prod.mk.injEq]

end Swarm
