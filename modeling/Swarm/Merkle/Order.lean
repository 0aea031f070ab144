import Swarm.Merkle.Root

/-!
# The byte orders

`sigLess` breaks ties, `bytesLess` compares range bounds, and `lessRecordKey` sorts slots with the
comparison of strings. The three are one order of bytes, so a range of node ids is a contiguous run
of every slice sorted by slot, and the page cursor `n‖0x01` starts right behind node `n` among ids
without a zero byte.
-/

namespace Swarm

open SortSlice (StrictTotal)

theorem bytesLess_eq_decide (a b : Bytes) : bytesLess a b = decide (a < b) :=
  Bool.eq_iff_iff.mpr ((bytesLess_iff a b).trans decide_eq_true_iff.symm)

theorem strictTotal_sigLess : StrictTotal sigLess :=
  StrictTotal.of_key (k := id) sigLess_iff Function.injective_id

theorem strictTotal_lessRecordKey : StrictTotal lessRecordKey :=
  StrictTotal.of_key lessRecordKey_iff RecordKey.lex_injective

/-- The slot order compares both parts with the order of signatures and bounds. -/
theorem lessRecordKey_eq (a b : RecordKey) :
    lessRecordKey a b =
      if a.nodeID ≠ b.nodeID then bytesLess a.nodeID b.nodeID else bytesLess a.key b.key := by
  unfold lessRecordKey
  rw [bytesLess_eq_decide, bytesLess_eq_decide]

/-- Slots in order have their nodes in order. -/
theorem nodeID_le_of_lex_lt {a b : RecordKey} (h : a.lex < b.lex) : a.nodeID ≤ b.nodeID := by
  unfold RecordKey.lex at h
  rcases Prod.Lex.toLex_lt_toLex.mp h with hlt | ⟨heq, -⟩
  · exact hlt.le
  · exact heq.le

/-- What lies between two nodes of a range is in the range. -/
theorem inRange_between {a b : Option Bytes} {x y z : NodeID} (hxy : x ≤ y) (hyz : y ≤ z)
    (hx : inRange a b x = true) (hz : inRange a b z = true) : inRange a b y = true := by
  refine inRange_iff.mpr ⟨fun lo hlo => ?_, fun hi hhi => ?_⟩
  · exact ((inRange_iff.mp hx).1 lo hlo).trans hxy
  · exact hyz.trans ((inRange_iff.mp hz).2 hi hhi)

/-- A range of what is sorted by slot is a contiguous run, with all slots of each node in it. -/
theorem inRange_contiguous {α : Type} (slot : α → RecordKey) {l : List α}
    (hl : l.Pairwise fun x y => (slot x).lex < (slot y).lex) (a b : Option Bytes) :
    (l.filter fun x => inRange a b (slot x).nodeID) <:+: l ∧
      ∀ x ∈ l.filter (fun x => inRange a b (slot x).nodeID), ∀ y ∈ l,
        (slot y).nodeID = (slot x).nodeID → y ∈ l.filter fun x => inRange a b (slot x).nodeID := by
  constructor
  · exact SortSlice.kept_contiguous (k := fun x => (slot x).nodeID)
      (hl.imp fun h => nodeID_le_of_lex_lt h) fun _ _ _ => inRange_between
  · intro x hx y hy heq
    have hin : inRange a b (slot x).nodeID = true := (List.mem_filter.mp hx).2
    exact List.mem_filter.mpr ⟨hy, heq ▸ hin⟩

/-! ## The page cursor -/

/-- Without a zero byte in `m`, nothing keeps `m` between a node and its cursor. -/
theorem lt_iff_not_lt_append_one {n m : NodeID} (hm : (0 : UInt8) ∉ m) :
    n < m ↔ ¬ m < n ++ [1] := by
  induction n generalizing m with
  | nil =>
    cases m with
    | nil => simp
    | cons y m =>
      have hy : ¬ y < 1 := fun h => hm (UInt8.lt_one_iff.mp h ▸ List.mem_cons_self)
      simp [List.cons_lt_cons_iff, hy]
  | cons x n ih =>
    cases m with
    | nil => simp
    | cons y m =>
      have htail := ih fun h => hm (List.mem_cons_of_mem y h)
      rw [List.cons_append, List.cons_lt_cons_iff, List.cons_lt_cons_iff, not_or, not_and, ← htail]
      -- the first bytes decide unless they are equal, and then the rest does
      rcases lt_trichotomy x y with h | rfl | h
      · simp [h, h.not_gt, h.ne']
      · simp
      · simp [h, h.not_gt, h.ne']

theorem bytesLess_iff_not_cursor {n m : NodeID} (hm : (0 : UInt8) ∉ m) :
    bytesLess n m = true ↔ bytesLess m (n ++ [1]) = false := by
  rw [bytesLess_iff, ← Bool.not_eq_true, bytesLess_iff]
  exact lt_iff_not_lt_append_one hm

/-- **One order of bytes.** The comparisons of signatures, of bounds and of node ids in the slot
order are one strict total order of byte strings, and the slot order is a strict total order of
slots. The slots a range keeps of a slice sorted by `lessRecordKey` are a contiguous run with all
slots of each node in it, and so are the records a root covers in the listing of its topic. Behind
node `n` come exactly the records that are not below `n‖0x01`, for ids without a zero byte. -/
theorem byte_orders_agree :
    (∀ a b : Bytes, sigLess a b = bytesLess a b ∧ bytesLess a b = decide (a < b)) ∧
      StrictTotal sigLess ∧ StrictTotal bytesLess ∧
      (∀ a b : RecordKey, lessRecordKey a b =
        if a.nodeID ≠ b.nodeID then bytesLess a.nodeID b.nodeID else bytesLess a.key b.key) ∧
      StrictTotal lessRecordKey ∧
      (∀ (slots : List RecordKey), slots.Pairwise (fun x y => lessRecordKey x y = true) →
        ∀ rangeStart rangeEnd : Option Bytes,
          let kept := slots.filter fun x => inRange rangeStart rangeEnd x.nodeID
          kept <:+: slots ∧ ∀ x ∈ kept, ∀ y ∈ slots, y.nodeID = x.nodeID → y ∈ kept) ∧
      (∀ (cfg : StoreConfig) (ops : List StoreOp) (t : Topic) (rangeStart rangeEnd : Option Bytes),
        let s := runStore cfg {} ops
        rangeRecords s t rangeStart rangeEnd <:+: s.topicRecordsSigned t ∧
          ∀ x ∈ rangeRecords s t rangeStart rangeEnd, ∀ y ∈ s.topicRecordsSigned t,
            y.nodeID = x.nodeID → y ∈ rangeRecords s t rangeStart rangeEnd) ∧
      ∀ (n : NodeID) (r : Record), (0 : UInt8) ∉ r.nodeID →
        (bytesLess n r.nodeID = true ↔ bytesLess r.nodeID (n ++ [1]) = false) := by
  refine ⟨fun a b => ⟨rfl, bytesLess_eq_decide a b⟩, strictTotal_sigLess, strictTotal_sigLess,
    lessRecordKey_eq, strictTotal_lessRecordKey, ?_, ?_,
    fun n r hr => bytesLess_iff_not_cursor hr⟩
  · intro slots hslots rangeStart rangeEnd
    have hlex : slots.Pairwise fun x y => x.lex < y.lex :=
      hslots.imp fun h => (lessRecordKey_iff _ _).mp h
    exact inRange_contiguous id hlex rangeStart rangeEnd
  · intro cfg ops t rangeStart rangeEnd
    exact inRange_contiguous keyOf (topicRecordsWhere_pairwise (run_placed cfg ops t) _)
      rangeStart rangeEnd

/-- Four slots of three nodes, in order. -/
def fourSlots : List RecordKey :=
  [⟨[1], []⟩, ⟨[2], []⟩, ⟨[2], [7]⟩, ⟨[2, 9], []⟩]

theorem fourSlots_range :
    (fourSlots.filter fun x => inRange (some [2]) (some [2]) x.nodeID) <:+: fourSlots ∧
      bytesLess [2, 9] [2, 1] = false :=
  ⟨(byte_orders_agree.2.2.2.2.2.1 fourSlots (by decide) (some [2]) (some [2])).1,
    (byte_orders_agree.2.2.2.2.2.2.2 [2] { topic := [], nodeID := [2, 9], hlc := 0 }
      (by decide)).mp (by decide)⟩

end Swarm
