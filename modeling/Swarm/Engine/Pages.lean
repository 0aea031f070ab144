import Mathlib.Data.List.TakeWhile
import Swarm.Engine.Merkle

/-!
# Pages and cursors

A probe is answered by a page cut at the end of a node's key group, and the prober goes on from
`lastNodeID || 0x01`. What a page leaves out lies strictly behind the last node it has
(`page_or_behind`), and for ids of one length that is behind the cursor (`cursor_covers`), so no
slot falls between two pages.
-/

namespace Swarm

open Node (splitEnd splitPoint rangeReply)

/-! ## Splits -/

theorem splitEnd_eq (last : NodeID) (l : List Record) :
    splitEnd last l = (l.takeWhile fun r => decide (r.nodeID = last)).length := by
  induction l with
  | nil => rfl
  | cons r l ih =>
    unfold splitEnd
    split_ifs with h
    · rw [List.takeWhile_cons_of_pos (by simpa using h), List.length_cons, ih]
    · rw [List.takeWhile_cons_of_neg (by simpa using h), List.length_nil]

/-- A split ends the key group of the record it falls on. -/
theorem splitPoint_spec {recs : List Record} (hne : recs ≠ []) :
    ∃ front r same after, recs = (front ++ r :: same) ++ after ∧
      splitPoint recs = (front ++ r :: same).length ∧ (∀ x ∈ same, x.nodeID = r.nodeID) ∧
      ∀ x ∈ after.head?, x.nodeID ≠ r.nodeID := by
  have hlen : 0 < recs.length := List.length_pos_iff.mpr hne
  unfold splitPoint
  dsimp only
  generalize hhalf : (if recs.length / 2 < 1 then 1 else recs.length / 2) = half
  have hpos : 1 ≤ half ∧ half ≤ recs.length := by
    rw [← hhalf]
    split_ifs <;> omega
  cases hdrop : recs.drop (half - 1) with
  | nil =>
    have := congrArg List.length hdrop
    rw [List.length_drop, List.length_nil] at this
    omega
  | cons r rest =>
    refine ⟨recs.take (half - 1), r, rest.takeWhile fun x => decide (x.nodeID = r.nodeID),
      rest.dropWhile fun x => decide (x.nodeID = r.nodeID), ?_, ?_, ?_, ?_⟩
    · rw [List.append_assoc, List.cons_append, List.takeWhile_append_dropWhile, ← hdrop,
        List.take_append_drop]
    · show half + splitEnd r.nodeID rest = _
      rw [List.length_append, List.length_cons, List.length_take, splitEnd_eq]
      omega
    · intro x hx
      simpa using List.mem_takeWhile_imp hx
    · intro x hx
      have hstop := List.head?_dropWhile_not (fun x : Record => decide (x.nodeID = r.nodeID)) rest
      rw [Option.mem_def.mp hx] at hstop
      simpa using hstop

/-- In a list that ascends in the slot order, what a split leaves lies behind the node it ends. -/
theorem behind_of_split {front same after : List Record} {r : Record}
    (hsorted : ((front ++ r :: same) ++ after).Pairwise fun a b => (keyOf a).lex < (keyOf b).lex)
    (hhead : ∀ x ∈ after.head?, x.nodeID ≠ r.nodeID) {x : Record} (hx : x ∈ after) :
    r.nodeID < x.nodeID := by
  have hr : r ∈ front ++ r :: same := List.mem_append_right _ List.mem_cons_self
  cases after with
  | nil => cases hx
  | cons y after =>
    obtain ⟨-, hafter, hcross⟩ := List.pairwise_append.mp hsorted
    have hle : ∀ {a b : Record}, (keyOf a).lex < (keyOf b).lex → a.nodeID ≤ b.nodeID := fun h =>
      (Prod.Lex.toLex_lt_toLex.mp h).elim le_of_lt fun h => h.1.le
    have hlt : r.nodeID < y.nodeID :=
      lt_of_le_of_ne (hle (hcross r hr y List.mem_cons_self)) (hhead y rfl).symm
    rcases List.mem_cons.mp hx with rfl | hx
    · exact hlt
    · exact hlt.trans_le (hle ((List.pairwise_cons.mp hafter).1 x hx))

/-! ## Pages -/

section Page

variable {s : RecordStore} {topic : Topic} {a b : Option Bytes}

/-- The records of a page come from the range, or are kept attestations. -/
theorem mem_rangeReply {r : Record} (hr : r ∈ (rangeReply s topic a b).1) :
    r ∈ rangeRecords s topic a b ∨ r ∈ s.topicAttestations topic := by
  unfold rangeReply at hr
  dsimp only at hr
  split_ifs at hr
  · exact (List.mem_append.mp hr).imp_right List.mem_of_mem_take
  · exact Or.inl hr
  · exact Or.inl hr
  · exact Or.inl (List.mem_of_mem_take hr)

/-- A truncated page comes from the range. -/
theorem mem_rangeRecords_of_truncated (ht : (rangeReply s topic a b).2 = true) {r : Record}
    (hr : r ∈ (rangeReply s topic a b).1) : r ∈ rangeRecords s topic a b := by
  unfold rangeReply at ht hr
  dsimp only at ht hr
  split_ifs at ht hr
  exact List.mem_of_mem_take hr

/-- The cursor a truncated page leaves. -/
def pageCursor (recs : List Record) (truncated : Bool) : Option (Option Bytes) :=
  if truncated then recs.getLast?.map fun last => some (last.nodeID ++ [1]) else none

/-- A record of the range is on the page, or the page is truncated and ends at a node before the
record's. -/
theorem page_or_behind (hp : Placed topic (s.topic topic)) {r : Record}
    (hr : r ∈ rangeRecords s topic a b) :
    r ∈ (rangeReply s topic a b).1 ∨
      ((rangeReply s topic a b).2 = true ∧
        ∃ last ∈ (rangeReply s topic a b).1.getLast?, last.nodeID < r.nodeID) := by
  have hsorted := rangeRecords_pairwise hp a b
  unfold rangeReply
  dsimp only
  generalize rangeRecords s topic a b = recs at hr hsorted
  split_ifs
  · exact Or.inl (List.mem_append_left _ hr)
  · exact Or.inl hr
  · exact Or.inl hr
  · obtain ⟨front, x, same, after, hrecs, hpoint, hsame, hhead⟩ :=
      splitPoint_spec (List.ne_nil_of_mem hr)
    have htake : recs.take (splitPoint recs) = front ++ x :: same := by
      rw [hpoint]
      conv_lhs => rw [hrecs]
      exact List.take_left
    rw [htake]
    rw [hrecs] at hr hsorted
    refine (List.mem_append.mp hr).imp_right fun hafter => ⟨rfl, ?_⟩
    have hlt := behind_of_split hsorted hhead hafter
    rw [List.getLast?_append, List.getLast?_cons]
    cases hl : same.getLast? with
    | none => exact ⟨x, rfl, hlt⟩
    | some y => exact ⟨y, rfl, (hsame y (List.mem_of_getLast? hl)).symm ▸ hlt⟩

/-- Behind a node is behind the cursor after it, among ids of one length. -/
theorem cursor_covers {last node : NodeID} (hlen : last.length = node.length) (hlt : last < node) :
    inRange (some (last ++ [1])) none node = true := by
  refine inRange_iff.mpr ⟨?_, fun _ h => (nomatch h)⟩
  rintro _ ⟨⟩
  induction last generalizing node with
  | nil =>
    cases node with
    | nil => exact absurd hlt (lt_irrefl _)
    | cons _ _ => cases hlen
  | cons c last ih =>
    cases node with
    | nil => cases hlen
    | cons d node =>
      rw [List.cons_append]
      rcases List.cons_lt_cons_iff.mp hlt with hcd | ⟨rfl, hrest⟩
      · exact (List.cons_lt_cons_iff.mpr (Or.inl hcd)).le
      · rcases (ih (Nat.succ.inj hlen) hrest).lt_or_eq with hlt' | heq
        · exact (List.cons_lt_cons_iff.mpr (Or.inr ⟨rfl, hlt'⟩)).le
        · exact (congrArg (c :: ·) heq).le

end Page

/-! ## Answers -/

section Answer

variable (n : Node) (env : Env) (rd : Reading) (sender : NodeID) (topic : Topic)
  (a b : Option Bytes)

theorem store_sendProbe (dst : NodeID) : (n.sendProbe env dst topic a b).store = n.store := by
  unfold Node.sendProbe
  dsimp only
  split_ifs <;> rfl

theorem store_reciprocate : (n.reciprocate env rd sender topic a b).store = n.store := by
  unfold Node.reciprocate
  split_ifs
  · exact store_sendProbe _ env topic a b sender
  · rfl

/-- A probe whose root differs is answered by a page of the store, after a probe back when one is
due. -/
theorem handleProbe_of_ne {root : Bytes} (h : topicMerkleRoot env.cr n.store topic a b ≠ root) :
    n.handleProbe env rd sender topic a b root =
      (n.reciprocate env rd sender topic a b).sendRange sender topic
        (rangeReply n.store topic a b).1 (rangeReply n.store topic a b).2 := by
  unfold Node.handleProbe
  rw [if_neg h]
  dsimp only
  rw [store_reciprocate]

end Answer

end Swarm
