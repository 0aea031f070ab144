import Swarm.Lib.FiniteMap
import Swarm.Frame
import Swarm.Time

/-!
# The peer table

`peer.go`: which peers are known, which of them are tree edges, and the two limits on lazy pushes,
the queue bound and the token bucket.
-/

namespace Swarm

/-- `PerPeerConfig`. -/
structure PerPeerConfig where
  adaptiveInterval : Duration := 5 * second
  backpressureMax : ℤ := 256
  bandwidthCap : UInt64 := 0
  egressTokens : UInt64 := 0
  priorityClass : UInt8 := 0

/-- A queued announcement. -/
structure LazyEntry where
  topic : Topic
  nodeID : NodeID
  hlc : UInt64
  bodyHash : Bytes
  queuedAt : Time

/-- `peerCtx`. -/
structure PeerCtx where
  cfg : PerPeerConfig
  lazyQueue : List LazyEntry := []
  isTreeEdge : Bool := false
  tokens : Int64 := 0
  lastRefill : Time := Time.zero

/-- `peerTable`. -/
structure PeerTable where
  ctxBy : FMap NodeID PeerCtx := ∅
  configFn : NodeID → PerPeerConfig := fun _ => {}

/-- The context of a peer, freshly configured when the peer is not in the table. -/
def PeerTable.ctx (pt : PeerTable) (id : NodeID) : PeerCtx :=
  (pt.ctxBy.lookup id).getD { cfg := pt.configFn id }

/-- The table with the context of a peer replaced. -/
def PeerTable.setCtx (pt : PeerTable) (id : NodeID) (p : PeerCtx) : PeerTable :=
  { pt with ctxBy := pt.ctxBy.insert id p }

/-- `Ensure`: the table with a context for the peer. -/
def PeerTable.ensure (pt : PeerTable) (id : NodeID) : PeerTable :=
  match pt.ctxBy.lookup id with
  | some _ => pt
  | none => pt.setCtx id (pt.ctx id)

/-- `Remove`. -/
def PeerTable.remove (pt : PeerTable) (id : NodeID) : PeerTable :=
  { pt with ctxBy := pt.ctxBy.erase id }

/-- `TreeEdges`. -/
def PeerTable.treeEdges (pt : PeerTable) : List NodeID :=
  (pt.ctxBy.entries.filter fun e => e.2.isTreeEdge).map Sigma.fst

/-- `NonTreeEdges`. -/
def PeerTable.nonTreeEdges (pt : PeerTable) : List NodeID :=
  (pt.ctxBy.entries.filter fun e => !e.2.isTreeEdge).map Sigma.fst

/-- `SetTreeEdge`: the peer is entered into the table if it is not there. -/
def PeerTable.setTreeEdge (pt : PeerTable) (id : NodeID) (isEdge : Bool) : PeerTable :=
  pt.setCtx id { pt.ctx id with isTreeEdge := isEdge }

/-- `Snapshot`. -/
def PeerTable.snapshot (pt : PeerTable) (id : NodeID) : PerPeerConfig := (pt.ctx id).cfg

/-- The queue of `EnqueueLazy` once entries older than `maxAge` are cut off its front. -/
def pruneLazy (queue : List LazyEntry) (maxAge : Duration) (now : Time) : List LazyEntry :=
  if 0 < maxAge then queue.dropWhile fun e => decide (e.queuedAt < now + (-maxAge).toInt) else queue

/-- `EnqueueLazy`: whether the entry was accepted, and the table. -/
def PeerTable.enqueueLazy (pt : PeerTable) (id : NodeID) (e : LazyEntry) (maxAge : Duration)
    (now : Time) : Bool × PeerTable :=
  let p := pt.ctx id
  let queue := pruneLazy p.lazyQueue maxAge now
  if 0 < p.cfg.backpressureMax ∧ p.cfg.backpressureMax ≤ queue.length then
    (false, pt.setCtx id { p with lazyQueue := queue })
  else (true, pt.setCtx id { p with lazyQueue := queue ++ [{ e with queuedAt := now }] })

/-- The bucket a first `ConsumeTokens` fills, which it knows by the zero time. -/
def PeerCtx.openBucket (p : PeerCtx) (cap : Int64) (now : Time) : PeerCtx :=
  if Time.isZero p.lastRefill then
    let tokens := p.cfg.egressTokens.toInt64
    { p with tokens := if tokens = 0 then cap else tokens, lastRefill := now }
  else p

/-- The tokens `ConsumeTokens` adds for the time since the last refill, in 64-bit arithmetic. -/
def PeerCtx.refillAdd (p : PeerCtx) (cap : Int64) (now : Time) : Int64 :=
  cap * Time.sub now p.lastRefill / second

/-- The refill step of `ConsumeTokens` for a bucket of size `cap`. -/
def PeerCtx.refill (p : PeerCtx) (cap : Int64) (now : Time) : PeerCtx :=
  let p := p.openBucket cap now
  let elapsed := Time.sub now p.lastRefill
  let add := p.refillAdd cap now
  if 0 < elapsed ∧ 0 < add then
    { p with
      tokens := if cap < p.tokens + add then cap else p.tokens + add
      lastRefill := now }
  else p

/-- `ConsumeTokens`: whether the cost was granted, and the table. -/
def PeerTable.consumeTokens (pt : PeerTable) (id : NodeID) (cost : Int64) (now : Time) :
    Bool × PeerTable :=
  if cost ≤ 0 then (true, pt)
  else
    let p := pt.ctx id
    let cap := p.cfg.bandwidthCap.toInt64
    if cap = 0 then (true, pt.ensure id)
    else
      let p := p.refill cap now
      if p.tokens < cost then (false, pt.setCtx id p)
      else (true, pt.setCtx id { p with tokens := p.tokens - cost })

/-! ## What the operations change -/

theorem PeerCtx.isTreeEdge_refill (c : PeerCtx) (cap : Int64) (now : Time) :
    (c.refill cap now).isTreeEdge = c.isTreeEdge := by
  have hopen : (c.openBucket cap now).isTreeEdge = c.isTreeEdge := by
    unfold PeerCtx.openBucket
    split_ifs
    · rfl
    · rfl
  unfold PeerCtx.refill
  dsimp only
  split_ifs
  · exact hopen
  · exact hopen
  · exact hopen

namespace PeerTable

section Lookup

variable (pt : PeerTable) (id p : NodeID)

theorem ctx_setCtx_eq (c : PeerCtx) : (pt.setCtx id c).ctx p = if p = id then c else pt.ctx p := by
  unfold ctx setCtx
  rw [FMap.lookup_insert_eq]
  split_ifs with hp
  · rfl
  · rfl

theorem mem_keys_setCtx (c : PeerCtx) :
    p ∈ (pt.setCtx id c).ctxBy.keys ↔ p = id ∨ p ∈ pt.ctxBy.keys :=
  AList.mem_insert pt.ctxBy

theorem mem_keys_remove : p ∈ (pt.remove id).ctxBy.keys ↔ p ≠ id ∧ p ∈ pt.ctxBy.keys :=
  AList.mem_erase

theorem mem_keys_ensure : p ∈ (pt.ensure id).ctxBy.keys ↔ p = id ∨ p ∈ pt.ctxBy.keys := by
  unfold ensure
  split
  · rename_i c hc
    refine ⟨Or.inr, ?_⟩
    rintro (rfl | hp)
    · exact FMap.mem_keys.mpr ⟨c, hc⟩
    · exact hp
  · exact pt.mem_keys_setCtx id p _

end Lookup

section Edges

variable {pt pt' : PeerTable} {p : NodeID}

/-- A peer that is not in the table is no tree edge. -/
theorem mem_treeEdges : p ∈ pt.treeEdges ↔ (pt.ctx p).isTreeEdge = true := by
  unfold treeEdges ctx
  rw [FMap.mem_filter_keys]
  cases hp : pt.ctxBy.lookup p with
  | none => simp
  | some c => simp

theorem mem_nonTreeEdges :
    p ∈ pt.nonTreeEdges ↔ p ∈ pt.ctxBy.keys ∧ (pt.ctx p).isTreeEdge = false := by
  unfold nonTreeEdges ctx
  rw [FMap.mem_filter_keys (f := fun c : PeerCtx => !c.isTreeEdge), FMap.mem_keys]
  cases hp : pt.ctxBy.lookup p with
  | none => simp
  | some c => simp

theorem mem_keys_of_treeEdge (h : p ∈ pt.treeEdges) : p ∈ pt.ctxBy.keys := by
  obtain ⟨c, hc, -⟩ := FMap.mem_filter_keys.mp h
  exact FMap.mem_keys.mpr ⟨c, hc⟩

theorem nodup_treeEdges (pt : PeerTable) : pt.treeEdges.Nodup := FMap.nodup_filter_keys _ _

theorem nodup_nonTreeEdges (pt : PeerTable) : pt.nonTreeEdges.Nodup :=
  FMap.nodup_filter_keys _ fun c : PeerCtx => !c.isTreeEdge

theorem length_treeEdges_le {l : List NodeID} (h : ∀ p ∈ pt.treeEdges, p ∈ l) :
    pt.treeEdges.length ≤ l.length :=
  (List.subperm_of_subset pt.nodup_treeEdges h).length_le

/-- A table without new tree edges has no more of them. -/
theorem length_treeEdges_mono
    (h : ∀ p, (pt'.ctx p).isTreeEdge = true → (pt.ctx p).isTreeEdge = true) :
    pt'.treeEdges.length ≤ pt.treeEdges.length :=
  length_treeEdges_le fun p hp => mem_treeEdges.mpr (h p (mem_treeEdges.mp hp))

/-- A context that stays what it was among the tree edges. -/
theorem isTreeEdge_setCtx (pt : PeerTable) {id : NodeID} {c : PeerCtx}
    (h : c.isTreeEdge = (pt.ctx id).isTreeEdge) (p : NodeID) :
    ((pt.setCtx id c).ctx p).isTreeEdge = (pt.ctx p).isTreeEdge := by
  rw [ctx_setCtx_eq]
  split_ifs with hp
  · rw [hp]
    exact h
  · rfl

theorem isTreeEdge_ensure (pt : PeerTable) (id p : NodeID) :
    ((pt.ensure id).ctx p).isTreeEdge = (pt.ctx p).isTreeEdge := by
  unfold ensure
  split
  · rfl
  · exact pt.isTreeEdge_setCtx rfl p

theorem isTreeEdge_setTreeEdge (pt : PeerTable) (id p : NodeID) (isEdge : Bool) :
    ((pt.setTreeEdge id isEdge).ctx p).isTreeEdge =
      if p = id then isEdge else (pt.ctx p).isTreeEdge := by
  unfold setTreeEdge
  rw [ctx_setCtx_eq]
  split_ifs with hp
  · rfl
  · rfl

/-- Removing a peer makes no tree edge. -/
theorem isTreeEdge_of_remove {id : NodeID} (h : ((pt.remove id).ctx p).isTreeEdge = true) :
    (pt.ctx p).isTreeEdge = true := by
  unfold ctx remove at h
  rw [FMap.lookup_erase_eq] at h
  split_ifs at h with hp
  · cases h
  · exact h

/-- `EnqueueLazy` changes one context, and not its place in the tree. -/
theorem enqueueLazy_eq (pt : PeerTable) (id : NodeID) (e : LazyEntry) (maxAge : Duration)
    (now : Time) : ∃ c, (pt.enqueueLazy id e maxAge now).2 = pt.setCtx id c ∧
      c.isTreeEdge = (pt.ctx id).isTreeEdge := by
  unfold enqueueLazy
  dsimp only
  split_ifs
  · exact ⟨_, rfl, rfl⟩
  · exact ⟨_, rfl, rfl⟩

/-- `ConsumeTokens` changes at most one context, and not its place in the tree. -/
theorem consumeTokens_cases (pt : PeerTable) (id : NodeID) (cost : Int64) (now : Time) :
    (pt.consumeTokens id cost now).2 = pt ∨ (pt.consumeTokens id cost now).2 = pt.ensure id ∨
      ∃ c, (pt.consumeTokens id cost now).2 = pt.setCtx id c ∧
        c.isTreeEdge = (pt.ctx id).isTreeEdge := by
  have hrefill := (pt.ctx id).isTreeEdge_refill (pt.ctx id).cfg.bandwidthCap.toInt64 now
  unfold consumeTokens
  dsimp only
  generalize (pt.ctx id).refill (pt.ctx id).cfg.bandwidthCap.toInt64 now = c at hrefill ⊢
  split_ifs
  · exact Or.inl rfl
  · exact Or.inr (Or.inl rfl)
  · exact Or.inr (Or.inr ⟨c, rfl, hrefill⟩)
  · exact Or.inr (Or.inr ⟨{ c with tokens := c.tokens - cost }, rfl, hrefill⟩)

theorem isTreeEdge_enqueueLazy (pt : PeerTable) (id p : NodeID) (e : LazyEntry) (maxAge : Duration)
    (now : Time) : ((pt.enqueueLazy id e maxAge now).2.ctx p).isTreeEdge =
      (pt.ctx p).isTreeEdge := by
  obtain ⟨c, heq, hc⟩ := pt.enqueueLazy_eq id e maxAge now
  rw [heq]
  exact pt.isTreeEdge_setCtx hc p

theorem isTreeEdge_consumeTokens (pt : PeerTable) (id p : NodeID) (cost : Int64) (now : Time) :
    ((pt.consumeTokens id cost now).2.ctx p).isTreeEdge = (pt.ctx p).isTreeEdge := by
  rcases pt.consumeTokens_cases id cost now with heq | heq | ⟨c, heq, hc⟩
  · rw [heq]
  · rw [heq]
    exact pt.isTreeEdge_ensure id p
  · rw [heq]
    exact pt.isTreeEdge_setCtx hc p

/-- For a peer of the table the limits on lazy pushes add no peer. -/
theorem mem_keys_enqueueLazy {id : NodeID} (h : id ∈ pt.ctxBy.keys) (p : NodeID) (e : LazyEntry)
    (maxAge : Duration) (now : Time) :
    p ∈ (pt.enqueueLazy id e maxAge now).2.ctxBy.keys ↔ p ∈ pt.ctxBy.keys := by
  obtain ⟨c, heq, -⟩ := pt.enqueueLazy_eq id e maxAge now
  rw [heq, mem_keys_setCtx, or_iff_right_of_imp fun hp => hp ▸ h]

theorem mem_keys_consumeTokens {id : NodeID} (h : id ∈ pt.ctxBy.keys) (p : NodeID) (cost : Int64)
    (now : Time) : p ∈ (pt.consumeTokens id cost now).2.ctxBy.keys ↔ p ∈ pt.ctxBy.keys := by
  rcases pt.consumeTokens_cases id cost now with heq | heq | ⟨c, heq, -⟩
  · rw [heq]
  · rw [heq, mem_keys_ensure, or_iff_right_of_imp fun hp => hp ▸ h]
  · rw [heq, mem_keys_setCtx, or_iff_right_of_imp fun hp => hp ▸ h]

end Edges

end PeerTable

end Swarm
