import Swarm.Engine.Kept

/-!
# Announcing to everyone

`lazyPushToNonTreeEdges` drops an announcement for a peer whose queue is full or whose bucket is
empty. A running node without bandwidth caps, whose queues have room, announces to every peer that
is not a tree edge.
-/

namespace Swarm

/-! ## Queues and buckets -/

/-- No bucket holds announcements back. -/
def Uncapped (pt : PeerTable) : Prop := ∀ p, (pt.ctx p).cfg.bandwidthCap = 0

/-- The queue of the peer takes so many more announcements. -/
def RoomAt (pt : PeerTable) (p : NodeID) (c : ℕ) : Prop :=
  (pt.ctx p).cfg.backpressureMax ≤ 0 ∨
    ((pt.ctx p).lazyQueue.length + c : ℤ) ≤ (pt.ctx p).cfg.backpressureMax

section Room

variable {pt : PeerTable} {id p : NodeID} {c c' : ℕ}

theorem Uncapped.setCtx (h : Uncapped pt) {x : PeerCtx} (hx : x.cfg = (pt.ctx id).cfg) :
    Uncapped (pt.setCtx id x) := by
  intro p
  rw [PeerTable.ctx_setCtx_eq]
  split_ifs
  · rw [hx]
    exact h id
  · exact h p

theorem RoomAt.le (h : RoomAt pt p c) (hle : c' ≤ c) : RoomAt pt p c' :=
  h.imp_right fun hlen => by omega

theorem RoomAt.setCtx (h : RoomAt pt p c) {x : PeerCtx} (hcfg : x.cfg = (pt.ctx id).cfg)
    (hqueue : x.lazyQueue.length ≤ (pt.ctx id).lazyQueue.length) : RoomAt (pt.setCtx id x) p c := by
  unfold RoomAt at h ⊢
  rw [PeerTable.ctx_setCtx_eq]
  split_ifs with hp
  · subst hp
    rw [hcfg]
    exact h.imp_right fun hlen => by omega
  · exact h

theorem Uncapped.setTreeEdge (h : Uncapped pt) (isEdge : Bool) :
    Uncapped (pt.setTreeEdge id isEdge) :=
  h.setCtx rfl

theorem RoomAt.setTreeEdge (h : RoomAt pt p c) (isEdge : Bool) :
    RoomAt (pt.setTreeEdge id isEdge) p c :=
  h.setCtx rfl le_rfl

/-- A peer that is entered into the table is as it was. -/
theorem ctx_ensure (pt : PeerTable) (id p : NodeID) : (pt.ensure id).ctx p = pt.ctx p := by
  unfold PeerTable.ensure
  split
  · rfl
  · rw [PeerTable.ctx_setCtx_eq]
    split_ifs with hp
    · rw [hp]
    · rfl

/-- A bucket without a cap grants everything. -/
theorem Uncapped.consumeTokens (h : Uncapped pt) (id : NodeID) (cost : Int64) (now : Time) :
    (pt.consumeTokens id cost now).1 = true ∧
      ∀ p, (pt.consumeTokens id cost now).2.ctx p = pt.ctx p := by
  unfold PeerTable.consumeTokens
  dsimp only
  rw [h id]
  split_ifs with hcost hcap
  · exact ⟨rfl, fun _ => rfl⟩
  · exact ⟨rfl, ctx_ensure pt id⟩
  all_goals exact absurd rfl hcap

theorem length_pruneLazy_le (queue : List LazyEntry) (maxAge : Duration) (now : Time) :
    (pruneLazy queue maxAge now).length ≤ queue.length := by
  unfold pruneLazy
  split_ifs
  · exact (List.dropWhile_sublist _).length_le
  · exact le_rfl

theorem Uncapped.enqueueLazy (h : Uncapped pt) (id : NodeID) (e : LazyEntry) (maxAge : Duration)
    (now : Time) : Uncapped (pt.enqueueLazy id e maxAge now).2 := by
  unfold PeerTable.enqueueLazy
  dsimp only
  split_ifs
  · exact h.setCtx rfl
  · exact h.setCtx rfl

/-- A queue with room takes the announcement. -/
theorem RoomAt.enqueueLazy (h : RoomAt pt id (c + 1)) (e : LazyEntry) (maxAge : Duration)
    (now : Time) :
    (pt.enqueueLazy id e maxAge now).1 = true ∧ RoomAt (pt.enqueueLazy id e maxAge now).2 id c ∧
      ∀ p, p ≠ id → (pt.enqueueLazy id e maxAge now).2.ctx p = pt.ctx p := by
  have hlen := length_pruneLazy_le (pt.ctx id).lazyQueue maxAge now
  unfold PeerTable.enqueueLazy
  dsimp only
  unfold RoomAt at h ⊢
  rw [if_neg (by omega)]
  refine ⟨rfl, ?_, fun p hp => ?_⟩
  · rw [PeerTable.ctx_setCtx_eq, if_pos rfl]
    dsimp only
    rw [List.length_append, List.length_singleton]
    exact h.imp_right fun hroom => by omega
  · rw [PeerTable.ctx_setCtx_eq, if_neg hp]

theorem RoomAt.promote {n : Node} (h : RoomAt n.peers p c) (env : Env) (peer : NodeID) :
    RoomAt (n.promoteTreeEdgeBounded env peer).peers p c := by
  unfold Node.promoteTreeEdgeBounded
  split_ifs
  · exact h
  · exact h
  · exact h.setTreeEdge true

theorem RoomAt.best {n : Node} (h : RoomAt n.peers p c) (env : Env) :
    RoomAt (n.bestTreeEdges env).2.peers p c := by
  unfold Node.bestTreeEdges
  dsimp only
  split_ifs
  · exact h
  · exact List.foldlRecOn (motive := fun pt => RoomAt pt p c) _ _ h fun pt hpt q _ =>
      hpt.setTreeEdge true

end Room

/-! ## Running nodes -/

/-- A running node that announces what it takes. -/
structure Open (n : Node) : Prop where
  running : n.stopped = false
  unpaused : n.paused = false
  uncapped : Uncapped n.peers

namespace Open

theorem quiet (env : Env) : Quiet env (fun _ _ => True) Open where
  announce _ _ _ _ _ _ := trivial
  prune _ _ := trivial
  send _ _ _ h := ⟨h.running, h.unpaused, h.uncapped⟩
  promote peer h := by
    unfold Node.promoteTreeEdgeBounded
    split_ifs
    · exact h
    · exact h
    · exact ⟨h.running, h.unpaused, h.uncapped.setTreeEdge true⟩
  best h := by
    unfold Node.bestTreeEdges
    dsimp only
    split_ifs
    · exact h
    · refine ⟨h.running, h.unpaused, ?_⟩
      exact List.foldlRecOn _ _ h.uncapped fun pt hpt p _ => hpt.setTreeEdge true
  enqueue peer e maxAge now h :=
    ⟨h.running, h.unpaused, h.uncapped.enqueueLazy peer e maxAge now⟩
  consume peer cost now h := by
    refine ⟨h.running, h.unpaused, fun p => ?_⟩
    show ((PeerTable.consumeTokens _ peer cost now).2.ctx p).cfg.bandwidthCap = 0
    rw [(h.uncapped.consumeTokens peer cost now).2 p]
    exact h.uncapped p
  clear _ h := ⟨h.running, h.unpaused, h.uncapped⟩
  accept _ h := ⟨h.running, h.unpaused, h.uncapped⟩

variable {n : Node} {c : ℕ}

/-- A peer whose queue has room gets the announcement. -/
theorem lazyPushTo (h : Open n) (env : Env) (rd : Reading) (r : Record) (f : Frame) {p : NodeID}
    (hroom : RoomAt n.peers p (c + 1)) :
    ∃ pt, Node.lazyPushTo env rd r f n p = (n.setPeers pt).send p f ∧ Uncapped pt ∧
      RoomAt pt p c ∧ ∀ q, q ≠ p → pt.ctx q = n.peers.ctx q := by
  unfold Node.lazyPushTo
  dsimp only
  generalize hentry : ({ topic := r.topic, nodeID := r.nodeID, hlc := r.hlc
                         bodyHash := bodyHash env.cr r, queuedAt := rd.now } : LazyEntry) = entry
  have huncapped := h.uncapped.enqueueLazy p entry (n.lazyInterval p) rd.now
  obtain ⟨hqueued, hless, hother⟩ := hroom.enqueueLazy entry (n.lazyInterval p) rd.now
  obtain ⟨hgranted, hctx⟩ := huncapped.consumeTokens p (Int64.ofNat (env.encodedLen f)) rd.now
  rw [hqueued]
  refine ⟨_, ?_, fun q => ?_, ?_, fun q hq => (hctx q).trans (hother q hq)⟩
  · rw [if_neg (by simp), if_neg ?_]
    · rfl
    · intro hno
      dsimp only [Node.setPeers] at hno
      rw [hgranted] at hno
      cases hno
  · rw [hctx]
    exact huncapped q
  · unfold RoomAt
    rw [hctx]
    exact hless

/-- Every peer that is not a tree edge hears of the record. -/
theorem lazyPush (h : Open n) (hroom : ∀ p, RoomAt n.peers p (c + 1)) (env : Env) (rd : Reading)
    (r : Record)
    (henc : (frameIHave r.topic r.nodeID r.key r.hlc (bodyHash env.cr r)).encodes = true) :
    ∃ pt, n.lazyPushToNonTreeEdges env rd r =
        (n.setPeers pt).sendAll n.peers.nonTreeEdges
          (frameIHave r.topic r.nodeID r.key r.hlc (bodyHash env.cr r)) ∧
      ∀ p, RoomAt pt p c := by
  generalize hf : frameIHave r.topic r.nodeID r.key r.hlc (bodyHash env.cr r) = f at henc
  -- a peer has one place less in its queue once it had its turn
  have hfold : ∀ (l : List NodeID) (m : Node), Open m → l.Nodup →
      (∀ p ∈ l, RoomAt m.peers p (c + 1)) → (∀ p, p ∉ l → RoomAt m.peers p c) →
      ∃ pt, l.foldl (Node.lazyPushTo env rd r f) m = (m.setPeers pt).sendAll l f ∧
        ∀ p, RoomAt pt p c := by
    intro l
    induction l with
    | nil => exact fun m _ _ _ hless => ⟨m.peers, rfl, fun p => hless p List.not_mem_nil⟩
    | cons p l ih =>
      intro m hm hnodup hmore hless
      obtain ⟨hp, hnodup⟩ := List.nodup_cons.mp hnodup
      obtain ⟨pt, heq, hpt, hroom, hother⟩ := hm.lazyPushTo env rd r f
        (hmore p List.mem_cons_self)
      have hkept : ∀ q, q ≠ p → ∀ c, RoomAt m.peers q c → RoomAt pt q c := by
        intro q hq c hroom
        unfold RoomAt
        rw [hother q hq]
        exact hroom
      have hmore' : ∀ q ∈ l, RoomAt pt q (c + 1) := fun q hq =>
        hkept q (fun hqp => hp (hqp ▸ hq)) _ (hmore q (List.mem_cons_of_mem _ hq))
      have hless' : ∀ q, q ∉ l → RoomAt pt q c := by
        intro q hq
        by_cases hqp : q = p
        · rw [hqp]
          exact hroom
        · exact hkept q hqp _ (hless q fun hmem => (List.mem_cons.mp hmem).elim hqp hq)
      obtain ⟨pt', heq', hroom'⟩ :=
        ih ((m.setPeers pt).send p f) ⟨hm.running, hm.unpaused, hpt⟩ hnodup hmore' hless'
      refine ⟨pt', ?_, hroom'⟩
      rw [List.foldl_cons, heq, heq']
      rfl
  unfold Node.lazyPushToNonTreeEdges
  dsimp only
  rw [h.unpaused, hf, henc]
  exact hfold _ n h n.peers.nodup_nonTreeEdges (fun p _ => hroom p)
    fun p _ => (hroom p).le (Nat.le_succ c)

end Open

end Swarm
