import Swarm.Engine.Kept

/-!
# Tree edges and pending announcements are bounded

Peers become tree edges in three places: `bestTreeEdges` promotes peers of the table up to the tree
degree, an eager push that was applied and a graft promote their sender up to four times the
degree. `Bounded` holds of every state a node reaches, whatever it is sent.
-/

namespace Swarm

/-! ## Promotion -/

theorem isTreeEdge_promoteAll (l : List NodeID) (pt : PeerTable) (p : NodeID) :
    ((l.foldl (fun pt p => pt.setTreeEdge p true) pt).ctx p).isTreeEdge = true ↔
      p ∈ l ∨ (pt.ctx p).isTreeEdge = true := by
  induction l generalizing pt with
  | nil => simp
  | cons q l ih =>
    rw [List.foldl_cons, ih, PeerTable.isTreeEdge_setTreeEdge, List.mem_cons]
    split_ifs with hp
    · simp [hp]
    · simp [hp]

theorem mem_keys_promoteAll (l : List NodeID) (pt : PeerTable) (p : NodeID) :
    p ∈ (l.foldl (fun pt p => pt.setTreeEdge p true) pt).ctxBy.keys ↔
      p ∈ l ∨ p ∈ pt.ctxBy.keys := by
  induction l generalizing pt with
  | nil => simp
  | cons q l ih =>
    rw [List.foldl_cons, ih, PeerTable.setTreeEdge, PeerTable.mem_keys_setCtx, List.mem_cons]
    tauto

namespace Node

variable (n : Node) (env : Env)

/-- The peers to push to are the tree edges afterwards. -/
theorem mem_bestTreeEdges (p : NodeID) :
    p ∈ (n.bestTreeEdges env).2.peers.treeEdges ↔ p ∈ (n.bestTreeEdges env).1 := by
  unfold bestTreeEdges
  dsimp only
  split_ifs
  · rfl
  · show p ∈ (List.foldl _ n.peers _).treeEdges ↔ _
    rw [PeerTable.mem_treeEdges, isTreeEdge_promoteAll, ← PeerTable.mem_treeEdges,
      List.mem_append, or_comm]

/-- Promotion stops at the degree. -/
theorem length_bestTreeEdges_le :
    (n.bestTreeEdges env).1.length ≤ max n.peers.treeEdges.length env.treeDeg := by
  unfold bestTreeEdges
  dsimp only
  split_ifs with hroom
  · exact le_max_left _ _
  · rw [List.length_append, List.length_take]
    omega

/-- Promotion picks among the peers of the table. -/
theorem mem_keys_bestTreeEdges (p : NodeID) :
    p ∈ (n.bestTreeEdges env).2.peers.ctxBy.keys ↔ p ∈ n.peers.ctxBy.keys := by
  unfold bestTreeEdges
  dsimp only
  split_ifs
  · rfl
  · show p ∈ (List.foldl _ n.peers _).ctxBy.keys ↔ _
    rw [mem_keys_promoteAll]
    refine or_iff_right_of_imp fun hp => ?_
    exact (PeerTable.mem_nonTreeEdges.mp (SortSlice.mem_iff.mp (List.mem_of_mem_take hp))).1

theorem length_treeEdges_bestTreeEdges_le :
    (n.bestTreeEdges env).2.peers.treeEdges.length ≤ max n.peers.treeEdges.length env.treeDeg :=
  (PeerTable.length_treeEdges_le fun p hp => (n.mem_bestTreeEdges env p).mp hp).trans
    (n.length_bestTreeEdges_le env)

theorem length_treeEdges_promote_le :
    ∀ peer, n.peers.treeEdges.length ≤ env.treeDeg * 4 →
      (n.promoteTreeEdgeBounded env peer).peers.treeEdges.length ≤ env.treeDeg * 4 := by
  intro peer hn
  unfold promoteTreeEdgeBounded
  split_ifs with _ hroom
  · exact hn
  · exact hn
  · have hcons : (n.peers.setTreeEdge peer true).treeEdges.length ≤
        (peer :: n.peers.treeEdges).length := by
      refine PeerTable.length_treeEdges_le fun p hp => ?_
      rw [PeerTable.mem_treeEdges, PeerTable.isTreeEdge_setTreeEdge] at hp
      split_ifs at hp with hpeer
      · exact hpeer ▸ List.mem_cons_self
      · exact List.mem_cons_of_mem _ (PeerTable.mem_treeEdges.mpr hp)
    exact hcons.trans (not_le.mp hroom)

end Node

/-! ## The bounds -/

/-- At most four times the degree of tree edges, at most `maxIHaves` pending announcements. -/
structure Bounded (env : Env) (n : Node) : Prop where
  edges : n.peers.treeEdges.length ≤ env.treeDeg * 4
  tracker : n.missingIHaves.len ≤ env.maxIHaves

namespace Bounded

variable {env : Env} {n : Node}

/-- A table without new tree edges. -/
theorem setPeers (h : Bounded env n) {pt : PeerTable}
    (hpt : ∀ p, (pt.ctx p).isTreeEdge = true → (n.peers.ctx p).isTreeEdge = true) :
    Bounded env (n.setPeers pt) where
  edges := (PeerTable.length_treeEdges_mono hpt).trans h.edges
  tracker := h.tracker

theorem handleIHave (h : Bounded env n) (rd : Reading) (sender : NodeID) (k : IHaveKey) :
    Bounded env (n.handleIHave env rd sender k.topic k.nodeID k.hlc k.key) := by
  rcases n.handleIHave_cases env rd sender k with heq | ⟨-, hnew, hroom, heq⟩
  · rw [heq]
    exact h
  · rw [heq]
    refine ⟨h.edges, ?_⟩
    show FMap.len (n.missingIHaves.insert _ _) ≤ _
    rw [FMap.len_insert_new hnew]
    exact hroom

theorem kept (env : Env) : Kept env (fun _ => True) (Bounded env) where
  announce _ _ _ _ _ _ := .plain rfl
  prune _ _ := .plain rfl
  send _ _ _ h := ⟨h.edges, h.tracker⟩
  promote peer h := by
    refine ⟨Node.length_treeEdges_promote_le _ env peer h.edges, ?_⟩
    obtain ⟨peers, heq⟩ := Node.promoteTreeEdgeBounded_eq _ env peer
    rw [heq]
    exact h.tracker
  best h := by
    refine ⟨(Node.length_treeEdges_bestTreeEdges_le _ env).trans (max_le h.edges (by omega)), ?_⟩
    obtain ⟨peers, heq⟩ := Node.bestTreeEdges_eq _ env
    rw [heq]
    exact h.tracker
  enqueue peer e maxAge now h :=
    h.setPeers fun p hp => by rwa [PeerTable.isTreeEdge_enqueueLazy] at hp
  consume peer cost now h :=
    h.setPeers fun p hp => by rwa [PeerTable.isTreeEdge_consumeTokens] at hp
  clear k h := by
    refine ⟨h.edges, le_trans (FMap.len_mono fun k' hk' => ?_) h.tracker⟩
    exact (AList.mem_erase.mp hk').2
  demote peer h := h.setPeers fun p hp => by
    rw [PeerTable.isTreeEdge_setTreeEdge] at hp
    split_ifs at hp
    exact hp
  join peer h := h.setPeers fun p hp => by rwa [PeerTable.isTreeEdge_ensure] at hp
  leave peer h := h.setPeers fun p hp => PeerTable.isTreeEdge_of_remove hp
  track rd sender topic node hlc key h := h.handleIHave rd sender ⟨topic, node, key, hlc⟩
  age now h := ⟨h.edges, (FMap.len_rangeUpdate_le _ _).trans h.tracker⟩
  count _ h := ⟨h.edges, h.tracker⟩
  markProbe _ _ h := ⟨h.edges, h.tracker⟩
  markReciprocal _ _ _ h := ⟨h.edges, h.tracker⟩
  markReap _ h := ⟨h.edges, h.tracker⟩
  tenant _ h := ⟨h.edges, h.tracker⟩
  pause _ h := ⟨h.edges, h.tracker⟩
  stop h := ⟨h.edges, h.tracker⟩
  accept _ h := ⟨h.edges, h.tracker⟩
  inbound _ _ _ := trivial
  apply _ _ _ h := ⟨h.edges, h.tracker⟩
  reap _ _ h := ⟨h.edges, h.tracker⟩
  clock _ h := ⟨h.edges, h.tracker⟩
  signed _ _ := trivial

end Bounded

/-- **Bounded fan-out.** Whatever happens to a node, at most four times the degree of its peers are
tree edges and at most `maxIHaves` announcements are pending; and where `bestTreeEdges` raises the
number of tree edges, it stays within the degree. -/
theorem fanout_bounded (env : Env) (rd : Reading) (configFn : NodeID → PerPeerConfig)
    (ops : List NodeOp) :
    (runNode env (newNode rd configFn) ops).peers.treeEdges.length ≤ 4 * env.treeDeg ∧
      (runNode env (newNode rd configFn) ops).missingIHaves.len ≤ env.maxIHaves ∧
      ∀ n : Node, n.peers.treeEdges.length < (n.bestTreeEdges env).2.peers.treeEdges.length →
        (n.bestTreeEdges env).2.peers.treeEdges.length ≤ env.treeDeg := by
  have hstart : Bounded env (newNode rd configFn) := ⟨Nat.zero_le _, Nat.zero_le _⟩
  have hrun := (Bounded.kept env).run ops hstart
  refine ⟨?_, hrun.tracker, fun n hraised => ?_⟩
  · rw [Nat.mul_comm]
    exact hrun.edges
  · have hle := n.length_treeEdges_bestTreeEdges_le env
    exact (le_max_iff.mp hle).resolve_left (not_le.mpr hraised)

end Swarm
