import Swarm.Engine.Footprint
import Swarm.Lib.Runs

/-!
# Peers that left

A peer is up from its join to its leave. `Remove` takes a peer out of the table, but a frame that is
handled after the leave of its sender can enter it again: a graft and an applied push while there is
room for tree edges, a prune always. From then on it takes a slot of the tree, or waits to be
promoted.

`edges_up_iff`: tree edges are up as long as no such frame is handled, and only that long.
-/

namespace Swarm

/-- The peers that joined and did not leave since. -/
def NodeOp.up (up : Finset NodeID) : NodeOp → Finset NodeID
  | .join peer => insert peer up
  | .leave peer => up.erase peer
  | _ => up

/-- An operation, with the peers that are up. -/
def stepUp (env : Env) (s : Node × Finset NodeID) (op : NodeOp) : Node × Finset NodeID :=
  (op.exec env s.1, op.up s.2)

/-- There is room for one more tree edge. -/
def HasRoom (env : Env) (n : Node) : Prop := n.peers.treeEdges.length < env.treeDeg * 4

/-- The frame enters its sender into the table. -/
def Frame.Enters (env : Env) (n : Node) (rd : Reading) : Frame → Prop
  | .eager (some r) _ => Accepts env n rd r ∧ HasRoom env n
  | .graft _ _ _ _ => HasRoom env n
  | .prune _ => True
  | _ => False

/-- The operation handles a frame that enters a sender who is not up. -/
def NodeOp.Late (env : Env) (s : Node × Finset NodeID) : NodeOp → Prop
  | .receive rd sender f =>
    sender ∉ s.2 ∧ s.1.stopped = false ∧ f.encodes = true ∧ f.Enters env s.1 rd
  | _ => False

/-! ## The table after an operation -/

theorem mem_keys_promote (n : Node) (env : Env) (peer p : NodeID) :
    p ∈ (n.promoteTreeEdgeBounded env peer).peers.ctxBy.keys ↔
      p ∈ n.peers.ctxBy.keys ∨ p = peer ∧ HasRoom env n := by
  unfold Node.promoteTreeEdgeBounded HasRoom
  split_ifs with hedge hfull
  · refine (or_iff_left_of_imp ?_).symm
    rintro ⟨rfl, -⟩
    exact PeerTable.mem_keys_of_treeEdge hedge
  · refine (or_iff_left_of_imp ?_).symm
    rintro ⟨-, hroom⟩
    exact absurd hfull (not_le.mpr hroom)
  · show p ∈ (n.peers.setTreeEdge peer true).ctxBy.keys ↔ _
    rw [PeerTable.setTreeEdge, PeerTable.mem_keys_setCtx, or_comm,
      and_iff_left (not_le.mp hfull)]

theorem mem_keys_frame (n : Node) (env : Env) (rd : Reading) (sender : NodeID) (f : Frame)
    (p : NodeID) : p ∈ (f.books env n rd sender).peers.ctxBy.keys ↔
      p ∈ n.peers.ctxBy.keys ∨ p = sender ∧ f.Enters env n rd := by
  have hnone : p ∈ n.peers.ctxBy.keys ↔ p ∈ n.peers.ctxBy.keys ∨ p = sender ∧ False := by simp
  cases f with
  | eager record ttl =>
    cases record with
    | none => exact hnone
    | some r =>
      show p ∈ (if _ then _ else _ : Node).peers.ctxBy.keys ↔ _ ∨ _ ∧ (_ ∧ _)
      split_ifs with hacc
      · show p ∈ (n.promoteTreeEdgeBounded env sender).peers.ctxBy.keys ↔ _
        rw [mem_keys_promote, and_iff_right hacc]
      · simp [hacc]
  | ihave topic nodeID hlc _ key =>
    obtain ⟨missing, heq⟩ := n.handleIHave_eq env rd sender topic nodeID hlc key
    show p ∈ (n.handleIHave env rd sender topic nodeID hlc key).peers.ctxBy.keys ↔ _
    rw [heq]
    exact hnone
  | graft _ _ _ _ => exact mem_keys_promote n env sender p
  | prune _ =>
    show p ∈ (n.peers.setTreeEdge sender false).ctxBy.keys ↔ _ ∨ _ ∧ True
    rw [PeerTable.setTreeEdge, PeerTable.mem_keys_setCtx, or_comm, and_true]
  | merkle _ _ _ _ => exact hnone
  | merkleRange _ _ _ => exact hnone
  | keepalive => exact hnone
  | fetchReq _ _ => exact hnone
  | fetchResp _ _ _ => exact hnone
  | empty => exact hnone

/-- Every peer of the table is up. -/
def TableUp (s : Node × Finset NodeID) : Prop := ∀ p ∈ s.1.peers.ctxBy.keys, p ∈ s.2

/-- One operation keeps the table to peers that are up exactly when it is not late. -/
theorem tableUp_step_iff (env : Env) (s : Node × Finset NodeID) (op : NodeOp) (h : TableUp s) :
    TableUp (stepUp env s op) ↔ ¬op.Late env s := by
  obtain ⟨n, up⟩ := s
  have hsame := (sameBooks_exec env n op).peers
  have hbooks : TableUp (stepUp env (n, up) op) ↔
      ∀ p ∈ (op.books env n).peers.ctxBy.keys, p ∈ op.up up :=
    forall_congr' fun p => imp_congr_left (hsame p)
  rw [hbooks]
  cases op with
  | receive rd sender f =>
    unfold NodeOp.books
    dsimp only
    split_ifs with hin
    · constructor
      · rintro hup ⟨hno, -, -, henters⟩
        exact hno (hup sender ((mem_keys_frame n env rd sender f sender).mpr
          (Or.inr ⟨rfl, henters⟩)))
      · intro hlate p hp
        rcases (mem_keys_frame n env rd sender f p).mp hp with hold | ⟨rfl, henters⟩
        · exact h p hold
        · by_contra hno
          exact hlate ⟨hno, hin.1, hin.2, henters⟩
    · refine iff_of_true h ?_
      rintro ⟨-, hrun, henc, -⟩
      exact hin ⟨hrun, henc⟩
  | join peer =>
    refine iff_of_true (fun p hp => ?_) id
    rcases (n.peers.mem_keys_ensure peer p).mp hp with rfl | hold
    · exact Finset.mem_insert_self _ _
    · exact Finset.mem_insert_of_mem (h p hold)
  | leave peer =>
    refine iff_of_true (fun p hp => ?_) id
    obtain ⟨hne, hold⟩ := (n.peers.mem_keys_remove peer p).mp hp
    exact Finset.mem_erase.mpr ⟨hne, h p hold⟩
  | tick rd now => exact iff_of_true h id
  | tickLoop rd => exact iff_of_true h id
  | publishKeyed => exact iff_of_true h id
  | publishKeyedTombstone => exact iff_of_true h id
  | publishObserverTombstone => exact iff_of_true h id
  | setTenant => exact iff_of_true h id
  | reap => exact iff_of_true h id
  | probePeer => exact iff_of_true h id
  | setPaused => exact iff_of_true h id
  | stop => exact iff_of_true h id

/-! ## Every peer of the table may be pushed to -/

theorem treeDeg_pos (env : Env) : 0 < env.treeDeg := by
  unfold Env.treeDeg
  split_ifs with hdeg
  · decide
  · omega

/-- A peer alone in the table is pushed to. -/
theorem mem_bestTreeEdges_of_alone {n : Node} (env : Env) {p : NodeID}
    (hp : p ∈ n.peers.ctxBy.keys) (halone : ∀ q ∈ n.peers.ctxBy.keys, q = p) :
    p ∈ (n.bestTreeEdges env).1 := by
  have hpos := treeDeg_pos env
  unfold Node.bestTreeEdges
  dsimp only
  by_cases hedge : p ∈ n.peers.treeEdges
  · split_ifs
    · exact hedge
    · exact List.mem_append_left _ hedge
  · have hnone : n.peers.treeEdges = [] := by
      refine List.eq_nil_iff_forall_not_mem.mpr fun q hq => ?_
      exact hedge (halone q (PeerTable.mem_keys_of_treeEdge hq) ▸ hq)
    have hlazy : p ∈ n.peers.nonTreeEdges :=
      PeerTable.mem_nonTreeEdges.mpr
        ⟨hp, by simpa using fun h => hedge (PeerTable.mem_treeEdges.mpr h)⟩
    have hone : n.peers.nonTreeEdges.length ≤ [p].length := by
      refine (List.subperm_of_subset n.peers.nodup_nonTreeEdges fun q hq => ?_).length_le
      exact List.mem_singleton.mpr (halone q (PeerTable.mem_nonTreeEdges.mp hq).1)
    rw [if_neg (by rw [hnone]; exact not_le.mpr hpos)]
    refine List.mem_append_right _ ?_
    rw [List.take_of_length_le]
    · exact SortSlice.mem_iff.mpr hlazy
    · rw [(SortSlice.perm _ _).length_eq, hnone]
      exact hone.trans hpos

/-- The state after the peers left. -/
theorem foldl_leave (env : Env) (gone : List NodeID) (s : Node × Finset NodeID) (p : NodeID) :
    (p ∈ ((gone.map NodeOp.leave).foldl (stepUp env) s).1.peers.ctxBy.keys ↔
      p ∉ gone ∧ p ∈ s.1.peers.ctxBy.keys) ∧
    (p ∈ ((gone.map NodeOp.leave).foldl (stepUp env) s).2 ↔ p ∉ gone ∧ p ∈ s.2) := by
  induction gone generalizing s with
  | nil => simp
  | cons q gone ih =>
    have hkeys : p ∈ (stepUp env s (.leave q)).1.peers.ctxBy.keys ↔
        p ≠ q ∧ p ∈ s.1.peers.ctxBy.keys := s.1.peers.mem_keys_remove q p
    have hup : p ∈ (stepUp env s (.leave q)).2 ↔ p ≠ q ∧ p ∈ s.2 := Finset.mem_erase
    rw [List.map_cons, List.foldl_cons, (ih _).1, (ih _).2, hkeys, hup, List.mem_cons, not_or]
    tauto

/-- After any departures the peers to push to are up. -/
def EdgesUp (env : Env) (s : Node × Finset NodeID) : Prop :=
  ∀ gone : List NodeID,
    ∀ p ∈ (((gone.map NodeOp.leave).foldl (stepUp env) s).1.bestTreeEdges env).1,
      p ∈ ((gone.map NodeOp.leave).foldl (stepUp env) s).2

theorem edgesUp_iff (env : Env) (s : Node × Finset NodeID) : EdgesUp env s ↔ TableUp s := by
  constructor
  · intro h p hp
    -- all others leave
    have hnot : p ∉ s.1.peers.ctxBy.keys.erase p := s.1.peers.ctxBy.keys_nodup.not_mem_erase
    have hafter := foldl_leave env (s.1.peers.ctxBy.keys.erase p) s
    refine ((hafter p).2.mp (h _ p (mem_bestTreeEdges_of_alone env ?_ fun q hq => ?_))).2
    · exact (hafter p).1.mpr ⟨hnot, hp⟩
    · obtain ⟨hgone, hkeys⟩ := (hafter q).1.mp hq
      by_contra hne
      exact hgone ((List.mem_erase_of_ne hne).mpr hkeys)
  · intro h gone p hp
    have hkeys : p ∈ ((gone.map NodeOp.leave).foldl (stepUp env) s).1.peers.ctxBy.keys := by
      rw [← Node.mem_keys_bestTreeEdges _ env p]
      exact PeerTable.mem_keys_of_treeEdge ((Node.mem_bestTreeEdges _ env p).mpr hp)
    obtain ⟨hgone, hold⟩ := (foldl_leave env gone s p).1.mp hkeys
    exact (foldl_leave env gone s p).2.mpr ⟨hgone, h p hold⟩

/-- **Eager push goes to peers that are up, until a late frame.** Along every run, the peers
`bestTreeEdges` returns, now and after any departures, joined and did not leave since exactly when
no frame entered a sender who was not up. -/
theorem edges_up_iff (env : Env) (rd : Reading) (configFn : NodeID → PerPeerConfig)
    (ops : List NodeOp) :
    Runs.StatesMeet (stepUp env) (EdgesUp env) (newNode rd configFn, ∅) ops ↔
      Runs.StepsMeet (stepUp env) (fun s op => ¬op.Late env s) (newNode rd configFn, ∅) ops := by
  have hstart : TableUp (newNode rd configFn, ∅) := fun p hp => (by cases hp)
  refine Runs.statesMeet_iff_stepsMeet (fun s op hs => ?_) ((edgesUp_iff env _).mpr hstart) ops
  rw [edgesUp_iff]
  exact tableUp_step_iff env s op ((edgesUp_iff env s).mp hs)

/-- Peer 1 joins and leaves, and then its graft arrives. -/
def lateGraft : List NodeOp :=
  [.join [1], .leave [1], .receive ⟨0, 0⟩ [1] (frameGraft [116] [9] [] 5)]

/-- Peer 1 left and is a tree edge. -/
theorem departed_peer_grafted :
    (lateGraft.foldl (stepUp plainEnv) (newNode ⟨0, 0⟩ fun _ => {}, ∅)).2 = ∅ ∧
      (lateGraft.foldl (stepUp plainEnv) (newNode ⟨0, 0⟩ fun _ => {}, ∅)).1.peers.treeEdges =
        [[1]] ∧
      ((lateGraft.foldl (stepUp plainEnv) (newNode ⟨0, 0⟩ fun _ => {}, ∅)).1.bestTreeEdges
        plainEnv).1 = [[1]] := by
  decide

end Swarm
