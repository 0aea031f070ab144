import Swarm.Engine.Edges

/-!
# Who is in the peer table, and what is pending

Only a few operations enter a peer into the table or remove one: the callbacks of the transport, and
a graft, a prune or an applied push for its sender. Only an announcement, an applied push and the
ticks change what is pending. Everything else the handlers do keeps both (`SameBooks`), and
`NodeOp.books` is what an operation does to them.
-/

namespace Swarm

/-- The same peers are in the table, and the same announcements are pending. -/
structure SameBooks (n n' : Node) : Prop where
  peers : ∀ p, p ∈ n'.peers.ctxBy.keys ↔ p ∈ n.peers.ctxBy.keys
  pending : n'.missingIHaves = n.missingIHaves

namespace SameBooks

variable {m n : Node} {env : Env}

theorem refl (n : Node) : SameBooks n n := ⟨fun _ => Iff.rfl, rfl⟩

/-- A state with the same table and the same pending announcements. -/
theorem of_eq {n' : Node} (h : SameBooks m n) (hpeers : n'.peers = n.peers)
    (hpending : n'.missingIHaves = n.missingIHaves) : SameBooks m n' where
  peers p := by rw [hpeers, h.peers]
  pending := hpending.trans h.pending

/-! ## Pushing -/

theorem send (h : SameBooks m n) (dst : NodeID) (f : Frame) : SameBooks m (n.send dst f) :=
  h.of_eq rfl rfl

theorem send_if (h : SameBooks m n) (dst : NodeID) (f : Frame) (c : Prop) [Decidable c] :
    SameBooks m (if c then n.send dst f else n) := by
  split_ifs
  · exact h.send dst f
  · exact h

theorem sendAll (h : SameBooks m n) (dsts : List NodeID) (f : Frame) :
    SameBooks m (n.sendAll dsts f) :=
  List.foldlRecOn _ _ h fun _ h dst _ => h.send dst f

theorem best (h : SameBooks m n) : SameBooks m (n.bestTreeEdges env).2 where
  peers p := (n.mem_keys_bestTreeEdges env p).trans (h.peers p)
  pending := by
    obtain ⟨peers, heq⟩ := n.bestTreeEdges_eq env
    rw [heq]
    exact h.pending

theorem eagerPush (h : SameBooks m n) (r : Record) :
    SameBooks m (n.eagerPushToTreeEdges env r) := by
  unfold Node.eagerPushToTreeEdges
  dsimp only
  split_ifs
  · exact h
  · exact h.best.sendAll _ _

theorem eagerForward (h : SameBooks m n) (except : NodeID) (r : Record) (ttl : UInt32) :
    SameBooks m (n.eagerForward except r ttl) := by
  unfold Node.eagerForward
  dsimp only
  split_ifs
  · exact h
  · exact h.sendAll _ _

theorem lazyPushTo (h : SameBooks m n) (rd : Reading) (r : Record) (f : Frame) {p : NodeID}
    (hp : p ∈ n.peers.ctxBy.keys) : SameBooks m (Node.lazyPushTo env rd r f n p) := by
  have henqueue : ∀ e maxAge, SameBooks m (n.setPeers (n.peers.enqueueLazy p e maxAge rd.now).2) :=
    fun e maxAge =>
      ⟨fun q => (PeerTable.mem_keys_enqueueLazy hp q e maxAge rd.now).trans (h.peers q), h.pending⟩
  unfold Node.lazyPushTo
  dsimp only
  generalize hn' : n.setPeers _ = n'
  have h' : SameBooks m n' := hn' ▸ henqueue _ _
  have hp' : p ∈ n'.peers.ctxBy.keys := (h'.peers p).mpr ((h.peers p).mp hp)
  have hconsume : ∀ cost, SameBooks m (n'.setPeers (n'.peers.consumeTokens p cost rd.now).2) :=
    fun cost =>
      ⟨fun q => (PeerTable.mem_keys_consumeTokens hp' q cost rd.now).trans (h'.peers q), h'.pending⟩
  split_ifs
  · exact h'
  · exact hconsume _
  · exact (hconsume _).send _ _

theorem lazyPush (h : SameBooks m n) (rd : Reading) (r : Record) :
    SameBooks m (n.lazyPushToNonTreeEdges env rd r) := by
  unfold Node.lazyPushToNonTreeEdges
  dsimp only
  split_ifs
  · exact h
  · exact h
  · refine List.foldlRecOn _ _ h fun n' h' p hp => h'.lazyPushTo rd r _ ?_
    rw [h'.peers, ← h.peers]
    exact (PeerTable.mem_nonTreeEdges.mp hp).1

theorem broadcast (h : SameBooks m n) (rd : Reading) (r : Record) :
    SameBooks m (n.broadcast env rd r) :=
  (h.eagerPush r).lazyPush rd r

theorem relayAttestation (h : SameBooks m n) (sender : NodeID) (r : Record) (ttl : UInt32) :
    SameBooks m (n.relayAttestation env sender r ttl) := by
  unfold Node.relayAttestation
  dsimp only
  split_ifs
  · exact h
  · exact h
  · exact h.best.sendAll _ _

/-! ## Records off the wire -/

theorem inbound (h : SameBooks m n) (rd : Reading) (r : Record) :
    SameBooks m (n.inbound env rd r).2 := by
  unfold Node.inbound
  split_ifs
  · exact h
  · exact h.of_eq rfl rfl

/-- The gate, the clock and the store. -/
theorem applyInbound (h : SameBooks m n) (rd : Reading) (r : Record) :
    SameBooks m (((n.inbound env rd r).2.observe rd r.hlc).applyExt env rd r).2 :=
  (h.inbound rd r).of_eq rfl rfl

theorem receiveRecord (h : SameBooks m n) (rd : Reading) (r : Record) :
    SameBooks m (Node.receiveRecord env rd n r) := by
  unfold Node.receiveRecord
  dsimp only
  split_ifs
  · exact h.inbound rd r
  · exact (h.applyInbound rd r).of_eq rfl rfl
  · exact h.applyInbound rd r

theorem sendProbe (h : SameBooks m n) (dst : NodeID) (topic : Topic)
    (rangeStart rangeEnd : Option Bytes) :
    SameBooks m (n.sendProbe env dst topic rangeStart rangeEnd) :=
  h.send_if dst _ _

theorem handleRange (h : SameBooks m n) (rd : Reading) (sender : NodeID) (topic : Topic)
    (records : List Record) (truncated : Bool) :
    SameBooks m (n.handleRange env rd sender topic records truncated) := by
  have hall : SameBooks m (records.foldl (Node.receiveRecord env rd) n) :=
    List.foldlRecOn _ _ h fun _ h r _ => h.receiveRecord rd r
  unfold Node.handleRange
  dsimp only
  split
  · exact hall
  · split_ifs
    · exact hall.sendProbe _ _ _ _
    · exact hall

theorem handleProbe (h : SameBooks m n) (rd : Reading) (sender : NodeID) (topic : Topic)
    (rangeStart rangeEnd : Option Bytes) (rootHash : Bytes) :
    SameBooks m (n.handleProbe env rd sender topic rangeStart rangeEnd rootHash) := by
  unfold Node.handleProbe
  split_ifs
  · exact h
  · have hmark : SameBooks m (n.markReciprocal rd sender topic) := h.of_eq rfl rfl
    have hrec : SameBooks m (n.reciprocate env rd sender topic rangeStart rangeEnd) := by
      unfold Node.reciprocate
      split_ifs
      · exact hmark.sendProbe _ _ _ _
      · exact h
    exact hrec.send_if sender _ _

/-! ## Publishing and periodic work -/

theorem plumPublish (h : SameBooks m n) (rd : Reading) (r : Record) :
    SameBooks m (n.plumPublish env rd r) := by
  have happ : SameBooks m (n.applyExt env rd r).2 := h.of_eq rfl rfl
  unfold Node.plumPublish
  dsimp only
  split_ifs
  · exact happ
  · exact happ.broadcast rd r

theorem publishOwn (h : SameBooks m n) (rd : Reading) (r : Record) :
    SameBooks m (n.publishOwn env rd r) :=
  have hstamp : SameBooks m (n.stamp rd) := h.of_eq rfl rfl
  (hstamp.plumPublish rd _).of_eq rfl rfl

theorem applyAndBroadcast (h : SameBooks m n) (rd : Reading) (r : Record) :
    SameBooks m (n.applyAndBroadcast env rd r) := by
  have happ : SameBooks m (n.applyExt env rd r).2 := h.of_eq rfl rfl
  have hacc : SameBooks m ((n.applyExt env rd r).2.accept r) := h.of_eq rfl rfl
  unfold Node.applyAndBroadcast
  dsimp only
  split_ifs
  · exact hacc.broadcast rd r
  · exact happ.broadcast rd r

theorem setTenant (h : SameBooks m n) (rd : Reading) (tenantID : Bytes) :
    SameBooks m (n.setTenant env rd tenantID) := by
  have hstart : SameBooks m { n with tenant := tenantID } := h.of_eq rfl rfl
  unfold Node.setTenant
  split_ifs
  · exact h
  · refine List.foldlRecOn _ _ hstart fun n' h' r _ => ?_
    have hstamp : SameBooks m (n'.stamp rd) := h'.of_eq rfl rfl
    exact hstamp.applyAndBroadcast rd _

theorem merkleTick (h : SameBooks m n) (rd : Reading) : SameBooks m (n.merkleTick env rd) := by
  unfold Node.merkleTick
  split_ifs
  · exact h
  · refine List.foldlRecOn _ _ h fun n' h' topic _ => ?_
    have hmark : SameBooks m (n'.markProbe rd topic) := h'.of_eq rfl rfl
    unfold Node.probeTopic
    dsimp only
    split_ifs
    · exact h'
    · exact hmark
    · exact hmark.sendProbe _ _ _ _

theorem probePeer (h : SameBooks m n) (peer : NodeID) : SameBooks m (n.probePeer env peer) := by
  unfold Node.probePeer Node.merkleProbePeer
  split_ifs
  · exact h
  · exact h
  · exact List.foldlRecOn _ _ h fun _ h _ _ => h.sendProbe _ _ _ _

/-- The grafts `processGrafts` sends, before it ages the announcements. -/
theorem grafts (h : SameBooks m n) (now : Time) (l : List ((_ : IHaveKey) × IHaveEntry)) :
    SameBooks m (l.foldl (Node.graftDue env now) n) :=
  List.foldlRecOn _ _ h fun _ h _ _ => h.send_if _ _ _

theorem processGrafts (n : Node) (env : Env) (now : Time) :
    SameBooks (n.ageIHaves env now) (n.processGrafts env now) := by
  have hsent : SameBooks n (n.missingIHaves.entries.foldl (Node.graftDue env now) n) :=
    (refl n).grafts now _
  refine ⟨hsent.peers, ?_⟩
  unfold Node.processGrafts Node.ageIHaves
  rw [hsent.pending]

end SameBooks

/-! ## What an operation does to the two -/

/-- The push is let through and changes the store. -/
def Accepts (env : Env) (n : Node) (rd : Reading) (r : Record) : Prop :=
  env.gate.letThrough env.cr rd.wallMs r = true ∧
    (applyExt env.storeCfg rd.nowMs n.store r).1.applied = true

instance (env : Env) (n : Node) (rd : Reading) (r : Record) : Decidable (Accepts env n rd r) :=
  inferInstanceAs (Decidable (_ ∧ _))

/-- The announcement a record answers. -/
def ihaveKeyOf (r : Record) : IHaveKey :=
  { topic := r.topic, nodeID := r.nodeID, key := r.key, hlc := r.hlc }

/-- A frame's effect on the table and on what is pending. -/
def Frame.books (env : Env) (n : Node) (rd : Reading) (sender : NodeID) : Frame → Node
  | .eager (some r) _ =>
    if Accepts env n rd r then
      (n.promoteTreeEdgeBounded env sender).clearIHave (ihaveKeyOf r)
    else n
  | .ihave topic nodeID hlc _ key => n.handleIHave env rd sender topic nodeID hlc key
  | .graft _ _ _ _ => n.promoteTreeEdgeBounded env sender
  | .prune _ => n.handlePrune sender
  | _ => n

/-- An operation's effect on the table and on what is pending. -/
def NodeOp.books (env : Env) (n : Node) : NodeOp → Node
  | .receive rd sender f =>
    if n.stopped = false ∧ f.encodes = true then f.books env n rd sender else n
  | .tick _ now => n.ageIHaves env now
  | .tickLoop rd => n.ageIHaves env rd.wall
  | .join peer => n.onPeerJoin peer
  | .leave peer => n.onPeerLeave peer
  | _ => n

theorem peers_applyInbound (n : Node) (env : Env) (rd : Reading) (r : Record) :
    (((n.inbound env rd r).2.observe rd r.hlc).applyExt env rd r).2.peers = n.peers ∧
      (((n.inbound env rd r).2.observe rd r.hlc).applyExt env rd r).2.missingIHaves =
        n.missingIHaves := by
  unfold Node.inbound
  split_ifs
  · exact ⟨rfl, rfl⟩
  · exact ⟨rfl, rfl⟩

/-- Promotion looks at the table only. -/
theorem peers_promoteTreeEdgeBounded {n n' : Node} (h : n'.peers = n.peers) (env : Env)
    (peer : NodeID) : (n'.promoteTreeEdgeBounded env peer).peers =
      (n.promoteTreeEdgeBounded env peer).peers := by
  unfold Node.promoteTreeEdgeBounded
  rw [h]
  split_ifs
  · exact h
  · exact h
  · rfl

theorem sameBooks_eagerAccepted {n n' : Node} (hpeers : n'.peers = n.peers)
    (hpending : n'.missingIHaves = n.missingIHaves) (env : Env) (rd : Reading) (sender : NodeID)
    (r : Record) (ttl : UInt32) :
    SameBooks ((n.promoteTreeEdgeBounded env sender).clearIHave (ihaveKeyOf r))
      (n'.eagerAccepted env rd sender r ttl) := by
  have hcleared : SameBooks ((n.promoteTreeEdgeBounded env sender).clearIHave (ihaveKeyOf r))
      (((n'.promoteTreeEdgeBounded env sender).clearIHave (ihaveKeyOf r)).accept r) := by
    refine (SameBooks.refl _).of_eq (peers_promoteTreeEdgeBounded hpeers env sender) ?_
    obtain ⟨pt, heq⟩ := n.promoteTreeEdgeBounded_eq env sender
    obtain ⟨pt', heq'⟩ := n'.promoteTreeEdgeBounded_eq env sender
    rw [heq, heq']
    show n'.missingIHaves.erase _ = n.missingIHaves.erase _
    rw [hpending]
  unfold Node.eagerAccepted
  dsimp only
  split_ifs
  · exact (hcleared.eagerForward _ _ _).lazyPush rd r
  · exact hcleared.lazyPush rd r

theorem sameBooks_handleEager (n : Node) (env : Env) (rd : Reading) (sender : NodeID)
    (record : Option Record) (ttl : UInt32) :
    SameBooks ((Frame.eager record ttl).books env n rd sender)
      (n.handleEager env rd sender record ttl) := by
  cases record with
  | none => exact .refl n
  | some r =>
    obtain ⟨n', happ, -, -, -⟩ := n.applyExt_inbound env rd r
    obtain ⟨hpeers, hpending⟩ := peers_applyInbound n env rd r
    rw [happ] at hpeers hpending
    have hsame : SameBooks n n' := (SameBooks.refl n).of_eq hpeers hpending
    unfold Node.handleEager Frame.books
    dsimp only
    rw [happ]
    dsimp only
    by_cases hok : (n.inbound env rd r).1 = true
    · have hgate := inbound_eq_true_iff.mp hok
      rw [hok]
      by_cases hres : (applyExt env.storeCfg rd.nowMs n.store r).1.applied = true
      · rw [if_pos (show Accepts env n rd r from ⟨hgate, hres⟩), hres]
        exact sameBooks_eagerAccepted hpeers hpending env rd sender r ttl
      · rw [if_neg fun h : Accepts env n rd r => hres h.2]
        simp only [hres]
        split_ifs with hno _ _ hnew
        · cases hno
        · exact hsame.relayAttestation sender r ttl
        · exact hsame.send_if _ _ _
        · exact hsame
        · exact absurd rfl hnew
    · rw [if_neg fun h : Accepts env n rd r => hok (inbound_eq_true_iff.mpr h.1)]
      simp only [hok]
      exact (SameBooks.refl n).inbound rd r

theorem sameBooks_receive (n : Node) (env : Env) (rd : Reading) (sender : NodeID) (f : Frame) :
    SameBooks ((NodeOp.receive rd sender f).books env n) (n.onReceive env rd sender f) := by
  have hrefl := SameBooks.refl n
  unfold Node.onReceive Node.receiveFrame NodeOp.books
  by_cases hstop : n.stopped = true
  · simp only [hstop]
    exact hrefl
  · by_cases henc : f.encodes = true
    · simp only [hstop, henc]
      cases f with
      | eager record ttl => exact sameBooks_handleEager n env rd sender record ttl
      | ihave topic nodeID hlc _ key => exact .refl _
      | graft topic nodeID _ key =>
        show SameBooks (n.promoteTreeEdgeBounded env sender)
          (n.handleGraft env sender topic nodeID key)
        unfold Node.handleGraft
        dsimp only
        split
        · exact .refl _
        · split_ifs
          · exact .refl _
          · exact (SameBooks.refl _).send _ _
          · exact (SameBooks.refl _).send _ _
      | prune _ => exact .refl _
      | merkle topic rangeStart rangeEnd rootHash => exact hrefl.handleProbe rd sender _ _ _ _
      | merkleRange topic records truncated => exact hrefl.handleRange rd sender _ _ _
      | keepalive => exact hrefl
      | fetchReq _ _ => exact hrefl
      | fetchResp _ _ _ => exact hrefl
      | empty => exact hrefl
    · simp only [hstop, henc]
      exact hrefl

/-- An operation does to the table and to what is pending what `NodeOp.books` says. -/
theorem sameBooks_exec (env : Env) (n : Node) (op : NodeOp) :
    SameBooks (op.books env n) (op.exec env n) := by
  have hrefl := SameBooks.refl n
  cases op with
  | receive rd sender f => exact sameBooks_receive n env rd sender f
  | publishKeyed rd topic key body =>
    show SameBooks n (n.publishKeyed env rd topic key body).2
    unfold Node.publishKeyed
    split_ifs
    · exact hrefl
    · exact hrefl
    · exact hrefl
    · exact hrefl.publishOwn rd _
  | publishKeyedTombstone rd topic key =>
    show SameBooks n (n.publishKeyedTombstone env rd topic key).2
    unfold Node.publishKeyedTombstone
    split_ifs
    · exact hrefl
    · exact hrefl
    · exact hrefl.publishOwn rd _
  | publishObserverTombstone rd topic target =>
    show SameBooks n (n.publishObserverTombstone env rd topic target).2
    have hstamp : SameBooks n (n.stamp rd) := hrefl.of_eq rfl rfl
    unfold Node.publishObserverTombstone
    split_ifs
    · exact hrefl
    · exact hrefl
    · exact hstamp.applyAndBroadcast rd _
  | setTenant rd tenantID => exact hrefl.setTenant rd tenantID
  | tick rd now => exact (SameBooks.processGrafts n env now).merkleTick rd
  | tickLoop rd =>
    have hticked : SameBooks (n.ageIHaves env rd.wall)
        ((n.processGrafts env rd.wall).merkleTick env rd) :=
      (SameBooks.processGrafts n env rd.wall).merkleTick rd
    show SameBooks _ (n.tickLoop env rd)
    unfold Node.tickLoop
    dsimp only
    split_ifs
    · exact hticked.of_eq rfl rfl
    · exact hticked
  | reap nowMs ttlFor => exact hrefl.of_eq rfl rfl
  | probePeer peer => exact hrefl.probePeer peer
  | join peer => exact .refl _
  | leave peer => exact .refl _
  | setPaused paused => exact hrefl.of_eq rfl rfl
  | stop => exact hrefl.of_eq rfl rfl

end Swarm
