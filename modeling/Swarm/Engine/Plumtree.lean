import Swarm.Engine.Basic

/-!
# The Plumtree engine

`plumtrees.go`: eager push along tree edges, lazy announcements to the other peers, graft and
prune, and the relay of attestations that are still below the quorum.
-/

namespace Swarm

namespace Node

/-! ## Tree edges -/

/-- `promoteTreeEdgeBounded`, up to `maxTreeEdges` of four times the degree. -/
def promoteTreeEdgeBounded (n : Node) (env : Env) (peer : NodeID) : Node :=
  if peer ∈ n.peers.treeEdges then n
  else if env.treeDeg * 4 ≤ n.peers.treeEdges.length then n
  else n.setPeers (n.peers.setTreeEdge peer true)

/-- The promotion order: priority class descending, then id. -/
def lessPromotion (peers : PeerTable) (a b : NodeID) : Bool :=
  let pa := (peers.snapshot a).priorityClass
  let pb := (peers.snapshot b).priorityClass
  if pa ≠ pb then decide (pb < pa) else decide (a < b)

/-- `bestTreeEdges`: the peers to push to, promoting others up to the degree. -/
def bestTreeEdges (n : Node) (env : Env) : List NodeID × Node :=
  let cur := n.peers.treeEdges
  if env.treeDeg ≤ cur.length then (cur, n)
  else
    let all := sortSlice (lessPromotion n.peers) n.peers.nonTreeEdges
    let promoted := all.take (env.treeDeg - cur.length)
    (cur ++ promoted, n.setPeers (promoted.foldl (fun pt p => pt.setTreeEdge p true) n.peers))

/-! ## Pushing -/

/-- `eagerPushToTreeEdges`. -/
def eagerPushToTreeEdges (n : Node) (env : Env) (r : Record) : Node :=
  let frame := frameEagerPush r eagerTTL
  if !frame.encodes then n
  else
    let (edges, n) := n.bestTreeEdges env
    n.sendAll edges frame

/-- `eagerForward`. -/
def eagerForward (n : Node) (except : NodeID) (r : Record) (ttl : UInt32) : Node :=
  let frame := frameEagerPush r ttl
  if !frame.encodes then n
  else n.sendAll (n.peers.treeEdges.filter fun e => e != except) frame

/-- How long an announcement to the peer stays queued. -/
def lazyInterval (n : Node) (p : NodeID) : Duration :=
  let interval := (n.peers.snapshot p).adaptiveInterval
  if interval ≤ 0 then second else interval

/-- One peer's turn in `lazyPushToNonTreeEdges`. -/
def lazyPushTo (env : Env) (rd : Reading) (r : Record) (frame : Frame) (n : Node) (p : NodeID) :
    Node :=
  let entry : LazyEntry :=
    { topic := r.topic, nodeID := r.nodeID, hlc := r.hlc, bodyHash := bodyHash env.cr r
      queuedAt := rd.now }
  let (queued, peers) := n.peers.enqueueLazy p entry (n.lazyInterval p) rd.now
  let n := n.setPeers peers
  if !queued then n
  else
    let (granted, peers) := n.peers.consumeTokens p (Int64.ofNat (env.encodedLen frame)) rd.now
    let n := n.setPeers peers
    if !granted then n else n.send p frame

/-- `lazyPushToNonTreeEdges`. -/
def lazyPushToNonTreeEdges (n : Node) (env : Env) (rd : Reading) (r : Record) : Node :=
  if n.paused then n
  else
    let frame := frameIHave r.topic r.nodeID r.key r.hlc (bodyHash env.cr r)
    if !frame.encodes then n
    else n.peers.nonTreeEdges.foldl (lazyPushTo env rd r frame) n

/-- `plumtreesEngine.Publish`. -/
def plumPublish (n : Node) (env : Env) (rd : Reading) (r : Record) : Node :=
  let (res, n) := n.applyExt env rd r
  if !res.applied then n
  else (n.eagerPushToTreeEdges env r).lazyPushToNonTreeEdges env rd r

/-- `Broadcast`. -/
def broadcast (n : Node) (env : Env) (rd : Reading) (r : Record) : Node :=
  (n.eagerPushToTreeEdges env r).lazyPushToNonTreeEdges env rd r

/-- `sendPrune`. -/
def sendPrune (n : Node) (dst : NodeID) (topic : Topic) : Node :=
  if (framePrune topic).encodes then n.send dst (framePrune topic) else n

/-! ## Handlers -/

/-- The inbound gate with its counters: whether the record may proceed. -/
def inbound (n : Node) (env : Env) (rd : Reading) (r : Record) : Bool × Node :=
  if r.pubKey.length ≠ 32 ∨ !verifyRecord env.cr r r.pubKey then (false, n)
  else
    let verdict := env.gate.gateAdmit rd.wallMs r
    (verdict.isNone, { n with rejections := n.rejections.count verdict })

/-- The relay of an attestation that entered the witness set below the quorum. -/
def relayAttestation (n : Node) (env : Env) (sender : NodeID) (r : Record) (ttl : UInt32) : Node :=
  if ttl ≤ 1 then n
  else
    let frame := frameEagerPush r (ttl - 1)
    if !frame.encodes then n
    else
      let (edges, n) := n.bestTreeEdges env
      n.sendAll (edges.filter fun e => e != sender) frame

def clearIHave (n : Node) (k : IHaveKey) : Node :=
  { n with missingIHaves := n.missingIHaves.erase k }

/-- The end of `handleEager` for a record that changed the store. -/
def eagerAccepted (n : Node) (env : Env) (rd : Reading) (sender : NodeID) (r : Record)
    (ttl : UInt32) : Node :=
  let n := n.promoteTreeEdgeBounded env sender
  let n := n.clearIHave { topic := r.topic, nodeID := r.nodeID, key := r.key, hlc := r.hlc }
  let n := n.accept r
  let n := if 1 < ttl then n.eagerForward sender r (ttl - 1) else n
  n.lazyPushToNonTreeEdges env rd r

/-- `handleEager`. -/
def handleEager (n : Node) (env : Env) (rd : Reading) (sender : NodeID) (record : Option Record)
    (ttl : UInt32) : Node :=
  match record with
  | none => n
  | some r =>
    let (ok, n) := n.inbound env rd r
    if !ok then n
    else
      let n := n.observe rd r.hlc
      let (res, n) := n.applyExt env rd r
      if !res.applied && res.accumulated && r.isObserverAttestation then
        n.relayAttestation env sender r ttl
      else if !res.applied && res.replaced then n.sendPrune sender r.topic
      else if !res.applied then n
      else n.eagerAccepted env rd sender r ttl

/-- `handleIHave`. -/
def handleIHave (n : Node) (env : Env) (rd : Reading) (sender : NodeID) (topic : Topic)
    (nodeID : NodeID) (hlc : UInt64) (key : Bytes) : Node :=
  let have_ : Bool :=
    match n.store.getRawKeyed topic nodeID key with
    | some cur => decide (hlc ≤ cur.hlc)
    | none => false
  if have_ then n
  else
    let k : IHaveKey := { topic := topic, nodeID := nodeID, key := key, hlc := hlc }
    match n.missingIHaves.lookup k with
    | some _ => n
    | none =>
      if env.maxIHaves ≤ n.missingIHaves.len then n
      else
        { n with
          missingIHaves := n.missingIHaves.insert k { announcer := sender, seenAt := rd.now } }

/-- `handleGraft`. A record whose strings do not encode is answered with an empty message. -/
def handleGraft (n : Node) (env : Env) (sender : NodeID) (topic : Topic) (nodeID : NodeID)
    (key : Bytes) : Node :=
  let n := n.promoteTreeEdgeBounded env sender
  match n.store.getRawKeyed topic nodeID key with
  | none => n
  | some r =>
    if r.sig.length = 0 then n
    else
      let frame := frameEagerPush r eagerTTL
      n.send sender (if frame.encodes then frame else .empty)

/-- `handlePrune`. -/
def handlePrune (n : Node) (sender : NodeID) : Node :=
  n.setPeers (n.peers.setTreeEdge sender false)

/-- Whether an announcement is dropped by `processGrafts`. -/
def ihaveExpired (now : Time) (e : IHaveEntry) : Bool := decide (ihaveEntryTTL < now.sub e.seenAt)

/-- Whether an announcement is grafted by `processGrafts`. -/
def ihaveDue (env : Env) (now : Time) (e : IHaveEntry) : Bool :=
  !ihaveExpired now e && !e.grafted && !decide (now.sub e.seenAt < env.graftDelay)

/-- One entry's turn in `processGrafts`: a graft is sent when it is due. -/
def graftDue (env : Env) (now : Time) (n : Node) (e : (_ : IHaveKey) × IHaveEntry) : Node :=
  if ihaveDue env now e.2 then
    let frame := frameGraft e.1.topic e.1.nodeID e.1.key e.1.hlc
    n.send e.2.announcer (if frame.encodes then frame else .empty)
  else n

/-- The entries `processGrafts` leaves: expired ones are deleted, grafted ones marked. -/
def ageIHaves (n : Node) (env : Env) (now : Time) : Node :=
  { n with
    missingIHaves := n.missingIHaves.rangeUpdate fun _ e =>
      if ihaveExpired now e then none
      else if ihaveDue env now e then some { e with grafted := true } else some e }

/-- `processGrafts`. -/
def processGrafts (n : Node) (env : Env) (now : Time) : Node :=
  (n.missingIHaves.entries.foldl (graftDue env now) n).ageIHaves env now

/-! ## Actions that leave the store and the trace alone -/

section Frame

variable (n : Node) (env : Env)

theorem promoteTreeEdgeBounded_eq (peer : NodeID) :
    ∃ peers, n.promoteTreeEdgeBounded env peer = n.setPeers peers := by
  unfold promoteTreeEdgeBounded
  split_ifs
  · exact ⟨n.peers, rfl⟩
  · exact ⟨n.peers, rfl⟩
  · exact ⟨_, rfl⟩

theorem bestTreeEdges_eq : ∃ peers, (n.bestTreeEdges env).2 = n.setPeers peers := by
  unfold bestTreeEdges
  dsimp only
  split_ifs
  · exact ⟨n.peers, rfl⟩
  · exact ⟨_, rfl⟩

/-- An announcement is tracked when the store has nothing as new, it is not tracked yet, and there
is room. -/
theorem handleIHave_cases (rd : Reading) (sender : NodeID) (k : IHaveKey) :
    n.handleIHave env rd sender k.topic k.nodeID k.hlc k.key = n ∨
      (∀ cur, n.store.getRawKeyed k.topic k.nodeID k.key = some cur → cur.hlc < k.hlc) ∧
        n.missingIHaves.lookup k = none ∧ n.missingIHaves.len < env.maxIHaves ∧
        n.handleIHave env rd sender k.topic k.nodeID k.hlc k.key =
          { n with
            missingIHaves :=
              n.missingIHaves.insert k { announcer := sender, seenAt := rd.now } } := by
  unfold handleIHave
  dsimp only
  cases hk : n.missingIHaves.lookup k with
  | some e =>
    refine Or.inl ?_
    dsimp only
    split_ifs
    · rfl
    · rfl
  | none =>
    split_ifs with hhave hroom
    · exact Or.inl rfl
    · exact Or.inl rfl
    · refine Or.inr ⟨fun cur hcur => ?_, rfl, not_le.mp hroom, rfl⟩
      rw [hcur] at hhave
      simpa using hhave

theorem handleIHave_eq (rd : Reading) (sender : NodeID) (topic : Topic) (nodeID : NodeID)
    (hlc : UInt64) (key : Bytes) :
    ∃ missing, n.handleIHave env rd sender topic nodeID hlc key =
      { n with missingIHaves := missing } := by
  rcases n.handleIHave_cases env rd sender ⟨topic, nodeID, key, hlc⟩ with heq | ⟨-, -, -, heq⟩
  · exact ⟨n.missingIHaves, heq⟩
  · exact ⟨_, heq⟩

theorem inbound_frame (rd : Reading) (r : Record) :
    (n.inbound env rd r).2.store = n.store ∧ (n.inbound env rd r).2.trace = n.trace ∧
      (n.inbound env rd r).2.stopped = n.stopped := by
  unfold inbound
  split_ifs <;> exact ⟨rfl, rfl, rfl⟩

/-- The call on the store for a record off the wire. -/
theorem applyExt_inbound (rd : Reading) (r : Record) :
    ∃ n' : Node, ((n.inbound env rd r).2.observe rd r.hlc).applyExt env rd r =
        ((Swarm.applyExt env.storeCfg rd.nowMs n.store r).1, n') ∧
      n'.store = (Swarm.applyExt env.storeCfg rd.nowMs n.store r).2 ∧
      n'.trace = n.trace ++
        [.apply rd.nowMs r (Swarm.applyExt env.storeCfg rd.nowMs n.store r).1] ∧
      n'.stopped = n.stopped := by
  obtain ⟨hstore, htrace, hstopped⟩ := n.inbound_frame env rd r
  refine ⟨(((n.inbound env rd r).2.observe rd r.hlc).applyExt env rd r).2, ?_, ?_, ?_, ?_⟩
  all_goals
    unfold Node.applyExt observe
    simp only [hstore, htrace, hstopped]

end Frame

end Node

/-- A record proceeds exactly when it passes the gate. -/
theorem inbound_eq_true_iff {env : Env} {n : Node} {rd : Reading} {r : Record} :
    (n.inbound env rd r).1 = true ↔ env.gate.letThrough env.cr rd.wallMs r = true := by
  unfold Node.inbound
  rw [letThrough_iff]
  split_ifs with hsig
  · refine ⟨fun h => (nomatch h), fun h => ?_⟩
    simp [h.1, h.2.1] at hsig
  · rw [not_or, not_not, Bool.not_eq_true, Bool.not_eq_false'] at hsig
    simp [hsig.1, hsig.2]

end Swarm
