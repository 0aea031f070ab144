import Swarm.Node

/-!
# What the handlers keep

The handlers are made of a few actions. `Pushes env F P` says that the actions around a push keep
`P`, where the frames sent are in `F`, and `Quiet env F P` adds the call of `recordAccepted`; they
give the parts of the handlers that only push and announce. `Calm env V P` has all actions that
leave the store alone, hence every operation without a call on the store (`Calm.exec`).

`Called env V P` adds the calls on the store, for records in `V`, and `Kept env V P` that what the
node signs is in `V`. Then every operation keeps `P`, and so does every run (`Kept.run`). In
`KeptKeyed env K V P` the node signs for keys in `K` only.
-/

namespace Swarm

/-- The actions around a push keep `P`, for frames that `F` allows over the current store. -/
structure Pushes (env : Env) (F : RecordStore → Frame → Prop) (P : Node → Prop) : Prop where
  announce : ∀ s topic node key hlc h, F s (frameIHave topic node key hlc h)
  prune : ∀ s topic, F s (framePrune topic)
  send : ∀ {n : Node} dst {f}, F n.store f → P n → P (n.send dst f)
  promote : ∀ {n : Node} peer, P n → P (n.promoteTreeEdgeBounded env peer)
  best : ∀ {n : Node}, P n → P (n.bestTreeEdges env).2
  enqueue : ∀ {n : Node} peer e maxAge now, P n →
    P (n.setPeers (n.peers.enqueueLazy peer e maxAge now).2)
  consume : ∀ {n : Node} peer cost now, P n → P (n.setPeers (n.peers.consumeTokens peer cost now).2)
  clear : ∀ {n : Node} k, P n → P (n.clearIHave k)

/-- The states agree on the clock, the store and the trace. -/
structure SameCore (n n' : Node) : Prop where
  hlc : n'.hlc = n.hlc
  store : n'.store = n.store
  trace : n'.trace = n.trace

/-- For a property of the clock, the store and the trace only sends are left to check. -/
theorem Pushes.of_core {env : Env} {F : RecordStore → Frame → Prop} {P : Node → Prop}
    (announce : ∀ s topic node key hlc h, F s (frameIHave topic node key hlc h))
    (prune : ∀ s topic, F s (framePrune topic))
    (send : ∀ {n : Node} dst {f}, F n.store f → P n → P (n.send dst f))
    (core : ∀ {n n' : Node}, P n → SameCore n n' → P n') : Pushes env F P where
  announce := announce
  prune := prune
  send := send
  promote peer h := by
    obtain ⟨peers, heq⟩ := Node.promoteTreeEdgeBounded_eq _ env peer
    rw [heq]
    exact core h ⟨rfl, rfl, rfl⟩
  best h := by
    obtain ⟨peers, heq⟩ := Node.bestTreeEdges_eq _ env
    rw [heq]
    exact core h ⟨rfl, rfl, rfl⟩
  enqueue _ _ _ _ h := core h ⟨rfl, rfl, rfl⟩
  consume _ _ _ h := core h ⟨rfl, rfl, rfl⟩
  clear _ h := core h ⟨rfl, rfl, rfl⟩

/-- And so does handing a record to `recordAccepted`. -/
structure Quiet (env : Env) (F : RecordStore → Frame → Prop) (P : Node → Prop) : Prop
    extends Pushes env F P where
  accept : ∀ {n : Node} r, P n → P (n.accept r)

/-! ## Pushing -/

namespace Pushes

variable {env : Env} {F : RecordStore → Frame → Prop} {P : Node → Prop} {n : Node}

theorem sendAll (h : Pushes env F P) {f : Frame} (dsts : List NodeID) (hf : ∀ s, F s f)
    (hn : P n) : P (n.sendAll dsts f) :=
  List.foldlRecOn _ _ hn fun n hn dst _ => h.send dst (hf n.store) hn

theorem eagerPush (h : Pushes env F P) {r : Record} (hr : ∀ s, F s (frameEagerPush r eagerTTL))
    (hn : P n) : P (n.eagerPushToTreeEdges env r) := by
  unfold Node.eagerPushToTreeEdges
  dsimp only
  split_ifs
  · exact hn
  · exact h.sendAll _ hr (h.best hn)

theorem eagerForward (h : Pushes env F P) (except : NodeID) {r : Record} {ttl : UInt32}
    (hr : ∀ s, F s (frameEagerPush r ttl)) (hn : P n) : P (n.eagerForward except r ttl) := by
  unfold Node.eagerForward
  dsimp only
  split_ifs
  · exact hn
  · exact h.sendAll _ hr hn

theorem lazyPushTo (h : Pushes env F P) (rd : Reading) (r : Record) {f : Frame}
    (hf : ∀ s, F s f) (p : NodeID) (hn : P n) : P (Node.lazyPushTo env rd r f n p) := by
  unfold Node.lazyPushTo
  dsimp only
  split_ifs
  · exact h.enqueue _ _ _ _ hn
  · exact h.consume _ _ _ (h.enqueue _ _ _ _ hn)
  · exact h.send _ (hf _) (h.consume _ _ _ (h.enqueue _ _ _ _ hn))

theorem lazyPush (h : Pushes env F P) (rd : Reading) (r : Record) (hn : P n) :
    P (n.lazyPushToNonTreeEdges env rd r) := by
  unfold Node.lazyPushToNonTreeEdges
  dsimp only
  split_ifs
  · exact hn
  · exact hn
  · exact List.foldlRecOn _ _ hn fun _ hn p _ => h.lazyPushTo rd r (fun s => h.announce s ..) p hn

theorem broadcast (h : Pushes env F P) (rd : Reading) {r : Record}
    (hr : ∀ s, F s (frameEagerPush r eagerTTL)) (hn : P n) : P (n.broadcast env rd r) :=
  h.lazyPush rd r (h.eagerPush hr hn)

theorem relayAttestation (h : Pushes env F P) (sender : NodeID) {r : Record} {ttl : UInt32}
    (hr : 1 < ttl → ∀ s, F s (frameEagerPush r (ttl - 1))) (hn : P n) :
    P (n.relayAttestation env sender r ttl) := by
  unfold Node.relayAttestation
  dsimp only
  split_ifs with httl
  · exact hn
  · exact hn
  · exact h.sendAll _ (hr (UInt32.not_le.mp httl)) (h.best hn)

theorem sendPrune (h : Pushes env F P) (dst : NodeID) (topic : Topic) (hn : P n) :
    P (n.sendPrune dst topic) := by
  unfold Node.sendPrune
  split_ifs
  · exact h.send _ (h.prune _ topic) hn
  · exact hn

end Pushes

theorem Quiet.eagerAccepted {env : Env} {F : RecordStore → Frame → Prop} {P : Node → Prop}
    {n : Node} (h : Quiet env F P) (rd : Reading) (sender : NodeID) {r : Record} {ttl : UInt32}
    (hr : 1 < ttl → ∀ s, F s (frameEagerPush r (ttl - 1))) (hn : P n) :
    P (n.eagerAccepted env rd sender r ttl) := by
  have hacc := h.accept r (h.clear { topic := r.topic, nodeID := r.nodeID, key := r.key
                                     hlc := r.hlc } (h.promote sender hn))
  unfold Node.eagerAccepted
  dsimp only
  split_ifs with httl
  · exact h.lazyPush rd r (h.eagerForward sender (hr httl) hacc)
  · exact h.lazyPush rd r hacc

/-! ## Everything but calls on the store -/

/-- The frames a node with the given store may send: pushes of records in `V` or of signed slots,
replies to probes, and frames without records. -/
inductive Sendable (V : Record → Prop) (s : RecordStore) : Frame → Prop where
  | push {r : Record} {ttl : UInt32} : V r → Sendable V s (frameEagerPush r ttl)
  | slot {topic : Topic} {node : NodeID} {key : Bytes} {r : Record} {ttl : UInt32} :
    s.getRawKeyed topic node key = some r → r.sig.length ≠ 0 → Sendable V s (frameEagerPush r ttl)
  | reply {topic : Topic} {rangeStart rangeEnd : Option Bytes} :
    Sendable V s (.merkleRange topic (Node.rangeReply s topic rangeStart rangeEnd).1
      (Node.rangeReply s topic rangeStart rangeEnd).2)
  | plain {f : Frame} : f.records = [] → Sendable V s f

/-- The actions that leave the store alone keep `P`. -/
structure Calm (env : Env) (V : Record → Prop) (P : Node → Prop) : Prop
    extends Pushes env (Sendable V) P where
  demote : ∀ {n : Node} peer, P n → P (n.handlePrune peer)
  join : ∀ {n : Node} peer, P n → P (n.onPeerJoin peer)
  leave : ∀ {n : Node} peer, P n → P (n.onPeerLeave peer)
  track : ∀ {n : Node} rd sender topic node hlc key, P n →
    P (n.handleIHave env rd sender topic node hlc key)
  age : ∀ {n : Node} now, P n → P (n.ageIHaves env now)
  count : ∀ {n : Node} c, P n → P { n with rejections := c }
  markProbe : ∀ {n : Node} rd topic, P n → P (n.markProbe rd topic)
  markReciprocal : ∀ {n : Node} rd peer topic, P n → P (n.markReciprocal rd peer topic)
  markReap : ∀ {n : Node} t, P n → P { n with lastReap := t }
  tenant : ∀ {n : Node} t, P n → P { n with tenant := t }
  pause : ∀ {n : Node} b, P n → P { n with paused := b }
  stop : ∀ {n : Node}, P n → P { n with stopped := true }

/-- For a property of the clock, the store and the trace only sends are left to check. -/
theorem Calm.of_core {env : Env} {V : Record → Prop} {P : Node → Prop}
    (send : ∀ {n : Node} dst {f}, Sendable V n.store f → P n → P (n.send dst f))
    (core : ∀ {n n' : Node}, P n → SameCore n n' → P n') : Calm env V P where
  toPushes := .of_core (fun _ _ _ _ _ _ => .plain rfl) (fun _ _ => .plain rfl) send core
  demote _ h := core h ⟨rfl, rfl, rfl⟩
  join _ h := core h ⟨rfl, rfl, rfl⟩
  leave _ h := core h ⟨rfl, rfl, rfl⟩
  track rd sender topic node hlc key h := by
    obtain ⟨missing, heq⟩ := Node.handleIHave_eq _ env rd sender topic node hlc key
    rw [heq]
    exact core h ⟨rfl, rfl, rfl⟩
  age _ h := core h ⟨rfl, rfl, rfl⟩
  count _ h := core h ⟨rfl, rfl, rfl⟩
  markProbe _ _ h := core h ⟨rfl, rfl, rfl⟩
  markReciprocal _ _ _ h := core h ⟨rfl, rfl, rfl⟩
  markReap _ h := core h ⟨rfl, rfl, rfl⟩
  tenant _ h := core h ⟨rfl, rfl, rfl⟩
  pause _ h := core h ⟨rfl, rfl, rfl⟩
  stop h := core h ⟨rfl, rfl, rfl⟩

/-- What leaves the store alone leaves it as it is. -/
theorem Calm.store (env : Env) (s : RecordStore) : Calm env (fun _ => True) fun m => m.store = s :=
  .of_core (fun _ _ _ h => h) fun h hcore => hcore.store.trans h

/-- The operations that may call the store. -/
def NodeOp.calls : NodeOp → Bool
  | .receive _ _ (.eager _ _) => true
  | .receive _ _ (.merkleRange _ _ _) => true
  | .publishKeyed _ _ _ _ => true
  | .publishKeyedTombstone _ _ _ => true
  | .publishObserverTombstone _ _ _ => true
  | .setTenant _ _ => true
  | .tickLoop _ => true
  | .reap _ _ => true
  | _ => false

namespace Calm

variable {env : Env} {V : Record → Prop} {P : Node → Prop} {n : Node}

theorem inbound_snd (h : Calm env V P) (rd : Reading) (r : Record) (hn : P n) :
    P (n.inbound env rd r).2 := by
  unfold Node.inbound
  split_ifs
  · exact hn
  · exact h.count _ hn

theorem handleGraft (h : Calm env V P) (sender : NodeID) (topic : Topic) (node : NodeID)
    (key : Bytes) (hn : P n) : P (n.handleGraft env sender topic node key) := by
  have hprom := h.promote sender hn
  unfold Node.handleGraft
  dsimp only
  split
  · exact hprom
  · rename_i r hslot
    split_ifs with hsig
    · exact hprom
    · exact h.send _ (.slot hslot hsig) hprom
    · exact h.send _ (.plain rfl) hprom

theorem processGrafts (h : Calm env V P) (now : Time) (hn : P n) : P (n.processGrafts env now) := by
  unfold Node.processGrafts
  refine h.age now (List.foldlRecOn _ _ hn fun n hn e _ => ?_)
  unfold Node.graftDue
  dsimp only
  split_ifs
  · exact h.send _ (.plain rfl) hn
  · exact h.send _ (.plain rfl) hn
  · exact hn

theorem sendProbe (h : Calm env V P) (dst : NodeID) (topic : Topic)
    (rangeStart rangeEnd : Option Bytes) (hn : P n) :
    P (n.sendProbe env dst topic rangeStart rangeEnd) := by
  unfold Node.sendProbe
  dsimp only
  split_ifs
  · exact h.send _ (.plain rfl) hn
  · exact hn

theorem handleProbe (h : Calm env V P) (rd : Reading) (sender : NodeID) (topic : Topic)
    (rangeStart rangeEnd : Option Bytes) (rootHash : Bytes) (hn : P n) :
    P (n.handleProbe env rd sender topic rangeStart rangeEnd rootHash) := by
  unfold Node.handleProbe
  split_ifs
  · exact hn
  · have hrec : P (n.reciprocate env rd sender topic rangeStart rangeEnd) := by
      unfold Node.reciprocate
      split_ifs
      · exact h.sendProbe _ _ _ _ (h.markReciprocal rd sender topic hn)
      · exact hn
    dsimp only
    unfold Node.sendRange
    dsimp only
    split_ifs
    · exact h.send _ .reply hrec
    · exact hrec

theorem merkleTick (h : Calm env V P) (rd : Reading) (hn : P n) : P (n.merkleTick env rd) := by
  unfold Node.merkleTick
  split_ifs
  · exact hn
  · refine List.foldlRecOn _ _ hn fun n hn topic _ => ?_
    unfold Node.probeTopic
    dsimp only
    split_ifs
    · exact hn
    · exact h.markProbe rd topic hn
    · exact h.sendProbe _ _ _ _ (h.markProbe rd topic hn)

theorem probePeer (h : Calm env V P) (peer : NodeID) (hn : P n) : P (n.probePeer env peer) := by
  unfold Node.probePeer Node.merkleProbePeer
  split_ifs
  · exact hn
  · exact hn
  · exact List.foldlRecOn _ _ hn fun _ hn _ _ => h.sendProbe _ _ _ _ hn

theorem ticks (h : Calm env V P) (rd : Reading) (now : Time) (hn : P n) :
    P ((n.processGrafts env now).merkleTick env rd) :=
  h.merkleTick rd (h.processGrafts now hn)

/-- Every operation without a call on the store keeps `P`. -/
theorem exec (h : Calm env V P) {op : NodeOp} (hop : op.calls = false) (hn : P n) :
    P (op.exec env n) := by
  cases op with
  | receive rd sender f =>
    show P (n.onReceive env rd sender f)
    unfold Node.onReceive Node.receiveFrame
    split_ifs
    · exact hn
    · exact hn
    · cases f with
      | eager record ttl => cases hop
      | ihave topic node hlc _ key => exact h.track rd sender topic node hlc key hn
      | graft topic node _ key => exact h.handleGraft sender topic node key hn
      | prune _ => exact h.demote sender hn
      | merkle topic rangeStart rangeEnd rootHash =>
        exact h.handleProbe rd sender topic rangeStart rangeEnd rootHash hn
      | merkleRange topic records truncated => cases hop
      | keepalive => exact hn
      | fetchReq _ _ => exact hn
      | fetchResp _ _ _ => exact hn
      | empty => exact hn
  | publishKeyed => cases hop
  | publishKeyedTombstone => cases hop
  | publishObserverTombstone => cases hop
  | setTenant => cases hop
  | tick rd now => exact h.ticks rd now hn
  | tickLoop => cases hop
  | reap => cases hop
  | probePeer peer => exact h.probePeer peer hn
  | join peer => exact h.join peer hn
  | leave peer => exact h.leave peer hn
  | setPaused paused => exact h.pause paused hn
  | stop => exact h.stop hn

end Calm

/-! ## Calls on the store -/

/-- The actions the handlers are made of keep `P`. What passed the gate is in `V`. -/
structure Called (env : Env) (V : Record → Prop) (P : Node → Prop) : Prop
    extends Calm env V P, Quiet env (Sendable V) P where
  inbound : ∀ rd r, env.gate.letThrough env.cr (Reading.wallMs rd) r = true → V r
  apply : ∀ {n : Node} rd r, V r → P n → P (n.applyExt env rd r).2
  reap : ∀ {n : Node} nowMs ttlFor, P n → P (n.reapExpired nowMs ttlFor)
  clock : ∀ {n : Node} w, P n → P { n with hlc := w }

/-- What the node signs is in `V`. It signs for keys in `K`: those that publishing accepts, and
those of its own slots. -/
structure KeptKeyed (env : Env) (K : Bytes → Prop) (V : Record → Prop) (P : Node → Prop) : Prop
    extends Called env V P where
  fits : ∀ key, key.length ≤ maxKeyBytes → K key
  own : ∀ {n : Node}, P n → ∀ r ∈ Node.ownRecords env n.store, K r.key
  signed : ∀ r : Record, K r.key →
    r.nodeID = env.id ∨ (r.tombstone = true ∧ r.observerNodeID = env.id) →
    V (signRecord env.cr r env.cfg.privKey)

namespace KeptKeyed

variable {env : Env} {K : Bytes → Prop} {V : Record → Prop} {P : Node → Prop} {n : Node}

/-- A record that passed the gate may be applied. -/
theorem applied (h : KeptKeyed env K V P) {rd : Reading} {r : Record}
    (hok : (n.inbound env rd r).1 = true) (hn : P n) :
    V r ∧ P (((n.inbound env rd r).2.observe rd r.hlc).applyExt env rd r).2 :=
  have hr := h.inbound rd r (inbound_eq_true_iff.mp hok)
  ⟨hr, h.apply rd r hr (h.clock _ (h.inbound_snd rd r hn))⟩

theorem handleEager (h : KeptKeyed env K V P) (rd : Reading) (sender : NodeID)
    (record : Option Record) (ttl : UInt32) (hn : P n) :
    P (n.handleEager env rd sender record ttl) := by
  unfold Node.handleEager
  cases record with
  | none => exact hn
  | some r =>
    dsimp only
    split_ifs with hno
    · exact h.inbound_snd rd r hn
    all_goals obtain ⟨hr, happ⟩ := h.applied (by simpa using hno) hn
    · exact h.relayAttestation sender (fun _ _ => .push hr) happ
    · exact h.sendPrune sender _ happ
    · exact happ
    · exact h.eagerAccepted rd sender (fun _ _ => .push hr) happ

theorem receiveRecord (h : KeptKeyed env K V P) (rd : Reading) (r : Record) (hn : P n) :
    P (Node.receiveRecord env rd n r) := by
  unfold Node.receiveRecord
  dsimp only
  split_ifs with hno
  · exact h.inbound_snd rd r hn
  · exact h.accept r (h.applied (by simpa using hno) hn).2
  · exact (h.applied (by simpa using hno) hn).2

theorem handleRange (h : KeptKeyed env K V P) (rd : Reading) (sender : NodeID) (topic : Topic)
    (records : List Record) (truncated : Bool) (hn : P n) :
    P (n.handleRange env rd sender topic records truncated) := by
  have hall : P (records.foldl (Node.receiveRecord env rd) n) :=
    List.foldlRecOn _ _ hn fun _ hn r _ => h.receiveRecord rd r hn
  unfold Node.handleRange
  dsimp only
  split
  · exact hall
  · split_ifs
    · exact h.sendProbe _ _ _ _ hall
    · exact hall

/-! ## Operations -/

theorem plumPublish (h : KeptKeyed env K V P) (rd : Reading) {r : Record} (hr : V r) (hn : P n) :
    P (n.plumPublish env rd r) := by
  have happ := h.apply rd r hr hn
  unfold Node.plumPublish
  dsimp only
  split_ifs
  · exact happ
  · exact h.broadcast rd (fun _ => .push hr) happ

theorem publishOwn (h : KeptKeyed env K V P) (rd : Reading) {r : Record} (hkey : K r.key)
    (hn : P n) : P (n.publishOwn env rd r) :=
  h.accept _ (h.plumPublish rd (h.signed _ hkey (Or.inl rfl)) (h.clock _ hn))

theorem applyAndBroadcast (h : KeptKeyed env K V P) (rd : Reading) {r : Record} (hr : V r)
    (hn : P n) : P (n.applyAndBroadcast env rd r) := by
  have happ := h.apply rd r hr hn
  unfold Node.applyAndBroadcast
  dsimp only
  split_ifs
  · exact h.broadcast rd (fun _ => .push hr) (h.accept r happ)
  · exact h.broadcast rd (fun _ => .push hr) happ

theorem setTenant (h : KeptKeyed env K V P) (rd : Reading) (tenantID : Bytes) (hn : P n) :
    P (n.setTenant env rd tenantID) := by
  unfold Node.setTenant
  split_ifs
  · exact hn
  · exact List.foldlRecOn _ _ (h.tenant tenantID hn) fun _ hn' r hr =>
      h.applyAndBroadcast rd (h.signed _ (h.own hn r hr) (Or.inl rfl)) (h.clock _ hn')

/-- Every operation keeps `P`. -/
theorem exec (h : KeptKeyed env K V P) (op : NodeOp) (hn : P n) : P (op.exec env n) := by
  cases hop : op.calls with
  | false => exact h.toCalm.exec hop hn
  | true =>
    cases op with
    | receive rd sender f =>
      show P (n.onReceive env rd sender f)
      unfold Node.onReceive Node.receiveFrame
      split_ifs
      · exact hn
      · exact hn
      · cases f with
        | eager record ttl => exact h.handleEager rd sender record ttl hn
        | merkleRange topic records truncated =>
          exact h.handleRange rd sender topic records truncated hn
        | _ => cases hop
    | publishKeyed rd topic key body =>
      show P (n.publishKeyed env rd topic key body).2
      unfold Node.publishKeyed
      split_ifs with _ _ hkey
      · exact hn
      · exact hn
      · exact hn
      · exact h.publishOwn rd (h.fits key (not_lt.mp hkey)) hn
    | publishKeyedTombstone rd topic key =>
      show P (n.publishKeyedTombstone env rd topic key).2
      unfold Node.publishKeyedTombstone
      split_ifs with _ hkey
      · exact hn
      · exact hn
      · exact h.publishOwn rd (h.fits key (not_lt.mp hkey)) hn
    | publishObserverTombstone rd topic target =>
      show P (n.publishObserverTombstone env rd topic target).2
      unfold Node.publishObserverTombstone
      split_ifs
      · exact hn
      · exact hn
      · exact h.applyAndBroadcast rd
          (h.signed _ (h.fits [] (Nat.zero_le _)) (Or.inr ⟨rfl, rfl⟩)) (h.clock _ hn)
    | setTenant rd tenantID => exact h.setTenant rd tenantID hn
    | tickLoop rd =>
      show P (n.tickLoop env rd)
      have hticked := h.ticks rd rd.wall hn
      unfold Node.tickLoop
      dsimp only
      split_ifs
      · exact h.reap _ _ (h.markReap _ hticked)
      · exact hticked
    | reap nowMs ttlFor => exact h.reap nowMs ttlFor hn
    | _ => cases hop

/-- Every run keeps `P`. -/
theorem run (h : KeptKeyed env K V P) (ops : List NodeOp) (hn : P n) : P (runNode env n ops) :=
  List.foldlRecOn _ _ hn fun _ hn op _ => h.exec op hn

end KeptKeyed

/-- What the node signs is in `V`, whatever the key. -/
structure Kept (env : Env) (V : Record → Prop) (P : Node → Prop) : Prop
    extends Called env V P where
  signed : ∀ r : Record, r.nodeID = env.id ∨ (r.tombstone = true ∧ r.observerNodeID = env.id) →
    V (signRecord env.cr r env.cfg.privKey)

section Kept

variable {env : Env} {V : Record → Prop} {P : Node → Prop} {n : Node}

theorem Kept.keyed (h : Kept env V P) : KeptKeyed env (fun _ => True) V P where
  toCalled := h.toCalled
  fits _ _ := trivial
  own _ _ _ := trivial
  signed r _ hr := h.signed r hr

theorem Kept.run (h : Kept env V P) (ops : List NodeOp) (hn : P n) : P (runNode env n ops) :=
  h.keyed.run ops hn

end Kept

end Swarm
