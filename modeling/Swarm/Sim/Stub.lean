import Swarm.Crypto
import Swarm.Sim.Mesh

/-!
# Flooding nodes

`StubNode` is the simulator's reference node: it forwards every payload it has not seen to its peers
and keeps the record with the higher clock in each slot. The hash of a payload is marked as seen
before the payload is decoded, and the sender of a payload is left out when it is forwarded, so a
payload gets everywhere only because who has sent it has seen it and who has seen it has it queued
or in flight for each peer (`Forwards`, `Flooding`).

Only payloads that were published travel, so it is among them that the hash must tell the payload of
a record apart (`Distinct`). Over edges without loss a published record then reaches a node by the
sum, along a path of peers, of the bounds of the edges and one step each. `Run` with a predicate
that waits for it returns without an error within that many steps (`stub_mesh_converges`).
-/

namespace Swarm.Sim

/-! ## The code -/

structure Record where
  topic : Bytes
  nodeID : NodeID
  hlc : UInt64
  body : Bytes
  tombstone : Bool := false

/-- SHA-256 and the JSON codec of records. -/
structure StubEnv where
  sha256 : Bytes → Bytes
  sha256_length : ∀ q, (sha256 q).length = 32
  encodeRecord : Record → Bytes
  decodeRecord : Bytes → Except Bytes Record

structure StubNode where
  id : NodeID
  peers : List NodeID
  records : FMap Bytes (FMap NodeID Record)
  pending : List Frame
  delivered : Finset Bytes

namespace StubNode

def new (id : NodeID) (peers : List NodeID) : StubNode := ⟨id, peers, ∅, [], ∅⟩

/-- `records[topic][node]`. -/
def record (n : StubNode) (topic : Bytes) (node : NodeID) : Option Record :=
  (n.records.lookup topic).bind fun byNode => byNode.lookup node

def setRecord (n : StubNode) (r : Record) : StubNode :=
  let byNode : FMap NodeID Record := (n.records.lookup r.topic).getD ∅
  { n with records := n.records.insert r.topic (byNode.insert r.nodeID r) }

/-- Queue a payload for every peer but those left out. -/
def enqueue (n : StubNode) (skip : NodeID → Bool) (payload : Bytes) : StubNode :=
  { n with pending := n.pending ++
      (n.peers.filter fun peer => !skip peer).map fun peer => ⟨n.id, peer, payload⟩ }

def markDelivered (n : StubNode) (hash : Bytes) : StubNode :=
  { n with delivered := insert hash n.delivered }

def publish (env : StubEnv) (topic : Bytes) (hlc : UInt64) (body : Bytes) (n : StubNode) :
    StubNode :=
  let r : Record := { topic := topic, nodeID := n.id, hlc := hlc, body := body }
  let payload := env.encodeRecord r
  ((n.setRecord r).enqueue (fun peer => peer == n.id) payload).markDelivered (env.sha256 payload)

def step (n : StubNode) : (List Frame × Option Bytes) × StubNode :=
  ((n.pending, none), { n with pending := [] })

/-- Whether a record is stored over what its slot holds. -/
def newer (n : StubNode) (r : Record) : Bool :=
  match n.record r.topic r.nodeID with
  | none => true
  | some existing => decide (existing.hlc < r.hlc)

def putNewer (n : StubNode) (r : Record) : StubNode := if n.newer r = true then n.setRecord r else n

/-- Store a record if it is newer, and forward the payload it came in. -/
def accept (n : StubNode) (r : Record) (f : Frame) : StubNode :=
  (n.putNewer r).enqueue (fun peer => peer == n.id || peer == f.sender) f.body

def receive (env : StubEnv) (f : Frame) (n : StubNode) : Option Bytes × StubNode :=
  if env.sha256 f.body ∈ n.delivered then (none, n)
  else
    match env.decodeRecord f.body with
    | .error err => (some err, n.markDelivered (env.sha256 f.body))
    | .ok r => (none, (n.markDelivered (env.sha256 f.body)).accept r f)

/-- `Records()[topic]`. -/
def recordsOf (n : StubNode) (topic : Bytes) : List Record :=
  ((n.records.lookup topic).map FMap.values).getD []

end StubNode

def stubMethods (env : StubEnv) : NodeMethods StubNode where
  step _ n := n.step
  receive _ f n := n.receive env f

/-! ## One node -/

/-- The payloads of some records. -/
def payloads (env : StubEnv) (ps : List Record) : List Bytes := ps.map env.encodeRecord

/-- The payload of a record decodes to it. Among the records `ps`, no record of another node has
that payload, and no other payload has its hash. -/
structure Distinct (env : StubEnv) (ps : List Record) (r : Record) : Prop where
  decodes : env.decodeRecord (env.encodeRecord r) = .ok r
  owner : ∀ a ∈ ps, env.encodeRecord a = env.encodeRecord r → a.nodeID = r.nodeID
  hash : ∀ q ∈ payloads env ps, env.sha256 q = env.sha256 (env.encodeRecord r) →
    q = env.encodeRecord r

/-- The node has seen the payload of the record. -/
def StubNode.Seen (env : StubEnv) (r : Record) (n : StubNode) : Prop :=
  env.sha256 (env.encodeRecord r) ∈ n.delivered

/-- The slot of the record holds it or a newer one. -/
def StubNode.Stores (r : Record) (n : StubNode) : Prop :=
  ∃ a, n.record r.topic r.nodeID = some a ∧ r.hlc ≤ a.hlc

/-- A node queues payloads of `ps` only. If it has seen the payload of a record, it stores it and
has it queued for every peer for which it is not done with it. -/
structure Forwards (env : StubEnv) (ps : List Record) (r : Record) (done : NodeID → Prop)
    (u : NodeID) (n : StubNode) : Prop where
  id_eq : n.id = u
  keyed : ∀ topic node a, n.record topic node = some a → a.nodeID = node
  queued : ∀ f ∈ n.pending, f.sender = u ∧ f.body ∈ payloads env ps ∧
    (f.body = env.encodeRecord r → n.Seen env r)
  stored : n.Seen env r → u ≠ r.nodeID → n.Stores r
  spread : n.Seen env r → ∀ w ∈ n.peers, w ≠ u →
    done w ∨ ⟨u, w, env.encodeRecord r⟩ ∈ n.pending

section OneNode

variable {env : StubEnv} {ps : List Record} {r a : Record} {n : StubNode} {u : NodeID} {f : Frame}
  {done done' : NodeID → Prop}

theorem record_setRecord (n : StubNode) (a : Record) (topic : Bytes) (node : NodeID) :
    (n.setRecord a).record topic node =
      if topic = a.topic ∧ node = a.nodeID then some a else n.record topic node := by
  unfold StubNode.record StubNode.setRecord
  dsimp only
  rw [FMap.lookup_insert_eq]
  by_cases ht : topic = a.topic
  · rw [if_pos ht, Option.bind_some, FMap.lookup_insert_eq, ht]
    by_cases hnode : node = a.nodeID
    · rw [if_pos hnode, if_pos ⟨rfl, hnode⟩]
    · rw [if_neg hnode, if_neg fun h => hnode h.2]
      cases n.records.lookup a.topic with
      | none => rfl
      | some byNode => rfl
  · rw [if_neg ht, if_neg fun h => ht h.1]

theorem keyed_setRecord (h : ∀ topic node a, n.record topic node = some a → a.nodeID = node)
    (c : Record) :
    ∀ topic node a, (n.setRecord c).record topic node = some a → a.nodeID = node := by
  intro topic node a ha
  rw [record_setRecord] at ha
  split_ifs at ha with hslot
  · rw [← Option.some.inj ha, hslot.2]
  · exact h topic node a ha

theorem mem_enqueue {skip : NodeID → Bool} {payload : Bytes} {g : Frame} :
    g ∈ (n.enqueue skip payload).pending ↔
      g ∈ n.pending ∨ ∃ peer ∈ n.peers, skip peer = false ∧ ⟨n.id, peer, payload⟩ = g := by
  unfold StubNode.enqueue
  rw [List.mem_append, List.mem_map]
  refine or_congr Iff.rfl (exists_congr fun peer => ?_)
  rw [List.mem_filter, Bool.not_eq_true', and_assoc]

theorem seen_mark {q : Bytes} (hd : Distinct env ps r) (hq : q ∈ payloads env ps) :
    (n.markDelivered (env.sha256 q)).Seen env r ↔ q = env.encodeRecord r ∨ n.Seen env r := by
  unfold StubNode.Seen StubNode.markDelivered
  rw [Finset.mem_insert]
  refine or_congr ⟨fun h => hd.hash q hq h.symm, fun h => ?_⟩ Iff.rfl
  rw [h]

/-- Storing a record touches the records only. -/
theorem putNewer_eq (n : StubNode) (a : Record) :
    n.putNewer a = { n with records := (n.putNewer a).records } := by
  unfold StubNode.putNewer
  split_ifs
  · rfl
  · rfl

theorem keyed_putNewer (h : ∀ topic node a, n.record topic node = some a → a.nodeID = node)
    (c : Record) :
    ∀ topic node a, (n.putNewer c).record topic node = some a → a.nodeID = node := by
  unfold StubNode.putNewer
  split_ifs
  · exact keyed_setRecord h c
  · exact h

theorem stores_putNewer (hkeep : n.Stores r) (a : Record) : (n.putNewer a).Stores r := by
  obtain ⟨c, hc, hle⟩ := hkeep
  unfold StubNode.putNewer
  split_ifs with hnew
  · unfold StubNode.Stores
    rw [record_setRecord]
    by_cases hslot : r.topic = a.topic ∧ r.nodeID = a.nodeID
    · rw [if_pos hslot]
      unfold StubNode.newer at hnew
      rw [← hslot.1, ← hslot.2, hc] at hnew
      exact ⟨a, rfl, hle.trans (of_decide_eq_true hnew).le⟩
    · rw [if_neg hslot]
      exact ⟨c, hc, hle⟩
  · exact ⟨c, hc, hle⟩

theorem stores_putNewer_self (n : StubNode) (r : Record) : (n.putNewer r).Stores r := by
  unfold StubNode.putNewer
  split_ifs with hnew
  · exact ⟨r, by rw [record_setRecord, if_pos ⟨rfl, rfl⟩], le_rfl⟩
  · unfold StubNode.newer at hnew
    split at hnew
    · exact absurd rfl hnew
    · rename_i c hc
      exact ⟨c, hc, not_lt.mp fun hlt => hnew (decide_eq_true hlt)⟩

theorem Forwards.mono (h : Forwards env ps r done u n) (hle : ∀ w, done w → done' w) :
    Forwards env ps r done' u n :=
  { h with spread := fun hs w hw hne => (h.spread hs w hw hne).imp_left (hle w) }

/-- A step empties the queue of a node, so it must be done with what was queued. -/
theorem Forwards.emptied (h : Forwards env ps r done u n)
    (hsent : ∀ w, ⟨u, w, env.encodeRecord r⟩ ∈ n.pending → done w) :
    Forwards env ps r done u n.step.2 where
  id_eq := h.id_eq
  keyed := h.keyed
  queued _ hf := absurd hf List.not_mem_nil
  stored := h.stored
  spread hs w hw hne := Or.inl ((h.spread hs w hw hne).elim id (hsent w))

/-- What a node has queued it keeps queued when the payload of another record is marked. -/
theorem Forwards.marked (hd : Distinct env ps r) (h : Forwards env ps r done u n) {q : Bytes}
    (hmem : q ∈ payloads env ps) (hq : q ≠ env.encodeRecord r) :
    Forwards env ps r done u (n.markDelivered (env.sha256 q)) := by
  have hsame : (n.markDelivered (env.sha256 q)).Seen env r ↔ n.Seen env r :=
    (seen_mark hd hmem).trans (or_iff_right hq)
  refine ⟨h.id_eq, h.keyed, fun g hg => ?_, fun hs => h.stored (hsame.mp hs),
    fun hs => h.spread (hsame.mp hs)⟩
  obtain ⟨hsender, hbody, hseen⟩ := h.queued g hg
  exact ⟨hsender, hbody, fun hb => hsame.mpr (hseen hb)⟩

theorem seen_accept (n : StubNode) (a : Record) (f : Frame) :
    (n.accept a f).Seen env r ↔ n.Seen env r := by
  unfold StubNode.accept StubNode.Seen StubNode.enqueue
  rw [putNewer_eq]

theorem id_accept (n : StubNode) (a : Record) (f : Frame) : (n.accept a f).id = n.id := by
  unfold StubNode.accept StubNode.enqueue
  rw [putNewer_eq]

theorem peers_accept (n : StubNode) (a : Record) (f : Frame) :
    (n.accept a f).peers = n.peers := by
  unfold StubNode.accept StubNode.enqueue
  rw [putNewer_eq]

theorem mem_accept {g : Frame} : g ∈ (n.accept a f).pending ↔
    g ∈ n.pending ∨
      ∃ peer ∈ n.peers, peer ≠ n.id ∧ peer ≠ f.sender ∧ ⟨n.id, peer, f.body⟩ = g := by
  unfold StubNode.accept
  rw [mem_enqueue, putNewer_eq]
  refine or_congr Iff.rfl (exists_congr fun peer => and_congr Iff.rfl ?_)
  rw [Bool.or_eq_false_iff, beq_eq_false_iff_ne, beq_eq_false_iff_ne, and_assoc]

/-- Another payload that decodes is forwarded, and nothing of the record gets lost. -/
theorem Forwards.accept_other (h : Forwards env ps r done u n)
    (hmem : f.body ∈ payloads env ps) (hb : f.body ≠ env.encodeRecord r) (a : Record) :
    Forwards env ps r done u (n.accept a f) where
  id_eq := (id_accept n a f).trans h.id_eq
  keyed := keyed_putNewer h.keyed a
  queued g hg := by
    rw [seen_accept]
    rcases mem_accept.mp hg with hold | ⟨peer, -, -, -, rfl⟩
    · exact h.queued g hold
    · exact ⟨h.id_eq, hmem, fun hbody => absurd hbody hb⟩
  stored hs hne := stores_putNewer (h.stored ((seen_accept n a f).mp hs) hne) a
  spread hs w hw hne := by
    rw [peers_accept] at hw
    refine (h.spread ((seen_accept n a f).mp hs) w hw hne).imp_right fun hq => ?_
    exact mem_accept.mpr (.inl hq)

/-- The payload of the record is stored and forwarded to every peer but its sender, who is
done. -/
theorem Forwards.accept_self (hd : Distinct env ps r) (h : Forwards env ps r done u n)
    (hmem : f.body ∈ payloads env ps) (hb : f.body = env.encodeRecord r) (hf : done f.sender) :
    Forwards env ps r done u ((n.markDelivered (env.sha256 f.body)).accept r f) := by
  have hseen : ((n.markDelivered (env.sha256 f.body)).accept r f).Seen env r :=
    (seen_accept _ r f).mpr ((seen_mark hd hmem).mpr (.inl hb))
  have hkeyed := keyed_putNewer (n := n.markDelivered (env.sha256 f.body)) h.keyed r
  refine ⟨(id_accept _ r f).trans h.id_eq, hkeyed, fun g hg => ?_,
    fun _ _ => stores_putNewer_self _ r, fun _ w hw hne => ?_⟩
  · rcases mem_accept.mp hg with hold | ⟨peer, -, -, -, rfl⟩
    · exact ⟨(h.queued g hold).1, (h.queued g hold).2.1, fun _ => hseen⟩
    · exact ⟨h.id_eq, hmem, fun _ => hseen⟩
  · rw [peers_accept] at hw
    by_cases hsender : w = f.sender
    · exact Or.inl (hsender ▸ hf)
    · refine Or.inr (mem_accept.mpr (.inr ⟨w, hw, ?_, hsender, ?_⟩))
      · exact fun heq => hne (heq.trans h.id_eq)
      · rw [← hb, ← h.id_eq]
        rfl

theorem Forwards.receive (hd : Distinct env ps r) (h : Forwards env ps r done u n)
    (hmem : f.body ∈ payloads env ps) (hf : f.body = env.encodeRecord r → done f.sender) :
    Forwards env ps r done u (n.receive env f).2 := by
  unfold StubNode.receive
  split_ifs with hseen
  · exact h
  by_cases hb : f.body = env.encodeRecord r
  · rw [hb, hd.decodes, ← hb]
    exact h.accept_self hd hmem hb (hf hb)
  · split
    · exact h.marked hd hmem hb
    · exact (h.marked hd hmem hb).accept_other hmem hb _

theorem Forwards.publish (hd : Distinct env ps r) (h : Forwards env ps r done u n) {topic : Bytes}
    {hlc : UInt64} {body : Bytes} (hp : ⟨topic, u, hlc, body, false⟩ ∈ ps) :
    Forwards env ps r done u (n.publish env topic hlc body) := by
  rw [← h.id_eq] at hp
  generalize ha : ({ topic := topic, nodeID := n.id, hlc := hlc, body := body } : Record) = a at hp
  have hmem : env.encodeRecord a ∈ payloads env ps := List.mem_map_of_mem hp
  have hown : a.nodeID = u := by
    rw [← ha]
    exact h.id_eq
  have heq : n.publish env topic hlc body =
      ((n.setRecord a).enqueue (fun peer => peer == n.id) (env.encodeRecord a)).markDelivered
        (env.sha256 (env.encodeRecord a)) := by
    rw [← ha]
    rfl
  rw [heq]
  refine ⟨h.id_eq, keyed_setRecord h.keyed a, fun g hg => ?_, fun hs hne => ?_,
    fun hs w hw hne => ?_⟩
  · rw [seen_mark hd hmem]
    rcases mem_enqueue.mp hg with hold | ⟨peer, -, -, rfl⟩
    · obtain ⟨hsender, hbody, hseen⟩ := h.queued g hold
      exact ⟨hsender, hbody, fun hb => .inr (hseen hb)⟩
    · exact ⟨h.id_eq, hmem, fun hb => .inl hb⟩
  · -- the slot of another node is not touched
    have hold : n.Seen env r := by
      refine ((seen_mark hd hmem).mp hs).resolve_left fun hsame => hne ?_
      exact hown.symm.trans (hd.owner a hp hsame)
    obtain ⟨c, hc, hle⟩ := h.stored hold hne
    refine ⟨c, ?_, hle⟩
    show (n.setRecord a).record r.topic r.nodeID = some c
    rw [record_setRecord, if_neg fun hslot => hne (hown.symm.trans hslot.2.symm)]
    exact hc
  · rcases (seen_mark hd hmem).mp hs with hsame | hold
    · refine Or.inr (mem_enqueue.mpr (.inr ⟨w, hw, ?_, ?_⟩))
      · exact beq_eq_false_iff_ne.mpr fun heq => hne (heq.trans h.id_eq)
      · rw [← hsame, ← h.id_eq]
        rfl
    · exact (h.spread hold w hw hne).imp_right fun hq => mem_enqueue.mpr (.inl hq)

theorem seen_receive (h : n.Seen env r) (f : Frame) : (n.receive env f).2.Seen env r := by
  unfold StubNode.receive
  split_ifs
  · exact h
  · split
    · exact Finset.mem_insert_of_mem h
    · rw [seen_accept]
      exact Finset.mem_insert_of_mem h

theorem seen_receive_self (n : StubNode) (h : f.body = env.encodeRecord r) :
    (n.receive env f).2.Seen env r := by
  unfold StubNode.receive
  split_ifs with hseen
  · rwa [h] at hseen
  · split
    · exact Finset.mem_insert.mpr (.inl (by rw [h]))
    · rw [seen_accept]
      exact Finset.mem_insert.mpr (.inl (by rw [h]))

theorem peers_receive (n : StubNode) (f : Frame) : (n.receive env f).2.peers = n.peers := by
  unfold StubNode.receive
  split_ifs
  · rfl
  · split
    · rfl
    · exact peers_accept _ _ f

/-! ### A step of one node -/

theorem Forwards.receiveAll (hd : Distinct env ps r) {now : Int64} {fs : List PendingFrame}
    (hfs : ∀ p ∈ fs, p.frame.body ∈ payloads env ps ∧
      (p.frame.body = env.encodeRecord r → done p.frame.sender))
    (h : Forwards env ps r done u n) :
    Forwards env ps r done u (receiveAll (stubMethods env) now fs n) := by
  induction fs generalizing n with
  | nil => exact h
  | cons p fs ih =>
    obtain ⟨hp, hfs⟩ := List.forall_mem_cons.mp hfs
    exact ih hfs (h.receive hd hp.1 hp.2)

theorem seen_receiveAll {now : Int64} (fs : List PendingFrame) (h : n.Seen env r) :
    (receiveAll (stubMethods env) now fs n).Seen env r := by
  induction fs generalizing n with
  | nil => exact h
  | cons p fs ih => exact ih (seen_receive h p.frame)

theorem seen_receiveAll_self {now : Int64} {fs : List PendingFrame} {p : PendingFrame} (hp : p ∈ fs)
    (h : p.frame.body = env.encodeRecord r) (n : StubNode) :
    (receiveAll (stubMethods env) now fs n).Seen env r := by
  induction fs generalizing n with
  | nil => exact absurd hp List.not_mem_nil
  | cons q fs ih =>
    rcases List.mem_cons.mp hp with rfl | hp
    · exact seen_receiveAll fs (seen_receive_self n h)
    · exact ih hp _

theorem peers_receiveAll {now : Int64} (fs : List PendingFrame) (n : StubNode) :
    (receiveAll (stubMethods env) now fs n).peers = n.peers := by
  induction fs generalizing n with
  | nil => rfl
  | cons p fs ih => exact (ih _).trans (peers_receive n p.frame)

end OneNode

/-! ## The mesh -/

section Flood

variable {G : Type} {R : Rng G} {env : StubEnv} {ps : List Record} {r : Record}
  {m m' : Mesh StubNode G} {u w : NodeID}

/-- A node of the mesh has seen the payload of the record. -/
def Mesh.Seen (env : StubEnv) (r : Record) (m : Mesh StubNode G) (u : NodeID) : Prop :=
  ∃ n, m.nodes.lookup u = some n ∧ n.Seen env r

/-- One node is done with another one: that one has seen the payload, or it is on its way there
and in time. -/
def Mesh.Done (env : StubEnv) (r : Record) (m : Mesh StubNode G) (u w : NodeID) : Prop :=
  ∀ e, m.edge u w = some e → e.lossPct ≤ 0 → (∃ n, m.nodes.lookup w = some n) →
    m.Seen env r w ∨
      ∃ p ∈ m.pendingFrames, p.frame = ⟨u, w, env.encodeRecord r⟩ ∧
        p.deliveryAt.toInt ≤ m.now.toInt + e.bound

/-- Payloads of `ps` travel, who has seen that of the record has passed it on, and who sent it has
seen it. -/
structure Flooding (env : StubEnv) (ps : List Record) (r : Record) (m : Mesh StubNode G) :
    Prop where
  timely : Timely m
  nodes : ∀ u n, m.nodes.lookup u = some n → Forwards env ps r (m.Done env r u) u n
  flying : ∀ p ∈ m.pendingFrames, p.frame.body ∈ payloads env ps ∧
    (p.frame.body = env.encodeRecord r → m.Seen env r p.frame.sender)

/-- Two nodes of the mesh are linked: the second is a peer of the first, over an edge without
loss. -/
def Mesh.Linked (m : Mesh StubNode G) (u w : NodeID) (e : Edge) : Prop :=
  (∃ n, m.nodes.lookup u = some n ∧ w ∈ n.peers) ∧ w ≠ u ∧ (∃ n, m.nodes.lookup w = some n) ∧
    m.edge u w = some e ∧ e.lossPct ≤ 0

/-! ### A step of the mesh -/

theorem Seen.step (hs : Stepped (stubMethods env) R m m') (h : m.Seen env r u) :
    m'.Seen env r u := by
  obtain ⟨n, hn, hseen⟩ := h
  refine ⟨_, by rw [hs.nodes, hn]; rfl, ?_⟩
  exact seen_receiveAll _ hseen

/-- A frame with the payload that arrives at a node shows it the payload. -/
theorem seen_of_arrival (hs : Stepped (stubMethods env) R m m') {p : PendingFrame}
    (hp : p ∈ m.arrivals (stubMethods env) R) (hframe : p.frame = ⟨u, w, env.encodeRecord r⟩)
    (hw : ∃ n, m.nodes.lookup w = some n) : m'.Seen env r w := by
  obtain ⟨n, hn⟩ := hw
  refine ⟨_, by rw [hs.nodes, hn]; rfl, ?_⟩
  have hmem : p ∈ framesFor w (m.arrivals (stubMethods env) R) :=
    List.mem_filter.mpr ⟨hp, beq_iff_eq.mpr (by rw [hframe])⟩
  exact seen_receiveAll_self hmem (by rw [hframe]) _

theorem Stepped.known_iff (hs : Stepped (stubMethods env) R m m') :
    (∃ n, m'.nodes.lookup w = some n) ↔ ∃ n, m.nodes.lookup w = some n := by
  rw [hs.nodes]
  cases m.nodes.lookup w with
  | none => exact Iff.rfl
  | some n => exact ⟨fun _ => ⟨n, rfl⟩, fun _ => ⟨_, rfl⟩⟩

/-- What is on its way arrives or stays in time. -/
theorem Done.step (hs : Stepped (stubMethods env) R m m') (ht : Timely m)
    (hsucc : (m.now + 1).toInt = m.now.toInt + 1) (h : m.Done env r u w) : m'.Done env r u w := by
  intro e he hloss hw
  rw [edge_congr hs.edges] at he
  rw [hs.known_iff] at hw
  rcases h e he hloss hw with hseen | ⟨p, hp, hframe, hbound⟩
  · exact Or.inl (Seen.step hs hseen)
  · rcases hs.arrives_or_stays ht hsucc hp with harr | hstay
    · exact Or.inl (seen_of_arrival hs harr hframe hw)
    · refine Or.inr ⟨p, hstay, hframe, ?_⟩
      rw [hs.clock, hsucc]
      omega

/-- What a node has queued it is done with after a step. -/
theorem done_of_queued (hs : Stepped (stubMethods env) R m m') {n : StubNode}
    (hn : m.nodes.lookup u = some n) (hq : ⟨u, w, env.encodeRecord r⟩ ∈ n.pending) :
    m'.Done env r u w := by
  intro e he hloss _
  rw [edge_congr hs.edges] at he
  obtain ⟨p, hp, hframe, hbound⟩ := hs.keeps (mem_outs.mpr ⟨u, n, hn, hq⟩) he hloss
  refine Or.inr ⟨p, hp, hframe, ?_⟩
  rw [hs.clock]
  exact hbound

theorem Flooding.step (hd : Distinct env ps r) (h : Flooding env ps r m)
    (hs : Stepped (stubMethods env) R m m') (hsucc : (m.now + 1).toInt = m.now.toInt + 1) :
    Flooding env ps r m' where
  timely := hs.timely
  nodes u n' hn' := by
    rw [hs.nodes] at hn'
    obtain ⟨n, hn, rfl⟩ := Option.map_eq_some_iff.mp hn'
    have hnow := (h.nodes u n hn).mono fun w hw => Done.step hs h.timely hsucc hw
    refine (hnow.emptied fun w hw => done_of_queued hs hn hw).receiveAll hd fun p hp => ?_
    obtain ⟨hbody, hsent⟩ := h.flying p (hs.arrival_mem (List.mem_filter.mp hp).1)
    -- the sender has seen what it sent
    exact ⟨hbody, fun hb _ _ _ _ => Or.inl (Seen.step hs (hsent hb))⟩
  flying p hp := by
    rcases hs.stays hp with hold | hnew
    · exact ⟨(h.flying p hold).1, fun hb => Seen.step hs ((h.flying p hold).2 hb)⟩
    · obtain ⟨v, n, hn, hf⟩ := mem_outs.mp hnew
      obtain ⟨hsender, hbody, hseen⟩ := (h.nodes v n hn).queued p.frame hf
      rw [hsender]
      exact ⟨hbody, fun hb => Seen.step hs ⟨n, hn, hseen hb⟩⟩

/-! ### Publishing -/

/-- What a call at one node does to a mesh. -/
structure Called (id : NodeID) (method : StubNode → StubNode) (m m' : Mesh StubNode G) : Prop where
  flight : m'.pendingFrames = m.pendingFrames
  clock : m'.now = m.now
  edges : m'.edges = m.edges
  nodes : ∀ w, m'.nodes.lookup w =
    if w = id then (m.nodes.lookup w).map method else m.nodes.lookup w

variable (R env) in
theorem exec_call (id : NodeID) (method : StubNode → StubNode) (m : Mesh StubNode G) :
    ∃ m', MeshOp.exec (stubMethods env) R m (.call id method) = some m' ∧
      Called id method m m' := by
  unfold MeshOp.exec
  dsimp only
  cases hn : m.nodes.lookup id with
  | none =>
    refine ⟨m, rfl, rfl, rfl, rfl, fun w => ?_⟩
    split_ifs with hw
    · rw [hw, hn]
      rfl
    · rfl
  | some n =>
    refine ⟨_, rfl, rfl, rfl, rfl, fun w => ?_⟩
    dsimp only
    rw [FMap.lookup_insert_eq]
    split_ifs with hw
    · rw [hw, hn]
      rfl
    · rfl

section Publish

variable {id : NodeID} {topic : Bytes} {hlc : UInt64} {body : Bytes}

theorem seen_publish {n : StubNode} (h : n.Seen env r) (topic : Bytes) (hlc : UInt64)
    (body : Bytes) : (n.publish env topic hlc body).Seen env r :=
  Finset.mem_insert_of_mem h

theorem Seen.publish (hc : Called id (StubNode.publish env topic hlc body) m m')
    (h : m.Seen env r u) : m'.Seen env r u := by
  obtain ⟨n, hn, hs⟩ := h
  by_cases hu : u = id
  · exact ⟨_, by rw [hc.nodes, if_pos hu, hn]; rfl, seen_publish hs topic hlc body⟩
  · exact ⟨n, by rw [hc.nodes, if_neg hu, hn], hs⟩

theorem Called.known_iff {method : StubNode → StubNode} (hc : Called id method m m') :
    (∃ n, m'.nodes.lookup w = some n) ↔ ∃ n, m.nodes.lookup w = some n := by
  rw [hc.nodes]
  cases m.nodes.lookup w with
  | none => simp
  | some n =>
    split_ifs
    · exact ⟨fun _ => ⟨n, rfl⟩, fun _ => ⟨_, rfl⟩⟩
    · exact Iff.rfl

theorem Flooding.publish (hd : Distinct env ps r) (h : Flooding env ps r m)
    (hc : Called id (StubNode.publish env topic hlc body) m m')
    (hp : ⟨topic, id, hlc, body, false⟩ ∈ ps) : Flooding env ps r m' := by
  have hdone : ∀ v w, m.Done env r v w → m'.Done env r v w := by
    intro v w hvw e he hloss hw
    rw [edge_congr hc.edges] at he
    rw [hc.flight, hc.clock]
    exact (hvw e he hloss (hc.known_iff.mp hw)).imp_left (Seen.publish hc)
  refine ⟨⟨hc.flight ▸ h.timely.heap, fun p hp => ?_⟩, fun v n hn => ?_, fun p hp => ?_⟩
  · rw [hc.clock]
    exact h.timely.later p (hc.flight ▸ hp)
  · rw [hc.nodes] at hn
    split_ifs at hn with hv
    · obtain ⟨n', hn', rfl⟩ := Option.map_eq_some_iff.mp hn
      exact ((h.nodes v n' hn').mono (hdone v)).publish hd (hv ▸ hp)
    · exact (h.nodes v n hn).mono (hdone v)
  · rw [hc.flight] at hp
    exact ⟨(h.flying p hp).1, fun hb => Seen.publish hc ((h.flying p hp).2 hb)⟩

end Publish

/-! ### Runs -/

/-- What the harness does once the mesh is set up: it steps, and calls `Publish` for records of
`ps`. -/
inductive StubCall (env : StubEnv) (ps : List Record) : MeshOp StubNode → Prop where
  | step : StubCall env ps .step
  | publish {id : NodeID} {topic : Bytes} {hlc : UInt64} {body : Bytes}
    (h : ⟨topic, id, hlc, body, false⟩ ∈ ps) :
    StubCall env ps (.call id (StubNode.publish env topic hlc body))

/-- What a run keeps: who has seen the payload, who is linked, and that the payload spreads. -/
structure Advances (env : StubEnv) (ps : List Record) (r : Record) (T : ℤ) (ticks : ℕ)
    (m m' : Mesh StubNode G) : Prop where
  flooding : Flooding env ps r m'
  timed : m'.Timed T
  clock : m'.now.toInt = m.now.toInt + ticks
  seen : ∀ u, m.Seen env r u → m'.Seen env r u
  linked : ∀ u w e, m.Linked u w e → m'.Linked u w e
  known : ∀ w, (∃ n, m.nodes.lookup w = some n) → ∃ n, m'.nodes.lookup w = some n

theorem Linked.step (hs : Stepped (stubMethods env) R m m') {e : Edge} (h : m.Linked u w e) :
    m'.Linked u w e := by
  obtain ⟨⟨n, hn, hpeer⟩, hne, hw, he, hloss⟩ := h
  have hstep := hs.nodes u
  rw [hn] at hstep
  refine ⟨⟨_, hstep, ?_⟩, hne, hs.known_iff.mpr hw, (edge_congr hs.edges u w).trans he, hloss⟩
  rw [peers_receiveAll]
  exact hpeer

theorem Linked.publish {id : NodeID} {topic : Bytes} {hlc : UInt64} {body : Bytes}
    (hc : Called id (StubNode.publish env topic hlc body) m m') {e : Edge} (h : m.Linked u w e) :
    m'.Linked u w e := by
  obtain ⟨⟨n, hn, hpeer⟩, hne, hw, he, hloss⟩ := h
  refine ⟨?_, hne, hc.known_iff.mpr hw, (edge_congr hc.edges u w).trans he, hloss⟩
  rw [hc.nodes, hn]
  split_ifs
  · exact ⟨_, rfl, hpeer⟩
  · exact ⟨n, rfl, hpeer⟩

section Run

variable {T : ℤ} {op : MeshOp StubNode} {ops : List (MeshOp StubNode)}

theorem Flooding.exec (hd : Distinct env ps r) (h : Flooding env ps r m) (hm : m.Timed T)
    (hop : StubCall env ps op) (hT : m.now.toInt + op.ticks ≤ T) :
    ∃ m', op.exec (stubMethods env) R m = some m' ∧ Advances env ps r T op.ticks m m' := by
  cases hop with
  | step =>
    have hsucc := hm.toInt_succ hT
    obtain ⟨q, hq, hs⟩ := h.timely.step (b := stubMethods env) (R := R) hm hT
    have hclock := hm.clock
    refine ⟨q.2, by rw [MeshOp.exec, hq]; rfl, h.step hd hs hsucc, ⟨hm.limit, ?_, ?_⟩, ?_,
      fun u => Seen.step hs, fun u w e => Linked.step hs, fun w => hs.known_iff.mpr⟩
    · rw [hs.clock, hsucc]
      omega
    · exact fun a c e he => hm.edges a c e ((edge_congr hs.edges a c).symm.trans he)
    · rw [hs.clock, hsucc]
      rfl
  | @publish id topic hlc body hp =>
    obtain ⟨m', hexec, hc⟩ := exec_call R env id
      (StubNode.publish env topic hlc body) m
    refine ⟨m', hexec, h.publish hd hc hp, hm.congr hc.edges hc.clock, ?_,
      fun u => Seen.publish hc, fun u w e => Linked.publish hc, fun w => hc.known_iff.mpr⟩
    rw [hc.clock]
    exact (add_zero _).symm

theorem Advances.trans {m'' : Mesh StubNode G} {j k : ℕ} (h : Advances env ps r T j m m')
    (h' : Advances env ps r T k m' m'') : Advances env ps r T (j + k) m m'' := by
  refine ⟨h'.flooding, h'.timed, ?_, fun u hu => h'.seen u (h.seen u hu),
    fun u w e hl => h'.linked u w e (h.linked u w e hl), fun w hw => h'.known w (h.known w hw)⟩
  rw [h'.clock, h.clock]
  push_cast
  omega

theorem Flooding.run (hd : Distinct env ps r) (h : Flooding env ps r m) (hm : m.Timed T)
    (hops : ∀ op ∈ ops, StubCall env ps op) (hT : m.now.toInt + steps ops ≤ T) :
    ∃ m', runMesh (stubMethods env) R m ops = some m' ∧ Advances env ps r T (steps ops) m m' := by
  induction ops generalizing m with
  | nil =>
    exact ⟨m, rfl, h, hm, (add_zero _).symm, fun _ => id, fun _ _ _ => id, fun _ => id⟩
  | cons op ops ih =>
    obtain ⟨hop, hops⟩ := List.forall_mem_cons.mp hops
    rw [steps_cons] at hT ⊢
    push_cast at hT
    obtain ⟨m₁, hexec, hadv⟩ := h.exec (R := R) hd hm hop (by omega)
    have hclock := hadv.clock
    obtain ⟨m', hrun, hadv'⟩ := ih hadv.flooding hadv.timed hops (by omega)
    exact ⟨m', by rw [runMesh_cons, hexec]; exact hrun, hadv.trans hadv'⟩

theorem StubCall.fits (h : StubCall env ps op) : op.Fits T := by
  cases h with
  | step => trivial
  | publish => trivial

/-- What is on its way over a link gets there in as many steps as the bound of the edge. -/
theorem Flooding.seen_of_done (hd : Distinct env ps r) (h : Flooding env ps r m) (hm : m.Timed T)
    {e : Edge} (hl : m.Linked u w e) (hdone : m.Done env r u w)
    (hops : ∀ op ∈ ops, StubCall env ps op) (hT : m.now.toInt + steps ops ≤ T)
    (hsteps : e.bound ≤ steps ops) (hrun : runMesh (stubMethods env) R m ops = some m') :
    m'.Seen env r w := by
  obtain ⟨-, -, hw, he, hloss⟩ := hl
  rcases hdone e he hloss hw with hs | ⟨p, hp, hframe, hbound⟩
  · obtain ⟨m₁, hrun', hadv⟩ := h.run (R := R) hd hm hops hT
    cases hrun.symm.trans hrun'
    exact hadv.seen w hs
  · obtain ⟨front, back, m₁, rfl, hfront, harr⟩ := h.timely.arrives (b := stubMethods env) (R := R)
      hm (fun op hop => (hops op hop).fits) hT hp (by omega)
    obtain ⟨hcalls, hrest⟩ := List.forall_mem_append.mp hops
    obtain ⟨-, hback⟩ := List.forall_mem_cons.mp hrest
    rw [steps_append, steps_cons] at hT
    have hone : ((MeshOp.step : MeshOp StubNode).ticks : ℤ) = 1 := rfl
    push_cast at hT
    -- the run up to the step, the step, and the rest
    obtain ⟨m₂, hfront', hadv⟩ := h.run (R := R) hd hm hcalls (by omega)
    cases hfront.symm.trans hfront'
    have hclock := hadv.clock
    obtain ⟨q, hstep, hs⟩ := hadv.flooding.timely.step (b := stubMethods env) (R := R) hadv.timed
      (by omega)
    have hexec : MeshOp.exec (stubMethods env) R m₁ .step = some q.2 := by
      rw [MeshOp.exec, hstep]
      rfl
    obtain ⟨m₂, hexec', hadv₂⟩ := hadv.flooding.exec (R := R) hd hadv.timed .step (by omega)
    cases hexec.symm.trans hexec'
    have hclock₂ := hadv₂.clock
    obtain ⟨m₃, hrest, hadv₃⟩ := hadv₂.flooding.run (R := R) hd hadv₂.timed hback (by omega)
    rw [runMesh_append, hfront, Option.bind_some, runMesh_cons, hexec, Option.bind_some] at hrun
    cases hrun.symm.trans hrest
    exact hadv₃.seen w (seen_of_arrival hs harr hframe (hadv.known w hw))

/-- A payload crosses a link within the bound of its edge and one step. -/
theorem Flooding.seen_of_linked (hd : Distinct env ps r) (h : Flooding env ps r m)
    (hm : m.Timed T) {e : Edge} (hl : m.Linked u w e) (hs : m.Seen env r u)
    (hops : ∀ op ∈ ops, StubCall env ps op) (hT : m.now.toInt + steps ops ≤ T)
    (hsteps : e.bound + 1 ≤ steps ops) (hrun : runMesh (stubMethods env) R m ops = some m') :
    m'.Seen env r w := by
  induction ops generalizing m with
  | nil =>
    have hpos := e.one_le_bound
    have hzero : ((steps ([] : List (MeshOp StubNode)) : ℕ) : ℤ) = 0 := rfl
    omega
  | cons op ops ih =>
    obtain ⟨hop, hrest⟩ := List.forall_mem_cons.mp hops
    rw [steps_cons] at hT hsteps
    push_cast at hT hsteps
    obtain ⟨m₁, hexec, hadv⟩ := h.exec (R := R) hd hm hop (by omega)
    have hclock := hadv.clock
    rw [runMesh_cons, hexec, Option.bind_some] at hrun
    cases hop with
    | @publish id topic hlc body hp =>
      have hzero : ((MeshOp.call id (StubNode.publish env topic hlc body)).ticks : ℤ) = 0 := rfl
      exact ih hadv.flooding hadv.timed (hadv.linked u w e hl) (hadv.seen u hs) hrest (by omega)
        (by omega) hrun
    | step =>
      have hone : ((MeshOp.step : MeshOp StubNode).ticks : ℤ) = 1 := rfl
      -- the first step takes the payload out of the queue
      have hdone : m₁.Done env r u w := by
        have hnext : m.now.toInt + 1 ≤ T := by omega
        obtain ⟨q, hstep, hstepped⟩ := h.timely.step (b := stubMethods env) (R := R) hm hnext
        rw [MeshOp.exec, hstep] at hexec
        cases hexec
        obtain ⟨⟨n, hn, hpeer⟩, hne, -⟩ := hl
        obtain ⟨n', hn', hseen⟩ := hs
        cases hn.symm.trans hn'
        rcases (h.nodes u n hn).spread hseen w hpeer hne with hdone | hq
        · exact Done.step hstepped h.timely (hm.toInt_succ hnext) hdone
        · exact done_of_queued hstepped hn hq
      exact hadv.flooding.seen_of_done hd hadv.timed (hadv.linked u w e hl) hdone hrest (by omega)
        (by omega) hrun

/-- The nodes a payload gets to from `v`, with the number of steps that is enough. -/
inductive Within (m : Mesh StubNode G) (v : NodeID) : NodeID → ℕ → Prop where
  | start : Within m v v 0
  | hop {u w : NodeID} {t : ℕ} {e : Edge} (hu : Within m v u t) (hl : m.Linked u w e) :
    Within m v w (t + (e.bound.toNat + 1))

theorem Within.mono {v : NodeID} {t : ℕ} (hle : ∀ u w e, m.Linked u w e → m'.Linked u w e)
    (h : Within m v u t) : Within m' v u t := by
  induction h with
  | start => exact .start
  | hop _ hl ih => exact .hop ih (hle _ _ _ hl)

/-- The first steps of a run. -/
theorem exists_split {k : ℕ} (h : k ≤ steps ops) :
    ∃ front back, ops = front ++ back ∧ steps front = k := by
  induction ops generalizing k with
  | nil => exact ⟨[], [], rfl, (Nat.le_zero.mp h).symm⟩
  | cons op ops ih =>
    by_cases hk : k = 0
    · exact ⟨[], op :: ops, rfl, hk.symm⟩
    · have hticks := op.ticks_le_one
      rw [steps_cons] at h
      obtain ⟨front, back, rfl, hfront⟩ := ih (k := k - op.ticks) (by omega)
      refine ⟨op :: front, back, rfl, ?_⟩
      rw [steps_cons, hfront]
      omega

theorem Flooding.seen_within (hd : Distinct env ps r) (h : Flooding env ps r m) (hm : m.Timed T)
    {v : NodeID} (hv : m.Seen env r v) {t : ℕ} (hw : Within m v u t)
    (hops : ∀ op ∈ ops, StubCall env ps op) (hT : m.now.toInt + steps ops ≤ T)
    (hsteps : t ≤ steps ops) (hrun : runMesh (stubMethods env) R m ops = some m') :
    m'.Seen env r u := by
  induction hw generalizing ops m' with
  | start =>
    obtain ⟨m₁, hrun', hadv⟩ := h.run (R := R) hd hm hops hT
    cases hrun.symm.trans hrun'
    exact hadv.seen v hv
  | @hop u w t e _ hl ih =>
    have hle : t ≤ steps ops := by omega
    obtain ⟨front, back, rfl, hfront⟩ := exists_split hle
    obtain ⟨hcalls, hback⟩ := List.forall_mem_append.mp hops
    rw [steps_append] at hT hsteps
    push_cast at hT
    obtain ⟨m₁, hrun₁, hadv⟩ := h.run (R := R) hd hm hcalls (by omega)
    have hclock := hadv.clock
    rw [runMesh_append, hrun₁, Option.bind_some] at hrun
    refine hadv.flooding.seen_of_linked hd hadv.timed (hadv.linked u w e hl)
      (ih hcalls (by omega) hfront.ge hrun₁) hback (by omega) ?_ hrun
    omega

end Run

/-! ### Setting up -/

/-- Fresh nodes with their peers, and edges. -/
def layout (nodes : List (NodeID × List NodeID)) (edges : List Edge) (g : G) : Mesh StubNode G :=
  edges.foldl Mesh.addEdge
    (nodes.foldl (fun m p => m.addNode p.1 (StubNode.new p.1 p.2)) (newMesh g))

/-- Nothing has been sent yet, all nodes are fresh, and the edges are the given ones. -/
structure Fresh (edges : List Edge) (m : Mesh StubNode G) : Prop where
  idle : m.pendingFrames = []
  clock : m.now = 0
  nodes : ∀ u n, m.nodes.lookup u = some n → ∃ peers, n = StubNode.new u peers
  edges : ∀ a c e, m.edge a c = some e → e ∈ edges

theorem Fresh.addNode {edges : List Edge} (h : Fresh edges m) (id : NodeID)
    (peers : List NodeID) : Fresh edges (m.addNode id (StubNode.new id peers)) := by
  refine ⟨h.idle, h.clock, fun u n hn => ?_, h.edges⟩
  unfold Mesh.addNode at hn
  rw [FMap.lookup_insert_eq] at hn
  split_ifs at hn with hu
  · exact ⟨peers, by rw [← Option.some.inj hn, hu]⟩
  · exact h.nodes u n hn

theorem Fresh.addEdge {edges : List Edge} (h : Fresh edges m) {e : Edge} (he : e ∈ edges) :
    Fresh edges (m.addEdge e) := by
  refine ⟨h.idle, h.clock, h.nodes, fun a c e' he' => ?_⟩
  rw [edge_addEdge] at he'
  split_ifs at he'
  · cases he'
    exact he
  · exact h.edges a c e' he'

theorem fresh_layout (nodes : List (NodeID × List NodeID)) (edges : List Edge) (g : G) :
    Fresh edges (layout nodes edges g) := by
  have hnodes : Fresh edges
      (nodes.foldl (fun m p => m.addNode p.1 (StubNode.new p.1 p.2)) (newMesh g)) := by
    refine List.foldlRecOn (motive := Fresh edges) nodes _ ⟨rfl, rfl, ?_, ?_⟩
      fun m h p _ => h.addNode p.1 p.2
    · exact fun u n hn => by cases hn
    · exact fun a c e he => by cases he
  exact List.foldlRecOn (motive := Fresh edges) edges _ hnodes fun m h e he => h.addEdge he

theorem Fresh.flooding {edges : List Edge} (h : Fresh edges m) : Flooding env ps r m := by
  refine ⟨⟨?_, fun p hp => ?_⟩, fun u n hn => ?_, fun p hp => ?_⟩
  · rw [h.idle]
    exact SliceHeap.isHeap_nil
  · rw [h.idle] at hp
    exact absurd hp List.not_mem_nil
  · obtain ⟨peers, rfl⟩ := h.nodes u n hn
    have hnot : ¬ (StubNode.new u peers).Seen env r := Finset.notMem_empty _
    refine ⟨rfl, fun topic node a ha => ?_, fun _ hf => absurd hf List.not_mem_nil,
      fun hs => absurd hs hnot, fun hs => absurd hs hnot⟩
    cases ha
  · rw [h.idle] at hp
    exact absurd hp List.not_mem_nil

theorem Fresh.timed {edges : List Edge} (h : Fresh edges m) {T : ℤ} (hT : T < 2 ^ 63)
    (hedges : ∀ e ∈ edges, e.Fits T) : m.Timed T :=
  ⟨hT, by rw [h.clock]; exact le_refl 0, fun a c e he => hedges e (h.edges a c e he)⟩

/-- A node that publishes a record has seen its payload. -/
theorem Flooding.seen_published (h : Flooding env ps r m) {v : NodeID} {topic : Bytes}
    {hlc : UInt64} {body : Bytes} (hv : ∃ n, m.nodes.lookup v = some n)
    (hc : Called v (StubNode.publish env topic hlc body) m m') :
    m'.Seen env ⟨topic, v, hlc, body, false⟩ v := by
  obtain ⟨n, hn⟩ := hv
  refine ⟨n.publish env topic hlc body, by rw [hc.nodes, if_pos rfl, hn]; rfl, ?_⟩
  rw [← (h.nodes v n hn).id_eq]
  exact Finset.mem_insert_self _ _

/-- Whether each of some nodes shows the record, or a newer one of the same node, in
`Records()`. -/
def converged (us : List NodeID) (r : Record) (m : Mesh StubNode G) : Bool :=
  us.all fun u =>
    match m.nodes.lookup u with
    | none => false
    | some n => (n.recordsOf r.topic).any fun a => a.nodeID == r.nodeID && decide (r.hlc ≤ a.hlc)

/-- Who has seen the payload of another node's record shows it. -/
theorem Flooding.converged_of_seen (h : Flooding env ps r m) {us : List NodeID}
    (hus : ∀ u ∈ us, u ≠ r.nodeID ∧ m.Seen env r u) : converged us r m = true := by
  refine List.all_eq_true.mpr fun u hu => ?_
  obtain ⟨hne, n, hn, hs⟩ := hus u hu
  have hfwd := h.nodes u n hn
  obtain ⟨a, ha, hle⟩ := hfwd.stored hs hne
  rw [hn]
  refine List.any_eq_true.mpr ⟨a, ?_, ?_⟩
  · unfold StubNode.record at ha
    obtain ⟨byNode, hby, hslot⟩ := Option.bind_eq_some_iff.mp ha
    unfold StubNode.recordsOf
    rw [hby]
    exact FMap.mem_values.mpr ⟨r.nodeID, hslot⟩
  · rw [Bool.and_eq_true]
    exact ⟨beq_iff_eq.mpr (hfwd.keyed _ _ a ha), decide_eq_true hle⟩

theorem steps_replicate (k : ℕ) : steps (List.replicate k (MeshOp.step : MeshOp StubNode)) = k := by
  unfold steps
  rw [List.map_replicate, List.sum_replicate]
  exact Nat.mul_one k

end Flood

/-- A call of the harness: a step of the mesh, or `Publish` at a node. -/
inductive StubOp where
  | step
  | publish (id : NodeID) (topic : Bytes) (hlc : UInt64) (body : Bytes)

def StubOp.toMesh (env : StubEnv) : StubOp → MeshOp StubNode
  | .step => .step
  | .publish id topic hlc body => .call id (StubNode.publish env topic hlc body)

/-- The records that calls publish. -/
def published (ops : List StubOp) : List Record :=
  ops.filterMap fun op =>
    match op with
    | .step => none
    | .publish id topic hlc body => some ⟨topic, id, hlc, body, false⟩

theorem stubCall_toMesh (env : StubEnv) {ops : List StubOp} {op : StubOp} (h : op ∈ ops) :
    StubCall env (published ops) (op.toMesh env) := by
  cases op with
  | step => exact .step
  | publish id topic hlc body => exact .publish (List.mem_filterMap.mpr ⟨_, h, rfl⟩)

/-- A field behind its length. -/
def field (b : Bytes) : Bytes := UInt8.ofNat b.length :: b

def readField : Bytes → Option (Bytes × Bytes)
  | [] => none
  | len :: b => if len.toNat ≤ b.length then some (b.splitAt len.toNat) else none

/-- The fields of a record one after another, the clock in eight bytes and the body last. -/
def lineEncode (r : Record) : Bytes :=
  field r.topic ++ field r.nodeID ++ Codec.beBytes 8 r.hlc.toNat ++
    (if r.tombstone = true then 1 else 0) :: r.body

def lineDecode (b : Bytes) : Except Bytes Record :=
  match readField b with
  | none => .error (utf8 "no topic")
  | some (topic, b) =>
    match readField b with
    | none => .error (utf8 "no node")
    | some (node, b) =>
      match b.splitAt 8 with
      | (_, []) => .error (utf8 "no clock")
      | (hlc, dead :: body) =>
        .ok ⟨topic, node, UInt64.ofNat (hlc.foldl (fun n x => n * 256 + x.toNat) 0), body,
          dead == 1⟩

def lineEnv : StubEnv where
  sha256 := checksum
  sha256_length := Crypto.inClear.sha256_length
  encodeRecord := lineEncode
  decodeRecord := lineDecode

def lineNodes : List (NodeID × List NodeID) := [([1], [[2]]), ([2], [[1], [3]]), ([3], [[2]])]

def lineEdges : List Edge := [⟨[1], [2], 2, 1, 0⟩, ⟨[2], [3], 2, 1, 0⟩]

theorem line_within : Within (layout lineNodes lineEdges ()) [1] [2] 4 ∧
    Within (layout lineNodes lineEdges ()) [1] [3] 8 := by
  have hfirst : (layout lineNodes lineEdges ()).Linked [1] [2] ⟨[1], [2], 2, 1, 0⟩ :=
    ⟨⟨_, rfl, by decide⟩, by decide, ⟨_, rfl⟩, rfl, le_refl 0⟩
  have hsecond : (layout lineNodes lineEdges ()).Linked [2] [3] ⟨[2], [3], 2, 1, 0⟩ :=
    ⟨⟨_, rfl, by decide⟩, by decide, ⟨_, rfl⟩, rfl, le_refl 0⟩
  exact ⟨.hop .start hfirst, .hop (.hop .start hfirst) hsecond⟩

/-- The last node publishes, and the mesh steps once. -/
def lineOps : List StubOp := [.publish [3] [98] 1 [], .step]

end Swarm.Sim
