import Swarm.Gate
import Swarm.Peers
import Swarm.Store.View

/-!
# The state of a node

What a wired node keeps between the frames and calls it handles, and the actions the handlers of
`plumtrees.go`, `merkle.go` and `node.go` are made of. Frames and calls are handled one at a time,
each at one `Reading` of the clocks.

`trace` lists what the node did, oldest first: frames handed to the transport, calls on the store
with their results, and records handed to `recordAccepted`.
-/

namespace Swarm

/-- The two clocks: `time.Now` for the hybrid clock and the gate, `NowFn` for everything else. -/
structure Reading where
  wall : Time
  now : Time

def Reading.wallMs (rd : Reading) : Int64 := rd.wall.unixMilli

def Reading.nowMs (rd : Reading) : Int64 := rd.now.unixMilli

/-- What is fixed when a node is created and wired. -/
structure Env where
  cr : Crypto
  /-- The length of a frame's encoding, charged to token buckets. -/
  encodedLen : Frame → ℕ
  /-- The configuration with its defaults filled in. -/
  cfg : Config
  storeCfg : StoreConfig
  /-- `Transport.LocalID`. -/
  localID : NodeID

namespace Env

def id (env : Env) : NodeID := env.cfg.nodeID

def gate (env : Env) : InboundGate := newInboundGate env.cfg

def treeDeg (env : Env) : ℕ := if env.cfg.treeDegree ≤ 0 then 4 else env.cfg.treeDegree.toNat

def graftDelay (env : Env) : Duration :=
  if env.cfg.graftDelay ≤ 0 then 200 * 1000000 else env.cfg.graftDelay

def maxIHaves (env : Env) : ℕ :=
  if 0 < env.cfg.maxPendingIHaves then env.cfg.maxPendingIHaves.toNat else 4096

def probeEvery (env : Env) : Duration :=
  if env.cfg.merkleProbeInterval ≤ 0 then 60 * second else env.cfg.merkleProbeInterval

/-- The first eight bytes of the digest of the local id. -/
def probeSalt (env : Env) : UInt64 :=
  ((env.cr.sha256 env.localID).take 8).foldl (fun a b => a * 256 + b.toUInt64) 0

end Env

/-- `eagerTTL`. -/
def eagerTTL : UInt32 := 8

/-- `maxRangeSize`. -/
def maxRangeSize : ℕ := 64

/-- `ihaveEntryTTL`. -/
def ihaveEntryTTL : Duration := 30 * second

/-- `ihaveKey`. -/
structure IHaveKey where
  topic : Topic
  nodeID : NodeID
  key : Bytes
  hlc : UInt64
  deriving DecidableEq

/-- `ihaveEntry`; the announced body hash is never read. -/
structure IHaveEntry where
  announcer : NodeID
  seenAt : Time
  grafted : Bool := false

/-- One thing a node did. -/
inductive Event where
  | send (dst : NodeID) (f : Frame)
  | apply (nowMs : Int64) (r : Record) (res : ApplyResult)
  | reap (nowMs : Int64) (ttlFor : Option (Topic → Duration))
  | accept (r : Record)

/-- The state of a wired node. -/
structure Node where
  hlc : UInt64
  peers : PeerTable
  store : RecordStore := {}
  missingIHaves : FMap IHaveKey IHaveEntry := ∅
  lastProbe : FMap Topic Time := ∅
  /-- Keyed by peer, a zero byte and topic. -/
  lastReciprocal : FMap Bytes Time := ∅
  rejections : GateStats := {}
  tenant : Bytes := []
  paused : Bool := false
  stopped : Bool := false
  lastReap : Option Time := none
  trace : List Event := []

namespace Node

/-- `tport.Send`. -/
def send (n : Node) (dst : NodeID) (f : Frame) : Node :=
  { n with trace := n.trace ++ [.send dst f] }

/-- Send one frame to every peer of a list. -/
def sendAll (n : Node) (dsts : List NodeID) (f : Frame) : Node :=
  dsts.foldl (fun n dst => n.send dst f) n

/-- `recordAccepted`. -/
def accept (n : Node) (r : Record) : Node := { n with trace := n.trace ++ [.accept r] }

def setPeers (n : Node) (peers : PeerTable) : Node := { n with peers := peers }

/-- `HLC.Observe`, uncontended. -/
def observe (n : Node) (rd : Reading) (remote : UInt64) : Node :=
  { n with hlc := observeNext remote rd.wallMs n.hlc }

/-- `HLC.Now`, uncontended: the new word is also the stamp returned. -/
def stamp (n : Node) (rd : Reading) : Node := { n with hlc := nowNext rd.wallMs.toUInt64 n.hlc }

/-- `store.ApplyExt`. -/
def applyExt (n : Node) (env : Env) (rd : Reading) (r : Record) : ApplyResult × Node :=
  let (res, store) := Swarm.applyExt env.storeCfg rd.nowMs n.store r
  (res, { n with store := store, trace := n.trace ++ [.apply rd.nowMs r res] })

/-- `store.reapExpired`. -/
def reapExpired (n : Node) (nowMs : Int64) (ttlFor : Option (Topic → Duration)) : Node :=
  { n with
    store := (Swarm.reapExpired nowMs ttlFor n.store).2
    trace := n.trace ++ [.reap nowMs ttlFor] }

end Node

/-- The calls on the store among the events of a trace. -/
def storeOps : List Event → List StoreOp
  | [] => []
  | .apply nowMs r _ :: l => .apply nowMs r :: storeOps l
  | .reap nowMs ttlFor :: l => .reap nowMs ttlFor :: storeOps l
  | .send _ _ :: l => storeOps l
  | .accept _ :: l => storeOps l

theorem storeOps_append (l l' : List Event) : storeOps (l ++ l') = storeOps l ++ storeOps l' := by
  induction l with
  | nil => rfl
  | cons e l ih => cases e <;> simp [storeOps, ih]

/-- The frames sent among the events of a trace. -/
def sends : List Event → List (NodeID × Frame)
  | [] => []
  | .send dst f :: l => (dst, f) :: sends l
  | .apply _ _ _ :: l => sends l
  | .reap _ _ :: l => sends l
  | .accept _ :: l => sends l

theorem sends_append (l l' : List Event) : sends (l ++ l') = sends l ++ sends l' := by
  induction l with
  | nil => rfl
  | cons e l ih => cases e <;> simp [sends, ih]

/-- The frames a node sent since an earlier state. -/
def Node.sentSince (n n' : Node) : List (NodeID × Frame) := sends (n'.trace.drop n.trace.length)

/-- A node whose trace did not grow sent nothing. -/
theorem not_mem_sentSince {n n' : Node} (h : n'.trace = n.trace) (e : NodeID × Frame) :
    e ∉ n.sentSince n' := by
  unfold Node.sentSince
  rw [h, List.drop_length]
  exact List.not_mem_nil

end Swarm
