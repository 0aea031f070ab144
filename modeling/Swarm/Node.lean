import Swarm.Engine.Merkle
import Swarm.Lib.Network

/-!
# The node

The operations of a wired node (`node.go`): frames off the transport, the publishing calls, the
tenant change, the periodic work, and the callbacks of the transport. `NodeOp` lists them and
`runNode` performs them one at a time.
-/

namespace Swarm

/-- The errors the publishing calls return. -/
inductive PublishError where
  | stopped
  | tooLarge
  deriving DecidableEq

/-- The error texts. -/
def PublishError.text : PublishError → String
  | .stopped => "swarm: engine stopped"
  | .tooLarge => "swarm: record body exceeds maximum size"

/-! ## Creation -/

/-- `New` and `Wire`: what is fixed from then on, or `none` for a key of the wrong size. The store
settings are those the application chose, with the caps of the configuration. -/
def newEnv (cr : Crypto) (encodedLen : Frame → ℕ) (storeCfg : StoreConfig) (localID : NodeID)
    (cfg : Config) : Option Env :=
  if cfg.privKey.length ≠ 64 then none
  else
    some
      { cr := cr
        encodedLen := encodedLen
        cfg := cfg.withDefaults cr
        storeCfg := storeCfg.setCaps cfg.maxTopics cfg.maxRecordsPerTopic
          cfg.maxKeysPerNodePerTopic cfg.maxAttestationsPerTarget
        localID := localID }

theorem newEnv_eq_some {cr : Crypto} {encodedLen : Frame → ℕ} {storeCfg : StoreConfig}
    {localID : NodeID} {cfg : Config} {env : Env}
    (h : newEnv cr encodedLen storeCfg localID cfg = some env) :
    env.cr = cr ∧ env.cfg = cfg.withDefaults cr := by
  unfold newEnv at h
  split_ifs at h
  cases h
  exact ⟨rfl, rfl⟩

/-- The node `New` creates, before the transport names its peers. -/
def newNode (rd : Reading) (configFn : NodeID → PerPeerConfig) : Node :=
  { hlc := packHLC rd.wallMs.toUInt64 0, peers := { configFn := configFn } }

namespace Node

/-! ## Frames -/

/-- `ReceiveFrame`. Content frames are not modelled: they touch nothing kept here. -/
def receiveFrame (n : Node) (env : Env) (rd : Reading) (sender : NodeID) (f : Frame) : Node :=
  if !f.encodes then n
  else
    match f with
    | .eager record ttl => n.handleEager env rd sender record ttl
    | .ihave topic nodeID hlc _ key => n.handleIHave env rd sender topic nodeID hlc key
    | .graft topic nodeID _ key => n.handleGraft env sender topic nodeID key
    | .prune _ => n.handlePrune sender
    | .merkle topic rangeStart rangeEnd rootHash =>
      n.handleProbe env rd sender topic rangeStart rangeEnd rootHash
    | .merkleRange topic records truncated => n.handleRange env rd sender topic records truncated
    | .keepalive => n
    | .fetchReq _ _ => n
    | .fetchResp _ _ _ => n
    | .empty => n

/-- The `OnReceive` callback `Wire` installs. -/
def onReceive (n : Node) (env : Env) (rd : Reading) (sender : NodeID) (f : Frame) : Node :=
  if n.stopped then n else n.receiveFrame env rd sender f

/-! ## Publishing -/

/-- Stamp, sign and publish a record of this node. -/
def publishOwn (n : Node) (env : Env) (rd : Reading) (r : Record) : Node :=
  let n := n.stamp rd
  let r := signRecord env.cr { r with nodeID := env.id, hlc := n.hlc } env.cfg.privKey
  (n.plumPublish env rd r).accept r

/-- `PublishKeyed`. -/
def publishKeyed (n : Node) (env : Env) (rd : Reading) (topic : Topic) (key body : Bytes) :
    Option PublishError × Node :=
  if n.stopped then (some .stopped, n)
  else if env.cfg.maxRecordBytes < body.length then (some .tooLarge, n)
  else if maxKeyBytes < key.length then (some .tooLarge, n)
  else
    (none, n.publishOwn env rd { topic := topic, nodeID := [], hlc := 0, key := key, body := body })

/-- `PublishKeyedTombstone`. -/
def publishKeyedTombstone (n : Node) (env : Env) (rd : Reading) (topic : Topic) (key : Bytes) :
    Option PublishError × Node :=
  if n.stopped then (some .stopped, n)
  else if maxKeyBytes < key.length then (some .tooLarge, n)
  else
    (none,
      n.publishOwn env rd { topic := topic, nodeID := [], hlc := 0, key := key, tombstone := true })

/-- Apply a signed record, announce it if it changed the store, and broadcast it either way. -/
def applyAndBroadcast (n : Node) (env : Env) (rd : Reading) (r : Record) : Node :=
  let (res, n) := n.applyExt env rd r
  let n := if res.applied then n.accept r else n
  n.broadcast env rd r

/-- `PublishObserverTombstone`: one witness, delivered here only if it completes the quorum. -/
def publishObserverTombstone (n : Node) (env : Env) (rd : Reading) (topic : Topic)
    (target : NodeID) : Option PublishError × Node :=
  if n.stopped then (some .stopped, n)
  else if target = [] ∨ target = env.id then (none, n)
  else
    let n := n.stamp rd
    let r : Record :=
      { topic := topic, nodeID := target, hlc := n.hlc, tombstone := true
        observerNodeID := env.id, observedAtUnixMs := rd.nowMs }
    (none, n.applyAndBroadcast env rd (signRecord env.cr r env.cfg.privKey))

/-- The records of this node in every slot it holds. -/
def ownRecords (env : Env) (s : RecordStore) : List Record :=
  s.byTopic.entries.flatMap fun e =>
    (e.2.records.entries.filter fun slot => slot.1.nodeID == env.id).map Sigma.snd

/-- One record's turn in `SetTenant`. -/
def retire (env : Env) (rd : Reading) (n : Node) (r : Record) : Node :=
  let n := n.stamp rd
  let tomb : Record :=
    { topic := r.topic, nodeID := env.id, key := r.key, hlc := n.hlc, tombstone := true }
  n.applyAndBroadcast env rd (signRecord env.cr tomb env.cfg.privKey)

/-- `SetTenant`. -/
def setTenant (n : Node) (env : Env) (rd : Reading) (tenantID : Bytes) : Node :=
  if n.tenant = tenantID then n
  else (ownRecords env n.store).foldl (retire env rd) { n with tenant := tenantID }

/-! ## Periodic work and callbacks -/

/-- `Node.Tick`. -/
def tick (n : Node) (env : Env) (rd : Reading) (now : Time) : Node :=
  (n.processGrafts env now).merkleTick env rd

/-- Whether the tick loop reaps: at its first tick, then every thirty seconds. -/
def reapDue (n : Node) (t : Time) : Bool :=
  match n.lastReap with
  | none => true
  | some last => !decide (t.sub last < 30 * second)

/-- One tick of `runTickLoop`. -/
def tickLoop (n : Node) (env : Env) (rd : Reading) : Node :=
  let n := (n.processGrafts env rd.wall).merkleTick env rd
  if env.cfg.topicTTL.isSome && n.reapDue rd.wall then
    { n with lastReap := some rd.wall }.reapExpired rd.wallMs env.cfg.topicTTL
  else n

/-- `Node.ProbePeer`. -/
def probePeer (n : Node) (env : Env) (peer : NodeID) : Node :=
  if n.stopped then n else n.merkleProbePeer env peer

/-- `OnPeerJoin`. -/
def onPeerJoin (n : Node) (peer : NodeID) : Node := n.setPeers (n.peers.ensure peer)

/-- `OnPeerLeave`. -/
def onPeerLeave (n : Node) (peer : NodeID) : Node := n.setPeers (n.peers.remove peer)

end Node

/-- The record a publish stamps and signs. -/
def ownRecord (env : Env) (n : Node) (rd : Reading) (r : Record) : Record :=
  signRecord env.cr { r with nodeID := env.id, hlc := (n.stamp rd).hlc } env.cfg.privKey

theorem publishOwn_eq (n : Node) (env : Env) (rd : Reading) (r : Record) :
    n.publishOwn env rd r =
      ((n.stamp rd).plumPublish env rd (ownRecord env n rd r)).accept (ownRecord env n rd r) := rfl

/-! ## Runs -/

/-- What can happen to a wired node. -/
inductive NodeOp where
  | receive (rd : Reading) (sender : NodeID) (f : Frame)
  | publishKeyed (rd : Reading) (topic : Topic) (key body : Bytes)
  | publishKeyedTombstone (rd : Reading) (topic : Topic) (key : Bytes)
  | publishObserverTombstone (rd : Reading) (topic : Topic) (target : NodeID)
  | setTenant (rd : Reading) (tenantID : Bytes)
  | tick (rd : Reading) (now : Time)
  | tickLoop (rd : Reading)
  | reap (nowMs : Int64) (ttlFor : Option (Topic → Duration))
  | probePeer (peer : NodeID)
  | join (peer : NodeID)
  | leave (peer : NodeID)
  | setPaused (paused : Bool)
  | stop

def NodeOp.exec (env : Env) (n : Node) : NodeOp → Node
  | .receive rd sender f => n.onReceive env rd sender f
  | .publishKeyed rd topic key body => (n.publishKeyed env rd topic key body).2
  | .publishKeyedTombstone rd topic key => (n.publishKeyedTombstone env rd topic key).2
  | .publishObserverTombstone rd topic target =>
    (n.publishObserverTombstone env rd topic target).2
  | .setTenant rd tenantID => n.setTenant env rd tenantID
  | .tick rd now => n.tick env rd now
  | .tickLoop rd => n.tickLoop env rd
  | .reap nowMs ttlFor => n.reapExpired nowMs ttlFor
  | .probePeer peer => n.probePeer env peer
  | .join peer => n.onPeerJoin peer
  | .leave peer => n.onPeerLeave peer
  | .setPaused paused => { n with paused := paused }
  | .stop => { n with stopped := true }

def runNode (env : Env) (n : Node) (ops : List NodeOp) : Node := ops.foldl (NodeOp.exec env) n

/-- Nodes as the parties of a network of frames; what a delivery brings from outside is the
reading of the clocks. -/
def frameHandler (env : NodeID → Env) : Network.Handler NodeID Node Frame Reading :=
  fun i n src f rd => (n.onReceive (env i) rd src f, n.sentSince (n.onReceive (env i) rd src f))

/-- A node with every default and cryptography in the clear, for runs on fixed inputs. -/
def plainEnv : Env where
  cr := .inClear
  encodedLen _ := 0
  cfg := ({ privKey := List.replicate 64 7 } : Config).withDefaults .inClear
  storeCfg := {}
  localID := [7]

end Swarm
