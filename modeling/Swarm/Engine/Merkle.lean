import Swarm.Engine.Plumtree
import Swarm.Merkle.Root

/-!
# The Merkle engine

`merkle.go`: probes carry the root of a range. A responder whose root differs probes back, at most
once in five seconds for a peer and topic, and answers with the signed records of the range. A
range of more than `maxRangeSize` records is answered by its first half, cut at the end of a
node's key group, and the prober resumes after the last node it received.
-/

namespace Swarm

namespace Node

/-- `sendProbe`. -/
def sendProbe (n : Node) (env : Env) (dst : NodeID) (topic : Topic)
    (rangeStart rangeEnd : Option Bytes) : Node :=
  let root := topicMerkleRoot env.cr n.store topic rangeStart rangeEnd
  let frame := Frame.merkle topic rangeStart rangeEnd root
  if frame.encodes then n.send dst frame else n

/-- `sendRange`. -/
def sendRange (n : Node) (dst : NodeID) (topic : Topic) (recs : List Record) (truncated : Bool) :
    Node :=
  let frame := Frame.merkleRange topic recs truncated
  if frame.encodes then n.send dst frame else n

/-- The loop that advances a split to the end of the key group it landed in. -/
def splitEnd (last : NodeID) : List Record → ℕ
  | [] => 0
  | r :: rest => if r.nodeID = last then splitEnd last rest + 1 else 0

/-- Where a range that is too large is cut. -/
def splitPoint (recs : List Record) : ℕ :=
  let half := if recs.length / 2 < 1 then 1 else recs.length / 2
  match recs.drop (half - 1) with
  | [] => half
  | r :: rest => half + splitEnd r.nodeID rest

/-- The records and the truncation flag a probe is answered with. -/
def rangeReply (s : RecordStore) (topic : Topic) (rangeStart rangeEnd : Option Bytes) :
    List Record × Bool :=
  let recs := rangeRecords s topic rangeStart rangeEnd
  if recs.length ≤ maxRangeSize then
    if rangeStart = none ∧ rangeEnd = none then
      (recs ++ (s.topicAttestations topic).take maxRangeSize, false)
    else (recs, false)
  else
    let half := splitPoint recs
    if recs.length ≤ half then (recs, false) else (recs.take half, true)

/-- The key of a peer and topic in `lastReciprocal`. -/
def reciprocalKey (peer : NodeID) (topic : Topic) : Bytes := peer ++ [0] ++ topic

/-- Whether the last reciprocal probe was long enough ago. -/
def reciprocalDue (n : Node) (rd : Reading) (peer : NodeID) (topic : Topic) : Bool :=
  match n.lastReciprocal.lookup (reciprocalKey peer topic) with
  | none => true
  | some last => !decide (rd.now.sub last < 5 * second)

def markReciprocal (n : Node) (rd : Reading) (peer : NodeID) (topic : Topic) : Node :=
  { n with lastReciprocal := n.lastReciprocal.insert (reciprocalKey peer topic) rd.now }

/-- The reciprocal probe of `HandleProbe`. -/
def reciprocate (n : Node) (env : Env) (rd : Reading) (sender : NodeID) (topic : Topic)
    (rangeStart rangeEnd : Option Bytes) : Node :=
  if n.reciprocalDue rd sender topic then
    (n.markReciprocal rd sender topic).sendProbe env sender topic rangeStart rangeEnd
  else n

/-- `HandleProbe`. -/
def handleProbe (n : Node) (env : Env) (rd : Reading) (sender : NodeID) (topic : Topic)
    (rangeStart rangeEnd : Option Bytes) (rootHash : Bytes) : Node :=
  if topicMerkleRoot env.cr n.store topic rangeStart rangeEnd = rootHash then n
  else
    let n := n.reciprocate env rd sender topic rangeStart rangeEnd
    let (recs, truncated) := rangeReply n.store topic rangeStart rangeEnd
    n.sendRange sender topic recs truncated

/-- One record of `HandleRange`. -/
def receiveRecord (env : Env) (rd : Reading) (n : Node) (r : Record) : Node :=
  let (ok, n) := n.inbound env rd r
  if !ok then n
  else
    let n := n.observe rd r.hlc
    let (res, n) := n.applyExt env rd r
    if res.applied then n.accept r else n

/-- `HandleRange`. -/
def handleRange (n : Node) (env : Env) (rd : Reading) (sender : NodeID) (topic : Topic)
    (records : List Record) (truncated : Bool) : Node :=
  let n := records.foldl (receiveRecord env rd) n
  match records.getLast? with
  | none => n
  | some last =>
    if truncated then n.sendProbe env sender topic (some (last.nodeID ++ [1])) none else n

def markProbe (n : Node) (rd : Reading) (topic : Topic) : Node :=
  { n with lastProbe := n.lastProbe.insert topic rd.now }

/-- One topic's turn in `merkleEngine.Tick`. -/
def probeTopic (env : Env) (rd : Reading) (n : Node) (topic : Topic) : Node :=
  let due : Bool :=
    match n.lastProbe.lookup topic with
    | none => true
    | some last => !decide (rd.now.sub last < env.probeEvery)
  if !due then n
  else
    let n := n.markProbe rd topic
    let peers := n.peers.nonTreeEdges
    if peers.length = 0 then n
    else
      let idx := (rd.nowMs.toUInt64 + env.probeSalt) % UInt64.ofNat peers.length
      n.sendProbe env (peers.getD idx.toNat []) topic none none

/-- `merkleEngine.Tick`. -/
def merkleTick (n : Node) (env : Env) (rd : Reading) : Node :=
  if n.paused then n else n.store.topics.foldl (probeTopic env rd) n

/-- `merkleEngine.ProbePeer`. -/
def merkleProbePeer (n : Node) (env : Env) (target : NodeID) : Node :=
  if target = [] then n
  else n.store.topics.foldl (fun n topic => n.sendProbe env target topic none none) n

end Node

end Swarm
