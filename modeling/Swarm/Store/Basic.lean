import Mathlib.Algebra.GroupWithZero.Nat
import Swarm.Lib.FiniteMap
import Swarm.Lib.MaxLoop
import Swarm.Record
import Swarm.Hlc

/-!
# The record store

The per-topic δ-CRDT of `crdt.go`. `applyExt` merges one record: owner records go through the
`(hlc, sig)` comparison of their slot, observer attestations accumulate in the witness set of
their target (`applyAttestationLocked`) and tombstone every slot of the target once the set
reaches the quorum. `reapExpired` applies the retention of each topic.

The settings a node fixes before it runs (`StoreConfig`) are kept apart from what the operations
change (`RecordStore`). Maps are finite maps; every loop over a map either sorts what it
collects or computes something the order does not show in.
-/

namespace Swarm

/-- The quorum, window, role check and caps of a store. The setters admit only positive values. -/
structure StoreConfig where
  observerQuorum : ℕ := defaultObserverQuorum
  observerCorroborationWindow : Duration := defaultObserverCorroborationWindow
  /-- The anchor gate; `none` accepts every observer. -/
  observerRoleCheck : Option (NodeID → Bytes → Bool) := none
  maxTopics : ℕ := 4096
  maxRecordsPerTopic : ℕ := 65536
  maxKeysPerNode : ℕ := 4096
  maxAttestations : ℕ := 64
  quorum_pos : 1 ≤ observerQuorum := by decide
  window_pos : 0 < observerCorroborationWindow := by decide
  topics_pos : 0 < maxTopics := by decide
  records_pos : 0 < maxRecordsPerTopic := by decide
  keys_pos : 0 < maxKeysPerNode := by decide
  attestations_pos : 0 < maxAttestations := by decide

/-- A cap given by the application, or its default when not positive. -/
def capOr (n : ℤ) (d : ℕ) : ℕ := if n ≤ 0 then d else n.toNat

theorem capOr_pos {n : ℤ} {d : ℕ} (hd : 0 < d) : 0 < capOr n d := by
  unfold capOr
  split_ifs with h
  · exact hd
  · omega

/-- `setCaps`. -/
def StoreConfig.setCaps (cfg : StoreConfig)
    (maxTopics maxRecordsPerTopic maxKeysPerNode maxAttestations : ℤ) : StoreConfig :=
  { cfg with
    maxTopics := capOr maxTopics 4096
    maxRecordsPerTopic := capOr maxRecordsPerTopic 65536
    maxKeysPerNode := capOr maxKeysPerNode 4096
    maxAttestations := capOr maxAttestations 64
    topics_pos := capOr_pos (by decide)
    records_pos := capOr_pos (by decide)
    keys_pos := capOr_pos (by decide)
    attestations_pos := capOr_pos (by decide) }

/-- `SetObserverQuorum`: values below one and windows that are not positive are ignored. -/
def StoreConfig.setObserverQuorum (cfg : StoreConfig) (k : ℤ) (w : Duration) : StoreConfig :=
  if h : k < 1 ∨ w ≤ 0 then cfg
  else
    { cfg with
      observerQuorum := k.toNat
      observerCorroborationWindow := w
      quorum_pos := by omega
      window_pos := lt_of_not_ge fun hw => h (Or.inr hw) }

/-- `SetObserverRoleCheck`. -/
def StoreConfig.setObserverRoleCheck (cfg : StoreConfig)
    (fn : Option (NodeID → Bytes → Bool)) : StoreConfig :=
  { cfg with observerRoleCheck := fn }

/-- The role check, accepting everything when none is wired. -/
def StoreConfig.roleOk (cfg : StoreConfig) (observer : NodeID) (pubKey : Bytes) : Bool :=
  match cfg.observerRoleCheck with
  | none => true
  | some check => check observer pubKey

/-- The corroboration window in milliseconds. -/
def StoreConfig.winMs (cfg : StoreConfig) : Int64 := cfg.observerCorroborationWindow.milliseconds

/-- The records, witness sets and restored-at marks of one topic. -/
@[ext]
structure TopicStore where
  records : FMap RecordKey Record := ∅
  /-- `attestations[target][observer]`. -/
  attestations : FMap NodeID (FMap NodeID Record) := ∅
  restoredAtUnixMs : FMap NodeID Int64 := ∅

/-- The topics, and the count of records dropped by a cap. -/
structure RecordStore where
  byTopic : FMap Topic TopicStore := ∅
  rejectedCap : ℕ := 0

/-! ## Slots of a node -/

/-- The slots a node holds on a topic, in canonical order. -/
def TopicStore.nodeSlots (ts : TopicStore) (node : NodeID) : List RecordKey :=
  sortSlice lessRecordKey (ts.records.keys.filter fun k => k.nodeID == node)

/-- Whether the node holds a slot, and whether every slot it holds is a tombstone at or above
`hlc`. -/
def TopicStore.nodeDeadAtOrAbove (ts : TopicStore) (node : NodeID) (hlc : UInt64) : Bool × Bool :=
  let held := ts.records.entries.filter fun e => e.1.nodeID == node
  let had := !held.isEmpty
  let allDead := held.all fun e => !(!e.2.tombstone || decide (e.2.hlc < hlc))
  (had, had && allDead)

/-- Whether the node holds any slot. -/
def TopicStore.nodePresent (ts : TopicStore) (node : NodeID) : Bool :=
  ts.records.keys.any fun k => k.nodeID == node

/-- How many slots the node holds. -/
def TopicStore.held (ts : TopicStore) (node : NodeID) : ℕ :=
  ts.records.keys.countP fun k => k.nodeID == node

/-! ## Merging one record into a topic -/

/-- What a merge reports and leaves: `rejected` says that the cap counter moved. -/
structure Outcome where
  applied : Bool
  replaced : Bool
  accumulated : Bool
  rejected : Bool := false
  ts : TopicStore

/-- The restored-at marks after an owner record of a node was stored: live records move the mark. -/
def TopicStore.stampRestored (ts : TopicStore) (nowMs : Int64) (r : Record) : FMap NodeID Int64 :=
  if r.tombstone then ts.restoredAtUnixMs else ts.restoredAtUnixMs.insert r.nodeID nowMs

/-- Store an owner record in a slot that was empty: the witness set of the node stays. -/
def TopicStore.openSlot (ts : TopicStore) (nowMs : Int64) (r : Record) : TopicStore :=
  { ts with
    records := ts.records.insert (keyOf r) r
    restoredAtUnixMs := ts.stampRestored nowMs r }

/-- Store an owner record over an older one: the witness set of the node is deleted. -/
def TopicStore.replaceSlot (ts : TopicStore) (nowMs : Int64) (r : Record) : TopicStore :=
  { records := ts.records.insert (keyOf r) r
    attestations := ts.attestations.erase r.nodeID
    restoredAtUnixMs := ts.stampRestored nowMs r }

/-- The owner path of `ApplyExt`. -/
def applyOwner (cfg : StoreConfig) (nowMs : Int64) (ts : TopicStore) (r : Record) : Outcome :=
  match ts.records.lookup (keyOf r) with
  | none =>
    if cfg.maxRecordsPerTopic ≤ ts.records.len then
      { applied := false, replaced := false, accumulated := false, rejected := true, ts := ts }
    else if 0 < cfg.maxKeysPerNode ∧ cfg.maxKeysPerNode ≤ ts.held r.nodeID then
      { applied := false, replaced := false, accumulated := false, rejected := true, ts := ts }
    else { applied := true, replaced := false, accumulated := false, ts := ts.openSlot nowMs r }
  | some cur =>
    if cur.hlc < r.hlc ∨ (r.hlc = cur.hlc ∧ sigLess cur.sig r.sig = true) then
      { applied := true, replaced := true, accumulated := false, ts := ts.replaceSlot nowMs r }
    else { applied := false, replaced := true, accumulated := false, ts := ts }

/-! ### The attestation path -/

/-- The restored-at gate: the attestation was issued before the target last published. -/
def TopicStore.fenced (ts : TopicStore) (att : Record) : Bool :=
  match ts.restoredAtUnixMs.lookup att.nodeID with
  | some hwm => decide (att.observedAtUnixMs ≤ hwm)
  | none => false

/-- The observer's kept attestation is at least as new in both fields. -/
def superseded (set : FMap NodeID Record) (att : Record) : Bool :=
  match set.lookup att.observerNodeID with
  | some cur => decide (att.observedAtUnixMs ≤ cur.observedAtUnixMs) && decide (att.hlc ≤ cur.hlc)
  | none => false

/-- The newest observation in a witness set, zero when none is later than the epoch. -/
def newestOf (set : FMap NodeID Record) : Int64 :=
  maxLoop Record.observedAtUnixMs 0 set.values

/-- Drop the witnesses that lie more than the window before the newest. -/
def pruneWindow (winMs : Int64) (set : FMap NodeID Record) : FMap NodeID Record :=
  let newest := newestOf set
  set.rangeUpdate fun _ a => if winMs < newest - a.observedAtUnixMs then none else some a

/-- The largest clock in a witness set. -/
def maxHLCOf (set : FMap NodeID Record) : UInt64 :=
  maxLoop Record.hlc 0 set.values

/-- The unsigned tombstone a witness set stands for. -/
def synthOf (set : FMap NodeID Record) (att : Record) : Record :=
  { topic := att.topic, nodeID := att.nodeID, hlc := maxHLCOf set + 1, tombstone := true }

/-- Write the synthesised tombstone into one slot if the slot is older. -/
def tombstoneSlot (synth : Record) (acc : Bool × FMap RecordKey Record) (k : RecordKey) :
    Bool × FMap RecordKey Record :=
  let cur := (acc.2.lookup k).getD {}
  if cur.hlc < synth.hlc then (true, acc.2.insert k { synth with key := k.key }) else acc

/-- The loop over the slots of the target: whether one was written, and the records. -/
def tombstoneSlots (synth : Record) (slots : List RecordKey) (records : FMap RecordKey Record) :
    Bool × FMap RecordKey Record :=
  slots.foldl (tombstoneSlot synth) (false, records)

/-- The quorum is reached: the target dies in every slot it holds, or in its keyless slot when
it holds none. -/
def synthesise (ts : TopicStore) (set : FMap NodeID Record) (att : Record) : Outcome :=
  let synth := synthOf set att
  let slots := ts.nodeSlots att.nodeID
  if slots.isEmpty then
    { applied := true, replaced := false, accumulated := true
      ts := { ts with records := ts.records.insert { nodeID := att.nodeID } synth } }
  else
    let (applied, records) := tombstoneSlots synth slots ts.records
    { applied := applied, replaced := true, accumulated := true
      ts := { ts with records := records } }

/-- The witness set of a target, empty when none is kept. -/
def TopicStore.witnesses (ts : TopicStore) (target : NodeID) : FMap NodeID Record :=
  (ts.attestations.lookup target).getD ∅

/-- The topic with a witness set allocated for the target. -/
def TopicStore.allocate (ts : TopicStore) (target : NodeID) : TopicStore :=
  match ts.attestations.lookup target with
  | some _ => ts
  | none => { ts with attestations := ts.attestations.insert target ∅ }

/-- Keep a witness set for the target; an empty one is deleted. -/
def TopicStore.keepWitnesses (ts : TopicStore) (target : NodeID) (set : FMap NodeID Record) :
    TopicStore :=
  { ts with
    attestations :=
      if set.len = 0 then ts.attestations.erase target else ts.attestations.insert target set }

/-- `applyAttestationLocked`. -/
def applyAttestationLocked (cfg : StoreConfig) (nowMs : Int64) (ts : TopicStore) (att : Record) :
    Outcome :=
  if !cfg.roleOk att.observerNodeID att.pubKey then
    { applied := false, replaced := false, accumulated := false, ts := ts }
  else if nowMs + observerForwardSkewBudget.milliseconds < att.observedAtUnixMs then
    { applied := false, replaced := false, accumulated := false, ts := ts }
  else if ts.fenced att then
    { applied := false, replaced := false, accumulated := false, ts := ts }
  else if (ts.nodeDeadAtOrAbove att.nodeID att.hlc).1 && (ts.nodeDeadAtOrAbove att.nodeID att.hlc).2
  then
    { applied := false, replaced := true, accumulated := false, ts := ts }
  else
    -- the set is allocated before the two tests that may still refuse the attestation
    let set := ts.witnesses att.nodeID
    let ts := ts.allocate att.nodeID
    if superseded set att then
      { applied := false, replaced := true, accumulated := false, ts := ts }
    else if (set.lookup att.observerNodeID).isNone ∧ cfg.maxAttestations ≤ set.len then
      { applied := false, replaced := true, accumulated := false, rejected := true, ts := ts }
    else
      let set := pruneWindow cfg.winMs (set.insert att.observerNodeID att)
      let ts := ts.keepWitnesses att.nodeID set
      if set.len < cfg.observerQuorum then
        { applied := false, replaced := ts.nodePresent att.nodeID, accumulated := true, ts := ts }
      else synthesise ts set att

/-- The part of `ApplyExt` that runs once the topic exists. -/
def applyTopic (cfg : StoreConfig) (nowMs : Int64) (ts : TopicStore) (r : Record) : Outcome :=
  if r.isObserverAttestation then applyAttestationLocked cfg nowMs ts r
  else applyOwner cfg nowMs ts r

/-! ## The store -/

/-- What `ApplyExt` returns. -/
structure ApplyResult where
  applied : Bool
  replaced : Bool
  accumulated : Bool
  deriving DecidableEq

/-- The store after `o` was computed for the topic. -/
def RecordStore.commit (s : RecordStore) (topic : Topic) (o : Outcome) :
    ApplyResult × RecordStore :=
  ({ applied := o.applied, replaced := o.replaced, accumulated := o.accumulated },
    { byTopic := s.byTopic.insert topic o.ts
      rejectedCap := if o.rejected then s.rejectedCap + 1 else s.rejectedCap })

/-- `ApplyExt`, with the store's clock reading. -/
def applyExt (cfg : StoreConfig) (nowMs : Int64) (s : RecordStore) (r : Record) :
    ApplyResult × RecordStore :=
  match s.byTopic.lookup r.topic with
  | none =>
    if cfg.maxTopics ≤ s.byTopic.len then
      ({ applied := false, replaced := false, accumulated := false },
        { s with rejectedCap := s.rejectedCap + 1 })
    else s.commit r.topic (applyTopic cfg nowMs {} r)
  | some ts => s.commit r.topic (applyTopic cfg nowMs ts r)

/-! ## Retention -/

/-- Whether retention drops a record: live records by their age, tombstones at twice that age. -/
def expired (nowMs ttlMs : Int64) (r : Record) : Bool :=
  let wallMs := (decompose r.hlc).1
  let ageMs := nowMs - wallMs.toInt64
  (!r.tombstone && decide (ttlMs < ageMs)) || (r.tombstone && decide (2 * ttlMs < ageMs))

/-- One topic after retention: expired slots go, and the marks of nodes left without a slot. -/
def TopicStore.reap (ts : TopicStore) (nowMs ttlMs : Int64) : TopicStore :=
  let ts :=
    { ts with
      records := ts.records.rangeUpdate fun _ r => if expired nowMs ttlMs r then none else some r }
  { ts with
    restoredAtUnixMs := ts.restoredAtUnixMs.rangeUpdate fun node hwm =>
      if ts.nodePresent node then some hwm else none }

/-- `reapExpired`: the number of records dropped, and the store. -/
def reapExpired (nowMs : Int64) (ttlFor : Option (Topic → Duration)) (s : RecordStore) :
    ℕ × RecordStore :=
  match ttlFor with
  | none => (0, s)
  | some ttlFor =>
    ((s.byTopic.entries.map fun e =>
        if ttlFor e.1 ≤ 0 then 0
        else e.2.records.values.countP (expired nowMs (ttlFor e.1).milliseconds)).sum,
      { s with
        byTopic := s.byTopic.rangeUpdate fun topic ts =>
          if ttlFor topic ≤ 0 then some ts
          else
            let ts := ts.reap nowMs (ttlFor topic).milliseconds
            if ts.records.len = 0 ∧ ts.attestations.len = 0 then none else some ts })

/-! ## Reads -/

/-- `getRawKeyed`: the slot as stored, tombstones included. -/
def RecordStore.getRawKeyed (s : RecordStore) (topic : Topic) (node : NodeID) (key : Bytes) :
    Option Record :=
  match s.byTopic.lookup topic with
  | none => none
  | some ts => ts.records.lookup { nodeID := node, key := key }

/-- `GetKeyed`: the slot if it is live. -/
def RecordStore.getKeyed (s : RecordStore) (topic : Topic) (node : NodeID) (key : Bytes) :
    Option Record :=
  match s.getRawKeyed topic node key with
  | none => none
  | some r => if r.tombstone then none else some r

/-- `NodeRecords`: the live records of a node, in canonical slot order. -/
def RecordStore.nodeRecords (s : RecordStore) (topic : Topic) (node : NodeID) : List Record :=
  match s.byTopic.lookup topic with
  | none => []
  | some ts =>
    let live := ts.records.entries.filter fun e => e.1.nodeID == node && !e.2.tombstone
    (sortSlice lessRecordKey (live.map Sigma.fst)).map fun k => (ts.records.lookup k).getD {}

/-- `topicRecordsWhere`: the kept records of a topic in canonical slot order. -/
def RecordStore.topicRecordsWhere (s : RecordStore) (topic : Topic) (keep : Record → Bool) :
    List Record :=
  match s.byTopic.lookup topic with
  | none => []
  | some ts =>
    sortSlice (fun a b => lessRecordKey (keyOf a) (keyOf b)) (ts.records.values.filter keep)

/-- `TopicRecords`: the live records. -/
def RecordStore.topicRecords (s : RecordStore) (topic : Topic) : List Record :=
  s.topicRecordsWhere topic fun r => !r.tombstone

/-- `topicRecordsAll`: every slot, tombstones included. -/
def RecordStore.topicRecordsAll (s : RecordStore) (topic : Topic) : List Record :=
  s.topicRecordsWhere topic fun _ => true

/-- `topicRecordsSigned`: the records that carry a signature, the view the roots are taken of. -/
def RecordStore.topicRecordsSigned (s : RecordStore) (topic : Topic) : List Record :=
  s.topicRecordsWhere topic fun r => decide (0 < r.sig.length)

/-- The order `topicAttestations` lists witnesses in. -/
def lessAttestation (a b : Record) : Bool :=
  if a.nodeID ≠ b.nodeID then decide (a.nodeID < b.nodeID)
  else decide (a.observerNodeID < b.observerNodeID)

/-- `topicAttestations`: the witnesses of every target of a topic. -/
def RecordStore.topicAttestations (s : RecordStore) (topic : Topic) : List Record :=
  match s.byTopic.lookup topic with
  | none => []
  | some ts => sortSlice lessAttestation (ts.attestations.values.flatMap FMap.values)

/-- `Topics`, in order. -/
def RecordStore.topics (s : RecordStore) : List Topic :=
  sortSlice (fun a b => decide (a < b)) s.byTopic.keys

end Swarm
