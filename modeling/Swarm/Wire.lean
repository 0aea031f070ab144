import Mathlib.Logic.Equiv.List
import Mathlib.Tactic.DeriveEncodable
import Swarm.Lib.Marshal
import Swarm.Node

/-!
# What was published, on the wire

`codec.go`. The messages of `proto/swarm.proto` with their own types, where `Frame` carries records
as the node has them. Protobuf is a `Marshaller` that accepts a message exactly when its string
fields are valid UTF-8, and `Frame.encodes` is that condition (`isSome_encodeFrame_iff`).

`PublishKeyed` checks lengths only, and topic and key are strings on the wire. A record whose topic
or key is not valid UTF-8 is published without an error and leaves the node in no frame, nor does
any page of records it is in.
-/

namespace Swarm

instance uint8Encodable : Encodable UInt8 :=
  .ofLeftInverse UInt8.toNat UInt8.ofNat fun _ => UInt8.ofNat_toNat

instance uint32Encodable : Encodable UInt32 :=
  .ofLeftInverse UInt32.toNat UInt32.ofNat fun _ => UInt32.ofNat_toNat

instance uint64Encodable : Encodable UInt64 :=
  .ofLeftInverse UInt64.toNat UInt64.ofNat fun _ => UInt64.ofNat_toNat

instance int64Encodable : Encodable Int64 :=
  .ofLeftInverse Int64.toUInt64 Int64.ofUInt64 fun _ => rfl

/-- The message `Record`. -/
structure PbRecord where
  topic : Bytes
  nodeID : Bytes
  hlc : UInt64
  body : Bytes
  tombstone : Bool
  sig : Bytes
  pubKey : Bytes
  observerNodeID : Bytes
  observedAtUnixMs : Int64
  key : Bytes
  deriving Encodable

/-- The message `Frame` with its kinds. A bytes field that is absent is empty. -/
inductive PbFrame where
  | eager (record : Option PbRecord) (ttl : UInt32)
  | ihave (topic nodeID : Bytes) (hlc : UInt64) (bodyHash key : Bytes)
  | graft (topic nodeID : Bytes) (hlc : UInt64) (key : Bytes)
  | prune (topic : Bytes)
  | merkle (topic rangeStart rangeEnd rootHash : Bytes)
  | merkleRange (topic : Bytes) (records : List PbRecord) (truncated : Bool)
  | keepalive
  | fetchReq (requestID : UInt64) (hash : Bytes)
  | fetchResp (requestID : UInt64) (body error : Bytes)
  | empty
  deriving Encodable

/-- `recordToProto`. -/
def recordToProto (r : Record) : PbRecord where
  topic := r.topic
  nodeID := r.nodeID
  hlc := r.hlc
  body := r.body
  tombstone := r.tombstone
  sig := r.sig
  pubKey := r.pubKey
  observerNodeID := r.observerNodeID
  observedAtUnixMs := r.observedAtUnixMs
  key := r.key

/-- `recordFromProto`. -/
def recordFromProto (p : PbRecord) : Record where
  topic := p.topic
  nodeID := p.nodeID
  hlc := p.hlc
  body := p.body
  tombstone := p.tombstone
  sig := p.sig
  pubKey := p.pubKey
  observerNodeID := p.observerNodeID
  observedAtUnixMs := p.observedAtUnixMs
  key := p.key

/-- The message a frame is sent as. -/
def Frame.toProto : Frame → PbFrame
  | .eager record ttl => .eager (record.map recordToProto) ttl
  | .ihave topic nodeID hlc bodyHash key => .ihave topic nodeID hlc bodyHash key
  | .graft topic nodeID hlc key => .graft topic nodeID hlc key
  | .prune topic => .prune topic
  | .merkle topic rangeStart rangeEnd rootHash =>
    .merkle topic (rangeStart.getD []) (rangeEnd.getD []) rootHash
  | .merkleRange topic records truncated => .merkleRange topic (records.map recordToProto) truncated
  | .keepalive => .keepalive
  | .fetchReq requestID hash => .fetchReq requestID hash
  | .fetchResp requestID body error => .fetchResp requestID body error
  | .empty => .empty

/-- The string fields of a message. -/
def PbFrame.strings : PbFrame → List Bytes
  | .eager record _ => (record.map fun r => [r.topic, r.key]).getD []
  | .ihave topic _ _ _ key => [topic, key]
  | .graft topic _ _ key => [topic, key]
  | .prune topic => [topic]
  | .merkle topic _ _ _ => [topic]
  | .merkleRange topic records _ => topic :: records.flatMap fun r => [r.topic, r.key]
  | .keepalive => []
  | .fetchReq _ _ => []
  | .fetchResp _ _ error => [error]
  | .empty => []

/-- Every string field is valid UTF-8. -/
def PbFrame.text (f : PbFrame) : Bool := f.strings.all utf8Valid

/-- `encodeFrame`. -/
def encodeFrame (pb : Marshaller PbFrame) (f : PbFrame) : Option Bytes := pb.marshal f

/-- `decodeFrame`. -/
def decodeFrame (pb : Marshaller PbFrame) (b : Bytes) : Option PbFrame := pb.unmarshal b

theorem strings_toProto (f : Frame) : f.toProto.strings = f.strings := by
  cases f with
  | eager record ttl =>
    cases record with
    | none => rfl
    | some r => rfl
  | merkleRange topic records truncated =>
    show topic :: (records.map recordToProto).flatMap (fun r => [r.topic, r.key]) = _
    rw [List.flatMap_map]
    rfl
  | _ => rfl

theorem text_toProto (f : Frame) : f.toProto.text = f.encodes := by
  unfold PbFrame.text Frame.encodes
  rw [strings_toProto]

/-- A frame has bytes exactly when it encodes. -/
theorem isSome_encodeFrame_iff {pb : Marshaller PbFrame} (hpb : pb.Accepts PbFrame.text)
    (f : Frame) : (encodeFrame pb f.toProto).isSome = true ↔ f.encodes = true := by
  rw [← text_toProto]
  exact hpb.isSome_marshal_iff f.toProto

/-! ## Eager pushes and pages of records -/

/-- An eager push of the record arrives with its signed bytes and its signature. -/
def Travels (pb : Marshaller PbFrame) (r : Record) (ttl : UInt32) : Prop :=
  ∃ bytes p, encodeFrame pb (frameEagerPush r ttl).toProto = some bytes ∧
    decodeFrame pb bytes = some (.eager (some p) ttl) ∧
    signableBytes (recordFromProto p) = signableBytes r ∧ (recordFromProto p).sig = r.sig

theorem encodes_frameEagerPush_iff (r : Record) (ttl : UInt32) :
    (frameEagerPush r ttl).encodes = true ↔ utf8Valid r.topic = true ∧ utf8Valid r.key = true := by
  simp [frameEagerPush, Frame.encodes, Frame.strings, Record.strings]

theorem encodes_merkleRange_iff (topic : Topic) (records : List Record) (truncated : Bool) :
    (Frame.merkleRange topic records truncated).encodes = true ↔
      utf8Valid topic = true ∧
        ∀ r ∈ records, utf8Valid r.topic = true ∧ utf8Valid r.key = true := by
  simp [Frame.encodes, Frame.strings, Record.strings]

theorem travels_iff {pb : Marshaller PbFrame} (hpb : pb.Accepts PbFrame.text) (r : Record)
    (ttl : UInt32) : Travels pb r ttl ↔ utf8Valid r.topic = true ∧ utf8Valid r.key = true := by
  rw [← encodes_frameEagerPush_iff r ttl]
  constructor
  · rintro ⟨bytes, p, hbytes, -⟩
    rw [← isSome_encodeFrame_iff hpb, hbytes]
    rfl
  · intro henc
    obtain ⟨bytes, hbytes, hread⟩ := hpb.inverse (frameEagerPush r ttl).toProto
      ((text_toProto _).trans henc)
    exact ⟨bytes, recordToProto r, hbytes, hread, rfl, rfl⟩

/-- A call of `PublishKeyed` that returned without an error. -/
structure Publication where
  env : Env
  node : Node
  rd : Reading
  topic : Topic
  key : Bytes
  body : Bytes
  accepted : (node.publishKeyed env rd topic key body).1 = none

/-- The record the call published. -/
def Publication.record (p : Publication) : Record :=
  ownRecord p.env p.node p.rd { topic := p.topic, key := p.key, body := p.body }

theorem Publication.publishes (p : Publication) :
    (p.node.publishKeyed p.env p.rd p.topic p.key p.body).2 =
      ((p.node.stamp p.rd).plumPublish p.env p.rd p.record).accept p.record := by
  have haccepted := p.accepted
  unfold Node.publishKeyed at haccepted ⊢
  split_ifs at haccepted ⊢
  exact publishOwn_eq ..

/-- **What was published travels exactly when topic and key are text.** For every marshaller that
behaves as protobuf on strings: an eager push of a record published without an error is encoded, and
read back with its signed bytes and its signature, exactly when topic and key are valid UTF-8; and a
page of such records is encoded exactly when this holds of each of them. -/
theorem published_travels_iff (pb : Marshaller PbFrame) (hpb : pb.Accepts PbFrame.text) :
    (∀ (p : Publication) (ttl : UInt32),
      Travels pb p.record ttl ↔ utf8Valid p.topic = true ∧ utf8Valid p.key = true) ∧
    (∀ (topic : Topic) (ps : List Publication) (truncated : Bool),
      (encodeFrame pb
        (Frame.merkleRange topic (ps.map Publication.record) truncated).toProto).isSome = true ↔
      utf8Valid topic = true ∧ ∀ p ∈ ps, utf8Valid p.topic = true ∧ utf8Valid p.key = true) := by
  constructor
  · intro p ttl
    exact travels_iff hpb p.record ttl
  · intro topic ps truncated
    rw [isSome_encodeFrame_iff hpb, encodes_merkleRange_iff, List.forall_mem_map]
    rfl

/-- A publish on topic `t` under a key of one byte. -/
def publishUnder (b : UInt8) : Publication where
  env := plainEnv
  node := newNode ⟨0, 0⟩ fun _ => {}
  rd := ⟨1000000000, 1000000000⟩
  topic := [0x74]
  key := [b]
  body := [1]
  accepted := rfl

/-- The key `k` travels. -/
theorem text_key_travels :
    Travels (.numbered PbFrame.text) (publishUnder 0x6b).record eagerTTL :=
  ((published_travels_iff (.numbered PbFrame.text) (Marshaller.numbered_accepts _)).1
    (publishUnder 0x6b) eagerTTL).mpr ⟨by decide, by decide⟩

/-- The key `0xff` is published and does not travel; the page with both records has no bytes
either. -/
theorem byte_key_stays :
    ((publishUnder 0xff).node.publishKeyed (publishUnder 0xff).env (publishUnder 0xff).rd [0x74]
      [0xff] [1]).1 = none ∧
    encodeFrame (.numbered PbFrame.text)
      (frameEagerPush (publishUnder 0xff).record eagerTTL).toProto = none ∧
    encodeFrame (.numbered PbFrame.text)
      (Frame.merkleRange [0x74] [(publishUnder 0x6b).record, (publishUnder 0xff).record]
        false).toProto = none := by
  refine ⟨rfl, ?_, ?_⟩
  · exact (Marshaller.numbered_accepts PbFrame.text).refuses _ (by decide)
  · exact (Marshaller.numbered_accepts PbFrame.text).refuses _ (by decide)

end Swarm
