import Swarm.Crypto

/-!
# Frames

The wire messages of `proto/swarm.proto` with the constructors of `codec.go`. Frames travel as
protobuf; what the rest relies on is that decoding undoes encoding and that both fail on a string
field that is not valid UTF-8. So a frame is carried as a value, and `Frame.encodes` says whether
it has bytes at all.
-/

namespace Swarm

/-- A continuation byte of UTF-8. -/
def utf8Cont (b : UInt8) : Bool := decide (0x80 ≤ b) && decide (b ≤ 0xBF)

/-- The second byte a three-byte sequence may have after its first. -/
def utf8Second3 (a b : UInt8) : Bool :=
  if a = 0xE0 then decide (0xA0 ≤ b) && decide (b ≤ 0xBF)
  else if a = 0xED then decide (0x80 ≤ b) && decide (b ≤ 0x9F)
  else utf8Cont b

/-- The second byte a four-byte sequence may have after its first. -/
def utf8Second4 (a b : UInt8) : Bool :=
  if a = 0xF0 then decide (0x90 ≤ b) && decide (b ≤ 0xBF)
  else if a = 0xF4 then decide (0x80 ≤ b) && decide (b ≤ 0x8F)
  else utf8Cont b

/-- `utf8.ValidString`: no overlong forms, no surrogates, nothing above `U+10FFFF`. -/
def utf8Valid : Bytes → Bool
  | [] => true
  | a :: rest =>
    if a < 0x80 then utf8Valid rest
    else if a < 0xC2 then false
    else
      match rest with
      | [] => false
      | b :: rest =>
        if a < 0xE0 then utf8Cont b && utf8Valid rest
        else
          match rest with
          | [] => false
          | c :: rest =>
            if a < 0xF0 then utf8Second3 a b && utf8Cont c && utf8Valid rest
            else
              match rest with
              | [] => false
              | d :: rest =>
                if a < 0xF5 then utf8Second4 a b && utf8Cont c && utf8Cont d && utf8Valid rest
                else false

/-- The wire messages. Byte fields that are absent on the wire decode as `none` where the code
tests them for `nil`. -/
inductive Frame where
  | eager (record : Option Record) (ttl : UInt32)
  | ihave (topic : Topic) (nodeID : NodeID) (hlc : UInt64) (bodyHash key : Bytes)
  | graft (topic : Topic) (nodeID : NodeID) (hlc : UInt64) (key : Bytes)
  | prune (topic : Topic)
  | merkle (topic : Topic) (rangeStart rangeEnd : Option Bytes) (rootHash : Bytes)
  | merkleRange (topic : Topic) (records : List Record) (truncated : Bool)
  | keepalive
  | fetchReq (requestID : UInt64) (hash : Bytes)
  | fetchResp (requestID : UInt64) (body error : Bytes)
  /-- No kind set: what an empty message decodes to. -/
  | empty
  deriving DecidableEq

/-- The string fields of a record. -/
def Record.strings (r : Record) : List Bytes := [r.topic, r.key]

/-- The string fields of a frame. -/
def Frame.strings : Frame → List Bytes
  | .eager record _ => (record.map Record.strings).getD []
  | .ihave topic _ _ _ key => [topic, key]
  | .graft topic _ _ key => [topic, key]
  | .prune topic => [topic]
  | .merkle topic _ _ _ => [topic]
  | .merkleRange topic records _ => topic :: records.flatMap Record.strings
  | .keepalive => []
  | .fetchReq _ _ => []
  | .fetchResp _ _ error => [error]
  | .empty => []

/-- Whether `encodeFrame` succeeds, and whether bytes can decode to the frame. -/
def Frame.encodes (f : Frame) : Bool := f.strings.all utf8Valid

/-- The records a frame carries. -/
def Frame.records : Frame → List Record
  | .eager (some r) _ => [r]
  | .merkleRange _ records _ => records
  | _ => []

def frameEagerPush (r : Record) (ttl : UInt32) : Frame := .eager (some r) ttl

def frameIHave (topic : Topic) (nodeID : NodeID) (key : Bytes) (hlc : UInt64) (h : Bytes) : Frame :=
  .ihave topic nodeID hlc h key

def frameGraft (topic : Topic) (nodeID : NodeID) (key : Bytes) (hlc : UInt64) : Frame :=
  .graft topic nodeID hlc key

def framePrune (topic : Topic) : Frame := .prune topic

/-- `bodyHash`. -/
def bodyHash (cr : Crypto) (r : Record) : Bytes := cr.sha256 r.body

end Swarm
