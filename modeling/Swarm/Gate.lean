import Swarm.Hlc
import Swarm.Sig

/-!
# Configuration and the inbound gate

`Config` of `swarm.go` with the defaults `New` fills in, and `inboundGate.Admit` of `harden.go`,
which every record off the wire passes after its signature check and before the store.

The gate bounds the key and the body; nothing bounds the topic, the node id or the observer, whose
widths the signing bytes do not pin down. `admitted_signature_unambiguous_iff` is what remains:
two admitted records with the same signing bytes are the same exactly when those widths agree.
-/

namespace Swarm

/-- The settings of a node that the modelled functions read. Integers may be given as zero or
negative and are then replaced by defaults. -/
structure Config where
  nodeID : NodeID := []
  privKey : Bytes := []
  maxRecordBytes : ℤ := 0
  treeDegree : ℤ := 0
  graftDelay : Duration := 0
  merkleProbeInterval : Duration := 0
  /-- `TrustCheck`: the error text when it rejects. -/
  trustCheck : Option (Record → Option String) := none
  requireNodeKeyBinding : Bool := false
  maxClockSkew : Duration := 0
  maxTopics : ℤ := 0
  maxRecordsPerTopic : ℤ := 0
  maxKeysPerNodePerTopic : ℤ := 0
  maxAttestationsPerTarget : ℤ := 0
  maxPendingIHaves : ℤ := 0
  topicTTL : Option (Topic → Duration) := none

/-- The defaults `New` fills in. -/
def Config.withDefaults (cr : Crypto) (cfg : Config) : Config :=
  { cfg with
    nodeID := if cfg.nodeID = [] then nodeIDFromPub (cr.ed25519Public cfg.privKey) else cfg.nodeID
    maxRecordBytes := if cfg.maxRecordBytes ≤ 0 then 16384 else cfg.maxRecordBytes
    treeDegree := if cfg.treeDegree ≤ 0 then 4 else cfg.treeDegree }

/-- The longest key the signing bytes can carry. -/
def maxKeyBytes : ℕ := 65535

/-- `inboundGate`. -/
structure InboundGate where
  maxBytes : ℤ
  maxSkew : Duration
  binding : Bool
  trustCheck : Option (Record → Option String)

/-- `newInboundGate`. -/
def newInboundGate (cfg : Config) : InboundGate where
  maxBytes := cfg.maxRecordBytes
  maxSkew := if cfg.maxClockSkew ≤ 0 then 10 * minute else cfg.maxClockSkew
  binding := cfg.requireNodeKeyBinding
  trustCheck := cfg.trustCheck

/-- The reasons a record is rejected for. -/
inductive GateError where
  | keyTooLong
  | tooLarge
  | skew
  | binding
  | trust (reason : String)
  deriving DecidableEq

/-- The error texts. -/
def GateError.text : GateError → String
  | .keyTooLong => "swarm: record key exceeds MaxKeyBytes"
  | .tooLarge => "swarm: inbound record body exceeds maximum size"
  | .skew => "swarm: inbound record HLC too far in the future"
  | .binding => "swarm: record NodeID does not bind to its public key"
  | .trust reason => "swarm: trust check rejected record: " ++ reason

/-- The counters behind `Rejections`. -/
structure GateStats where
  size : ℕ := 0
  skew : ℕ := 0
  binding : ℕ := 0
  trust : ℕ := 0

/-- The counter a rejection moves. -/
def GateStats.count (g : GateStats) : Option GateError → GateStats
  | none => g
  | some .keyTooLong => { g with size := g.size + 1 }
  | some .tooLarge => { g with size := g.size + 1 }
  | some .skew => { g with skew := g.skew + 1 }
  | some .binding => { g with binding := g.binding + 1 }
  | some (.trust _) => { g with trust := g.trust + 1 }

/-- The identity a record has to be bound to: attestations bind their observer. -/
def Record.bindID (r : Record) : NodeID :=
  if r.isObserverAttestation then r.observerNodeID else r.nodeID

/-- `inboundGate.Admit` under the wall reading `nowMs`; `none` lets the record proceed. -/
def InboundGate.gateAdmit (g : InboundGate) (nowMs : Int64) (r : Record) : Option GateError :=
  if maxKeyBytes < r.key.length then some .keyTooLong
  else if 0 < g.maxBytes ∧ g.maxBytes < r.body.length then some .tooLarge
  else if nowMs.toUInt64 + g.maxSkew.milliseconds.toUInt64 < (decompose r.hlc).1 then some .skew
  else if g.binding ∧ (r.pubKey.length ≠ 32 ∨ r.bindID ≠ nodeIDFromPub r.pubKey) then some .binding
  else
    match g.trustCheck with
    | none => none
    | some check => (check r).map .trust

/-- What a record passes on both wire paths before it reaches the store. -/
def InboundGate.letThrough (cr : Crypto) (g : InboundGate) (nowMs : Int64) (r : Record) : Bool :=
  decide (r.pubKey.length = 32) && verifyRecord cr r r.pubKey && (g.gateAdmit nowMs r).isNone

section LetThrough

variable {cr : Crypto} {g : InboundGate} {nowMs : Int64} {r : Record}

theorem letThrough_iff : g.letThrough cr nowMs r = true ↔
    r.pubKey.length = 32 ∧ verifyRecord cr r r.pubKey = true ∧ g.gateAdmit nowMs r = none := by
  unfold InboundGate.letThrough
  rw [Bool.and_eq_true, Bool.and_eq_true, decide_eq_true_iff, Option.isNone_iff_eq_none, and_assoc]

/-- What an admitted record satisfies. -/
structure GateOk (g : InboundGate) (nowMs : Int64) (r : Record) : Prop where
  key : r.key.length ≤ maxKeyBytes
  body : 0 < g.maxBytes → (r.body.length : ℤ) ≤ g.maxBytes
  skew : (decompose r.hlc).1 ≤ nowMs.toUInt64 + g.maxSkew.milliseconds.toUInt64
  binding : g.binding = true → r.pubKey.length = 32 ∧ r.bindID = nodeIDFromPub r.pubKey
  trust : ∀ check, g.trustCheck = some check → check r = none

theorem gateAdmit_eq_none_iff : g.gateAdmit nowMs r = none ↔ GateOk g nowMs r := by
  unfold InboundGate.gateAdmit
  constructor
  · intro h
    split_ifs at h with hkey hbody hskew hbind
    refine ⟨not_lt.mp hkey, fun hpos => not_lt.mp fun hlt => hbody ⟨hpos, hlt⟩, not_lt.mp hskew,
      fun hb => ?_, fun check hcheck => ?_⟩
    · by_contra hno
      exact hbind ⟨hb, not_and_or.mp hno⟩
    · rw [hcheck] at h
      exact Option.map_eq_none_iff.mp h
  · intro h
    rw [if_neg (not_lt.mpr h.key), if_neg fun hc => not_lt.mpr (h.body hc.1) hc.2,
      if_neg (not_lt.mpr h.skew), if_neg fun hc => not_and_or.mpr hc.2 (h.binding hc.1)]
    split
    · rfl
    · rename_i check hcheck
      rw [h.trust check hcheck]
      rfl

end LetThrough

/-- **Admission and signatures.** Take a node with the default configuration, whatever its node id
and key. Two records it lets through on the wire with the same signing bytes agree on every
signed field exactly when their topics, node ids and observer ids have the same lengths. -/
theorem admitted_signature_unambiguous_iff (cr : Crypto) (id : NodeID) (priv : Bytes)
    (nowMs nowMs' : Int64) (r s : Record)
    (hr : (newInboundGate (Config.withDefaults cr { nodeID := id, privKey := priv })).letThrough
      cr nowMs r = true)
    (hs : (newInboundGate (Config.withDefaults cr { nodeID := id, privKey := priv })).letThrough
      cr nowMs' s = true)
    (h : signableBytes r = signableBytes s) :
    SameSigned r s ↔ r.topic.length = s.topic.length ∧ r.nodeID.length = s.nodeID.length ∧
      r.observerNodeID.length = s.observerNodeID.length := by
  obtain ⟨hrp, -, hrg⟩ := letThrough_iff.mp hr
  obtain ⟨hsp, -, hsg⟩ := letThrough_iff.mp hs
  have hmax : (newInboundGate (Config.withDefaults cr { nodeID := id, privKey := priv })).maxBytes =
      16384 := rfl
  have hrb := (gateAdmit_eq_none_iff.mp hrg).body (by rw [hmax]; decide)
  have hsb := (gateAdmit_eq_none_iff.mp hsg).body (by rw [hmax]; decide)
  rw [hmax] at hrb hsb
  constructor
  · intro hsame
    exact ⟨by rw [hsame.topic], by rw [hsame.nodeID], by rw [hsame.observerNodeID]⟩
  · rintro ⟨ht, hn, ho⟩
    exact signed_fields_of_lengths ht hn (hrp.trans hsp.symm) ho (by omega) (by omega) h

/-- The Ed25519 key pair used below, as `seed || public key`. -/
def samplePub : Bytes :=
  [215, 90, 152, 1, 130, 177, 10, 183, 213, 75, 254, 211, 201, 100, 7, 58, 14, 225, 114, 243, 218,
    166, 35, 37, 175, 2, 26, 104, 247, 7, 81, 26]

def samplePriv : Bytes :=
  [157, 97, 177, 157, 239, 253, 90, 96, 186, 132, 74, 244, 146, 236, 44, 196, 68, 73, 197, 105, 123,
    50, 105, 25, 112, 59, 172, 3, 28, 174, 127, 96] ++ samplePub

/-- The Ed25519 signature of `capturedRecord`. -/
def capturedSig : Bytes :=
  [40, 130, 229, 25, 251, 222, 173, 185, 252, 36, 88, 125, 153, 123, 73, 217, 103, 188, 68, 219,
    160, 158, 138, 53, 169, 223, 6, 179, 161, 13, 115, 180, 3, 206, 161, 230, 229, 126, 16, 47, 133,
    85, 208, 244, 91, 180, 26, 172, 96, 157, 87, 62, 31, 90, 19, 22, 186, 157, 128, 65, 134, 146,
    114, 6]

/-- Node `a` publishes thirteen zero bytes at `(1, 0)`. -/
def capturedRecord : Record :=
  { topic := [0x74], nodeID := [0x61], hlc := 65536, body := List.replicate 13 0
    pubKey := samplePub, sig := capturedSig }

/-- The same signature on another node's empty record at clock zero: the clock, the tombstone flag
and the body length moved into the node id, the body became the clock, the flag and the length. -/
def replayedRecord : Record :=
  { topic := [0x74], nodeID := [0x61, 0, 0, 0, 0, 0, 1, 0, 0, 0, 0, 0, 0, 13]
    pubKey := samplePub, sig := capturedSig }

/-- Ed25519 on the key pair and the message of `capturedRecord`. -/
def captureCrypto : Crypto :=
  .ofTables [] [(samplePriv, samplePub)]
    [((samplePriv, signableBytes capturedRecord), capturedSig)]

theorem replayedRecord_admitted :
    (newInboundGate (Config.withDefaults captureCrypto { privKey := samplePriv })).letThrough
      captureCrypto 1000 capturedRecord = true ∧
    (newInboundGate (Config.withDefaults captureCrypto { privKey := samplePriv })).letThrough
      captureCrypto 1000 replayedRecord = true ∧
    signableBytes capturedRecord = signableBytes replayedRecord ∧
    capturedRecord.nodeID ≠ replayedRecord.nodeID ∧ capturedRecord.hlc ≠ replayedRecord.hlc ∧
    capturedRecord.body ≠ replayedRecord.body := by
  decide +kernel

/-- A record admitted at two readings is read the same way both times. The replayed one, admitted
under the same bytes, is not: its node id is longer. -/
theorem capturedRecord_unambiguous :
    SameSigned capturedRecord capturedRecord ∧ ¬SameSigned capturedRecord replayedRecord := by
  have hself := admitted_signature_unambiguous_iff captureCrypto [] samplePriv 1000 2000
    capturedRecord capturedRecord (by decide +kernel) (by decide +kernel) rfl
  have hother := admitted_signature_unambiguous_iff captureCrypto [] samplePriv 1000 1000
    capturedRecord replayedRecord (by decide +kernel) (by decide +kernel) (by decide +kernel)
  refine ⟨hself.mpr ⟨rfl, rfl, rfl⟩, fun hsame => ?_⟩
  obtain ⟨-, hlen, -⟩ := hother.mp hsame
  exact absurd hlen (by decide)

end Swarm
