import Swarm.Lib.Codec
import Swarm.Crypto

/-!
# Canonical signing bytes and signatures

`sig.go`. `signableBytes` is the message a record is signed over. Topic, body, observer and key
carry a length; the node id and the public key do not, and the lengths of topic, observer and key
keep 16 bits only. So the bytes determine the record as soon as the lengths of topic, node id,
public key and observer are known (`signed_fields_of_lengths`).
-/

namespace Swarm

open Codec (beBytes)

/-- The conditional suffix: nothing for the keyless slot. -/
def keySuffix (key : Bytes) : Bytes :=
  if 0 < key.length then beBytes 2 key.length ++ key else []

/-- The fields of a record that stand before the observer fields. -/
def ownerPart (r : Record) : Bytes :=
  beBytes 2 r.topic.length ++ r.topic ++
    r.nodeID ++
    beBytes 8 r.hlc.toNat ++
    [if r.tombstone then 1 else 0] ++
    beBytes 4 r.body.length ++ r.body ++
    r.pubKey

/-- The observer fields and the key. -/
def observerPart (r : Record) : Bytes :=
  beBytes 2 r.observerNodeID.length ++ r.observerNodeID ++
    beBytes 8 r.observedAtUnixMs.toUInt64.toNat ++
    keySuffix r.key

/-- `signableBytes`: the message a record is signed over. -/
def signableBytes (r : Record) : Bytes := ownerPart r ++ observerPart r

/-- `signRecord`: stamp the public key, then sign. -/
def signRecord (cr : Crypto) (r : Record) (priv : Bytes) : Record :=
  let r := { r with pubKey := cr.ed25519Public priv }
  { r with sig := cr.ed25519Sign priv (signableBytes r) }

/-- `verifyRecord`. -/
def verifyRecord (cr : Crypto) (r : Record) (pub : Bytes) : Bool :=
  if r.sig.length ≠ 64 then false else cr.ed25519Verify pub (signableBytes r) r.sig

/-! ## Node ids as hex keys -/

/-- `hexNibble`: both cases are accepted. -/
def hexNibble (c : UInt8) : Option UInt8 :=
  if 0x30 ≤ c ∧ c ≤ 0x39 then some (c - 0x30)
  else if 0x61 ≤ c ∧ c ≤ 0x66 then some (c - 0x61 + 10)
  else if 0x41 ≤ c ∧ c ≤ 0x46 then some (c - 0x41 + 10)
  else none

/-- The loop of `pubFromNodeID`: two digits a byte. -/
def hexDecode : Bytes → Option Bytes
  | hi :: lo :: rest => do
    let h ← hexNibble hi
    let l ← hexNibble lo
    let bytes ← hexDecode rest
    return ((h <<< 4) ||| l) :: bytes
  | _ => some []

/-- `pubFromNodeID`. -/
def pubFromNodeID (id : NodeID) : Option Bytes := if id.length ≠ 64 then none else hexDecode id

/-- One digit of the lower-case alphabet. -/
def hexDigit (n : UInt8) : UInt8 := if n < 10 then 0x30 + n else 0x61 + (n - 10)

/-- `nodeIDFromPub`. -/
def nodeIDFromPub (pub : Bytes) : NodeID :=
  pub.flatMap fun (b : UInt8) => [hexDigit (b >>> 4), hexDigit (b &&& 0x0f)]

/-- `VerifyRecord`, the exported check: the key comes from the node id. -/
def VerifyRecord (cr : Crypto) (r : Record) : Bool :=
  match pubFromNodeID r.nodeID with
  | none => false
  | some pub =>
    if r.pubKey.length ≠ 0 ∧ r.pubKey ≠ pub then false else verifyRecord cr r pub

/-- A byte is recovered from its two digits. -/
theorem hexByte_round_trip (b : UInt8) :
    hexNibble (hexDigit (b >>> 4)) = some (b >>> 4) ∧
      hexNibble (hexDigit (b &&& 0x0f)) = some (b &&& 0x0f) ∧
      ((b >>> 4) <<< 4) ||| (b &&& 0x0f) = b := by
  revert b
  exact Words.forall_byte (by decide +kernel)

theorem hexDecode_nodeIDFromPub (pub : Bytes) : hexDecode (nodeIDFromPub pub) = some pub := by
  induction pub with
  | nil => rfl
  | cons b pub ih =>
    obtain ⟨hhi, hlo, hb⟩ := hexByte_round_trip b
    show hexDecode (hexDigit (b >>> 4) :: hexDigit (b &&& 0x0f) :: nodeIDFromPub pub) = _
    simp [hexDecode, hhi, hlo, hb, ih]

theorem length_nodeIDFromPub (pub : Bytes) : (nodeIDFromPub pub).length = 2 * pub.length := by
  unfold nodeIDFromPub
  rw [List.length_flatMap]
  simp [mul_comm]

theorem pubFromNodeID_nodeIDFromPub {pub : Bytes} (h : pub.length = 32) :
    pubFromNodeID (nodeIDFromPub pub) = some pub := by
  unfold pubFromNodeID
  rw [if_neg (by rw [length_nodeIDFromPub, h]; decide), hexDecode_nodeIDFromPub]

/-- The exported check agrees with the embedded key of a record bound to it. -/
theorem VerifyRecord_of_bound {cr : Crypto} {r : Record} (hpub : r.pubKey.length = 32)
    (hid : r.nodeID = nodeIDFromPub r.pubKey) (hsig : verifyRecord cr r r.pubKey = true) :
    VerifyRecord cr r = true := by
  unfold VerifyRecord
  rw [hid, pubFromNodeID_nodeIDFromPub hpub]
  dsimp only
  rw [if_neg (by rintro ⟨-, h⟩; exact h rfl)]
  exact hsig

/-- A record verifies under the key it was signed with. -/
theorem verifyRecord_signRecord {cr : Crypto} (hcr : cr.SignVerifies) (r : Record) (priv : Bytes) :
    verifyRecord cr (signRecord cr r priv) (cr.ed25519Public priv) = true := by
  unfold verifyRecord
  rw [if_neg (by rw [not_not]; exact cr.ed25519Sign_length _ _)]
  exact hcr priv _

theorem sig_ne_nil_of_verify {cr : Crypto} {r : Record} {pub : Bytes}
    (h : verifyRecord cr r pub = true) : r.sig ≠ [] := by
  intro hnil
  unfold verifyRecord at h
  rw [hnil, if_pos (by decide)] at h
  cases h

/-! ## Unique reading of the signing bytes -/

/-- Agreement on every field a signature covers. -/
structure SameSigned (r s : Record) : Prop where
  topic : r.topic = s.topic
  nodeID : r.nodeID = s.nodeID
  key : r.key = s.key
  hlc : r.hlc = s.hlc
  body : r.body = s.body
  tombstone : r.tombstone = s.tombstone
  pubKey : r.pubKey = s.pubKey
  observerNodeID : r.observerNodeID = s.observerNodeID
  observedAtUnixMs : r.observedAtUnixMs = s.observedAtUnixMs

theorem length_keySuffix (k : Bytes) :
    (keySuffix k).length = if 0 < k.length then 2 + k.length else 0 := by
  unfold keySuffix
  split_ifs <;> simp

theorem keySuffix_inj {k k' : Bytes} (h : keySuffix k = keySuffix k') : k = k' := by
  have hl := congrArg List.length h
  rw [length_keySuffix, length_keySuffix] at hl
  unfold keySuffix at h
  split_ifs at hl h with hk hk' hk'
  · exact (List.append_inj h (by simp)).2
  · omega
  · omega
  · have hnil : k = [] := List.eq_nil_of_length_eq_zero (by omega)
    have hnil' : k' = [] := List.eq_nil_of_length_eq_zero (by omega)
    rw [hnil, hnil']

theorem length_observerPart (r : Record) :
    (observerPart r).length = 10 + r.observerNodeID.length + (keySuffix r.key).length := by
  unfold observerPart
  simp only [List.length_append, Codec.length_beBytes]
  omega

/-- The width of an observer id that fits its length field. -/
theorem observer_length_of_observerPart {r s : Record} (hr : r.observerNodeID.length ≤ 65535)
    (hs : s.observerNodeID.length ≤ 65535) (h : observerPart r = observerPart s) :
    r.observerNodeID.length = s.observerNodeID.length := by
  unfold observerPart at h
  simp only [List.append_assoc] at h
  exact Codec.eq_of_beBytes_eq (by omega) (by omega) (List.append_inj h (by simp)).1

/-- Reading the observer fields, once the width of the observer id is known. -/
theorem observerPart_inj {r s : Record} (ho : r.observerNodeID.length = s.observerNodeID.length)
    (h : observerPart r = observerPart s) :
    r.observerNodeID = s.observerNodeID ∧ r.observedAtUnixMs = s.observedAtUnixMs ∧
      r.key = s.key := by
  unfold observerPart at h
  simp only [List.append_assoc] at h
  obtain ⟨-, h⟩ := List.append_inj h (by simp)
  obtain ⟨hobs, h⟩ := List.append_inj h ho
  obtain ⟨hat, h⟩ := List.append_inj h (by simp)
  exact ⟨hobs, Codec.int64_inj hat, keySuffix_inj h⟩

/-- Reading the fields in front of the body, once the widths of topic and node id are known. Of the
length of the body the bytes carry 32 bits. -/
theorem front_inj {r s : Record} (ht : r.topic.length = s.topic.length)
    (hn : r.nodeID.length = s.nodeID.length) (h : signableBytes r = signableBytes s) :
    r.topic = s.topic ∧ r.nodeID = s.nodeID ∧ r.hlc = s.hlc ∧ r.tombstone = s.tombstone ∧
      r.body.length % 2 ^ 32 = s.body.length % 2 ^ 32 ∧
      r.body ++ (r.pubKey ++ observerPart r) = s.body ++ (s.pubKey ++ observerPart s) := by
  unfold signableBytes ownerPart at h
  simp only [List.append_assoc] at h
  obtain ⟨-, h⟩ := List.append_inj h (by simp)
  obtain ⟨htopic, h⟩ := List.append_inj h ht
  obtain ⟨hnode, h⟩ := List.append_inj h hn
  obtain ⟨hhlc, h⟩ := List.append_inj h (by simp)
  obtain ⟨htomb, h⟩ := List.append_inj h (by simp)
  obtain ⟨hblen, hrest⟩ := List.append_inj h (by simp)
  refine ⟨htopic, hnode, Codec.uint64_inj hhlc, ?_, Codec.beBytes_inj.mp hblen, hrest⟩
  revert htomb
  cases r.tombstone <;> cases s.tombstone <;> simp

/-- Reading the fields in front of the observer, once the width of the public key is known too. -/
theorem ownerPart_inj {r s : Record} (ht : r.topic.length = s.topic.length)
    (hn : r.nodeID.length = s.nodeID.length) (hp : r.pubKey.length = s.pubKey.length)
    (hr : r.body.length < 2 ^ 32) (hs : s.body.length < 2 ^ 32)
    (h : signableBytes r = signableBytes s) :
    r.topic = s.topic ∧ r.nodeID = s.nodeID ∧ r.hlc = s.hlc ∧ r.tombstone = s.tombstone ∧
      r.body = s.body ∧ r.pubKey = s.pubKey ∧ observerPart r = observerPart s := by
  obtain ⟨htopic, hnode, hhlc, htomb, hblen, h⟩ := front_inj ht hn h
  rw [Nat.mod_eq_of_lt hr, Nat.mod_eq_of_lt hs] at hblen
  obtain ⟨hbody, h⟩ := List.append_inj h hblen
  obtain ⟨hpub, hrest⟩ := List.append_inj h hp
  exact ⟨htopic, hnode, hhlc, htomb, hbody, hpub, hrest⟩

/-- Records with equal signing bytes and equal widths of topic, node id, public key and observer
agree on every signed field. -/
theorem signed_fields_of_lengths {r s : Record} (ht : r.topic.length = s.topic.length)
    (hn : r.nodeID.length = s.nodeID.length) (hp : r.pubKey.length = s.pubKey.length)
    (ho : r.observerNodeID.length = s.observerNodeID.length)
    (hr : r.body.length < 2 ^ 32) (hs : s.body.length < 2 ^ 32)
    (h : signableBytes r = signableBytes s) : SameSigned r s := by
  obtain ⟨htopic, hnode, hhlc, htomb, hbody, hpub, hrest⟩ := ownerPart_inj ht hn hp hr hs h
  obtain ⟨hobs, hat, hkey⟩ := observerPart_inj ho hrest
  exact ⟨htopic, hnode, hkey, hhlc, hbody, htomb, hpub, hobs, hat⟩

/-- The same for bodies of any length, where observer and key fit their length fields: the bytes
show the length of the body modulo `2 ^ 32`, and what follows it is shorter than that. -/
theorem signed_fields_of_fits {r s : Record} (ht : r.topic.length = s.topic.length)
    (hn : r.nodeID.length = s.nodeID.length) (hp : r.pubKey.length = s.pubKey.length)
    (hro : r.observerNodeID.length ≤ 65535) (hso : s.observerNodeID.length ≤ 65535)
    (hrk : r.key.length ≤ 65535) (hsk : s.key.length ≤ 65535)
    (h : signableBytes r = signableBytes s) : SameSigned r s := by
  obtain ⟨htopic, hnode, hhlc, htomb, hmod, h⟩ := front_inj ht hn h
  have hblen : r.body.length = s.body.length := by
    have hlen := congrArg List.length h
    simp only [List.length_append, length_observerPart, length_keySuffix] at hlen
    split_ifs at hlen <;> omega
  obtain ⟨hbody, h⟩ := List.append_inj h hblen
  obtain ⟨hpub, hrest⟩ := List.append_inj h hp
  obtain ⟨hobs, hat, hkey⟩ :=
    observerPart_inj (observer_length_of_observerPart hro hso hrest) hrest
  exact ⟨htopic, hnode, hkey, hhlc, hbody, htomb, hpub, hobs, hat⟩

/-- **Signing bytes are injective on the bound domain.** With 64-byte node ids, 32-byte public keys
and every other length within its field, records with equal signing bytes agree on every signed
field; so neither a key nor the role of an attestation can be exchanged under a signature. -/
theorem signableBytes_inj_bound (r s : Record)
    (hrn : r.nodeID.length = 64) (hsn : s.nodeID.length = 64)
    (hrp : r.pubKey.length = 32) (hsp : s.pubKey.length = 32)
    (hrt : r.topic.length ≤ 65535) (hst : s.topic.length ≤ 65535)
    (hro : r.observerNodeID.length ≤ 65535) (hso : s.observerNodeID.length ≤ 65535)
    (hrb : r.body.length < 2 ^ 32) (hsb : s.body.length < 2 ^ 32)
    (h : signableBytes r = signableBytes s) :
    SameSigned r s ∧ (r.key = [] ↔ s.key = []) ∧
      r.isObserverAttestation = s.isObserverAttestation := by
  have ht : r.topic.length = s.topic.length := by
    have h' := h
    unfold signableBytes ownerPart at h'
    simp only [List.append_assoc] at h'
    exact Codec.eq_of_beBytes_eq (by omega) (by omega) (List.append_inj h' (by simp)).1
  obtain ⟨-, -, -, -, -, -, hrest⟩ :=
    ownerPart_inj ht (hrn.trans hsn.symm) (hrp.trans hsp.symm) hrb hsb h
  have ho := observer_length_of_observerPart hro hso hrest
  have hsame := signed_fields_of_lengths ht (hrn.trans hsn.symm) (hrp.trans hsp.symm) ho hrb hsb h
  refine ⟨hsame, by rw [hsame.key], ?_⟩
  unfold Record.isObserverAttestation
  rw [hsame.tombstone, hsame.observerNodeID]

/-- A keyed attestation with a 64-byte target. -/
def boundRecord : Record :=
  { topic := [0x74], nodeID := List.replicate 64 0x61, hlc := 65536, tombstone := true
    pubKey := List.replicate 32 7, key := [0x6b], observerNodeID := List.replicate 64 0x62
    observedAtUnixMs := 1 }

theorem boundRecord_read :
    SameSigned boundRecord { boundRecord with sig := [1] } :=
  (signableBytes_inj_bound boundRecord { boundRecord with sig := [1] } (by decide) (by decide)
    (by decide) (by decide) (by decide) (by decide) (by decide) (by decide) (by decide) (by decide)
    rfl).1

end Swarm
