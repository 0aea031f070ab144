import Mathlib.Algebra.Group.Action.Defs
import Swarm.Lib.Chunks
import Swarm.Lib.Marshal
import Swarm.Sig

/-!
# Manifests of chunked content

`manifest.go` with the manifest part of `sig.go`. A body is cut into chunks, and the signed manifest
lists their digests. Protobuf is a `Marshaller` the definitions are parametric in.

The signed bytes carry the number of chunks but not their widths, and 16 bits of the length of each
string. With digests of one width everything up to the chunks is read back, whatever the strings are
(`content_of_signable`); the rest is when the strings fit.
-/

namespace Swarm

open Codec (beBytes)

/-- The message `Manifest` of `proto/content.proto`. -/
structure Manifest where
  blobHash : Bytes := []
  totalSize : UInt64 := 0
  chunkSize : UInt32 := 0
  chunks : List Bytes := []
  filename : Bytes := []
  mime : Bytes := []
  publishedAt : Int64 := 0
  publisher : Bytes := []
  sig : Bytes := []
  deriving DecidableEq

/-- `signableManifestBytes`: everything but the signature. -/
def signableManifestBytes (m : Manifest) : Bytes :=
  m.blobHash ++
    beBytes 8 m.totalSize.toNat ++
    beBytes 4 m.chunkSize.toNat ++
    beBytes 4 m.chunks.length ++ m.chunks.flatten ++
    beBytes 2 m.filename.length ++ m.filename ++
    beBytes 2 m.mime.length ++ m.mime ++
    beBytes 8 m.publishedAt.toUInt64.toNat ++
    beBytes 2 m.publisher.length ++ m.publisher

/-- `verifyManifestSig`: the key comes from the publisher's node id. -/
def verifyManifestSig (cr : Crypto) (m : Manifest) : Bool :=
  if m.sig.length = 0 then false
  else
    match pubFromNodeID m.publisher with
    | none => false
    | some pub => cr.ed25519Verify pub (signableManifestBytes m) m.sig

/-- `ChunkBlob`: the digests of the chunks, and the chunks. -/
def chunkBlob (cr : Crypto) (body : Bytes) (chunkSize : UInt32) : List Bytes × List Bytes :=
  if chunkSize = 0 then ([], [])
  else
    let chunks := Chunks.split chunkSize.toNat body
    (chunks.map cr.sha256, chunks)

/-- The chunk size a manifest is built with: 1 MB in place of 0. -/
def effectiveChunkSize (chunkSize : UInt32) : UInt32 :=
  if chunkSize = 0 then (1 : UInt32) <<< 20 else chunkSize

/-- What `BuildSignedManifest` returns. -/
structure SignedManifest where
  manifestBytes : Bytes
  manifestHash : Bytes
  chunkHashes : List Bytes
  chunks : List Bytes

/-- The manifest that `BuildSignedManifest` marshals. -/
def signedManifest (cr : Crypto) (now : Int64) (body : Bytes) (chunkSize : UInt32)
    (filename mime priv : Bytes) : Manifest :=
  let chunkSize := effectiveChunkSize chunkSize
  let manifest : Manifest :=
    { blobHash := cr.sha256 body
      totalSize := UInt64.ofNat body.length
      chunkSize := chunkSize
      chunks := (chunkBlob cr body chunkSize).1
      filename := filename
      mime := mime
      publishedAt := now
      publisher := nodeIDFromPub (cr.ed25519Public priv) }
  { manifest with sig := cr.ed25519Sign priv (signableManifestBytes manifest) }

/-- `BuildSignedManifest`. -/
def buildSignedManifest (cr : Crypto) (pb : Marshaller Manifest) (now : Int64) (body : Bytes)
    (chunkSize : UInt32) (filename mime priv : Bytes) : Option SignedManifest :=
  let (chunkHashes, chunks) := chunkBlob cr body (effectiveChunkSize chunkSize)
  match pb.marshal (signedManifest cr now body chunkSize filename mime priv) with
  | none => none
  | some manifestBytes =>
    some
      { manifestBytes := manifestBytes
        manifestHash := cr.sha256 manifestBytes
        chunkHashes := chunkHashes
        chunks := chunks }

theorem effectiveChunkSize_pos (chunkSize : UInt32) :
    0 < (effectiveChunkSize chunkSize).toNat := by
  unfold effectiveChunkSize
  split_ifs with h
  · decide
  · rcases Nat.eq_zero_or_pos chunkSize.toNat with hzero | hpos
    · exact absurd (UInt32.toNat_inj.mp hzero) h
    · exact hpos

theorem chunkBlob_effective (cr : Crypto) (body : Bytes) (chunkSize : UInt32) :
    chunkBlob cr body (effectiveChunkSize chunkSize) =
      ((Chunks.split (effectiveChunkSize chunkSize).toNat body).map cr.sha256,
        Chunks.split (effectiveChunkSize chunkSize).toNat body) := by
  have hpos := effectiveChunkSize_pos chunkSize
  unfold chunkBlob
  rw [if_neg]
  intro hzero
  rw [hzero] at hpos
  exact absurd hpos (by decide)

/-- A manifest passes the check of its own signature. -/
theorem verifyManifestSig_signedManifest {cr : Crypto} (hcr : cr.SignVerifies) (now : Int64)
    (body : Bytes) (chunkSize : UInt32) (filename mime priv : Bytes) :
    verifyManifestSig cr (signedManifest cr now body chunkSize filename mime priv) = true := by
  have hsig : (signedManifest cr now body chunkSize filename mime priv).sig.length = 64 :=
    cr.ed25519Sign_length _ _
  have hpub : pubFromNodeID (signedManifest cr now body chunkSize filename mime priv).publisher =
      some (cr.ed25519Public priv) :=
    pubFromNodeID_nodeIDFromPub (cr.ed25519Public_length priv)
  unfold verifyManifestSig
  rw [if_neg (by rw [hsig]; decide), hpub]
  exact hcr priv _

/-- What the publisher stores and announces. -/
structure Publishes (cr : Crypto) (pb : Marshaller Manifest) (body : Bytes) (size : ℕ)
    (sm : SignedManifest) (m : Manifest) : Prop where
  marshalled : pb.marshal m = some sm.manifestBytes
  signed : verifyManifestSig cr m = true
  manifestHash : sm.manifestHash = cr.sha256 sm.manifestBytes
  blobHash : m.blobHash = cr.sha256 body
  chunks : sm.chunks = Chunks.split size body
  hashes : sm.chunkHashes = sm.chunks.map cr.sha256
  chunkHashes : m.chunks = sm.chunks.map cr.sha256

theorem publishes_of_build {cr : Crypto} (hcr : cr.SignVerifies) {pb : Marshaller Manifest}
    {now : Int64} {body : Bytes} {chunkSize : UInt32} {filename mime priv : Bytes}
    {sm : SignedManifest}
    (h : buildSignedManifest cr pb now body chunkSize filename mime priv = some sm) :
    Publishes cr pb body (effectiveChunkSize chunkSize).toNat sm
      (signedManifest cr now body chunkSize filename mime priv) := by
  unfold buildSignedManifest at h
  rw [chunkBlob_effective] at h
  dsimp only at h
  split at h
  · cases h
  · rename_i bytes hbytes
    cases h
    refine ⟨hbytes, verifyManifestSig_signedManifest hcr .., rfl, rfl, rfl, rfl, ?_⟩
    show (chunkBlob cr body (effectiveChunkSize chunkSize)).1 = _
    rw [chunkBlob_effective]

/-! ## Unique reading of the signed bytes -/

/-- Agreement on the fields that say what is fetched. -/
structure SameContent (m m' : Manifest) : Prop where
  blobHash : m.blobHash = m'.blobHash
  totalSize : m.totalSize = m'.totalSize
  chunkSize : m.chunkSize = m'.chunkSize
  chunks : m.chunks = m'.chunks

/-- Agreement on every field a manifest signature covers. -/
structure SameSignedManifest (m m' : Manifest) : Prop extends SameContent m m' where
  filename : m.filename = m'.filename
  mime : m.mime = m'.mime
  publishedAt : m.publishedAt = m'.publishedAt
  publisher : m.publisher = m'.publisher

/-- The digests of a manifest have the width `FetchBlob` asks for, and their number fits. -/
structure Digests (m : Manifest) : Prop where
  blobHash : m.blobHash.length = 32
  chunk : ∀ c ∈ m.chunks, c.length = 32
  count : m.chunks.length < 2 ^ 32

/-- The strings of a manifest fit their length fields. -/
structure FitsFields (m : Manifest) : Prop where
  filename : m.filename.length < 2 ^ 16
  mime : m.mime.length < 2 ^ 16
  publisher : m.publisher.length < 2 ^ 16

/-- The fields behind the chunks. -/
def manifestTail (m : Manifest) : Bytes :=
  beBytes 2 m.filename.length ++ (m.filename ++
    (beBytes 2 m.mime.length ++ (m.mime ++
      (beBytes 8 m.publishedAt.toUInt64.toNat ++
        (beBytes 2 m.publisher.length ++ (m.publisher ++ []))))))

section UniqueReading

variable {m m' : Manifest}

theorem signableManifestBytes_eq (m : Manifest) :
    signableManifestBytes m = m.blobHash ++ (beBytes 8 m.totalSize.toNat ++
      (beBytes 4 m.chunkSize.toNat ++ (beBytes 4 m.chunks.length ++
        (m.chunks.flatten ++ manifestTail m)))) := by
  unfold signableManifestBytes manifestTail
  simp only [List.append_assoc, List.append_nil]

theorem Digests.map_length (hm : Digests m) :
    m.chunks.map List.length = List.replicate m.chunks.length 32 :=
  List.map_eq_replicate_iff.mpr hm.chunk

theorem Digests.length_flatten (hm : Digests m) :
    m.chunks.flatten.length = m.chunks.length * 32 := by
  rw [List.length_flatten, hm.map_length, List.sum_replicate, smul_eq_mul]

/-- The fields up to the chunks are read whatever stands behind them. -/
theorem content_of_signable (hm : Digests m) (hm' : Digests m')
    (h : signableManifestBytes m = signableManifestBytes m') :
    SameContent m m' ∧ manifestTail m = manifestTail m' := by
  rw [signableManifestBytes_eq, signableManifestBytes_eq] at h
  obtain ⟨hblob, h⟩ := List.append_inj h (hm.blobHash.trans hm'.blobHash.symm)
  obtain ⟨htotal, h⟩ := List.append_inj h (by simp)
  obtain ⟨hsize, h⟩ := List.append_inj h (by simp)
  obtain ⟨hcount, h⟩ := List.append_inj h (by simp)
  have hlen : m.chunks.length = m'.chunks.length :=
    Codec.eq_of_beBytes_eq hm.count hm'.count hcount
  -- the chunks carry no lengths of their own: their number and common width cut them apart
  obtain ⟨hchunks, htail⟩ := List.append_inj h (by rw [hm.length_flatten, hm'.length_flatten, hlen])
  refine ⟨⟨hblob, Codec.uint64_inj htotal, ?_, ?_⟩, htail⟩
  · have := Codec.eq_of_beBytes_eq (UInt32.toNat_lt _) (UInt32.toNat_lt _) hsize
    exact UInt32.toNat_inj.mp this
  · exact List.eq_iff_flatten_eq.mpr ⟨hchunks, by rw [hm.map_length, hm'.map_length, hlen]⟩

/-- The fields behind the chunks are read when the strings fit. -/
theorem manifestTail_inj (hm : FitsFields m) (hm' : FitsFields m')
    (h : manifestTail m = manifestTail m') :
    m.filename = m'.filename ∧ m.mime = m'.mime ∧ m.publishedAt = m'.publishedAt ∧
      m.publisher = m'.publisher := by
  unfold manifestTail at h
  obtain ⟨hfile, h⟩ := Codec.field_inj hm.filename hm'.filename h
  obtain ⟨hmime, h⟩ := Codec.field_inj hm.mime hm'.mime h
  obtain ⟨hat, h⟩ := List.append_inj h (by simp)
  obtain ⟨hpub, -⟩ := Codec.field_inj hm.publisher hm'.publisher h
  exact ⟨hfile, hmime, Codec.int64_inj hat, hpub⟩

end UniqueReading

/-- **A manifest signature pins the content.** Manifests with 32-byte digests and equal signed bytes
list the same chunks of the same blob, whatever their strings; when the strings fit their length
fields the manifests agree on every signed field. -/
theorem signableManifestBytes_pins (m m' : Manifest) (hm : Digests m) (hm' : Digests m')
    (h : signableManifestBytes m = signableManifestBytes m') :
    SameContent m m' ∧ (FitsFields m → FitsFields m' → SameSignedManifest m m') := by
  obtain ⟨hcontent, htail⟩ := content_of_signable hm hm' h
  refine ⟨hcontent, fun hfits hfits' => ?_⟩
  obtain ⟨hfile, hmime, hat, hpub⟩ := manifestTail_inj hfits hfits' htail
  exact ⟨hcontent, hfile, hmime, hat, hpub⟩

/-- A manifest of two chunks. -/
def twoChunks : Manifest where
  blobHash := List.replicate 32 1
  totalSize := 3
  chunkSize := 2
  chunks := [List.replicate 32 2, List.replicate 32 3]
  filename := [0x66]
  publishedAt := 5
  publisher := List.replicate 64 0x61

theorem twoChunks_pinned : SameSignedManifest twoChunks { twoChunks with sig := [1] } :=
  (signableManifestBytes_pins twoChunks { twoChunks with sig := [1] }
    ⟨by decide, by decide, by decide⟩ ⟨by decide, by decide, by decide⟩ rfl).2
    ⟨by decide, by decide, by decide⟩ ⟨by decide, by decide, by decide⟩

end Swarm
