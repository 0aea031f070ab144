import Swarm.Lib.Codec
import Swarm.Record

/-!
# Hash and signatures

SHA-256 and Ed25519 are functions the rest of the development is parametric in. What the code
relies on unconditionally, the widths of digests, public keys and signatures, is part of the
structure; what it relies on cryptographically is stated as a hypothesis where it is used.
-/

namespace Swarm

/-- The hash and signature functions of the platform. -/
structure Crypto where
  sha256 : Bytes → Bytes
  /-- `priv.Public()`. -/
  ed25519Public : Bytes → Bytes
  ed25519Sign : Bytes → Bytes → Bytes
  ed25519Verify : Bytes → Bytes → Bytes → Bool
  sha256_length : ∀ m, (sha256 m).length = 32
  ed25519Public_length : ∀ priv, (ed25519Public priv).length = 32
  ed25519Sign_length : ∀ priv m, (ed25519Sign priv m).length = 64

/-- What a private key signs, its public key verifies. -/
def Crypto.SignVerifies (cr : Crypto) : Prop :=
  ∀ priv m, cr.ed25519Verify (cr.ed25519Public priv) m (cr.ed25519Sign priv m) = true

/-- SHA-256 has no collision among the given messages. -/
def Crypto.CollisionFreeOn (cr : Crypto) (S : Set Bytes) : Prop := Set.InjOn cr.sha256 S

/-- Among the given pairs of public key and message, a signature verifies for at most one. -/
def Crypto.SignatureUniqueOn (cr : Crypto) (M : Set (Bytes × Bytes)) : Prop :=
  ∀ p ∈ M, ∀ q ∈ M, ∀ sig, cr.ed25519Verify p.1 p.2 sig = true →
    cr.ed25519Verify q.1 q.2 sig = true → p = q

/-- Functions with the given digests, public keys and signatures. Elsewhere a digest is the message
cut to its width, and nothing but the listed signatures verifies. -/
def Crypto.ofTables (digests publicKeys : List (Bytes × Bytes))
    (signatures : List ((Bytes × Bytes) × Bytes)) : Crypto where
  sha256 m := ((digests.lookup m).getD m).takeD 32 0
  ed25519Public priv := ((publicKeys.lookup priv).getD []).takeD 32 0
  ed25519Sign priv m := ((signatures.lookup (priv, m)).getD []).takeD 64 0
  ed25519Verify pub m sig :=
    signatures.any fun e => publicKeys.lookup e.1.1 == some pub && e.1.2 == m && e.2 == sig
  sha256_length _ := List.takeD_length ..
  ed25519Public_length _ := List.takeD_length ..
  ed25519Sign_length _ _ := List.takeD_length ..

/-- A checksum of 32 bytes: the bytes of the message as the digits of a number, in base 257. -/
def checksum (m : Bytes) : Bytes :=
  Codec.beBytes 32 (m.foldl (fun n b => n * 257 + (b.toNat + 1)) 0)

/-- Functions in the clear, for runs on fixed inputs: digests are checksums, and a signature is the
public key with the checksum of the message. -/
def Crypto.inClear : Crypto where
  sha256 := checksum
  ed25519Public priv := priv.takeD 32 0
  ed25519Sign priv m := priv.takeD 32 0 ++ checksum m
  ed25519Verify pub m sig := pub ++ checksum m == sig
  sha256_length _ := Codec.length_beBytes ..
  ed25519Public_length _ := List.takeD_length ..
  ed25519Sign_length _ _ := by
    rw [List.length_append, List.takeD_length, checksum, Codec.length_beBytes]

theorem Crypto.inClear_signVerifies : Crypto.inClear.SignVerifies := fun _ _ => beq_self_eq_true _

end Swarm
