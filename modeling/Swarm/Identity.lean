import Swarm.Gate

/-!
# One key, one node id

`pubFromNodeID` reads hex digits of both cases, `nodeIDFromPub` writes lower case. So every key is
read back from its node id, but a key has one node id for each choice of case of its letters: the
ids a key is read from are those that fold to the one it writes (`pubFromNodeID_eq_some_iff`).

`VerifyRecord` takes the key from the node id, and the binding check of the gate compares the node
id with the one the key writes. For owner records with a key the two agree on the ids without an
upper-case digit, and only there.
-/

namespace Swarm

/-- A hex digit that is read and never written. -/
def isUpperHex (c : UInt8) : Bool := decide (0x41 ≤ c ∧ c ≤ 0x46)

/-- The digit that is written in its place. -/
def lowerHex (c : UInt8) : UInt8 := if isUpperHex c then c + 0x20 else c

/-- The id with its hex digits in lower case. -/
def foldHex (id : NodeID) : NodeID := id.map lowerHex

/-- No digit of the id is upper case. -/
def LowerCase (id : NodeID) : Prop := ∀ c ∈ id, isUpperHex c = false

instance LowerCase.decidable (id : NodeID) : Decidable (LowerCase id) :=
  inferInstanceAs (Decidable (∀ c ∈ id, isUpperHex c = false))

/-! ## Digits -/

/-- What `hexNibble` reads is a nibble, and its digit is the one read in lower case. -/
theorem hexDigit_of_hexNibble {c n : UInt8} (h : hexNibble c = some n) :
    n < 16 ∧ hexDigit n = lowerHex c := by
  have hall : ∀ c, (hexNibble c).all (fun n => decide (n < 16 ∧ hexDigit n = lowerHex c)) = true :=
    Words.forall_byte (by decide +kernel)
  have hc := hall c
  rw [h, Option.all_some, decide_eq_true_iff] at hc
  exact hc

/-- The case of a digit is not read. -/
theorem hexNibble_lowerHex (c : UInt8) : hexNibble (lowerHex c) = hexNibble c := by
  revert c
  exact Words.forall_byte (by decide +kernel)

theorem lowerHex_eq_self_iff (c : UInt8) : lowerHex c = c ↔ isUpperHex c = false := by
  revert c
  exact Words.forall_byte (by decide +kernel)

/-- A byte gives back the two nibbles it is put together from. -/
theorem nibbles_of_byte {h l : UInt8} (hh : h < 16) (hl : l < 16) :
    ((h <<< 4) ||| l) >>> 4 = h ∧ ((h <<< 4) ||| l) &&& 0x0f = l := by
  have hall : ∀ i j : Fin 16, let h := UInt8.ofNat i.val; let l := UInt8.ofNat j.val
      ((h <<< 4) ||| l) >>> 4 = h ∧ ((h <<< 4) ||| l) &&& 0x0f = l := by decide +kernel
  simpa using hall ⟨h.toNat, UInt8.lt_iff_toNat_lt.mp hh⟩ ⟨l.toNat, UInt8.lt_iff_toNat_lt.mp hl⟩

/-! ## Ids -/

theorem length_foldHex (id : NodeID) : (foldHex id).length = id.length := List.length_map lowerHex

theorem foldHex_eq_self_iff {id : NodeID} : foldHex id = id ↔ LowerCase id := by
  have hmap := List.map_eq_map_iff (f := lowerHex) (g := fun c => c) (l := id)
  rw [List.map_id'] at hmap
  exact hmap.trans (forall₂_congr fun c _ => lowerHex_eq_self_iff c)

/-- Where the loop stops, at most one digit is left. -/
theorem short_of_no_pair {id : NodeID} (h : ∀ hi lo rest, id = hi :: lo :: rest → False) :
    id = [] ∨ ∃ c, id = [c] := by
  rcases id with _ | ⟨hi, _ | ⟨lo, rest⟩⟩
  · exact Or.inl rfl
  · exact Or.inr ⟨hi, rfl⟩
  · exact absurd rfl (h hi lo rest)

theorem hexDecode_foldHex (id : NodeID) : hexDecode (foldHex id) = hexDecode id := by
  fun_induction hexDecode id with
  | case1 hi lo rest ih =>
    show hexDecode (lowerHex hi :: lowerHex lo :: foldHex rest) = _
    rw [hexDecode, hexNibble_lowerHex, hexNibble_lowerHex, ih]
  | case2 id hshort =>
    obtain rfl | ⟨c, rfl⟩ := short_of_no_pair hshort
    · rfl
    · rfl

/-- The key that is read writes the id in lower case. -/
theorem nodeIDFromPub_of_hexDecode {id : NodeID} {pub : Bytes} (hlen : Even id.length)
    (h : hexDecode id = some pub) : nodeIDFromPub pub = foldHex id := by
  fun_induction hexDecode id generalizing pub with
  | case1 hi lo rest ih =>
    obtain ⟨n, hn, h⟩ := Option.bind_eq_some_iff.mp h
    obtain ⟨m, hm, h⟩ := Option.bind_eq_some_iff.mp h
    obtain ⟨bytes, hrest, h⟩ := Option.bind_eq_some_iff.mp h
    obtain rfl := Option.some.inj h
    obtain ⟨hn16, hhi⟩ := hexDigit_of_hexNibble hn
    obtain ⟨hm16, hlo⟩ := hexDigit_of_hexNibble hm
    obtain ⟨hshift, hmask⟩ := nibbles_of_byte hn16 hm16
    have heven : Even rest.length := by
      rw [List.length_cons, List.length_cons] at hlen
      simpa [Nat.even_add_one] using hlen
    show hexDigit (((n <<< 4) ||| m) >>> 4) :: hexDigit (((n <<< 4) ||| m) &&& 0x0f) ::
      nodeIDFromPub bytes = lowerHex hi :: lowerHex lo :: foldHex rest
    rw [hshift, hmask, hhi, hlo, ih heven hrest]
  | case2 id hshort =>
    obtain rfl | ⟨c, rfl⟩ := short_of_no_pair hshort
    · obtain rfl := Option.some.inj h
      rfl
    · exact absurd hlen Nat.not_even_one

/-- The ids a key is read from are the spellings of the one it writes. -/
theorem pubFromNodeID_eq_some_iff {id : NodeID} {pub : Bytes} :
    pubFromNodeID id = some pub ↔ pub.length = 32 ∧ foldHex id = nodeIDFromPub pub := by
  constructor
  · intro h
    unfold pubFromNodeID at h
    split_ifs at h with hlen
    rw [not_not] at hlen
    have hid := nodeIDFromPub_of_hexDecode (by rw [hlen]; decide) h
    have hwidth := length_nodeIDFromPub pub
    rw [hid, length_foldHex, hlen] at hwidth
    exact ⟨by omega, hid.symm⟩
  · rintro ⟨hpub, hid⟩
    rw [← pubFromNodeID_nodeIDFromPub hpub, ← hid]
    unfold pubFromNodeID
    rw [length_foldHex, hexDecode_foldHex]

theorem nodeIDFromPub_eq_iff {id : NodeID} {pub : Bytes} (h : pubFromNodeID id = some pub) :
    nodeIDFromPub pub = id ↔ LowerCase id := by
  rw [← (pubFromNodeID_eq_some_iff.mp h).2, foldHex_eq_self_iff]

/-! ## The two checks -/

section Checks

variable {cr : Crypto} {g : InboundGate} {nowMs : Int64} {r : Record}

/-- The key of an accepted record is the one its node id is read as. -/
theorem pubFromNodeID_of_VerifyRecord (hr : VerifyRecord cr r = true)
    (hpub : r.pubKey.length = 32) : pubFromNodeID r.nodeID = some r.pubKey := by
  unfold VerifyRecord at hr
  split at hr
  · cases hr
  · rename_i pub hread
    split_ifs at hr with hother
    rw [not_and_not_right] at hother
    rw [hread, hother (by rw [hpub]; decide)]

/-- For an owner record the binding check compares the node id. -/
theorem bindID_of_owner (hown : r.isObserverAttestation = false) : r.bindID = r.nodeID := by
  unfold Record.bindID
  rw [hown]
  rfl

/-- A bound record is not rejected by the binding check. -/
theorem gateAdmit_ne_binding (hpub : r.pubKey.length = 32)
    (hbound : r.bindID = nodeIDFromPub r.pubKey) : g.gateAdmit nowMs r ≠ some .binding := by
  unfold InboundGate.gateAdmit
  intro h
  split_ifs at h with hkey hbody hskew hbind
  · cases h
  · cases h
  · cases h
  · exact hbind.2.elim (absurd hpub) (absurd hbound)
  · split at h
    · cases h
    · obtain ⟨reason, -, htrust⟩ := Option.map_eq_some_iff.mp h
      cases htrust

/-- For an owner record that `VerifyRecord` accepts with its key, the binding check asks for the
lower-case spelling. -/
theorem bound_iff_lowerCase (hown : r.isObserverAttestation = false)
    (hpub : r.pubKey.length = 32) (hr : VerifyRecord cr r = true) :
    r.bindID = nodeIDFromPub r.pubKey ↔ LowerCase r.nodeID := by
  rw [bindID_of_owner hown, eq_comm]
  exact nodeIDFromPub_eq_iff (pubFromNodeID_of_VerifyRecord hr hpub)

/-- **Keys and node ids.** Every key is read back from the id it writes. An id is the one its key
writes, two accepted records of one key name one node, and an accepted owner record with its key
passes the binding check, when the ids have no upper-case digit; an id that has one is never written
by its key, and every gate that checks the binding rejects its records. -/
theorem node_of_key (cr : Crypto) :
    (∀ pub : Bytes, pub.length = 32 → pubFromNodeID (nodeIDFromPub pub) = some pub) ∧
      (∀ (id : NodeID) (pub : Bytes), pubFromNodeID id = some pub →
        (nodeIDFromPub pub = id ↔ LowerCase id)) ∧
      (∀ (r s : Record) (pub : Bytes), VerifyRecord cr r = true → VerifyRecord cr s = true →
        pubFromNodeID r.nodeID = some pub → pubFromNodeID s.nodeID = some pub →
        foldHex r.nodeID = foldHex s.nodeID ∧
          (LowerCase r.nodeID → LowerCase s.nodeID → r.nodeID = s.nodeID)) ∧
      ∀ r : Record, r.isObserverAttestation = false → r.pubKey.length = 32 →
        VerifyRecord cr r = true →
        (LowerCase r.nodeID → ∀ (g : InboundGate) (nowMs : Int64),
          g.gateAdmit nowMs r ≠ some .binding) ∧
        (¬ LowerCase r.nodeID → ∀ (g : InboundGate) (nowMs : Int64), g.binding = true →
          g.gateAdmit nowMs r ≠ none) := by
  refine ⟨fun pub hpub => pubFromNodeID_nodeIDFromPub hpub,
    fun id pub hread => nodeIDFromPub_eq_iff hread, ?_, ?_⟩
  · intro r s pub _ _ hr hs
    refine ⟨(pubFromNodeID_eq_some_iff.mp hr).2.trans (pubFromNodeID_eq_some_iff.mp hs).2.symm, ?_⟩
    intro hrl hsl
    rw [← (nodeIDFromPub_eq_iff hr).mpr hrl, (nodeIDFromPub_eq_iff hs).mpr hsl]
  · intro r hown hpub hr
    constructor
    · intro hlower g nowMs
      exact gateAdmit_ne_binding hpub ((bound_iff_lowerCase hown hpub hr).mpr hlower)
    · intro hupper g nowMs hg hnone
      have hbound := ((gateAdmit_eq_none_iff.mp hnone).binding hg).2
      exact hupper ((bound_iff_lowerCase hown hpub hr).mp hbound)

end Checks

/-- A key whose digits are letters. -/
def letterKey : Bytes := List.replicate 32 0xab

/-- A record about the node of a given spelling, signed with `letterKey`. -/
def spelled (id : NodeID) : Record :=
  signRecord Crypto.inClear { topic := [0x74], nodeID := id, hlc := 65536, body := [1] } letterKey

/-- A gate that checks the binding, with no bound on bodies and no trust check. -/
def bindingGate : InboundGate where
  maxBytes := 0
  maxSkew := minute
  binding := true
  trustCheck := none

theorem lowerCase_identity :
    pubFromNodeID (nodeIDFromPub letterKey) = some letterKey ∧
      bindingGate.gateAdmit 1 (spelled (nodeIDFromPub letterKey)) ≠ some .binding :=
  ⟨(node_of_key Crypto.inClear).1 letterKey (by decide),
    ((node_of_key Crypto.inClear).2.2.2 (spelled (nodeIDFromPub letterKey)) (by decide +kernel)
      (by decide +kernel) (by decide +kernel)).1 (by decide +kernel) bindingGate 1⟩

/-- `nodeIDFromPub letterKey` in upper case. -/
def upperID : NodeID := (List.replicate 32 [0x41, 0x42]).flatten

/-- The upper-case spelling of an id is read as the same key, which does not write it. Records of
the key under both spellings are accepted, and the gate rejects one of them. -/
theorem upperCase_second_identity :
    pubFromNodeID upperID = some letterKey ∧ nodeIDFromPub letterKey ≠ upperID ∧
      VerifyRecord Crypto.inClear (spelled upperID) = true ∧
      VerifyRecord Crypto.inClear (spelled (nodeIDFromPub letterKey)) = true ∧
      (spelled upperID).pubKey = (spelled (nodeIDFromPub letterKey)).pubKey ∧
      (spelled upperID).pubKey.length = 32 ∧
      (spelled upperID).isObserverAttestation = false ∧
      bindingGate.gateAdmit 1 (spelled upperID) = some .binding ∧
      bindingGate.gateAdmit 1 (spelled (nodeIDFromPub letterKey)) = none := by
  decide +kernel

end Swarm
