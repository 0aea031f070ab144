import Swarm.Lib.Codec
import Swarm.Crypto
import Swarm.Store.View

/-!
# Merkle roots

`topicMerkleRoot` of `merkle.go`: one digest over the signed records of a topic in canonical
order, restricted to an inclusive range of node ids. Each record contributes the digest of its
node id, its clock and the digest of its signature; the key, the body and the tombstone flag are
reached only through the signature.

The root is a function of the signed view of the topic (`topicMerkleRoot_congr`), and of that it
reads the clocks and signatures only (`topicMerkleRoot_congr_rank`).
-/

namespace Swarm

open Codec (beBytes)

/-- Whether a node id lies in `[rangeStart, rangeEnd]`; a bound that is `none` is open. -/
def inRange (rangeStart rangeEnd : Option Bytes) (node : NodeID) : Bool :=
  !(rangeStart.any fun a => bytesLess node a) && !(rangeEnd.any fun b => bytesLess b node)

/-- What one record writes into the hash. -/
def rootEntry (cr : Crypto) (r : Record) : Bytes :=
  cr.sha256 r.nodeID ++ beBytes 8 r.hlc.toNat ++ cr.sha256 r.sig

/-- The records a root covers, in the order they are hashed. -/
def rangeRecords (s : RecordStore) (topic : Topic) (rangeStart rangeEnd : Option Bytes) :
    List Record :=
  (s.topicRecordsSigned topic).filter fun r => inRange rangeStart rangeEnd r.nodeID

/-- What the hash is taken of. -/
def rootPreimage (cr : Crypto) (s : RecordStore) (topic : Topic)
    (rangeStart rangeEnd : Option Bytes) : Bytes :=
  (rangeRecords s topic rangeStart rangeEnd).flatMap (rootEntry cr)

/-- `topicMerkleRoot`. -/
def topicMerkleRoot (cr : Crypto) (s : RecordStore) (topic : Topic)
    (rangeStart rangeEnd : Option Bytes) : Bytes :=
  cr.sha256 (rootPreimage cr s topic rangeStart rangeEnd)

/-- The record carries a signature. -/
def signed (r : Record) : Bool := decide (0 < r.sig.length)

/-- The signed record of a full slot. -/
def RecordStore.signedView (s : RecordStore) : LastWriter.View (Topic × RecordKey) Record :=
  fun k => (s.slotView k).filter signed

theorem length_rootEntry (cr : Crypto) (r : Record) : (rootEntry cr r).length = 72 := by
  unfold rootEntry
  rw [List.length_append, List.length_append, Codec.length_beBytes, cr.sha256_length,
    cr.sha256_length]

/-- Entries have one width, so the preimage shows how many records it covers. -/
theorem length_rootPreimage (cr : Crypto) (s : RecordStore) (t : Topic) (a b : Option Bytes) :
    (rootPreimage cr s t a b).length = (rangeRecords s t a b).length * 72 := by
  unfold rootPreimage
  rw [List.length_flatMap]
  induction rangeRecords s t a b with
  | nil => rfl
  | cons r l ih =>
    rw [List.map_cons, List.sum_cons, ih, length_rootEntry, List.length_cons]
    omega

theorem rangeRecords_open (s : RecordStore) (t : Topic) :
    rangeRecords s t none none = s.topicRecordsSigned t :=
  List.filter_eq_self.mpr fun _ _ => rfl

/-! ## Ranges -/

theorem inRange_iff {a b : Option Bytes} {node : NodeID} :
    inRange a b node = true ↔ (∀ x, a = some x → x ≤ node) ∧ ∀ y, b = some y → node ≤ y := by
  unfold inRange
  cases a <;> cases b <;>
    simp [Option.any, ← Bool.not_eq_true, bytesLess_iff, not_lt]

theorem mem_rangeRecords {s : RecordStore} {t : Topic} {a b : Option Bytes} {r : Record} :
    r ∈ rangeRecords s t a b ↔
      (∃ k, s.slotView (t, k) = some r) ∧ signed r = true ∧ inRange a b r.nodeID = true := by
  unfold rangeRecords RecordStore.topicRecordsSigned
  rw [List.mem_filter, mem_topicRecordsWhere, and_assoc]
  rfl

theorem rangeRecords_pairwise {s : RecordStore} {t : Topic} (hp : Placed t (s.topic t))
    (a b : Option Bytes) :
    (rangeRecords s t a b).Pairwise fun x y => (keyOf x).lex < (keyOf y).lex :=
  (topicRecordsWhere_pairwise hp signed).sublist List.filter_sublist

theorem rangeRecords_nodup {s : RecordStore} {t : Topic} (hp : Placed t (s.topic t))
    (a b : Option Bytes) : (rangeRecords s t a b).Nodup :=
  (rangeRecords_pairwise hp a b).imp fun h he => absurd (he ▸ h) (lt_irrefl _)

/-- A range lists the signed view of its slots. -/
theorem mem_rangeRecords_iff_signedView {s : RecordStore} {t : Topic} (hp : Placed t (s.topic t))
    {a b : Option Bytes} {r : Record} :
    r ∈ rangeRecords s t a b ↔
      s.signedView (t, keyOf r) = some r ∧ inRange a b r.nodeID = true := by
  unfold RecordStore.signedView
  rw [mem_rangeRecords, Option.filter_eq_some_iff, and_assoc]
  refine and_congr_left fun _ => ⟨?_, fun hr => ⟨_, hr⟩⟩
  rintro ⟨k, hr⟩
  rwa [show keyOf r = k from congrArg Prod.snd (hp k r hr)]

/-- Ranges are equal exactly when their slots agree on signed records. -/
theorem rangeRecords_eq_iff {s s' : RecordStore} {t : Topic} (hp : Placed t (s.topic t))
    (hp' : Placed t (s'.topic t)) {a b : Option Bytes} :
    rangeRecords s t a b = rangeRecords s' t a b ↔
      ∀ k, inRange a b k.nodeID = true → s.signedView (t, k) = s'.signedView (t, k) := by
  constructor
  · intro h k hk
    have hmatch : ∀ {s s' : RecordStore}, Placed t (s.topic t) → Placed t (s'.topic t) →
        rangeRecords s t a b = rangeRecords s' t a b →
        ∀ r, s.signedView (t, k) = some r → s'.signedView (t, k) = some r := by
      intro s s' hp hp' h r hr
      obtain rfl : keyOf r = k :=
        congrArg Prod.snd (hp k r (Option.filter_eq_some_iff.mp hr).1)
      have hin := (mem_rangeRecords_iff_signedView hp).mpr ⟨hr, hk⟩
      rw [h] at hin
      exact ((mem_rangeRecords_iff_signedView hp').mp hin).1
    exact Option.ext fun r => ⟨hmatch hp hp' h r, hmatch hp' hp h.symm r⟩
  · intro h
    -- both lists ascend strictly, so their members decide
    refine List.Perm.eq_of_pairwise (fun x y _ _ hxy hyx => absurd (hxy.trans hyx) (lt_irrefl _))
      (rangeRecords_pairwise hp a b) (rangeRecords_pairwise hp' a b) ?_
    refine (List.perm_ext_iff_of_nodup (rangeRecords_nodup hp a b)
      (rangeRecords_nodup hp' a b)).mpr fun r => ?_
    rw [mem_rangeRecords_iff_signedView hp, mem_rangeRecords_iff_signedView hp']
    exact and_congr_left fun hr => by rw [h (keyOf r) hr]

/-- The root depends only on the signed view of the topic. -/
theorem topicMerkleRoot_congr (cr : Crypto) {s s' : RecordStore} {t : Topic}
    (hp : Placed t (s.topic t)) (h : ∀ k, s.signedView (t, k) = s'.signedView (t, k))
    (rangeStart rangeEnd : Option Bytes) :
    topicMerkleRoot cr s t rangeStart rangeEnd = topicMerkleRoot cr s' t rangeStart rangeEnd := by
  have hlist : s.topicRecordsSigned t = s'.topicRecordsSigned t := topicRecordsWhere_congr hp h
  unfold topicMerkleRoot rootPreimage rangeRecords
  rw [hlist]

/-- What a root reads of a record: its slot, its clock and its signature. -/
theorem map_rangeRecords_congr {s s' : RecordStore} {t : Topic} (hp : Placed t (s.topic t))
    (hp' : Placed t (s'.topic t))
    (h : ∀ k, (s.signedView (t, k)).map rankOf = (s'.signedView (t, k)).map rankOf)
    (a b : Option Bytes) :
    (rangeRecords s t a b).map (fun r => (keyOf r, rankOf r)) =
      (rangeRecords s' t a b).map fun r => (keyOf r, rankOf r) := by
  have hascend : ∀ {s : RecordStore}, Placed t (s.topic t) →
      ((rangeRecords s t a b).map fun r => (keyOf r, rankOf r)).Pairwise
        fun x y => x.1.lex < y.1.lex :=
    fun hp => List.pairwise_map.mpr (rangeRecords_pairwise hp a b)
  have hmatch : ∀ {s s' : RecordStore}, Placed t (s.topic t) → Placed t (s'.topic t) →
      (∀ k, (s.signedView (t, k)).map rankOf = (s'.signedView (t, k)).map rankOf) →
      ∀ x ∈ (rangeRecords s t a b).map fun r => (keyOf r, rankOf r),
        x ∈ (rangeRecords s' t a b).map fun r => (keyOf r, rankOf r) := by
    intro s s' hp hp' h x hx
    obtain ⟨r, hr, rfl⟩ := List.mem_map.mp hx
    obtain ⟨hview, hin⟩ := (mem_rangeRecords_iff_signedView hp).mp hr
    have hk := h (keyOf r)
    rw [hview, Option.map_some, eq_comm, Option.map_eq_some_iff] at hk
    obtain ⟨r', hview', hrank⟩ := hk
    have hkey : keyOf r' = keyOf r :=
      congrArg Prod.snd (hp' _ r' (Option.filter_eq_some_iff.mp hview').1)
    refine List.mem_map.mpr ⟨r', (mem_rangeRecords_iff_signedView hp').mpr ?_, ?_⟩
    · rw [hkey, show r'.nodeID = r.nodeID from congrArg RecordKey.nodeID hkey]
      exact ⟨hview', hin⟩
    · rw [hkey, hrank]
  -- both lists ascend strictly, so their members decide
  have hnodup : ∀ {s : RecordStore}, Placed t (s.topic t) →
      ((rangeRecords s t a b).map fun r => (keyOf r, rankOf r)).Nodup :=
    fun hp => (hascend hp).imp fun hlt heq => absurd (heq ▸ hlt) (lt_irrefl _)
  refine List.Perm.eq_of_pairwise (fun x y _ _ hxy hyx => absurd (hxy.trans hyx) (lt_irrefl _))
    (hascend hp) (hascend hp') ?_
  exact (List.perm_ext_iff_of_nodup (hnodup hp) (hnodup hp')).mpr fun x =>
    ⟨hmatch hp hp' h x, hmatch hp' hp (fun k => (h k).symm) x⟩

/-- The root depends only on the clocks and signatures of the signed view. -/
theorem topicMerkleRoot_congr_rank (cr : Crypto) {s s' : RecordStore} {t : Topic}
    (hp : Placed t (s.topic t)) (hp' : Placed t (s'.topic t))
    (h : ∀ k, (s.signedView (t, k)).map rankOf = (s'.signedView (t, k)).map rankOf)
    (rangeStart rangeEnd : Option Bytes) :
    topicMerkleRoot cr s t rangeStart rangeEnd = topicMerkleRoot cr s' t rangeStart rangeEnd := by
  have hentries : ∀ l : List Record, l.flatMap (rootEntry cr) =
      (l.map fun r => (keyOf r, rankOf r)).flatMap fun p =>
        cr.sha256 p.1.nodeID ++ beBytes 8 (ofLex p.2).1.toNat ++ cr.sha256 (ofLex p.2).2 := by
    intro l
    rw [List.flatMap_map]
    rfl
  unfold topicMerkleRoot rootPreimage
  rw [hentries, hentries, map_rangeRecords_congr hp hp' h]

/-! ## What a root determines -/

/-- What is hashed for roots over records of a set: ids, signatures and lists of entries. -/
def rootMessages (cr : Crypto) (S : Set Record) : Set Bytes :=
  {m | (∃ r ∈ S, m = r.nodeID ∨ m = r.sig) ∨
    ∃ l : List Record, l.Nodup ∧ (∀ r ∈ l, r ∈ S) ∧ m = l.flatMap (rootEntry cr)}

/-- Only four messages are hashed for roots over one record. -/
theorem rootMessages_singleton {cr : Crypto} {r : Record} {m : Bytes}
    (hm : m ∈ rootMessages cr {r}) : m ∈ [r.nodeID, r.sig, [], rootEntry cr r] := by
  rcases hm with ⟨_, rfl, rfl | rfl⟩ | ⟨l, hl, hr, rfl⟩
  · simp
  · simp
  · cases l with
    | nil => simp
    | cons x l =>
      cases l with
      | nil =>
        rw [Set.mem_singleton_iff.mp (hr x List.mem_cons_self)]
        simp
      | cons y l =>
        have hx := hr x List.mem_cons_self
        have hy := hr y (List.mem_cons_of_mem _ List.mem_cons_self)
        rw [Set.mem_singleton_iff.mp hx, Set.mem_singleton_iff.mp hy] at hl
        exact absurd List.mem_cons_self (List.nodup_cons.mp hl).1

/-- A node id, a clock and a signature stand for at most one record of the set. -/
def EntryPinned (S : Set Record) : Prop :=
  ∀ r ∈ S, ∀ r' ∈ S, r.nodeID = r'.nodeID → r.hlc = r'.hlc → r.sig = r'.sig → r = r'

section Determines

variable {cr : Crypto} {S : Set Record}

theorem eq_of_rootEntry_eq (hcf : cr.CollisionFreeOn (rootMessages cr S)) (hpin : EntryPinned S)
    {r r' : Record} (hr : r ∈ S) (hr' : r' ∈ S) (h : rootEntry cr r = rootEntry cr r') :
    r = r' := by
  unfold rootEntry at h
  obtain ⟨h, hsig⟩ := List.append_inj h (by
    rw [List.length_append, List.length_append, cr.sha256_length, cr.sha256_length,
      Codec.length_beBytes, Codec.length_beBytes])
  obtain ⟨hid, hhlc⟩ := List.append_inj h (by rw [cr.sha256_length, cr.sha256_length])
  refine hpin r hr r' hr' (hcf ?_ ?_ hid) (UInt64.toNat_inj.mp ?_) (hcf ?_ ?_ hsig)
  · exact Or.inl ⟨r, hr, Or.inl rfl⟩
  · exact Or.inl ⟨r', hr', Or.inl rfl⟩
  · exact Codec.eq_of_beBytes_eq r.hlc.toNat_lt r'.hlc.toNat_lt hhlc
  · exact Or.inl ⟨r, hr, Or.inr rfl⟩
  · exact Or.inl ⟨r', hr', Or.inr rfl⟩

theorem flatMap_rootEntry_ne_nil (cr : Crypto) (r : Record) (l : List Record) :
    (r :: l).flatMap (rootEntry cr) ≠ [] := by
  intro h
  have := congrArg List.length h
  rw [List.flatMap_cons, List.length_append, length_rootEntry, List.length_nil] at this
  omega

/-- Entries have one width, so a preimage determines the list it was made from. -/
theorem eq_of_flatMap_rootEntry_eq (hcf : cr.CollisionFreeOn (rootMessages cr S))
    (hpin : EntryPinned S) {l l' : List Record} (hl : ∀ r ∈ l, r ∈ S) (hl' : ∀ r ∈ l', r ∈ S)
    (h : l.flatMap (rootEntry cr) = l'.flatMap (rootEntry cr)) : l = l' := by
  induction l generalizing l' with
  | nil =>
    cases l' with
    | nil => rfl
    | cons r' l' => exact absurd h.symm (flatMap_rootEntry_ne_nil cr r' l')
  | cons r l ih =>
    cases l' with
    | nil => exact absurd h (flatMap_rootEntry_ne_nil cr r l)
    | cons r' l' =>
      rw [List.flatMap_cons, List.flatMap_cons] at h
      obtain ⟨hhead, htail⟩ := List.append_inj h (by rw [length_rootEntry, length_rootEntry])
      rw [eq_of_rootEntry_eq hcf hpin (hl r List.mem_cons_self) (hl' r' List.mem_cons_self) hhead,
        ih (fun x hx => hl x (List.mem_cons_of_mem _ hx))
          (fun x hx => hl' x (List.mem_cons_of_mem _ hx)) htail]

/-- Ranges with records the hypotheses pin down have equal roots only if they are equal. -/
theorem rangeRecords_eq_of_root_eq (hcf : cr.CollisionFreeOn (rootMessages cr S))
    (hpin : EntryPinned S) {s s' : RecordStore} {t : Topic} {a b : Option Bytes}
    (hp : Placed t (s.topic t)) (hp' : Placed t (s'.topic t))
    (hS : ∀ r ∈ rangeRecords s t a b, r ∈ S) (hS' : ∀ r ∈ rangeRecords s' t a b, r ∈ S)
    (h : topicMerkleRoot cr s t a b = topicMerkleRoot cr s' t a b) :
    rangeRecords s t a b = rangeRecords s' t a b := by
  refine eq_of_flatMap_rootEntry_eq hcf hpin hS hS' (hcf ?_ ?_ h)
  · exact Or.inr ⟨_, rangeRecords_nodup hp a b, hS, rfl⟩
  · exact Or.inr ⟨_, rangeRecords_nodup hp' a b, hS', rfl⟩

end Determines

end Swarm
