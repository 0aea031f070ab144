import Swarm.Merkle.Root
import Swarm.Store.Fence

/-!
# Attestations and the Merkle root

Attestations are no part of the root, but a quorum writes unsigned tombstones over the slots of
its target, and a signed record it overwrites leaves the signed view. `root_fixed_iff` says that
this is the one way an attestation moves a root, and that runs free of it, whose owner records no
unsigned tombstone and no cap turns away, agree on every root whatever attestations they saw.
-/

namespace Swarm

/-- The record is one the synthesised tombstone overwrites. -/
def buried (synth r : Record) : Bool :=
  decide (r.nodeID = synth.nodeID) && decide (r.hlc < synth.hlc)

theorem buried_iff (synth r : Record) :
    buried synth r = true ↔ r.nodeID = synth.nodeID ∧ r.hlc < synth.hlc := by
  unfold buried
  rw [Bool.and_eq_true, decide_eq_true_iff, decide_eq_true_iff]

/-- The attestation completes a quorum whose tombstone overwrites a signed record. -/
def BuriesSigned (cfg : StoreConfig) (s : RecordStore) (c : Int64 × Record) : Prop :=
  Crosses cfg s c ∧ ∃ k r, s.signedView (c.2.topic, k) = some r ∧
    buried (synthOf ((s.topic c.2.topic).witnessesAfter cfg c.2) c.2) r = true

/-! ## One attestation -/

section Step

variable {cfg : StoreConfig} {s : RecordStore} {c : Int64 × Record}

/-- A quorum removes the buried records from the signed view and adds none. -/
theorem filter_signed_synthesise {t : Topic} {ts : TopicStore} (set : FMap NodeID Record)
    {att : Record} (hp : Placed t ts) (k : RecordKey) :
    ((synthesise ts set att).ts.records.lookup k).filter signed =
      (ts.records.lookup k).filter fun r => signed r && !buried (synthOf set att) r := by
  rw [lookup_synthesise]
  cases hcur : ts.records.lookup k with
  | none =>
    dsimp only
    split_ifs <;> rfl
  | some cur =>
    have hnode : cur.nodeID = k.nodeID := congrArg (fun p => p.2.nodeID) (hp k cur hcur)
    have hb : buried (synthOf set att) cur = true ↔
        k.nodeID = att.nodeID ∧ cur.hlc < (synthOf set att).hlc := by
      rw [buried_iff, hnode]
      rfl
    dsimp only
    split_ifs with hk
    · simp [Option.filter, hb.mpr hk, signed, show (synthOf set att).sig = [] from rfl]
    · simp [Option.filter, Bool.not_eq_true _ ▸ mt hb.mp hk]

theorem signedView_commit (s : RecordStore) (t : Topic) (o : Outcome) (k : Topic × RecordKey) :
    (s.commit t o).2.signedView k =
      if k.1 = t then (o.ts.records.lookup k.2).filter signed else s.signedView k := by
  unfold RecordStore.signedView
  rw [slotView_commit]
  split_ifs <;> rfl

/-- The kept part of the signed view when the synthesised tombstone is written on a topic. -/
def unburied (t : Topic) (synth : Record) (k : Topic × RecordKey) (r : Record) : Bool :=
  signed r && !(decide (k.1 = t) && buried synth r)

theorem signedView_of_not_crosses (hatt : c.2.isObserverAttestation = true)
    (hno : ¬ Crosses cfg s c) : (applyCall cfg s c).signedView = s.signedView := by
  unfold applyCall
  rcases applyExt_eq cfg c.1 s c.2 with ⟨-, -, heq⟩ | heq
  · rw [heq]
    rfl
  have hsame : ∀ o : Outcome, o.ts.records = (s.topic c.2.topic).records →
      (s.commit c.2.topic o).2.signedView = s.signedView := by
    intro o ho
    funext k
    rw [signedView_commit, ho]
    split_ifs with hk
    · rw [← hk]
      rfl
    · rfl
  rw [heq, applyTopic, if_pos hatt]
  have hstep := applyAttestationLocked_step cfg c.1 (s.topic c.2.topic) c.2
  generalize applyAttestationLocked cfg c.1 (s.topic c.2.topic) c.2 = o at hstep
  cases hstep with
  | refused => exact hsame _ rfl
  | kept => exact hsame _ rfl
  | crossed hok hlen => exact absurd ⟨hatt, hok, hlen⟩ hno

/-- A quorum takes the buried records out of the signed view. -/
theorem signedView_of_crosses (hp : ∀ t, Placed t (s.topic t)) (hc : Crosses cfg s c)
    (k : Topic × RecordKey) :
    (applyCall cfg s c).signedView k = (s.slotView k).filter
      (unburied c.2.topic (synthOf ((s.topic c.2.topic).witnessesAfter cfg c.2) c.2) k) := by
  obtain ⟨hatt, hok, hlen⟩ := hc
  have hother : k.1 ≠ c.2.topic → s.signedView k = (s.slotView k).filter
      (unburied c.2.topic (synthOf ((s.topic c.2.topic).witnessesAfter cfg c.2) c.2) k) := by
    intro hk
    unfold unburied
    simp only [hk, decide_false, Bool.false_and, Bool.not_false, Bool.and_true]
    rfl
  unfold applyCall
  rcases applyExt_eq cfg c.1 s c.2 with ⟨hnone, -, heq⟩ | heq
  · rw [heq]
    by_cases hk : k.1 = c.2.topic
    · have hempty : s.slotView k = none := by
        unfold RecordStore.slotView RecordStore.topic
        rw [hk, hnone]
        rfl
      show (s.slotView k).filter signed = _
      rw [hempty]
      rfl
    · exact hother hk
  rw [heq, applyTopic, if_pos hatt, signedView_commit]
  split_ifs with hk
  · have hstep := applyAttestationLocked_step cfg c.1 (s.topic c.2.topic) c.2
    generalize applyAttestationLocked cfg c.1 (s.topic c.2.topic) c.2 = o at hstep
    cases hstep with
    | refused _ _ hno => exact absurd hok hno
    | kept _ hlt => exact absurd hlen (not_le.mpr hlt)
    | crossed =>
      have hacc : Placed c.2.topic ((s.topic c.2.topic).accumulate cfg c.2) := hp c.2.topic
      rw [filter_signed_synthesise _ hacc]
      unfold unburied RecordStore.slotView
      simp only [hk, decide_true, Bool.true_and]
      rfl
  · exact hother hk

/-- An attestation that buries no signed record leaves the signed view as it was. -/
theorem signedView_of_not_buriesSigned (hp : ∀ t, Placed t (s.topic t))
    (hatt : c.2.isObserverAttestation = true) (hno : ¬ BuriesSigned cfg s c) :
    (applyCall cfg s c).signedView = s.signedView := by
  by_cases hc : Crosses cfg s c
  · funext k
    rw [signedView_of_crosses hp hc]
    show _ = (s.slotView k).filter signed
    cases hk : s.slotView k with
    | none => rfl
    | some r =>
      have hkeep : unburied c.2.topic
          (synthOf ((s.topic c.2.topic).witnessesAfter cfg c.2) c.2) k r = signed r := by
        unfold unburied
        by_contra hne
        have hsig : signed r = true := by
          by_contra h
          simp [h] at hne
        have hb : k.1 = c.2.topic ∧ buried
            (synthOf ((s.topic c.2.topic).witnessesAfter cfg c.2) c.2) r = true := by
          simpa [hsig] using hne
        refine hno ⟨hc, k.2, r, ?_, hb.2⟩
        show (s.slotView (c.2.topic, k.2)).filter signed = some r
        rw [← hb.1, show (k.1, k.2) = k from rfl, hk]
        simp [Option.filter, hsig]
      simp [Option.filter, hkeep]
  · exact signedView_of_not_crosses hatt hc

/-- An attestation that buries a signed record leaves fewer signed records on its topic. -/
theorem length_lt_of_buriesSigned (hp : ∀ t, Placed t (s.topic t)) (hb : BuriesSigned cfg s c) :
    ((applyCall cfg s c).topicRecordsSigned c.2.topic).length <
      (s.topicRecordsSigned c.2.topic).length := by
  obtain ⟨hc, k, r, hr, hbury⟩ := hb
  obtain ⟨hslot, hsig⟩ := Option.filter_eq_some_iff.mp hr
  have hlist : (applyCall cfg s c).topicRecordsSigned c.2.topic =
      s.topicRecordsWhere c.2.topic fun r => signed r &&
        !buried (synthOf ((s.topic c.2.topic).witnessesAfter cfg c.2) c.2) r := by
    refine (topicRecordsWhere_congr (hp c.2.topic) fun k => ?_).symm
    have := signedView_of_crosses hp hc (c.2.topic, k)
    unfold unburied at this
    simp only [decide_true, Bool.true_and] at this
    exact this.symm
  rw [hlist, RecordStore.topicRecordsSigned, topicRecordsWhere_eq, topicRecordsWhere_eq,
    (SortSlice.perm _ _).length_eq, (SortSlice.perm _ _).length_eq]
  have hfilter : (s.topic c.2.topic).records.values.filter (fun r => signed r &&
      !buried (synthOf ((s.topic c.2.topic).witnessesAfter cfg c.2) c.2) r) =
      ((s.topic c.2.topic).records.values.filter signed).filter fun r =>
        !buried (synthOf ((s.topic c.2.topic).witnessesAfter cfg c.2) c.2) r := by
    rw [List.filter_filter]
    simp only [Bool.and_comm]
  rw [hfilter]
  refine List.length_filter_lt_length_iff_exists.mpr ⟨r, ?_, by simp [hbury]⟩
  exact List.mem_filter.mpr ⟨FMap.mem_values.mpr ⟨k, hslot⟩, hsig⟩

end Step

/-! ## Runs -/

/-- The owner records of a run. -/
def ownerRecords (calls : List (Int64 × Record)) : List Record :=
  (calls.map Prod.snd).filter fun r => !r.isObserverAttestation

/-- An attestation buries no signed record; an owner record is signed, and neither a cap nor a newer
unsigned tombstone in its slot turns it away. -/
def RootSafe (cfg : StoreConfig) (s : RecordStore) (c : Int64 × Record) : Prop :=
  (c.2.isObserverAttestation = true → ¬ BuriesSigned cfg s c) ∧
  (c.2.isObserverAttestation = false → signed c.2 = true ∧
    (applyCall cfg s c).rejectedCap = s.rejectedCap ∧
    ∀ cur, s.slotView (slotOf c.2) = some cur → signed cur = false → cur.hlc ≤ c.2.hlc)

/-- A safe owner record is a last-writer write on the signed view. -/
theorem signedView_owner {cfg : StoreConfig} {s : RecordStore} {c : Int64 × Record}
    (hown : c.2.isObserverAttestation = false) (hsafe : RootSafe cfg s c) :
    (applyCall cfg s c).signedView = LastWriter.put slotOf rankOf s.signedView c.2 := by
  obtain ⟨hsig, hcap, hover⟩ := hsafe.2 hown
  have hview : (applyCall cfg s c).slotView = LastWriter.put slotOf rankOf s.slotView c.2 := by
    rcases slotView_applyExt cfg c.1 s hown with ⟨-, hcnt, -⟩ | ⟨-, h⟩
    · exact absurd (hcnt.symm.trans hcap) (Nat.succ_ne_self _)
    · exact h
  funext k
  show ((applyCall cfg s c).slotView k).filter signed = _
  rw [hview]
  by_cases hk : k = slotOf c.2
  · subst hk
    rw [LastWriter.put_self, LastWriter.put_self]
    unfold RecordStore.signedView
    cases hcur : s.slotView (slotOf c.2) with
    | none => simp [LastWriter.winner, Option.filter, hsig]
    | some cur =>
      cases hs : signed cur with
      | true =>
        rcases LastWriter.winner_eq_or rankOf (some cur) c.2 with hw | hw
        · simp [Option.filter, hs, hw, hsig]
        · rw [← hw]
          simp [Option.filter, hs, ← hw]
      | false =>
        have hlt : rankOf cur < rankOf c.2 := by
          rw [rankOf_lt_iff, sigLess_iff]
          have hnil : cur.sig = [] := by simpa [signed] using hs
          have hpos : [] < c.2.sig := by
            unfold signed at hsig
            cases hc : c.2.sig with
            | nil => simp [hc] at hsig
            | cons b l => exact List.nil_lt_cons b l
          rcases (hover cur hcur hs).lt_or_eq with h | h
          · exact Or.inl h
          · exact Or.inr ⟨h.symm, hnil ▸ hpos⟩
        simp [LastWriter.winner, Option.filter, hs, hlt, hsig]
  · rw [LastWriter.put_of_ne _ _ hk, LastWriter.put_of_ne _ _ hk]
    rfl

theorem placed_foldl (cfg : StoreConfig) (calls : List (Int64 × Record)) (t : Topic) :
    Placed t ((calls.foldl (applyCall cfg) {}).topic t) := by
  rw [← runStore_applyOps]
  exact run_placed cfg _ t

/-- The signed view of a safe run holds the slot-wise maxima of its owner records. -/
theorem holds_signedView {cfg : StoreConfig} {calls : List (Int64 × Record)}
    (h : Runs.StepsMeet (applyCall cfg) (RootSafe cfg) {} calls) :
    LastWriter.Holds slotOf rankOf {r | r ∈ ownerRecords calls}
      (calls.foldl (applyCall cfg) {}).signedView := by
  induction calls using List.reverseRecOn with
  | nil => exact LastWriter.holds_empty.congr (by ext r; simp [ownerRecords])
  | append_singleton calls c ih =>
    obtain ⟨hpre, hc, -⟩ := Runs.stepsMeet_append.mp h
    have hheld := ih hpre
    rw [List.foldl_append]
    show LastWriter.Holds slotOf rankOf _
      (applyCall cfg (calls.foldl (applyCall cfg) {}) c).signedView
    cases hatt : c.2.isObserverAttestation with
    | true =>
      rw [signedView_of_not_buriesSigned (placed_foldl cfg calls) hatt (hc.1 hatt)]
      exact hheld.congr (by ext r; simp [ownerRecords, hatt])
    | false =>
      rw [signedView_owner hatt hc]
      exact (hheld.put c.2).congr (by ext r; simp [ownerRecords, hatt, or_comm])

/-- Safe runs with the same owner records agree on every root. -/
theorem root_agree (cr : Crypto) {cfg : StoreConfig} {xs ys : List (Int64 × Record)}
    (hx : Runs.StepsMeet (applyCall cfg) (RootSafe cfg) {} xs)
    (hy : Runs.StepsMeet (applyCall cfg) (RootSafe cfg) {} ys)
    (hsame : ∀ r, r ∈ ownerRecords xs ↔ r ∈ ownerRecords ys) (t : Topic) (a b : Option Bytes) :
    topicMerkleRoot cr (xs.foldl (applyCall cfg) {}) t a b =
      topicMerkleRoot cr (ys.foldl (applyCall cfg) {}) t a b := by
  have hset : {r | r ∈ ownerRecords ys} = {r | r ∈ ownerRecords xs} := by
    ext r
    exact (hsame r).symm
  exact topicMerkleRoot_congr_rank cr (placed_foldl cfg xs t) (placed_foldl cfg ys t)
    (fun k => (holds_signedView hx).map_rank_eq ((holds_signedView hy).congr hset) (t, k)) a b

/-- **Attestations and the root.** Let SHA-256 not collide on the two messages the full root of the
topic is taken of before and after. In every reachable store, applying an attestation leaves all
roots of all topics and ranges as they were exactly when it does not complete a quorum whose
tombstone overwrites a signed record. In runs made of such attestations and of signed owner
records that neither a cap nor a newer unsigned tombstone turns away, the roots depend on the
owner records alone. -/
theorem root_fixed_iff (cr : Crypto) (cfg : StoreConfig) (ops : List StoreOp)
    (c : Int64 × Record) (hatt : c.2.isObserverAttestation = true)
    (hsha : cr.CollisionFreeOn
      {rootPreimage cr (runStore cfg {} ops) c.2.topic none none,
        rootPreimage cr (applyCall cfg (runStore cfg {} ops) c) c.2.topic none none}) :
    ((∀ topic rangeStart rangeEnd,
      topicMerkleRoot cr (applyCall cfg (runStore cfg {} ops) c) topic rangeStart rangeEnd =
        topicMerkleRoot cr (runStore cfg {} ops) topic rangeStart rangeEnd) ↔
      ¬ BuriesSigned cfg (runStore cfg {} ops) c) ∧
    ∀ xs ys, Runs.StepsMeet (applyCall cfg) (RootSafe cfg) {} xs →
      Runs.StepsMeet (applyCall cfg) (RootSafe cfg) {} ys →
      (∀ r, r ∈ ownerRecords xs ↔ r ∈ ownerRecords ys) →
      ∀ topic rangeStart rangeEnd,
        topicMerkleRoot cr (xs.foldl (applyCall cfg) {}) topic rangeStart rangeEnd =
          topicMerkleRoot cr (ys.foldl (applyCall cfg) {}) topic rangeStart rangeEnd := by
  have hplaced := run_placed cfg ops
  refine ⟨⟨fun hroot hb => ?_, fun hno topic a b => ?_⟩,
    fun xs ys hx hy hsame => root_agree cr hx hy hsame⟩
  · have hpre := hsha (by simp) (by simp) (hroot c.2.topic none none)
    have hlen := congrArg List.length hpre
    rw [length_rootPreimage, length_rootPreimage, rangeRecords_open, rangeRecords_open] at hlen
    have := length_lt_of_buriesSigned hplaced hb
    omega
  · refine (topicMerkleRoot_congr cr (hplaced topic) (fun k => ?_) a b).symm
    rw [signedView_of_not_buriesSigned hplaced hatt hno]

/-- Node 9 publishes, then observer 1 attests its death. -/
def dyingOps : List StoreOp :=
  [.apply 1000 { topic := [116], nodeID := [9], hlc := 6, sig := [9] },
    .apply 2000 { topic := [116], nodeID := [9], hlc := 7, tombstone := true, sig := [1]
                  observerNodeID := [1], observedAtUnixMs := 1500 }]

/-- Observer 2 attests it as well. -/
def secondWitness : Int64 × Record :=
  (2000, { topic := [116], nodeID := [9], hlc := 8, tombstone := true, sig := [2]
           observerNodeID := [2], observedAtUnixMs := 1600 })

/-- SHA-256 on the messages hashed for the roots of `dyingOps`. -/
def dyingDigests : Crypto :=
  .ofTables
    [([], [227, 176, 196, 66, 152, 252, 28, 20, 154, 251, 244, 200, 153, 111, 185, 36, 39, 174, 65,
        228, 100, 155, 147, 76, 164, 149, 153, 27, 120, 82, 184, 85]),
      ([9], [43, 76, 52, 47, 84, 51, 235, 229, 145, 161, 218, 119, 224, 19, 209, 183, 36, 117, 86,
        45, 72, 87, 141, 202, 139, 132, 186, 198, 101, 28, 60, 185]),
      ([43, 76, 52, 47, 84, 51, 235, 229, 145, 161, 218, 119, 224, 19, 209, 183, 36, 117, 86, 45,
        72, 87, 141, 202, 139, 132, 186, 198, 101, 28, 60, 185, 0, 0, 0, 0, 0, 0, 0, 6, 43, 76, 52,
        47, 84, 51, 235, 229, 145, 161, 218, 119, 224, 19, 209, 183, 36, 117, 86, 45, 72, 87, 141,
        202, 139, 132, 186, 198, 101, 28, 60, 185],
        [154, 163, 57, 24, 141, 208, 42, 62, 164, 240, 25, 21, 241, 217, 202, 45, 212, 102, 203,
          196, 95, 0, 63, 100, 108, 237, 160, 243, 211, 201, 216, 90])]
    [] []

/-- The second witness turns the root into the digest of the empty message. -/
theorem secondWitness_moves_root :
    topicMerkleRoot dyingDigests (runStore {} {} dyingOps) [116] none none =
      [154, 163, 57, 24, 141, 208, 42, 62, 164, 240, 25, 21, 241, 217, 202, 45, 212, 102, 203, 196,
        95, 0, 63, 100, 108, 237, 160, 243, 211, 201, 216, 90] ∧
    topicMerkleRoot dyingDigests (applyCall {} (runStore {} {} dyingOps) secondWitness)
        [116] none none =
      [227, 176, 196, 66, 152, 252, 28, 20, 154, 251, 244, 200, 153, 111, 185, 36, 39, 174, 65,
        228, 100, 155, 147, 76, 164, 149, 153, 27, 120, 82, 184, 85] := by
  decide +kernel

/-- The first witness alone does not reach the quorum and leaves every root. -/
theorem firstWitness_keeps_root :
    ¬ BuriesSigned {} (runStore {} {} (dyingOps.take 1)) secondWitness ∧
    ∀ topic rangeStart rangeEnd,
      topicMerkleRoot dyingDigests (applyCall {} (runStore {} {} (dyingOps.take 1)) secondWitness)
          topic rangeStart rangeEnd =
        topicMerkleRoot dyingDigests (runStore {} {} (dyingOps.take 1))
          topic rangeStart rangeEnd := by
  have hpre : rootPreimage dyingDigests (applyCall {} (runStore {} {} (dyingOps.take 1))
      secondWitness) [116] none none =
      rootPreimage dyingDigests (runStore {} {} (dyingOps.take 1)) [116] none none := by
    decide +kernel
  have hno : ¬ BuriesSigned {} (runStore {} {} (dyingOps.take 1)) secondWitness := by
    rintro ⟨⟨-, -, hlen⟩, -⟩
    exact absurd hlen (by decide)
  refine ⟨hno,
    (root_fixed_iff dyingDigests {} (dyingOps.take 1) secondWitness (by decide) ?_).1.mpr hno⟩
  rw [show secondWitness.2.topic = [116] from rfl, hpre, Set.pair_eq_singleton]
  exact Set.injOn_singleton _ _

end Swarm
