import Swarm.Store.View

/-!
# Soundness of the observer quorum

Where the records of a slot come from. `Backed` says that a quorum of distinct observers attested
the death of a node in calls made so far; the history only grows, so it stays true. Along every
run each kept witness was passed and accepted (`QuorumInv.kept`), and each stored record was
passed as an owner record or is the tombstone of such a quorum (`QuorumInv.slots`).

`ApplyExt` leaves signature checks to its callers, so an owner record without a signature is
stored like any other; `slot_published_or_backed` says that nothing else puts an unsigned record
into a slot.
-/

namespace Swarm

/-- The attestation was passed for this target, from an accepted observer, and was not further
ahead of the clock than the budget when it arrived. -/
structure Witnessed (cfg : StoreConfig) (ops : List StoreOp) (t : Topic) (target : NodeID)
    (a : Record) : Prop where
  passed : ∃ nowMs, StoreOp.apply nowMs a ∈ ops ∧
    a.observedAtUnixMs.toInt ≤ nowMs.toInt + observerForwardSkewBudget.milliseconds.toInt
  attests : a.isObserverAttestation = true
  topic : a.topic = t
  target : a.nodeID = target
  role : cfg.roleOk a.observerNodeID a.pubKey = true

/-- A quorum of distinct observers attested the death of the target, all below `hlc`. -/
def Backed (cfg : StoreConfig) (ops : List StoreOp) (t : Topic) (target : NodeID)
    (hlc : UInt64) : Prop :=
  ∃ W : List Record, cfg.observerQuorum ≤ W.length ∧ (W.map Record.observerNodeID).Nodup ∧
    (∀ a ∈ W, Witnessed cfg ops t target a ∧ a.observerNodeID ≠ []) ∧
    ((∀ a ∈ W, a.hlc.toNat < 2 ^ 64 - 1) → ∀ a ∈ W, a.hlc < hlc)

/-- The record was passed to the store as an owner record. -/
def Published (ops : List StoreOp) (r : Record) : Prop :=
  ∃ nowMs, StoreOp.apply nowMs r ∈ ops ∧ r.isObserverAttestation = false

section History

variable {cfg : StoreConfig} {ops : List StoreOp} {t : Topic} {target : NodeID}

theorem Witnessed.append {a : Record} (h : Witnessed cfg ops t target a) (op : StoreOp) :
    Witnessed cfg (ops ++ [op]) t target a := by
  obtain ⟨nowMs, hmem, hat⟩ := h.passed
  exact { h with passed := ⟨nowMs, List.mem_append_left _ hmem, hat⟩ }

theorem Backed.append {hlc : UInt64} (h : Backed cfg ops t target hlc) (op : StoreOp) :
    Backed cfg (ops ++ [op]) t target hlc := by
  obtain ⟨W, hlen, hnodup, hwit, hhlc⟩ := h
  exact ⟨W, hlen, hnodup, fun a ha => ⟨(hwit a ha).1.append op, (hwit a ha).2⟩, hhlc⟩

theorem Published.append {r : Record} (h : Published ops r) (op : StoreOp) :
    Published (ops ++ [op]) r := by
  obtain ⟨nowMs, hmem, hown⟩ := h
  exact ⟨nowMs, List.mem_append_left _ hmem, hown⟩

end History

/-- Adding the budget wraps only downwards, so the gate is at least as strict as on integers. -/
theorem toInt_le_of_skew {at_ nowMs : Int64}
    (h : at_ ≤ nowMs + observerForwardSkewBudget.milliseconds) :
    at_.toInt ≤ nowMs.toInt + observerForwardSkewBudget.milliseconds.toInt := by
  rw [Int64.le_iff_toInt_le, Int64.toInt_add, observerForwardSkewBudget_milliseconds,
    Int.bmod_def] at h
  rw [observerForwardSkewBudget_milliseconds]
  have hlo := nowMs.le_toInt
  have hhi := nowMs.toInt_lt
  split_ifs at h <;> omega

/-- Where the witnesses and the records of a topic come from. -/
structure QuorumInv (cfg : StoreConfig) (ops : List StoreOp) (t : Topic) (ts : TopicStore) :
    Prop where
  kept : ∀ target o a, (ts.witnesses target).lookup o = some a →
    a.observerNodeID = o ∧ Witnessed cfg ops t target a
  slots : ∀ k r, ts.records.lookup k = some r →
    Published ops r ∨ (r.sig = [] ∧ r.tombstone = true ∧ Backed cfg ops t k.nodeID r.hlc)

namespace QuorumInv

variable {cfg : StoreConfig} {ops : List StoreOp} {t : Topic} {ts : TopicStore}

theorem append (h : QuorumInv cfg ops t ts) (op : StoreOp) : QuorumInv cfg (ops ++ [op]) t ts where
  kept target o a ha := ⟨(h.kept target o a ha).1, (h.kept target o a ha).2.append op⟩
  slots k r hr := (h.slots k r hr).imp (fun hp => hp.append op)
    fun hb => ⟨hb.1, hb.2.1, hb.2.2.append op⟩

/-- The witnesses after an admitted attestation were all passed and accepted. -/
theorem witnessesAfter {nowMs : Int64} {att : Record} (h : QuorumInv cfg ops att.topic ts)
    (hatt : att.isObserverAttestation = true) (hok : Admitted cfg nowMs ts att) {o : NodeID}
    {a : Record} (ha : (ts.witnessesAfter cfg att).lookup o = some a) :
    a.observerNodeID = o ∧
      Witnessed cfg (ops ++ [.apply nowMs att]) att.topic att.nodeID a := by
  rcases lookup_witnessesAfter ha with ⟨rfl, rfl⟩ | hold
  · refine ⟨rfl, ⟨nowMs, ?_, toInt_le_of_skew hok.skew⟩, hatt, rfl, rfl, hok.role⟩
    exact List.mem_append_right _ List.mem_cons_self
  · exact ⟨(h.kept _ o a hold).1, (h.kept _ o a hold).2.append _⟩

/-- A set that reaches the quorum backs the tombstone it stands for. -/
theorem backed_synthOf {nowMs : Int64} {att : Record} (h : QuorumInv cfg ops att.topic ts)
    (hatt : att.isObserverAttestation = true) (hok : Admitted cfg nowMs ts att)
    (hlen : cfg.observerQuorum ≤ (ts.witnessesAfter cfg att).len) :
    Backed cfg (ops ++ [.apply nowMs att]) att.topic att.nodeID
      (synthOf (ts.witnessesAfter cfg att) att).hlc := by
  refine ⟨(ts.witnessesAfter cfg att).values, by rwa [FMap.length_values],
    FMap.nodup_map_values fun o a ha => (h.witnessesAfter hatt hok ha).1, fun a ha => ?_,
    fun hmax a ha => ?_⟩
  · obtain ⟨o, ho⟩ := FMap.mem_values.mp ha
    have hw := (h.witnessesAfter hatt hok ho).2
    refine ⟨hw, ?_⟩
    have := hw.attests
    unfold Record.isObserverAttestation at this
    simpa using (Bool.and_eq_true_iff.mp this).2
  · have htop : maxHLCOf (ts.witnessesAfter cfg att) < UInt64.ofNat (2 ^ 64 - 1) :=
      (MaxLoop.lt_iff _ _ _ _).mpr ⟨by decide, fun b hb => hmax b hb⟩
    exact lt_of_le_of_lt (hlc_le_maxHLCOf ha) (Words.lt_add_one htop)

/-- An owner record enters its slot as published; the witness sets at most shrink. -/
theorem owner {nowMs : Int64} {r : Record} {ts' : TopicStore} (h : QuorumInv cfg ops r.topic ts)
    (hown : r.isObserverAttestation = false)
    (hrec : ∀ k, ts'.records.lookup k = if k = keyOf r then some r else ts.records.lookup k)
    (hwit : ∀ target o a, (ts'.witnesses target).lookup o = some a →
      (ts.witnesses target).lookup o = some a) :
    QuorumInv cfg (ops ++ [.apply nowMs r]) r.topic ts' where
  kept target o a ha := (h.append _).kept target o a (hwit target o a ha)
  slots k x hx := by
    rw [hrec] at hx
    split_ifs at hx
    · cases hx
      exact Or.inl ⟨nowMs, List.mem_append_right _ List.mem_cons_self, hown⟩
    · exact (h.append _).slots k x hx

theorem accumulate {nowMs : Int64} {att : Record} (h : QuorumInv cfg ops att.topic ts)
    (hatt : att.isObserverAttestation = true) (hok : Admitted cfg nowMs ts att) :
    QuorumInv cfg (ops ++ [.apply nowMs att]) att.topic (ts.accumulate cfg att) where
  kept target o a ha := by
    rw [witnesses_accumulate] at ha
    split_ifs at ha with ht
    · rw [ht]
      exact h.witnessesAfter hatt hok ha
    · exact (h.append _).kept target o a ha
  slots := (h.append _).slots

theorem applyTopic {nowMs : Int64} {r : Record} (h : QuorumInv cfg ops r.topic ts) :
    QuorumInv cfg (ops ++ [.apply nowMs r]) r.topic (applyTopic cfg nowMs ts r).ts := by
  apply applyTopic_preserves (h.append _)
  · exact h.accumulate
  · intro hatt hok hlen hacc
    refine ⟨fun target o a ha => hacc.kept target o a (by rwa [witnesses_synthesise] at ha),
      fun k x hx => ?_⟩
    rcases eq_or_synth_of_lookup hx with hold | ⟨hk, rfl⟩
    · exact hacc.slots k x hold
    · rw [hk]
      exact Or.inr ⟨rfl, rfl, h.backed_synthOf hatt hok hlen⟩
  · intro hown
    exact h.owner hown (lookup_openSlot ts nowMs r) fun _ _ _ ha => ha
  · intro hown
    exact h.owner hown (lookup_replaceSlot ts nowMs r) fun _ _ _ ha =>
      lookup_witnesses_of_replaceSlot ha

theorem reap (h : QuorumInv cfg ops t ts) (op : StoreOp) (nowMs ttlMs : Int64) :
    QuorumInv cfg (ops ++ [op]) t (ts.reap nowMs ttlMs) where
  kept := (h.append op).kept
  slots k r hr := by
    rw [lookup_reap, Option.bind_eq_some_iff] at hr
    obtain ⟨r', hr', hkeep⟩ := hr
    split_ifs at hkeep
    cases hkeep
    exact (h.append op).slots k _ hr'

end QuorumInv

/-- Every run keeps track of where its witnesses and records come from. -/
theorem run_quorumInv (cfg : StoreConfig) (ops : List StoreOp) (t : Topic) :
    QuorumInv cfg ops t ((runStore cfg {} ops).topic t) :=
  runStore_invariant
    (fun _ => ⟨fun _ _ _ h => (nomatch h), fun _ _ h => (nomatch h)⟩)
    (fun _ op _ _ h => h.append op) (fun _ _ _ _ h => h.applyTopic)
    (fun _ nowMs _ ttlMs _ _ h => h.reap _ nowMs ttlMs) ops t

/-- A backing quorum uses at least as many observers as its size. -/
theorem Backed.quorum_le {cfg : StoreConfig} {ops : List StoreOp} {t : Topic} {target : NodeID}
    {hlc : UInt64} (h : Backed cfg ops t target hlc) (obs : List NodeID)
    (hobs : ∀ nowMs a, StoreOp.apply nowMs a ∈ ops → a.isObserverAttestation = true →
      a.topic = t → a.nodeID = target → a.observerNodeID ∈ obs) :
    cfg.observerQuorum ≤ obs.length := by
  obtain ⟨W, hlen, hnodup, hwit, -⟩ := h
  have hsub : W.map Record.observerNodeID ⊆ obs := by
    intro o ho
    obtain ⟨a, ha, rfl⟩ := List.mem_map.mp ho
    obtain ⟨⟨nowMs, hmem, -⟩, hatt, htopic, htarget, -⟩ := (hwit a ha).1
    exact hobs nowMs a hmem hatt htopic htarget
  calc cfg.observerQuorum ≤ W.length := hlen
    _ = (W.map Record.observerNodeID).length := (List.length_map _).symm
    _ ≤ obs.length := (hnodup.subperm hsub).length_le

/-- **Quorum soundness.** After every run, a record in a slot was passed as an owner record, or it
is an unsigned tombstone backed by a quorum of distinct observers whose attestations for exactly
this topic and node were passed, accepted by the role check and within the forward budget, all
below the tombstone. With attestations from fewer observers than the quorum only the first is
possible. -/
theorem slot_published_or_backed (cfg : StoreConfig) (ops : List StoreOp) (topic : Topic)
    (node : NodeID) (key : Bytes) (r : Record)
    (hr : (runStore cfg {} ops).getRawKeyed topic node key = some r) :
    (Published ops r ∨ (r.sig = [] ∧ r.tombstone = true ∧ Backed cfg ops topic node r.hlc)) ∧
      ∀ obs : List NodeID, obs.length < cfg.observerQuorum →
        (∀ nowMs a, StoreOp.apply nowMs a ∈ ops → a.isObserverAttestation = true →
          a.topic = topic → a.nodeID = node → a.observerNodeID ∈ obs) → Published ops r := by
  rw [← slotView_eq_getRawKeyed] at hr
  have hcases := (run_quorumInv cfg ops topic).slots _ r hr
  refine ⟨hcases, fun obs hlen hobs => ?_⟩
  rcases hcases with hpub | ⟨-, -, hback⟩
  · exact hpub
  · exact absurd (hback.quorum_le obs hobs) (not_le.mpr hlen)

/-- Two observers attest the death of node 9, the second of them twice. -/
def quorumOps : List StoreOp :=
  [.apply 1000 { topic := [116], nodeID := [9], hlc := 5, tombstone := true, sig := [1]
                 observerNodeID := [1], observedAtUnixMs := 900 },
    .apply 1000 { topic := [116], nodeID := [9], hlc := 6, tombstone := true, sig := [2]
                  observerNodeID := [2], observedAtUnixMs := 950 },
    .apply 1100 { topic := [116], nodeID := [9], hlc := 6, tombstone := true, sig := [2]
                  observerNodeID := [2], observedAtUnixMs := 950 }]

theorem quorumOps_slot :
    (runStore {} {} quorumOps).getRawKeyed [116] [9] [] =
      some { topic := [116], nodeID := [9], hlc := 7, tombstone := true } ∧
    Backed {} quorumOps [116] [9] 7 := by
  have hslot : (runStore {} {} quorumOps).getRawKeyed [116] [9] [] =
      some { topic := [116], nodeID := [9], hlc := 7, tombstone := true } := by decide
  refine ⟨hslot, ?_⟩
  rcases (slot_published_or_backed {} quorumOps [116] [9] [] _ hslot).1 with ⟨_, hmem, -⟩ | h
  · simp [quorumOps] at hmem
  · exact h.2.2

/-- An owner record without a signature is stored on its own, with no attestation passed. -/
theorem unsigned_owner_stored :
    (runStore {} {} [.apply 1000 { topic := [116], nodeID := [9], hlc := 7 }]).getRawKeyed
        [116] [9] [] = some { topic := [116], nodeID := [9], hlc := 7 } ∧
    ({ topic := [116], nodeID := [9], hlc := 7 } : Record).sig = [] ∧
    ¬ Backed {} [.apply 1000 { topic := [116], nodeID := [9], hlc := 7 }] [116] [9] 7 := by
  refine ⟨by decide, rfl, fun h => ?_⟩
  refine absurd (h.quorum_le [] fun nowMs a hmem hatt => ?_) (by decide)
  cases List.mem_singleton.mp hmem
  cases hatt

end Swarm
