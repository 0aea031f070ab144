import Swarm.Store.Fence

/-!
# How long a dead node stays dead

A quorum writes its tombstone into the slots the target holds at that moment. A slot the target
does not hold is not fenced: an owner record of the target from before its death that arrives
under another key opens that slot and is live again.

`dead_iff_reopens_above` says that this is the only way back. After a quorum at clock `h` every
slot of the target stays at or above `h` exactly as long as no owner record of the target below
`h` opens a slot.
-/

namespace Swarm

/-- The node holds a slot, and every slot it holds stands at or above the clock. -/
structure DeadSince (h : UInt64) (node : NodeID) (ts : TopicStore) : Prop where
  present : ts.nodePresent node = true
  above : ∀ k r, ts.records.lookup k = some r → k.nodeID = node → h ≤ r.hlc

/-- An owner record of the node that opens a slot stands at or above the clock. -/
def ReopensAbove (cfg : StoreConfig) (h : UInt64) (t : Topic) (node : NodeID) (s : RecordStore)
    (c : Int64 × Record) : Prop :=
  c.2.topic = t → c.2.nodeID = node → OpensSlot cfg (s.topic t) c.2 → h ≤ c.2.hlc

/-! ## One step -/

section Step

variable {cfg : StoreConfig} {nowMs : Int64} {h : UInt64} {node : NodeID} {ts : TopicStore}
  {r : Record}

/-- Writing a record that is not below the clock keeps the node dead, and only that does. -/
theorem deadSince_write_iff {ts' : TopicStore} (hd : DeadSince h node ts)
    (hts : ∀ k, ts'.records.lookup k = if k = keyOf r then some r else ts.records.lookup k) :
    DeadSince h node ts' ↔ (r.nodeID = node → h ≤ r.hlc) := by
  constructor
  · intro hd' hnode
    exact hd'.above (keyOf r) r (by rw [hts, if_pos rfl]) hnode
  · intro hr
    constructor
    · obtain ⟨k, x, hx, hk⟩ := nodePresent_iff.mp hd.present
      by_cases hself : k = keyOf r
      · exact nodePresent_iff.mpr ⟨k, r, by rw [hts, if_pos hself], hk⟩
      · exact nodePresent_iff.mpr ⟨k, x, by rw [hts, if_neg hself]; exact hx, hk⟩
    · intro k x hx hk
      rw [hts] at hx
      split_ifs at hx with hself
      · cases hx
        rw [hself] at hk
        exact hr hk
      · exact hd.above k x hx hk

/-- A quorum only raises slots. -/
theorem DeadSince.synthesise (hd : DeadSince h node ts) (set : FMap NodeID Record) (att : Record) :
    DeadSince h node (synthesise ts set att).ts := by
  have hraise : ∀ k x, ts.records.lookup k = some x →
      ∃ y, (Swarm.synthesise ts set att).ts.records.lookup k = some y ∧ x.hlc ≤ y.hlc := by
    intro k x hx
    rw [lookup_synthesise, hx]
    dsimp only
    split_ifs with hlt
    · exact ⟨_, rfl, hlt.2.le⟩
    · exact ⟨x, rfl, le_rfl⟩
  constructor
  · obtain ⟨k, x, hx, hk⟩ := nodePresent_iff.mp hd.present
    obtain ⟨y, hy, -⟩ := hraise k x hx
    exact nodePresent_iff.mpr ⟨k, y, hy, hk⟩
  · intro k y hy hk
    cases hx : ts.records.lookup k with
    | some x =>
      obtain ⟨y', hy', hle⟩ := hraise k x hx
      rw [hy] at hy'
      cases hy'
      exact (hd.above k x hx hk).trans hle
    | none =>
      -- a keyless slot is filled only for a target that holds none
      rw [lookup_synthesise, hx] at hy
      dsimp only at hy
      split_ifs at hy with hfill
      rw [hfill.1] at hk
      rw [show att.nodeID = node from hk, hd.present] at hfill
      cases hfill.2

/-- Every slot of the target stands at or above the tombstone right after the quorum. -/
theorem deadSince_synthesise (ts : TopicStore) (set : FMap NodeID Record) (att : Record) :
    DeadSince (synthOf set att).hlc att.nodeID (synthesise ts set att).ts := by
  constructor
  · cases hp : ts.nodePresent att.nodeID with
    | true =>
      obtain ⟨k, x, hx, hk⟩ := nodePresent_iff.mp hp
      have hslot := lookup_synthesise ts set att k
      rw [hx] at hslot
      dsimp only at hslot
      split_ifs at hslot
      · exact nodePresent_iff.mpr ⟨k, _, hslot, hk⟩
      · exact nodePresent_iff.mpr ⟨k, _, hslot, hk⟩
    | false =>
      have hslot := lookup_synthesise ts set att { nodeID := att.nodeID }
      have hnone : ts.records.lookup { nodeID := att.nodeID } = none := by
        by_contra hne
        obtain ⟨x, hx⟩ := Option.ne_none_iff_exists'.mp hne
        rw [nodePresent_iff.mpr ⟨_, x, hx, rfl⟩] at hp
        cases hp
      rw [hnone] at hslot
      dsimp only at hslot
      rw [if_pos ⟨rfl, hp⟩] at hslot
      exact nodePresent_iff.mpr ⟨_, _, hslot, rfl⟩
  · intro k x hx hk
    rcases eq_or_synth_of_lookup hx with hold | ⟨-, rfl⟩
    · rw [lookup_synthesise, hold] at hx
      dsimp only at hx
      split_ifs at hx with hlt
      · cases hx
        exact le_rfl
      · cases hx
        exact not_lt.mp fun hlt' => hlt ⟨hk, hlt'⟩
    · exact le_rfl

/-- One merge keeps the node dead exactly when it opens no slot of it below the clock. -/
theorem deadSince_applyTopic_iff (hd : DeadSince h node ts) :
    DeadSince h node (applyTopic cfg nowMs ts r).ts ↔
      (r.nodeID = node → OpensSlot cfg ts r → h ≤ r.hlc) := by
  unfold applyTopic OpensSlot
  cases hatt : r.isObserverAttestation with
  | true =>
    refine iff_of_true ?_ fun _ hopen => absurd hopen.1 (by decide)
    rw [if_pos rfl]
    have hkept : DeadSince h node (ts.accumulate cfg r) := ⟨hd.present, hd.above⟩
    have hstep := applyAttestationLocked_step cfg nowMs ts r
    generalize applyAttestationLocked cfg nowMs ts r = o at hstep
    cases hstep with
    | refused => exact hd
    | kept => exact hkept
    | crossed => exact hkept.synthesise _ _
  | false =>
    rw [if_neg Bool.false_ne_true]
    have hstep := applyOwner_step cfg nowMs ts r
    generalize applyOwner cfg nowMs ts r = o at hstep
    cases hstep with
    | full hnew hcap =>
      refine iff_of_true hd fun _ hopen => ?_
      rcases hcap with hfull | hfull
      · exact absurd hopen.2.2.1 (not_lt.mpr hfull)
      · exact absurd hopen.2.2.2 (not_lt.mpr hfull)
    | opened hnew hroom hkeys =>
      rw [deadSince_write_iff hd (lookup_openSlot ts nowMs r)]
      exact ⟨fun hr hnode _ => hr hnode, fun hr hnode => hr hnode ⟨rfl, hnew, hroom, hkeys⟩⟩
    | newer hcur hlt =>
      rw [deadSince_write_iff hd (lookup_replaceSlot ts nowMs r)]
      refine iff_of_true (fun hnode => ?_) fun _ hopen => ?_
      · rcases (rankOf_lt_iff _ r).mp hlt with hhlc | ⟨heq, -⟩
        · exact (hd.above _ _ hcur hnode).trans hhlc.le
        · rw [heq]
          exact hd.above _ _ hcur hnode
      · rw [hcur] at hopen
        cases hopen.2.1
    | stale hcur =>
      refine iff_of_true hd fun _ hopen => ?_
      rw [hcur] at hopen
      cases hopen.2.1

end Step

/-! ## Runs -/

/-- The node is dead on a topic of the store. -/
def StoreDead (h : UInt64) (t : Topic) (node : NodeID) (s : RecordStore) : Prop :=
  DeadSince h node (s.topic t)

theorem storeDead_applyCall_iff {cfg : StoreConfig} {h : UInt64} {t : Topic} {node : NodeID}
    {s : RecordStore} (c : Int64 × Record) (hd : StoreDead h t node s) :
    StoreDead h t node (applyCall cfg s c) ↔ ReopensAbove cfg h t node s c := by
  unfold StoreDead applyCall ReopensAbove
  rcases applyExt_eq cfg c.1 s c.2 with ⟨hnone, -, heq⟩ | heq
  · rw [heq]
    refine iff_of_true hd fun ht => ?_
    -- the topic of a node that holds a slot exists
    obtain ⟨k, r, hr, -⟩ := nodePresent_iff.mp hd.present
    unfold RecordStore.topic at hr
    rw [← ht, hnone] at hr
    cases hr
  · rw [heq, topic_commit]
    by_cases ht : t = c.2.topic
    · rw [if_pos ht, ← ht, deadSince_applyTopic_iff hd]
      exact ⟨fun hr _ => hr, fun hr => hr rfl⟩
    · rw [if_neg ht]
      exact iff_of_true hd fun ht' => absurd ht'.symm ht

/-- The attestation reaches the quorum on a topic that the topic cap does not turn away. -/
def Buries (cfg : StoreConfig) (s : RecordStore) (c : Int64 × Record) : Prop :=
  Crosses cfg s c ∧ TopicRoom cfg s c.2.topic

/-- The clock of the tombstone the attestation leads to. -/
def buriedAt (cfg : StoreConfig) (s : RecordStore) (c : Int64 × Record) : UInt64 :=
  (synthOf ((s.topic c.2.topic).witnessesAfter cfg c.2) c.2).hlc

theorem Buries.storeDead {cfg : StoreConfig} {s : RecordStore} {c : Int64 × Record}
    (h : Buries cfg s c) :
    StoreDead (buriedAt cfg s c) c.2.topic c.2.nodeID (applyCall cfg s c) := by
  obtain ⟨⟨hatt, hok, hlen⟩, hroom⟩ := h
  unfold StoreDead applyCall
  rw [applyExt_of_room hroom, topic_commit, if_pos rfl, applyTopic, if_pos hatt]
  have hstep := applyAttestationLocked_step cfg c.1 (s.topic c.2.topic) c.2
  generalize applyAttestationLocked cfg c.1 (s.topic c.2.topic) c.2 = o at hstep
  cases hstep with
  | refused _ _ hno => exact absurd hok hno
  | kept _ hlt => exact absurd hlen (not_le.mpr hlt)
  | crossed => exact deadSince_synthesise _ _ _

/-- The live records of a node that the reads return. -/
def ReadLive (s : RecordStore) (t : Topic) (node : NodeID) (r : Record) : Prop :=
  (∃ key, s.getKeyed t node key = some r) ∨ r ∈ s.nodeRecords t node ∨
    (r ∈ s.topicRecords t ∧ r.nodeID = node)

/-- What the reads return sits in a slot of the node. -/
theorem ReadLive.slot {s : RecordStore} {t : Topic} {node : NodeID} {r : Record}
    (hp : Placed t (s.topic t)) (h : ReadLive s t node r) :
    ∃ k, (s.topic t).records.lookup k = some r ∧ k.nodeID = node := by
  rcases h with ⟨key, hget⟩ | hmem | ⟨hmem, hnode⟩
  · exact ⟨_, (getKeyed_eq_some_iff.mp hget).1, rfl⟩
  · exact (mem_nodeRecords.mp hmem).1
  · obtain ⟨⟨k, hk⟩, -⟩ := mem_topicRecordsWhere.mp hmem
    refine ⟨k, hk, ?_⟩
    have hslot : k = keyOf r := (congrArg Prod.snd (hp k r hk)).symm
    rw [hslot]
    exact hnode

/-- **Dead until it speaks again.** For every run of `ApplyExt` calls and every call in it that
buries a node at clock `h`: in the states from there on every slot of the node stands at or above
`h` exactly when no owner record of the node below `h` opens a slot there. Then no read of the last
state returns a live record of the node below `h`, however long the rest of the run is. -/
theorem dead_iff_reopens_above (cfg : StoreConfig) (front rest : List (Int64 × Record))
    (c : Int64 × Record) (hbury : Buries cfg (front.foldl (applyCall cfg) {}) c) :
    (Runs.StatesMeet (applyCall cfg)
        (StoreDead (buriedAt cfg (front.foldl (applyCall cfg) {}) c) c.2.topic c.2.nodeID)
        ((front ++ [c]).foldl (applyCall cfg) {}) rest ↔
      Runs.StepsMeet (applyCall cfg)
        (ReopensAbove cfg (buriedAt cfg (front.foldl (applyCall cfg) {}) c) c.2.topic c.2.nodeID)
        ((front ++ [c]).foldl (applyCall cfg) {}) rest) ∧
    (Runs.StepsMeet (applyCall cfg)
        (ReopensAbove cfg (buriedAt cfg (front.foldl (applyCall cfg) {}) c) c.2.topic c.2.nodeID)
        ((front ++ [c]).foldl (applyCall cfg) {}) rest →
      ∀ r, ReadLive ((front ++ c :: rest).foldl (applyCall cfg) {}) c.2.topic c.2.nodeID r →
        buriedAt cfg (front.foldl (applyCall cfg) {}) c ≤ r.hlc) := by
  have hstart : StoreDead (buriedAt cfg (front.foldl (applyCall cfg) {}) c) c.2.topic c.2.nodeID
      ((front ++ [c]).foldl (applyCall cfg) {}) := by
    rw [List.foldl_append]
    exact hbury.storeDead
  refine ⟨Runs.statesMeet_iff_stepsMeet (fun s d hs => storeDead_applyCall_iff d hs) hstart rest,
    ?_⟩
  intro hsteps r hread
  have hdead := Runs.StepsMeet.invariant
    (fun s d hs hd => (storeDead_applyCall_iff d hs).mpr hd) hsteps hstart
  rw [← List.foldl_append, List.append_assoc, List.singleton_append] at hdead
  have hplaced := run_placed cfg (applyOps (front ++ c :: rest)) c.2.topic
  rw [runStore_applyOps] at hplaced
  obtain ⟨k, hk, hnode⟩ := hread.slot hplaced
  exact hdead.above k r hk hnode

/-- Node 9 publishes under key 1 and two observers attest its death; the tombstone stands at 8. -/
def deathCalls : List (Int64 × Record) :=
  [(900, { topic := [116], nodeID := [9], hlc := 5, body := [7], sig := [9], key := [1] }),
    (1200, { topic := [116], nodeID := [9], hlc := 6, tombstone := true, sig := [1]
             observerNodeID := [1], observedAtUnixMs := 1000 })]

/-- The second observer. -/
def deathCall : Int64 × Record :=
  (1200, { topic := [116], nodeID := [9], hlc := 7, tombstone := true, sig := [2]
           observerNodeID := [2], observedAtUnixMs := 1000 })

/-- A record of node 9 from before its death, under another key. -/
def lateRecord : Record :=
  { topic := [116], nodeID := [9], hlc := 4, body := [8], sig := [9], key := [2] }

/-- The late record is live after the tombstone at 8. -/
theorem late_record_revives :
    Buries {} (deathCalls.foldl (applyCall {}) {}) deathCall ∧
    buriedAt {} (deathCalls.foldl (applyCall {}) {}) deathCall = 8 ∧
    ((deathCalls ++ [deathCall, (1300, lateRecord)]).foldl (applyCall {}) {}).getKeyed
      [116] [9] [2] = some lateRecord ∧
    lateRecord ∈ ((deathCalls ++ [deathCall, (1300, lateRecord)]).foldl (applyCall {})
      {}).nodeRecords [116] [9] ∧
    lateRecord ∈ ((deathCalls ++ [deathCall, (1300, lateRecord)]).foldl (applyCall {})
      {}).topicRecords [116] := by
  refine ⟨⟨⟨by decide, ?_, by decide⟩, by unfold TopicRoom; decide⟩, by decide, by decide,
    by decide, by decide⟩
  exact (accumulated_iff_admitted _ _ _ _).mp (by decide)

/-- The node speaks again above the tombstone, under a new key. -/
def revivedCall : Int64 × Record :=
  (1300, { topic := [116], nodeID := [9], hlc := 9, body := [8], sig := [9], key := [2] })

theorem revived_reads_above :
    ReadLive ((deathCalls ++ deathCall :: [revivedCall]).foldl (applyCall {}) {})
      [116] [9] revivedCall.2 ∧ 8 ≤ revivedCall.2.hlc := by
  have hbury : Buries {} (deathCalls.foldl (applyCall {}) {}) deathCall :=
    ⟨⟨by decide, (accumulated_iff_admitted _ _ _ _).mp (by decide), by decide⟩,
      by unfold TopicRoom; decide⟩
  have hclock : buriedAt {} (deathCalls.foldl (applyCall {}) {}) deathCall = 8 := by decide
  have hread : ReadLive ((deathCalls ++ deathCall :: [revivedCall]).foldl (applyCall {}) {})
      [116] [9] revivedCall.2 := Or.inl ⟨[2], by decide⟩
  have h := (dead_iff_reopens_above {} deathCalls [revivedCall] deathCall hbury).2
  rw [hclock] at h
  exact ⟨hread, h ⟨fun _ _ _ => by decide, trivial⟩ revivedCall.2 hread⟩

end Swarm
