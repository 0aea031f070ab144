import Swarm.Store.Basic

/-!
# What one store operation can do

`applyOwner_step` and `applyAttestationLocked_step` list the outcomes of a merge with their
guards, and `lookup_synthesise` what a quorum writes. Every later invariant is derived from
these; the definitions are not unfolded again.

`runStore_invariant` is the rule for runs: a property of a topic and of the operations so far
that the empty topic has, and that merging, reaping and waiting keep, holds after every run.
-/

namespace Swarm

/-! ## Owner records -/

/-- The outcomes of an owner record. -/
inductive OwnerStep (cfg : StoreConfig) (nowMs : Int64) (ts : TopicStore) (r : Record) :
    Outcome → Prop
  | full (hnew : ts.records.lookup (keyOf r) = none)
      (hcap : cfg.maxRecordsPerTopic ≤ ts.records.len ∨ cfg.maxKeysPerNode ≤ ts.held r.nodeID) :
      OwnerStep cfg nowMs ts r
        { applied := false, replaced := false, accumulated := false, rejected := true, ts := ts }
  | opened (hnew : ts.records.lookup (keyOf r) = none)
      (hroom : ts.records.len < cfg.maxRecordsPerTopic)
      (hkeys : ts.held r.nodeID < cfg.maxKeysPerNode) :
      OwnerStep cfg nowMs ts r
        { applied := true, replaced := false, accumulated := false, ts := ts.openSlot nowMs r }
  | newer {cur : Record} (hcur : ts.records.lookup (keyOf r) = some cur)
      (hlt : rankOf cur < rankOf r) :
      OwnerStep cfg nowMs ts r
        { applied := true, replaced := true, accumulated := false, ts := ts.replaceSlot nowMs r }
  | stale {cur : Record} (hcur : ts.records.lookup (keyOf r) = some cur)
      (hle : rankOf r ≤ rankOf cur) :
      OwnerStep cfg nowMs ts r
        { applied := false, replaced := true, accumulated := false, ts := ts }

theorem applyOwner_step (cfg : StoreConfig) (nowMs : Int64) (ts : TopicStore) (r : Record) :
    OwnerStep cfg nowMs ts r (applyOwner cfg nowMs ts r) := by
  unfold applyOwner
  split
  · rename_i hnew
    split_ifs with hroom hkeys
    · exact .full hnew (Or.inl hroom)
    · exact .full hnew (Or.inr hkeys.2)
    · exact .opened hnew (not_le.mp hroom) (not_le.mp fun h => hkeys ⟨cfg.keys_pos, h⟩)
  · rename_i cur hcur
    split_ifs with hlt
    · exact .newer hcur ((rankOf_lt_iff cur r).mpr hlt)
    · exact .stale hcur (not_lt.mp fun h => hlt ((rankOf_lt_iff cur r).mp h))

theorem lookup_openSlot (ts : TopicStore) (nowMs : Int64) (r : Record) (k : RecordKey) :
    (ts.openSlot nowMs r).records.lookup k = if k = keyOf r then some r else ts.records.lookup k :=
  FMap.lookup_insert_eq _ _ _ _

theorem lookup_replaceSlot (ts : TopicStore) (nowMs : Int64) (r : Record) (k : RecordKey) :
    (ts.replaceSlot nowMs r).records.lookup k =
      if k = keyOf r then some r else ts.records.lookup k :=
  FMap.lookup_insert_eq _ _ _ _

theorem lookup_stampRestored (ts : TopicStore) (nowMs : Int64) (r : Record) (node : NodeID) :
    (ts.stampRestored nowMs r).lookup node =
      if r.tombstone = false ∧ node = r.nodeID then some nowMs
      else ts.restoredAtUnixMs.lookup node := by
  unfold TopicStore.stampRestored
  cases r.tombstone with
  | true => simp
  | false => simp [FMap.lookup_insert_eq]

/-! ## Attestations -/

/-- The attestation passes every test in front of the witness set. -/
structure Admitted (cfg : StoreConfig) (nowMs : Int64) (ts : TopicStore) (att : Record) : Prop where
  role : cfg.roleOk att.observerNodeID att.pubKey = true
  skew : att.observedAtUnixMs ≤ nowMs + observerForwardSkewBudget.milliseconds
  fence : ts.fenced att = false
  alive : (ts.nodeDeadAtOrAbove att.nodeID att.hlc).2 = false
  fresh : superseded (ts.witnesses att.nodeID) att = false
  room : ((ts.witnesses att.nodeID).lookup att.observerNodeID).isSome ∨
    (ts.witnesses att.nodeID).len < cfg.maxAttestations

/-- The witness set of the target once the attestation is in and the window is applied. -/
def TopicStore.witnessesAfter (cfg : StoreConfig) (ts : TopicStore) (att : Record) :
    FMap NodeID Record :=
  pruneWindow cfg.winMs ((ts.witnesses att.nodeID).insert att.observerNodeID att)

/-- The topic that keeps them. -/
def TopicStore.accumulate (cfg : StoreConfig) (ts : TopicStore) (att : Record) : TopicStore :=
  ts.keepWitnesses att.nodeID (ts.witnessesAfter cfg att)

@[simp] theorem records_accumulate (cfg : StoreConfig) (ts : TopicStore) (att : Record) :
    (ts.accumulate cfg att).records = ts.records := rfl

theorem nodePresent_accumulate (cfg : StoreConfig) (ts : TopicStore) (att : Record)
    (node : NodeID) : (ts.accumulate cfg att).nodePresent node = ts.nodePresent node := rfl

/-- The outcomes of an attestation. -/
inductive AttestationStep (cfg : StoreConfig) (nowMs : Int64) (ts : TopicStore) (att : Record) :
    Outcome → Prop
  | refused (replaced rejected : Bool) (hno : ¬ Admitted cfg nowMs ts att) :
      AttestationStep cfg nowMs ts att
        { applied := false, replaced := replaced, accumulated := false, rejected := rejected
          ts := ts }
  | kept (hok : Admitted cfg nowMs ts att)
      (hlen : (ts.witnessesAfter cfg att).len < cfg.observerQuorum) :
      AttestationStep cfg nowMs ts att
        { applied := false, replaced := ts.nodePresent att.nodeID, accumulated := true
          ts := ts.accumulate cfg att }
  | crossed (hok : Admitted cfg nowMs ts att)
      (hlen : cfg.observerQuorum ≤ (ts.witnessesAfter cfg att).len) :
      AttestationStep cfg nowMs ts att
        (synthesise (ts.accumulate cfg att) (ts.witnessesAfter cfg att) att)

theorem allocate_keepWitnesses (ts : TopicStore) (target : NodeID) (set : FMap NodeID Record) :
    (ts.allocate target).keepWitnesses target set = ts.keepWitnesses target set := by
  unfold TopicStore.allocate
  split
  · rfl
  · unfold TopicStore.keepWitnesses
    simp only [FMap.erase_insert, AList.insert_insert]

/-- A set that was not there before is empty, so neither of the late tests refuses. -/
theorem allocate_eq_self {ts : TopicStore} {target : NodeID}
    (h : ts.witnesses target ≠ ∅) : ts.allocate target = ts := by
  unfold TopicStore.allocate
  unfold TopicStore.witnesses at h
  split
  · rfl
  · rename_i hnone
    rw [hnone] at h
    exact absurd rfl h

theorem nodeDeadAtOrAbove_had (ts : TopicStore) (node : NodeID) (hlc : UInt64) :
    ((ts.nodeDeadAtOrAbove node hlc).1 && (ts.nodeDeadAtOrAbove node hlc).2) =
      (ts.nodeDeadAtOrAbove node hlc).2 := by
  unfold TopicStore.nodeDeadAtOrAbove
  simp

theorem applyAttestationLocked_step (cfg : StoreConfig) (nowMs : Int64) (ts : TopicStore)
    (att : Record) :
    AttestationStep cfg nowMs ts att (applyAttestationLocked cfg nowMs ts att) := by
  unfold applyAttestationLocked
  simp only [nodeDeadAtOrAbove_had, allocate_keepWitnesses]
  split_ifs with hrole hskew hfence hdead hsup hcap hlen
  · exact .refused false false fun h => by simp [h.role] at hrole
  · exact .refused false false fun h => absurd hskew (not_lt.mpr h.skew)
  · exact .refused false false fun h => by simp [h.fence] at hfence
  · exact .refused true false fun h => by simp [h.alive] at hdead
  · rw [allocate_eq_self]
    · exact .refused true false fun h => by simp [h.fresh] at hsup
    · intro he
      simp [he, superseded] at hsup
  · rw [allocate_eq_self]
    · refine .refused true true fun h => ?_
      rcases h.room with hsome | hroom
      · rw [Option.isNone_iff_eq_none.mp hcap.1] at hsome
        cases hsome
      · exact absurd hcap.2 (not_le.mpr hroom)
    · intro he
      have := cfg.attestations_pos
      rw [he, FMap.len_empty] at hcap
      omega
  all_goals
    have hok : Admitted cfg nowMs ts att :=
      { role := by simpa using hrole
        skew := not_lt.mp hskew
        fence := by simpa using hfence
        alive := by simpa using hdead
        fresh := by simpa using hsup
        room := by
          rw [not_and_or, not_le] at hcap
          exact hcap.imp_left fun h => Option.isSome_iff_ne_none.mpr fun hn => h (by rw [hn]; rfl) }
  · exact .kept hok hlen
  · exact .crossed hok (not_lt.mp hlen)

theorem accumulated_iff_admitted (cfg : StoreConfig) (nowMs : Int64) (ts : TopicStore)
    (att : Record) :
    (applyAttestationLocked cfg nowMs ts att).accumulated = true ↔ Admitted cfg nowMs ts att := by
  have hstep := applyAttestationLocked_step cfg nowMs ts att
  generalize applyAttestationLocked cfg nowMs ts att = o at hstep ⊢
  cases hstep with
  | refused _ _ hno => exact ⟨fun h => absurd h Bool.false_ne_true, fun h => absurd h hno⟩
  | kept hok _ => exact ⟨fun _ => hok, fun _ => rfl⟩
  | crossed hok _ =>
    refine ⟨fun _ => hok, fun _ => ?_⟩
    unfold synthesise
    dsimp only
    split <;> rfl

/-! ### Witness sets -/

theorem lookup_pruneWindow (winMs : Int64) (set : FMap NodeID Record) (o : NodeID) :
    (pruneWindow winMs set).lookup o =
      (set.lookup o).bind fun a =>
        if winMs < newestOf set - a.observedAtUnixMs then none else some a :=
  FMap.lookup_rangeUpdate _ _ _

/-- A kept witness is the attestation itself or was there before. -/
theorem lookup_witnessesAfter {cfg : StoreConfig} {ts : TopicStore} {att a : Record} {o : NodeID}
    (h : (ts.witnessesAfter cfg att).lookup o = some a) :
    (o = att.observerNodeID ∧ a = att) ∨ (ts.witnesses att.nodeID).lookup o = some a := by
  unfold TopicStore.witnessesAfter at h
  rw [lookup_pruneWindow, Option.bind_eq_some_iff] at h
  obtain ⟨b, hb, hkeep⟩ := h
  split_ifs at hkeep
  cases hkeep
  rw [FMap.lookup_insert_eq] at hb
  split_ifs at hb with ho
  · cases hb
    exact Or.inl ⟨ho, rfl⟩
  · exact Or.inr hb

theorem witnesses_keepWitnesses (ts : TopicStore) (target node : NodeID)
    (set : FMap NodeID Record) :
    (ts.keepWitnesses target set).witnesses node =
      if node = target then set else ts.witnesses node := by
  unfold TopicStore.keepWitnesses TopicStore.witnesses
  by_cases hlen : set.len = 0
  · rw [if_pos hlen, FMap.lookup_erase_eq, FMap.len_eq_zero.mp hlen]
    split_ifs <;> rfl
  · rw [if_neg hlen, FMap.lookup_insert_eq]
    split_ifs <;> rfl

theorem witnesses_accumulate (cfg : StoreConfig) (ts : TopicStore) (att : Record) (node : NodeID) :
    (ts.accumulate cfg att).witnesses node =
      if node = att.nodeID then ts.witnessesAfter cfg att else ts.witnesses node :=
  witnesses_keepWitnesses _ _ _ _

theorem witnesses_replaceSlot (ts : TopicStore) (nowMs : Int64) (r : Record) (node : NodeID) :
    (ts.replaceSlot nowMs r).witnesses node = if node = r.nodeID then ∅ else ts.witnesses node := by
  unfold TopicStore.replaceSlot TopicStore.witnesses
  dsimp only
  rw [FMap.lookup_erase_eq]
  split_ifs <;> rfl

/-- Replacing a record drops witnesses and adds none. -/
theorem lookup_witnesses_of_replaceSlot {ts : TopicStore} {nowMs : Int64} {r a : Record}
    {node o : NodeID} (h : ((ts.replaceSlot nowMs r).witnesses node).lookup o = some a) :
    (ts.witnesses node).lookup o = some a := by
  rw [witnesses_replaceSlot] at h
  split_ifs at h
  · cases h
  · exact h

theorem hlc_le_maxHLCOf {set : FMap NodeID Record} {a : Record} (ha : a ∈ set.values) :
    a.hlc ≤ maxHLCOf set := MaxLoop.le_of_mem _ _ ha

/-! ### What a quorum writes -/

theorem mem_nodeSlots {ts : TopicStore} {node : NodeID} {k : RecordKey} :
    k ∈ ts.nodeSlots node ↔ (∃ r, ts.records.lookup k = some r) ∧ k.nodeID = node := by
  unfold TopicStore.nodeSlots
  rw [SortSlice.mem_iff, List.mem_filter, FMap.mem_keys, beq_iff_eq]

theorem nodePresent_iff {ts : TopicStore} {node : NodeID} :
    ts.nodePresent node = true ↔ ∃ k r, ts.records.lookup k = some r ∧ k.nodeID = node := by
  unfold TopicStore.nodePresent
  simp only [List.any_eq_true, FMap.mem_keys, beq_iff_eq]
  constructor
  · rintro ⟨k, ⟨r, hr⟩, hk⟩
    exact ⟨k, r, hr, hk⟩
  · rintro ⟨k, r, hr, hk⟩
    exact ⟨k, ⟨r, hr⟩, hk⟩

/-- A node is dead at a clock when it holds a slot and its slots are tombstones from there on. -/
theorem nodeDead_iff {ts : TopicStore} {node : NodeID} {hlc : UInt64} :
    (ts.nodeDeadAtOrAbove node hlc).2 = true ↔ ts.nodePresent node = true ∧
      ∀ k r, ts.records.lookup k = some r → k.nodeID = node → r.tombstone = true ∧ hlc ≤ r.hlc := by
  have hmem : ∀ e : (_ : RecordKey) × Record,
      e ∈ ts.records.entries.filter (fun e => e.1.nodeID == node) ↔
        ts.records.lookup e.1 = some e.2 ∧ e.1.nodeID = node := by
    intro e
    rw [List.mem_filter, beq_iff_eq, FMap.lookup_eq_some_iff]
  unfold TopicStore.nodeDeadAtOrAbove
  rw [nodePresent_iff]
  dsimp only
  rw [Bool.and_eq_true, Bool.not_eq_true', List.isEmpty_eq_false_iff_exists_mem, List.all_eq_true]
  constructor
  · rintro ⟨⟨e, he⟩, hall⟩
    refine ⟨⟨e.1, e.2, (hmem e).mp he⟩, ?_⟩
    intro k r hr hk
    have := hall ⟨k, r⟩ ((hmem ⟨k, r⟩).mpr ⟨hr, hk⟩)
    simpa using this
  · rintro ⟨⟨k, r, hr⟩, hall⟩
    refine ⟨⟨⟨k, r⟩, (hmem ⟨k, r⟩).mpr hr⟩, ?_⟩
    intro e he
    obtain ⟨hl, hk⟩ := (hmem e).mp he
    simpa using hall e.1 e.2 hl hk

theorem lookup_tombstoneSlot (synth : Record) (acc : Bool × FMap RecordKey Record)
    (k k' : RecordKey) :
    (tombstoneSlot synth acc k').2.lookup k =
      if k = k' ∧ ((acc.2.lookup k).getD {}).hlc < synth.hlc then some { synth with key := k.key }
      else acc.2.lookup k := by
  unfold tombstoneSlot
  dsimp only
  by_cases hk : k = k'
  · subst hk
    by_cases hlt : ((acc.2.lookup k).getD {}).hlc < synth.hlc
    · rw [if_pos hlt, if_pos ⟨rfl, hlt⟩, FMap.lookup_insert_eq, if_pos rfl]
    · rw [if_neg hlt, if_neg fun h => hlt h.2]
  · have hno : ¬ (k = k' ∧ ((acc.2.lookup k).getD {}).hlc < synth.hlc) := fun h => hk h.1
    rw [if_neg hno]
    split_ifs
    · rw [FMap.lookup_insert_eq, if_neg hk]
    · rfl

theorem lookup_tombstoneSlots (synth : Record) (slots : List RecordKey)
    (records : FMap RecordKey Record) (k : RecordKey) :
    (tombstoneSlots synth slots records).2.lookup k =
      if k ∈ slots ∧ ((records.lookup k).getD {}).hlc < synth.hlc then
        some { synth with key := k.key }
      else records.lookup k := by
  have gen : ∀ acc : Bool × FMap RecordKey Record,
      (slots.foldl (tombstoneSlot synth) acc).2.lookup k =
        if k ∈ slots ∧ ((acc.2.lookup k).getD {}).hlc < synth.hlc then
          some { synth with key := k.key }
        else acc.2.lookup k := by
    induction slots with
    | nil => intro acc; simp
    | cons k' slots ih =>
      intro acc
      rw [List.foldl_cons, ih, lookup_tombstoneSlot]
      -- a slot just written carries the synthesised clock, so a later visit leaves it
      by_cases hlt : ((acc.2.lookup k).getD {}).hlc < synth.hlc
      · by_cases hk : k = k'
        · subst hk
          simp [hlt]
        · simp [hk]
      · simp [hlt]
  exact gen (false, records)

/-- The slots after a quorum: the target's older slots hold the synthesised tombstone, or its
keyless slot does when it held none. -/
theorem lookup_synthesise (ts : TopicStore) (set : FMap NodeID Record) (att : Record)
    (k : RecordKey) :
    (synthesise ts set att).ts.records.lookup k =
      match ts.records.lookup k with
      | some cur =>
        if k.nodeID = att.nodeID ∧ cur.hlc < (synthOf set att).hlc then
          some { synthOf set att with key := k.key }
        else some cur
      | none =>
        if k = { nodeID := att.nodeID } ∧ ts.nodePresent att.nodeID = false then
          some (synthOf set att)
        else none := by
  have hempty : (ts.nodeSlots att.nodeID).isEmpty = true ↔ ts.nodePresent att.nodeID = false := by
    rw [List.isEmpty_iff, List.eq_nil_iff_forall_not_mem, ← Bool.not_eq_true, nodePresent_iff]
    simp only [mem_nodeSlots]
    constructor
    · rintro h ⟨k, r, hr, hk⟩
      exact h k ⟨⟨r, hr⟩, hk⟩
    · rintro h k ⟨⟨r, hr⟩, hk⟩
      exact h ⟨k, r, hr, hk⟩
  unfold synthesise
  dsimp only
  by_cases hslots : (ts.nodeSlots att.nodeID).isEmpty = true
  · have hnone := hempty.mp hslots
    rw [if_pos hslots, FMap.lookup_insert_eq]
    by_cases hk : k = { nodeID := att.nodeID }
    · subst hk
      cases hcur : ts.records.lookup { nodeID := att.nodeID } with
      | none => simp [hnone]
      | some cur =>
        rw [← Bool.not_eq_true, nodePresent_iff] at hnone
        exact absurd ⟨_, cur, hcur, rfl⟩ hnone
    · rw [if_neg hk]
      cases hcur : ts.records.lookup k with
      | none => simp [hk]
      | some cur =>
        rw [← Bool.not_eq_true, nodePresent_iff] at hnone
        have : k.nodeID ≠ att.nodeID := fun h => hnone ⟨k, cur, hcur, h⟩
        simp [this]
  · have hsome : ts.nodePresent att.nodeID = true := by
      rw [← Bool.not_eq_false]
      exact fun h => hslots (hempty.mpr h)
    have hmem : k ∈ ts.nodeSlots att.nodeID ↔
        (∃ r, ts.records.lookup k = some r) ∧ k.nodeID = att.nodeID := mem_nodeSlots
    rw [if_neg hslots, lookup_tombstoneSlots]
    cases hcur : ts.records.lookup k with
    | none => simp [hmem, hcur, hsome]
    | some cur => simp [hmem, hcur]

/-- A record found after a quorum was there before, or is the synthesised tombstone over an older
record or in the first slot of the target. -/
theorem eq_or_overwrites_of_lookup {ts : TopicStore} {set : FMap NodeID Record} {att r : Record}
    {k : RecordKey} (h : (synthesise ts set att).ts.records.lookup k = some r) :
    ts.records.lookup k = some r ∨
      (k.nodeID = att.nodeID ∧ r = { synthOf set att with key := k.key } ∧
        ((∃ cur, ts.records.lookup k = some cur ∧ cur.hlc < (synthOf set att).hlc) ∨
          k.key = [] ∧ ts.nodePresent att.nodeID = false)) := by
  rw [lookup_synthesise] at h
  cases hcur : ts.records.lookup k with
  | some cur =>
    rw [hcur] at h
    dsimp only at h
    split_ifs at h with hk
    · cases h
      exact Or.inr ⟨hk.1, rfl, Or.inl ⟨cur, rfl, hk.2⟩⟩
    · exact Or.inl h
  | none =>
    rw [hcur] at h
    dsimp only at h
    split_ifs at h with hk
    cases h
    exact Or.inr ⟨by rw [hk.1], by rw [hk.1]; rfl, Or.inr ⟨by rw [hk.1], hk.2⟩⟩

theorem eq_or_synth_of_lookup {ts : TopicStore} {set : FMap NodeID Record} {att r : Record}
    {k : RecordKey} (h : (synthesise ts set att).ts.records.lookup k = some r) :
    ts.records.lookup k = some r ∨
      (k.nodeID = att.nodeID ∧ r = { synthOf set att with key := k.key }) :=
  (eq_or_overwrites_of_lookup h).imp_right fun hnew => ⟨hnew.1, hnew.2.1⟩

theorem synthesise_attestations (ts : TopicStore) (set : FMap NodeID Record) (att : Record) :
    (synthesise ts set att).ts.attestations = ts.attestations := by
  unfold synthesise
  dsimp only
  split <;> rfl

theorem synthesise_restoredAt (ts : TopicStore) (set : FMap NodeID Record) (att : Record) :
    (synthesise ts set att).ts.restoredAtUnixMs = ts.restoredAtUnixMs := by
  unfold synthesise
  dsimp only
  split <;> rfl

theorem witnesses_synthesise (ts : TopicStore) (set : FMap NodeID Record) (att : Record)
    (node : NodeID) : (synthesise ts set att).ts.witnesses node = ts.witnesses node := by
  unfold TopicStore.witnesses
  rw [synthesise_attestations]

/-! ## Merges -/

/-- The rule for merges: what a topic has is kept when both roles keep it in all that they do. -/
theorem applyTopic_preserves {cfg : StoreConfig} {nowMs : Int64} {ts : TopicStore} {r : Record}
    {P : TopicStore → Prop} (same : P ts)
    (kept : r.isObserverAttestation = true → Admitted cfg nowMs ts r → P (ts.accumulate cfg r))
    (crossed : r.isObserverAttestation = true → Admitted cfg nowMs ts r →
      cfg.observerQuorum ≤ (ts.witnessesAfter cfg r).len → P (ts.accumulate cfg r) →
      P (synthesise (ts.accumulate cfg r) (ts.witnessesAfter cfg r) r).ts)
    (opened : r.isObserverAttestation = false → P (ts.openSlot nowMs r))
    (newer : r.isObserverAttestation = false → P (ts.replaceSlot nowMs r)) :
    P (applyTopic cfg nowMs ts r).ts := by
  unfold applyTopic
  cases hatt : r.isObserverAttestation with
  | true =>
    rw [if_pos rfl]
    have hstep := applyAttestationLocked_step cfg nowMs ts r
    generalize applyAttestationLocked cfg nowMs ts r = o at hstep
    cases hstep with
    | refused => exact same
    | kept hok => exact kept hatt hok
    | crossed hok hlen => exact crossed hatt hok hlen (kept hatt hok)
  | false =>
    rw [if_neg Bool.false_ne_true]
    have hstep := applyOwner_step cfg nowMs ts r
    generalize applyOwner cfg nowMs ts r = o at hstep
    cases hstep with
    | full => exact same
    | opened => exact opened hatt
    | newer => exact newer hatt
    | stale => exact same

/-! ## The store, topic by topic -/

/-- The topic as the operations see it: empty when the store has no entry. -/
def RecordStore.topic (s : RecordStore) (t : Topic) : TopicStore := (s.byTopic.lookup t).getD {}

theorem topic_commit (s : RecordStore) (t t' : Topic) (o : Outcome) :
    (s.commit t o).2.topic t' = if t' = t then o.ts else s.topic t' := by
  unfold RecordStore.commit RecordStore.topic
  dsimp only
  rw [FMap.lookup_insert_eq]
  split_ifs <;> rfl

/-- A record is turned away by the topic cap, or merged into its topic. -/
theorem applyExt_eq (cfg : StoreConfig) (nowMs : Int64) (s : RecordStore) (r : Record) :
    (s.byTopic.lookup r.topic = none ∧ cfg.maxTopics ≤ s.byTopic.len ∧
      applyExt cfg nowMs s r = ({ applied := false, replaced := false, accumulated := false },
        { s with rejectedCap := s.rejectedCap + 1 })) ∨
    applyExt cfg nowMs s r = s.commit r.topic (applyTopic cfg nowMs (s.topic r.topic) r) := by
  unfold applyExt RecordStore.topic
  split
  · rename_i hnone
    split_ifs with hcap
    · exact Or.inl ⟨hnone, hcap, rfl⟩
    · right
      rw [hnone]
      rfl
  · rename_i ts hts
    right
    rw [hts]
    rfl

/-- The topic exists or the topic cap leaves room for it. -/
def TopicRoom (cfg : StoreConfig) (s : RecordStore) (t : Topic) : Prop :=
  s.byTopic.lookup t = none → s.byTopic.len < cfg.maxTopics

theorem applyExt_of_room {cfg : StoreConfig} {nowMs : Int64} {s : RecordStore} {r : Record}
    (h : TopicRoom cfg s r.topic) :
    applyExt cfg nowMs s r = s.commit r.topic (applyTopic cfg nowMs (s.topic r.topic) r) := by
  rcases applyExt_eq cfg nowMs s r with ⟨hnone, hfull, -⟩ | heq
  · exact absurd (h hnone) (not_lt.mpr hfull)
  · exact heq

theorem applyExt_of_no_room {cfg : StoreConfig} {s : RecordStore} {r : Record}
    (h : ¬ TopicRoom cfg s r.topic) (nowMs : Int64) :
    applyExt cfg nowMs s r = ({ applied := false, replaced := false, accumulated := false },
      { s with rejectedCap := s.rejectedCap + 1 }) := by
  unfold TopicRoom at h
  push Not at h
  unfold applyExt
  rw [h.1]
  exact if_pos h.2

theorem not_topicRoom_iff {cfg : StoreConfig} {s : RecordStore} {t : Topic} :
    ¬ TopicRoom cfg s t ↔ t ∉ s.byTopic.keys ∧ cfg.maxTopics ≤ s.byTopic.len := by
  unfold TopicRoom
  rw [Classical.not_imp, not_lt, FMap.not_mem_keys]

/-- The topics after a call are those before it, and that of the record where there is room. -/
theorem mem_topics_applyExt {cfg : StoreConfig} {nowMs : Int64} {s : RecordStore} {r : Record}
    {t : Topic} : t ∈ (applyExt cfg nowMs s r).2.byTopic.keys ↔
      t ∈ s.byTopic.keys ∨ (t = r.topic ∧ TopicRoom cfg s t) := by
  by_cases hroom : TopicRoom cfg s r.topic
  · rw [applyExt_of_room hroom, FMap.mem_keys]
    show (∃ v, (s.byTopic.insert r.topic _).lookup t = some v) ↔ _
    rw [FMap.lookup_insert_eq]
    split_ifs with ht
    · exact iff_of_true ⟨_, rfl⟩ (Or.inr ⟨ht, ht ▸ hroom⟩)
    · rw [← FMap.mem_keys]
      exact (or_iff_left fun h => ht h.1).symm
  · rw [applyExt_of_no_room hroom]
    refine (or_iff_left ?_).symm
    rintro ⟨rfl, h⟩
    exact hroom h

/-- A topic turned away by the topic cap is turned away later too. -/
theorem no_topicRoom_applyExt {cfg : StoreConfig} {s : RecordStore} {t : Topic}
    (h : ¬ TopicRoom cfg s t) (nowMs : Int64) (r : Record) :
    ¬ TopicRoom cfg (applyExt cfg nowMs s r).2 t := by
  obtain ⟨hnot, hfull⟩ := not_topicRoom_iff.mp h
  refine not_topicRoom_iff.mpr ⟨fun hmem => ?_, hfull.trans (FMap.len_mono fun t' ht' => ?_)⟩
  · rcases mem_topics_applyExt.mp hmem with hold | ⟨-, hroom⟩
    · exact hnot hold
    · exact h hroom
  · exact mem_topics_applyExt.mpr (Or.inl ht')

/-- Only the topic of the record changes, and only by the merge. -/
theorem topic_applyExt (cfg : StoreConfig) (nowMs : Int64) (s : RecordStore) (r : Record)
    (t : Topic) :
    (applyExt cfg nowMs s r).2.topic t = s.topic t ∨
      (t = r.topic ∧
        (applyExt cfg nowMs s r).2.topic t = (applyTopic cfg nowMs (s.topic t) r).ts) := by
  rcases applyExt_eq cfg nowMs s r with ⟨-, -, heq⟩ | heq
  · rw [heq]
    exact Or.inl rfl
  · rw [heq, topic_commit]
    split_ifs with ht
    · exact Or.inr ⟨ht, by rw [ht]⟩
    · exact Or.inl rfl

theorem lookup_reap (ts : TopicStore) (nowMs ttlMs : Int64) (k : RecordKey) :
    (ts.reap nowMs ttlMs).records.lookup k =
      (ts.records.lookup k).bind fun r => if expired nowMs ttlMs r then none else some r :=
  FMap.lookup_rangeUpdate _ _ _

theorem restoredAt_reap (ts : TopicStore) (nowMs ttlMs : Int64) (node : NodeID) :
    (ts.reap nowMs ttlMs).restoredAtUnixMs.lookup node =
      (ts.restoredAtUnixMs.lookup node).bind fun hwm =>
        if (ts.reap nowMs ttlMs).nodePresent node then some hwm else none :=
  FMap.lookup_rangeUpdate _ _ _

theorem reap_empty (nowMs ttlMs : Int64) : ({} : TopicStore).reap nowMs ttlMs = {} := rfl

/-- Retention acts on every topic by itself; a topic it deletes was left empty. -/
theorem topic_reapExpired_some (nowMs : Int64) (ttlFor : Topic → Duration) (s : RecordStore)
    (t : Topic) :
    (reapExpired nowMs (some ttlFor) s).2.topic t =
      if ttlFor t ≤ 0 then s.topic t else (s.topic t).reap nowMs (ttlFor t).milliseconds := by
  unfold reapExpired RecordStore.topic
  dsimp only
  rw [FMap.lookup_rangeUpdate]
  cases hts : s.byTopic.lookup t with
  | none =>
    rw [Option.getD_none, reap_empty]
    exact (ite_self _).symm
  | some ts =>
    rw [Option.bind_some, Option.getD_some]
    split_ifs with httl hempty
    · rfl
    · rw [FMap.len_eq_zero, FMap.len_eq_zero] at hempty
      -- with no slot left no node is present, so no mark is left either
      have habsent : ∀ node,
          (ts.reap nowMs (ttlFor t).milliseconds).nodePresent node = false := by
        intro node
        rw [← Bool.not_eq_true, nodePresent_iff, hempty.1]
        rintro ⟨k, r, hr, -⟩
        cases hr
      have hmark : (ts.reap nowMs (ttlFor t).milliseconds).restoredAtUnixMs = ∅ := by
        refine FMap.eq_empty_of_lookup fun node => ?_
        rw [restoredAt_reap, habsent node]
        cases ts.restoredAtUnixMs.lookup node <;> rfl
      exact TopicStore.ext hempty.1.symm hempty.2.symm hmark.symm
    · rfl

theorem topic_reapExpired (nowMs : Int64) (ttlFor : Option (Topic → Duration)) (s : RecordStore)
    (t : Topic) :
    (reapExpired nowMs ttlFor s).2.topic t = s.topic t ∨
      ∃ ttlMs, (reapExpired nowMs ttlFor s).2.topic t = (s.topic t).reap nowMs ttlMs := by
  cases ttlFor with
  | none => exact Or.inl rfl
  | some ttlFor =>
    rw [topic_reapExpired_some]
    split_ifs
    · exact Or.inl rfl
    · exact Or.inr ⟨_, rfl⟩

/-! ## Runs -/

/-- One call on the store, with the clock reading it sees. -/
inductive StoreOp where
  | apply (nowMs : Int64) (r : Record)
  | reap (nowMs : Int64) (ttlFor : Option (Topic → Duration))

/-- The store after a call. -/
def StoreOp.exec (cfg : StoreConfig) (s : RecordStore) : StoreOp → RecordStore
  | .apply nowMs r => (applyExt cfg nowMs s r).2
  | .reap nowMs ttlFor => (reapExpired nowMs ttlFor s).2

/-- The store after a list of calls. -/
def runStore (cfg : StoreConfig) (s : RecordStore) (ops : List StoreOp) : RecordStore :=
  ops.foldl (StoreOp.exec cfg) s

theorem runStore_append (cfg : StoreConfig) (s : RecordStore) (ops ops' : List StoreOp) :
    runStore cfg s (ops ++ ops') = runStore cfg (runStore cfg s ops) ops' :=
  List.foldl_append

theorem runStore_concat (cfg : StoreConfig) (s : RecordStore) (ops : List StoreOp) (op : StoreOp) :
    runStore cfg s (ops ++ [op]) = op.exec cfg (runStore cfg s ops) :=
  runStore_append cfg s ops [op]

/-- One `ApplyExt`, given as the clock reading and the record. -/
def applyCall (cfg : StoreConfig) (s : RecordStore) (c : Int64 × Record) : RecordStore :=
  (applyExt cfg c.1 s c.2).2

/-- Runs that only apply records. -/
def applyOps (calls : List (Int64 × Record)) : List StoreOp :=
  calls.map fun c => .apply c.1 c.2

theorem runStore_applyOps (cfg : StoreConfig) (s : RecordStore) (calls : List (Int64 × Record)) :
    runStore cfg s (applyOps calls) = calls.foldl (applyCall cfg) s :=
  List.foldl_map

/-- **Invariants of runs.** `P ops t ts` may speak of the calls made so far. It holds after every
run when it holds at the start and is kept by one more call that leaves the topic alone, by a
merge into the topic and by retention. -/
theorem runStore_invariant {cfg : StoreConfig} {P : List StoreOp → Topic → TopicStore → Prop}
    (start : ∀ t, P [] t {})
    (wait : ∀ ops op t ts, P ops t ts → P (ops ++ [op]) t ts)
    (merge : ∀ ops nowMs r ts, P ops r.topic ts →
      P (ops ++ [.apply nowMs r]) r.topic (applyTopic cfg nowMs ts r).ts)
    (reap : ∀ ops nowMs ttlFor ttlMs t ts, P ops t ts →
      P (ops ++ [.reap nowMs ttlFor]) t (ts.reap nowMs ttlMs))
    (ops : List StoreOp) (t : Topic) : P ops t ((runStore cfg {} ops).topic t) := by
  induction ops using List.reverseRecOn with
  | nil => exact start t
  | append_singleton ops op ih =>
    rw [runStore_concat]
    cases op with
    | apply nowMs r =>
      rcases topic_applyExt cfg nowMs (runStore cfg {} ops) r t with h | ⟨rfl, h⟩
      · show P _ t ((applyExt cfg nowMs _ r).2.topic t)
        rw [h]
        exact wait _ _ _ _ ih
      · show P _ _ ((applyExt cfg nowMs _ r).2.topic r.topic)
        rw [h]
        exact merge _ _ _ _ ih
    | reap nowMs ttlFor =>
      rcases topic_reapExpired nowMs ttlFor (runStore cfg {} ops) t with h | ⟨ttlMs, h⟩
      · show P _ t ((reapExpired nowMs ttlFor _).2.topic t)
        rw [h]
        exact wait _ _ _ _ ih
      · show P _ t ((reapExpired nowMs ttlFor _).2.topic t)
        rw [h]
        exact reap _ _ _ _ _ _ ih

end Swarm
