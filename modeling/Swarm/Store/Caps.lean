import Swarm.Convergence
import Swarm.Store.Death
import Swarm.Store.Forward

/-!
# The caps of the store

Four caps bound what a store can be made to hold: its topics, the slots of a topic, the slots of a
node in a topic and the observers kept for a target. Three of them hold in every reachable state.
The cap on the slots of a topic is tested where an owner record opens a slot, but a quorum against
a node without a slot opens one too, without that test: `caps_iff_fillsRoom` says that this is the
only way past the cap.

Nothing an owner record does makes room again, so a slot that a cap refused once stays refused
(`Shut.applyCall`), and a slot that is held has seen every record of its own: what a capped store
holds is what a store without caps holds there (`capped_restricts`).

A refused record is meant to leave nothing behind. It does unless its topic is new: the topic is
allocated before the tests of the attestation path run, and stays (`refused_unchanged_iff`).
-/

namespace Swarm

/-! ## The slots of a topic -/

/-- The attestation reaches the quorum against a node that holds no slot. -/
structure Fills (cfg : StoreConfig) (nowMs : Int64) (ts : TopicStore) (r : Record) : Prop where
  att : r.isObserverAttestation = true
  admitted : Admitted cfg nowMs ts r
  quorum : cfg.observerQuorum ≤ (ts.witnessesAfter cfg r).len
  absent : ts.nodePresent r.nodeID = false

/-- How a merge changes which slots of a topic are taken. -/
inductive SlotStep (cfg : StoreConfig) (nowMs : Int64) (ts : TopicStore) (r : Record)
    (ts' : TopicStore) : Prop
  | same (hno : ¬ Fills cfg nowMs ts r)
      (hkeys : ∀ k, k ∈ ts'.records.keys ↔ k ∈ ts.records.keys)
  | opened (hno : ¬ Fills cfg nowMs ts r) (hnew : keyOf r ∉ ts.records.keys)
      (hroom : ts.records.len < cfg.maxRecordsPerTopic)
      (hheld : ts.held r.nodeID < cfg.maxKeysPerNode)
      (hkeys : ∀ k, k ∈ ts'.records.keys ↔ k = keyOf r ∨ k ∈ ts.records.keys)
  | filled (hfill : Fills cfg nowMs ts r)
      (hnew : ({ nodeID := r.nodeID } : RecordKey) ∉ ts.records.keys)
      (hkeys : ∀ k, k ∈ ts'.records.keys ↔ k = { nodeID := r.nodeID } ∨ k ∈ ts.records.keys)

theorem mem_keys_of_write {m m' : FMap RecordKey Record} {r : Record}
    (h : ∀ k, m'.lookup k = if k = keyOf r then some r else m.lookup k) (k : RecordKey) :
    k ∈ m'.keys ↔ k = keyOf r ∨ k ∈ m.keys := by
  rw [FMap.mem_keys, FMap.mem_keys, h]
  split_ifs with hk
  · exact iff_of_true ⟨r, rfl⟩ (Or.inl hk)
  · rw [or_iff_right hk]

/-- A quorum takes a new slot exactly when its target held none. -/
theorem mem_keys_synthesise (ts : TopicStore) (set : FMap NodeID Record) (att : Record)
    (k : RecordKey) :
    k ∈ (synthesise ts set att).ts.records.keys ↔
      (k = { nodeID := att.nodeID } ∧ ts.nodePresent att.nodeID = false) ∨ k ∈ ts.records.keys := by
  rw [FMap.mem_keys, FMap.mem_keys, lookup_synthesise]
  cases ts.records.lookup k with
  | none =>
    dsimp only
    split_ifs with hk
    · exact iff_of_true ⟨_, rfl⟩ (Or.inl hk)
    · simp [hk]
  | some cur =>
    dsimp only
    split_ifs
    · exact iff_of_true ⟨_, rfl⟩ (Or.inr ⟨_, rfl⟩)
    · exact iff_of_true ⟨_, rfl⟩ (Or.inr ⟨_, rfl⟩)

theorem applyTopic_slotStep (cfg : StoreConfig) (nowMs : Int64) (ts : TopicStore) (r : Record) :
    SlotStep cfg nowMs ts r (applyTopic cfg nowMs ts r).ts := by
  unfold applyTopic
  split_ifs with hatt
  · have hstep := applyAttestationLocked_step cfg nowMs ts r
    generalize applyAttestationLocked cfg nowMs ts r = o at hstep
    cases hstep with
    | refused _ _ hno => exact .same (fun h => hno h.admitted) fun _ => Iff.rfl
    | kept _ hlen => exact .same (fun h => absurd h.quorum (not_le.mpr hlen)) fun _ => Iff.rfl
    | crossed hok hlen =>
      have hkeys := mem_keys_synthesise (ts.accumulate cfg r) (ts.witnessesAfter cfg r) r
      have hsame : (ts.accumulate cfg r).nodePresent r.nodeID = ts.nodePresent r.nodeID := rfl
      rw [hsame] at hkeys
      cases hpres : ts.nodePresent r.nodeID with
      | true =>
        refine .same (fun h => ?_) fun k => (hkeys k).trans ?_
        · rw [h.absent] at hpres
          cases hpres
        · exact or_iff_right fun h => by rw [hpres] at h; cases h.2
      | false =>
        refine .filled ⟨hatt, hok, hlen, hpres⟩ (fun hmem => ?_) fun k => (hkeys k).trans ?_
        · obtain ⟨x, hx⟩ := FMap.mem_keys.mp hmem
          rw [nodePresent_iff.mpr ⟨_, x, hx, rfl⟩] at hpres
          cases hpres
        · exact or_congr_left (and_iff_left hpres)
  · have hno : ¬ Fills cfg nowMs ts r := fun h => hatt h.att
    have hstep := applyOwner_step cfg nowMs ts r
    generalize applyOwner cfg nowMs ts r = o at hstep
    cases hstep with
    | full => exact .same hno fun _ => Iff.rfl
    | opened hnew hroom hkeys =>
      exact .opened hno (FMap.not_mem_keys.mpr hnew) hroom hkeys
        (mem_keys_of_write (lookup_openSlot ts nowMs r))
    | newer hcur =>
      refine .same hno fun k => (mem_keys_of_write (lookup_replaceSlot ts nowMs r) k).trans ?_
      exact or_iff_right_of_imp fun hk => hk ▸ FMap.mem_keys.mpr ⟨_, hcur⟩
    | stale => exact .same hno fun _ => Iff.rfl

/-- A merge stays below the slot cap exactly when a quorum that takes a new slot finds room. -/
theorem len_applyTopic_le_iff {cfg : StoreConfig} {nowMs : Int64} {ts : TopicStore} {r : Record}
    (h : ts.records.len ≤ cfg.maxRecordsPerTopic) :
    (applyTopic cfg nowMs ts r).ts.records.len ≤ cfg.maxRecordsPerTopic ↔
      (Fills cfg nowMs ts r → ts.records.len < cfg.maxRecordsPerTopic) := by
  have hstep := applyTopic_slotStep cfg nowMs ts r
  generalize (applyTopic cfg nowMs ts r).ts = ts' at hstep
  rw [FMap.len_eq_countP_keys] at h ⊢
  rw [FMap.len_eq_countP_keys]
  cases hstep with
  | same hno hkeys =>
    rw [FMap.countP_keys_congr _ hkeys]
    exact iff_of_true h fun hfill => absurd hfill hno
  | opened hno hnew hroom _ hkeys =>
    rw [FMap.len_eq_countP_keys] at hroom
    rw [FMap.countP_keys_add _ hnew hkeys]
    exact iff_of_true hroom fun hfill => absurd hfill hno
  | filled hfill hnew hkeys =>
    rw [FMap.countP_keys_add _ hnew hkeys]
    exact ⟨fun hle _ => hle, fun hlt => hlt hfill⟩

/-- No merge takes a node past the key cap: a quorum opens a slot only for a node without one. -/
theorem held_applyTopic_le {cfg : StoreConfig} {nowMs : Int64} {ts : TopicStore} {r : Record}
    (h : ∀ node, ts.held node ≤ cfg.maxKeysPerNode) (node : NodeID) :
    (applyTopic cfg nowMs ts r).ts.held node ≤ cfg.maxKeysPerNode := by
  have hstep := applyTopic_slotStep cfg nowMs ts r
  generalize (applyTopic cfg nowMs ts r).ts = ts' at hstep
  have hbefore := h node
  unfold TopicStore.held at hbefore ⊢
  cases hstep with
  | same _ hkeys =>
    rw [FMap.countP_keys_congr _ hkeys]
    exact hbefore
  | opened _ hnew _ hheld hkeys =>
    rw [FMap.countP_keys_add _ hnew hkeys]
    split_ifs with hnode
    · have : r.nodeID = node := beq_iff_eq.mp hnode
      rw [← this]
      exact hheld
    · exact hbefore
  | filled hfill hnew hkeys =>
    rw [FMap.countP_keys_add _ hnew hkeys]
    split_ifs with hnode
    · have hself : r.nodeID = node := beq_iff_eq.mp hnode
      have hzero : (ts.records.keys.countP fun k => k.nodeID == node) = 0 := by
        rw [List.countP_eq_zero]
        intro k hk hk'
        obtain ⟨x, hx⟩ := FMap.mem_keys.mp hk
        have hpres := nodePresent_iff.mpr ⟨k, x, hx, (beq_iff_eq.mp hk').trans hself.symm⟩
        rw [hfill.absent] at hpres
        cases hpres
      rw [hzero]
      exact cfg.keys_pos
    · exact hbefore

/-! ## The observers of a target -/

theorem len_witnessesAfter_le {cfg : StoreConfig} {nowMs : Int64} {ts : TopicStore} {att : Record}
    (hok : Admitted cfg nowMs ts att) (h : (ts.witnesses att.nodeID).len ≤ cfg.maxAttestations) :
    (ts.witnessesAfter cfg att).len ≤ cfg.maxAttestations := by
  have hprune : (ts.witnessesAfter cfg att).len ≤
      FMap.len ((ts.witnesses att.nodeID).insert att.observerNodeID att) := by
    refine FMap.len_mono fun o ho => ?_
    obtain ⟨a, ha⟩ := FMap.mem_keys.mp ho
    rw [TopicStore.witnessesAfter, lookup_pruneWindow, Option.bind_eq_some_iff] at ha
    obtain ⟨b, hb, -⟩ := ha
    exact FMap.mem_keys.mpr ⟨b, hb⟩
  refine hprune.trans ?_
  by_cases hmem : att.observerNodeID ∈ (ts.witnesses att.nodeID).keys
  · rw [FMap.len_insert_old hmem]
    exact h
  · have hnone := FMap.not_mem_keys.mp hmem
    rw [FMap.len_insert_new hnone]
    refine hok.room.resolve_left fun hsome => ?_
    rw [hnone] at hsome
    cases hsome

theorem witnesses_applyTopic_le {cfg : StoreConfig} {nowMs : Int64} {ts : TopicStore} {r : Record}
    (h : ∀ target, (ts.witnesses target).len ≤ cfg.maxAttestations) (target : NodeID) :
    ((applyTopic cfg nowMs ts r).ts.witnesses target).len ≤ cfg.maxAttestations := by
  apply applyTopic_preserves (P := fun ts' => (ts'.witnesses target).len ≤ cfg.maxAttestations)
    (h target)
  · intro _ hok
    rw [witnesses_accumulate]
    split_ifs
    · exact len_witnessesAfter_le hok (h _)
    · exact h target
  · intro _ _ _ hacc
    rwa [witnesses_synthesise]
  · exact fun _ => h target
  · intro _
    rw [witnesses_replaceSlot]
    split_ifs
    · exact Nat.zero_le _
    · exact h target

/-! ## Runs -/

/-- The caps on topics, on the slots of a node and on the observers of a target. -/
structure Capped (cfg : StoreConfig) (s : RecordStore) : Prop where
  topics : s.byTopic.len ≤ cfg.maxTopics
  keys : ∀ t node, (s.topic t).held node ≤ cfg.maxKeysPerNode
  observers : ∀ t target, ((s.topic t).witnesses target).len ≤ cfg.maxAttestations

/-- The cap on the slots of a topic. -/
def SlotsCapped (cfg : StoreConfig) (s : RecordStore) : Prop :=
  ∀ t, (s.topic t).records.len ≤ cfg.maxRecordsPerTopic

/-- A quorum against a node without a slot finds room for one. -/
def FillsRoom (cfg : StoreConfig) (s : RecordStore) : StoreOp → Prop
  | .apply nowMs r =>
    TopicRoom cfg s r.topic → Fills cfg nowMs (s.topic r.topic) r →
      (s.topic r.topic).records.len < cfg.maxRecordsPerTopic
  | .reap _ _ => True

theorem keys_reap_subset (ts : TopicStore) (nowMs ttlMs : Int64) :
    (ts.reap nowMs ttlMs).records.keys ⊆ ts.records.keys := by
  intro k hk
  obtain ⟨r, hr⟩ := FMap.mem_keys.mp hk
  rw [lookup_reap, Option.bind_eq_some_iff] at hr
  obtain ⟨x, hx, -⟩ := hr
  exact FMap.mem_keys.mpr ⟨x, hx⟩

/-- A topic is allocated below the cap only. -/
theorem len_byTopic_applyExt_le {cfg : StoreConfig} {s : RecordStore} (nowMs : Int64) (r : Record)
    (h : s.byTopic.len ≤ cfg.maxTopics) :
    (applyExt cfg nowMs s r).2.byTopic.len ≤ cfg.maxTopics := by
  by_cases hroom : TopicRoom cfg s r.topic
  swap
  · rw [applyExt_of_no_room hroom]
    exact h
  rw [applyExt_of_room hroom]
  show FMap.len (s.byTopic.insert r.topic _) ≤ cfg.maxTopics
  by_cases hmem : r.topic ∈ s.byTopic.keys
  · rw [FMap.len_insert_old hmem]
    exact h
  · rw [FMap.len_insert_new (FMap.not_mem_keys.mp hmem)]
    exact hroom (FMap.not_mem_keys.mp hmem)

theorem len_byTopic_reapExpired_le (nowMs : Int64) (ttlFor : Option (Topic → Duration))
    (s : RecordStore) : (reapExpired nowMs ttlFor s).2.byTopic.len ≤ s.byTopic.len := by
  cases ttlFor with
  | none => exact le_rfl
  | some ttlFor =>
    exact FMap.len_rangeUpdate_le _ s.byTopic

theorem run_topics_le (cfg : StoreConfig) (ops : List StoreOp) :
    (runStore cfg {} ops).byTopic.len ≤ cfg.maxTopics := by
  induction ops using List.reverseRecOn with
  | nil => exact Nat.zero_le _
  | append_singleton ops op ih =>
    rw [runStore_concat]
    cases op with
    | apply nowMs r => exact len_byTopic_applyExt_le nowMs r ih
    | reap nowMs ttlFor => exact (len_byTopic_reapExpired_le nowMs ttlFor _).trans ih

theorem run_capped (cfg : StoreConfig) (ops : List StoreOp) :
    Capped cfg (runStore cfg {} ops) where
  topics := run_topics_le cfg ops
  keys := runStore_invariant
    (P := fun _ _ ts => ∀ node, ts.held node ≤ cfg.maxKeysPerNode)
    (fun _ _ => Nat.zero_le _) (fun _ _ _ _ h => h) (fun _ _ _ _ h => held_applyTopic_le h)
    (fun _ nowMs _ ttlMs _ ts h node =>
      (FMap.countP_keys_mono _ (keys_reap_subset ts nowMs ttlMs)).trans (h node)) ops
  observers := runStore_invariant
    (P := fun _ _ ts => ∀ target, (ts.witnesses target).len ≤ cfg.maxAttestations)
    (fun _ _ => Nat.zero_le _) (fun _ _ _ _ h => h) (fun _ _ _ _ h => witnesses_applyTopic_le h)
    (fun _ _ _ _ _ _ h => h) ops

theorem slotsCapped_commit_iff {cfg : StoreConfig} {s : RecordStore} {t : Topic} {o : Outcome}
    (h : SlotsCapped cfg s) :
    SlotsCapped cfg (s.commit t o).2 ↔ o.ts.records.len ≤ cfg.maxRecordsPerTopic := by
  constructor
  · intro hs
    have := hs t
    rwa [topic_commit, if_pos rfl] at this
  · intro ho t'
    rw [topic_commit]
    split_ifs
    · exact ho
    · exact h t'

/-- One call keeps the slot cap exactly when a quorum against an absent node finds room. -/
theorem slotsCapped_exec_iff {cfg : StoreConfig} (s : RecordStore) (op : StoreOp)
    (h : SlotsCapped cfg s) : SlotsCapped cfg (op.exec cfg s) ↔ FillsRoom cfg s op := by
  cases op with
  | apply nowMs r =>
    show SlotsCapped cfg (applyExt cfg nowMs s r).2 ↔ _
    by_cases hroom : TopicRoom cfg s r.topic
    · rw [applyExt_of_room hroom, slotsCapped_commit_iff h, len_applyTopic_le_iff (h _)]
      exact ⟨fun hfill _ => hfill, fun hfill => hfill hroom⟩
    · rw [applyExt_of_no_room hroom]
      exact iff_of_true h fun hyes => absurd hyes hroom
  | reap nowMs ttlFor =>
    refine iff_of_true (fun t => ?_) trivial
    show ((reapExpired nowMs ttlFor s).2.topic t).records.len ≤ _
    rcases topic_reapExpired nowMs ttlFor s t with heq | ⟨ttlMs, heq⟩
    · rw [heq]
      exact h t
    · have ht := h t
      rw [FMap.len_eq_countP_keys] at ht
      rw [heq, FMap.len_eq_countP_keys]
      exact (FMap.countP_keys_mono _ (keys_reap_subset _ nowMs ttlMs)).trans ht

/-- **The caps.** For every run of `ApplyExt` and `reapExpired`, the caps on topics, on the slots of
a node in a topic and on the observers of a target hold at the end. The cap on the slots of a topic
holds in every state reached exactly when no quorum is reached on a full topic against a node that
holds no slot there. -/
theorem caps_iff_fillsRoom (cfg : StoreConfig) (ops : List StoreOp) :
    Capped cfg (runStore cfg {} ops) ∧
    (Runs.StatesMeet (StoreOp.exec cfg) (SlotsCapped cfg) {} ops ↔
      Runs.StepsMeet (StoreOp.exec cfg) (FillsRoom cfg) {} ops) :=
  ⟨run_capped cfg ops,
    Runs.statesMeet_iff_stepsMeet slotsCapped_exec_iff (fun _ => Nat.zero_le _) ops⟩

/-- Node 8 takes the one slot of the topic; then two observers attest the death of node 9, which
has no record. -/
def fullTopicOps : List StoreOp :=
  [.apply 1000 { topic := [116], nodeID := [8], hlc := 5, body := [7], sig := [8] },
    .apply 1200 { topic := [116], nodeID := [9], hlc := 6, tombstone := true, sig := [1]
                  observerNodeID := [1], observedAtUnixMs := 1100 },
    .apply 1300 { topic := [116], nodeID := [9], hlc := 7, tombstone := true, sig := [2]
                  observerNodeID := [2], observedAtUnixMs := 1200 }]

/-- With one slot a topic, an owner record of node 9 is turned away and its tombstone is not. -/
theorem fullTopic_exceeded :
    (({} : StoreConfig).setCaps 0 1 0 0).maxRecordsPerTopic = 1 ∧
    ((runStore (({} : StoreConfig).setCaps 0 1 0 0) {} fullTopicOps).topic [116]).records.len = 2 ∧
    (runStore (({} : StoreConfig).setCaps 0 1 0 0) {} fullTopicOps).getRawKeyed [116] [9] [] =
      some { topic := [116], nodeID := [9], hlc := 8, tombstone := true } ∧
    (applyExt (({} : StoreConfig).setCaps 0 1 0 0) 1050
      (runStore (({} : StoreConfig).setCaps 0 1 0 0) {} (fullTopicOps.take 1))
      { topic := [116], nodeID := [9], hlc := 6, body := [7], sig := [9] }).1.applied = false := by
  refine ⟨by decide, by decide, by decide, by decide⟩

/-! ## What the caps hide -/

theorem keys_applyTopic_subset (cfg : StoreConfig) (nowMs : Int64) (ts : TopicStore) (r : Record) :
    ts.records.keys ⊆ (applyTopic cfg nowMs ts r).ts.records.keys := by
  intro k hk
  cases applyTopic_slotStep cfg nowMs ts r with
  | same _ hkeys => exact (hkeys k).mpr hk
  | opened _ _ _ _ hkeys => exact (hkeys k).mpr (Or.inr hk)
  | filled _ _ hkeys => exact (hkeys k).mpr (Or.inr hk)

theorem keys_applyCall_subset (cfg : StoreConfig) (s : RecordStore) (c : Int64 × Record)
    (t : Topic) : (s.topic t).records.keys ⊆ ((applyCall cfg s c).topic t).records.keys := by
  unfold applyCall
  rcases topic_applyExt cfg c.1 s c.2 t with heq | ⟨-, heq⟩
  · rw [heq]
    exact List.Subset.refl _
  · rw [heq]
    exact keys_applyTopic_subset cfg c.1 _ c.2

theorem Shut.not_applied {cfg : StoreConfig} {s : RecordStore} {r : Record}
    (h : Shut cfg s (slotOf r)) (hown : r.isObserverAttestation = false) (nowMs : Int64) :
    ¬ (applyExt cfg nowMs s r).1.applied = true := by
  rw [applied_iff_takes cfg nowMs s hown]
  intro htakes
  obtain ⟨hroom, hheld⟩ := htakes.room h.empty
  rcases h.cap with hno | hfull | hfull
  · exact hno htakes.topic
  · exact absurd hroom (not_lt.mpr hfull)
  · exact absurd hheld (not_lt.mpr hfull)

/-- A slot that a cap keeps shut stays shut. -/
theorem Shut.applyCall {cfg : StoreConfig} {s : RecordStore} {k : Topic × RecordKey}
    (h : Shut cfg s k) {c : Int64 × Record} (hown : c.2.isObserverAttestation = false) :
    Shut cfg (applyCall cfg s c) k where
  empty := by
    unfold Swarm.applyCall
    rw [← h.empty]
    rcases slotView_applyExt cfg c.1 s hown with ⟨-, -, hview⟩ | ⟨-, hview⟩
    · rw [hview]
    · by_cases hk : k = slotOf c.2
      · by_contra hne
        exact (hk ▸ h).not_applied hown c.1
          ((applyExt_reports cfg c.1 s c.2).applied_iff.mpr ⟨k, hne⟩)
      · rw [hview, LastWriter.put_of_ne _ _ hk]
  cap := by
    have hkeys := keys_applyCall_subset cfg s c k.1
    refine h.cap.imp (fun hno => no_topicRoom_applyExt hno c.1 c.2) (Or.imp ?_ ?_)
    · rw [FMap.len_eq_countP_keys, FMap.len_eq_countP_keys]
      exact fun hfull => hfull.trans (FMap.countP_keys_mono _ hkeys)
    · exact fun hfull => hfull.trans (FMap.countP_keys_mono _ hkeys)

/-- Slot for slot, the store holds what `f` holds, or a cap keeps the slot shut. -/
def Hides (cfg : StoreConfig) (f : LastWriter.View (Topic × RecordKey) Record) (s : RecordStore) :
    Prop :=
  ∀ k, s.slotView k = f k ∨ Shut cfg s k

theorem Hides.applyCall {cfg : StoreConfig} {s : RecordStore}
    {f : LastWriter.View (Topic × RecordKey) Record} (h : Hides cfg f s) {c : Int64 × Record}
    (hown : c.2.isObserverAttestation = false) :
    Hides cfg (LastWriter.put slotOf rankOf f c.2) (applyCall cfg s c) := by
  intro k
  rcases h k with hsame | hshut
  swap
  · exact Or.inr (hshut.applyCall hown)
  rcases slotView_applyExt cfg c.1 s hown with ⟨hshut, -, hview⟩ | ⟨-, hview⟩
  · by_cases hk : k = slotOf c.2
    · exact Or.inr (hk ▸ hshut.applyCall hown)
    · refine Or.inl ((congrFun hview k).trans ?_)
      rw [LastWriter.put_of_ne _ _ hk, hsame]
  · refine Or.inl ((congrFun hview k).trans ?_)
    by_cases hk : k = slotOf c.2
    · rw [hk] at hsame ⊢
      rw [LastWriter.put_self, LastWriter.put_self, hsame]
    · rw [LastWriter.put_of_ne _ _ hk, LastWriter.put_of_ne _ _ hk, hsame]

theorem Hides.foldl {cfg : StoreConfig} {calls : List (Int64 × Record)}
    (hown : ∀ c ∈ calls, c.2.isObserverAttestation = false) {s : RecordStore}
    {f : LastWriter.View (Topic × RecordKey) Record} (h : Hides cfg f s) :
    Hides cfg (LastWriter.putAll slotOf rankOf f (calls.map Prod.snd))
      (calls.foldl (Swarm.applyCall cfg) s) := by
  induction calls generalizing s f with
  | nil => exact h
  | cons c calls ih =>
    exact ih (fun d hd => hown d (List.mem_cons_of_mem _ hd))
      (h.applyCall (hown c List.mem_cons_self))

/-- The store has allocated at most `n` topics and holds at most `n` slots in each. -/
structure Small (n : ℕ) (s : RecordStore) : Prop where
  topics : s.byTopic.len ≤ n
  slots : ∀ t, (s.topic t).records.len ≤ n

theorem Small.applyCall {n : ℕ} {s : RecordStore} (h : Small n s) (cfg : StoreConfig)
    (c : Int64 × Record) : Small (n + 1) (applyCall cfg s c) where
  topics := by
    unfold Swarm.applyCall
    have htopics := h.topics
    rcases applyExt_eq cfg c.1 s c.2 with ⟨-, -, heq⟩ | heq
    · rw [heq]
      exact htopics.trans (Nat.le_succ _)
    · rw [heq]
      show FMap.len (s.byTopic.insert c.2.topic _) ≤ n + 1
      by_cases hmem : c.2.topic ∈ s.byTopic.keys
      · rw [FMap.len_insert_old hmem]
        exact htopics.trans (Nat.le_succ _)
      · rw [FMap.len_insert_new (FMap.not_mem_keys.mp hmem)]
        exact Nat.succ_le_succ htopics
  slots t := by
    unfold Swarm.applyCall
    have hslots := h.slots t
    rcases topic_applyExt cfg c.1 s c.2 t with heq | ⟨-, heq⟩
    · rw [heq]
      exact hslots.trans (Nat.le_succ _)
    · rw [heq]
      have hstep := applyTopic_slotStep cfg c.1 (s.topic t) c.2
      generalize (applyTopic cfg c.1 (s.topic t) c.2).ts = ts' at hstep
      rw [FMap.len_eq_countP_keys] at hslots ⊢
      cases hstep with
      | same _ hkeys =>
        rw [FMap.countP_keys_congr _ hkeys]
        exact hslots.trans (Nat.le_succ _)
      | opened _ hnew _ _ hkeys =>
        rw [FMap.countP_keys_add _ hnew hkeys]
        exact Nat.succ_le_succ hslots
      | filled _ hnew hkeys =>
        rw [FMap.countP_keys_add _ hnew hkeys]
        exact Nat.succ_le_succ hslots

/-- Caps above a number of calls. -/
def StoreConfig.roomFor (cfg : StoreConfig) (n : ℕ) : StoreConfig :=
  cfg.setCaps (n + 1) (n + 1) (n + 1) (n + 1)

theorem capOr_succ (n d : ℕ) : capOr ((n : ℤ) + 1) d = n + 1 := by
  unfold capOr
  rw [if_neg (by omega)]
  omega

/-- A store that is small against its caps shuts no slot. -/
theorem Small.not_shut {cfg : StoreConfig} {n m : ℕ} {s : RecordStore} (h : Small m s) (hm : m ≤ n)
    (k : Topic × RecordKey) : ¬ Shut (cfg.roomFor n) s k := by
  have htopics : (cfg.roomFor n).maxTopics = n + 1 := capOr_succ n 4096
  have hrecords : (cfg.roomFor n).maxRecordsPerTopic = n + 1 := capOr_succ n 65536
  have hkeys : (cfg.roomFor n).maxKeysPerNode = n + 1 := capOr_succ n 4096
  have hslots := h.slots k.1
  have hheld : (s.topic k.1).held k.2.nodeID ≤ (s.topic k.1).records.len :=
    List.countP_le_length.trans (List.length_map _).le
  intro hshut
  rcases hshut.cap with hno | hfull | hfull
  · refine hno fun _ => ?_
    have := h.topics
    omega
  · omega
  · omega

/-- Below caps above the number of calls, nothing is turned away. -/
theorem rejectedCap_roomFor {cfg : StoreConfig} {n m : ℕ} {s : RecordStore} (h : Small m s)
    {calls : List (Int64 × Record)} (hown : ∀ c ∈ calls, c.2.isObserverAttestation = false)
    (hn : m + calls.length ≤ n) :
    (calls.foldl (applyCall (cfg.roomFor n)) s).rejectedCap = s.rejectedCap := by
  induction calls generalizing s m with
  | nil => rfl
  | cons c calls ih =>
    rw [List.length_cons] at hn
    have hrest := ih (h.applyCall (cfg.roomFor n) c)
      (fun d hd => hown d (List.mem_cons_of_mem _ hd)) (by omega)
    refine hrest.trans ?_
    rcases slotView_applyExt (cfg.roomFor n) c.1 s (hown c List.mem_cons_self) with
      ⟨hshut, -, -⟩ | ⟨hcnt, -⟩
    · exact absurd hshut (h.not_shut (by omega) _)
    · exact hcnt

/-- **What the caps hide.** Let a store pass owner records, in any order, under any caps. What it
holds in a slot is what every store holds there that passes the same records and turns none away,
and caps above the number of calls do turn none away. A slot held at some point is held at the end,
and a record for a slot that is held is not turned away: the slot keeps the greater of the two. -/
theorem capped_restricts (cfg : StoreConfig) (calls : List (Int64 × Record))
    (hown : ∀ c ∈ calls, c.2.isObserverAttestation = false) :
    (∀ cfg' : StoreConfig, (calls.foldl (applyCall cfg') {}).rejectedCap = 0 →
      ∀ k r, (calls.foldl (applyCall cfg) {}).slotView k = some r →
        (calls.foldl (applyCall cfg') {}).slotView k = some r) ∧
    (calls.foldl (applyCall (cfg.roomFor calls.length)) {}).rejectedCap = 0 ∧
    (∀ front back, calls = front ++ back → ∀ k r,
      (front.foldl (applyCall cfg) {}).slotView k = some r →
        ∃ r', (calls.foldl (applyCall cfg) {}).slotView k = some r') ∧
    ∀ front c back, calls = front ++ c :: back → ∀ cur,
      (front.foldl (applyCall cfg) {}).slotView (slotOf c.2) = some cur →
        (applyCall cfg (front.foldl (applyCall cfg) {}) c).rejectedCap =
          (front.foldl (applyCall cfg) {}).rejectedCap ∧
        (applyCall cfg (front.foldl (applyCall cfg) {}) c).slotView (slotOf c.2) =
          some (if rankOf cur < rankOf c.2 then c.2 else cur) := by
  refine ⟨fun cfg' hcap k r hr => ?_, ?_, ?_, ?_⟩
  · have huncapped : (runStore cfg' {} (applyOps calls)).slotView = _ :=
      slotView_runStore {} hown (by rw [runStore_applyOps]; exact hcap)
    rw [runStore_applyOps] at huncapped
    have hstart : Hides cfg (fun _ => none) {} := fun _ => Or.inl rfl
    rw [huncapped]
    rcases hstart.foldl hown k with hsame | hshut
    · rw [← hr, hsame]
      rfl
    · rw [hshut.empty] at hr
      cases hr
  · have hsmall : Small 0 {} := ⟨le_rfl, fun _ => le_rfl⟩
    exact rejectedCap_roomFor hsmall hown (by omega)
  · rintro front back rfl k r hr
    rw [List.foldl_append]
    obtain ⟨r', hr', -⟩ := below_foldl cfg (front.foldl (applyCall cfg) {}) back k r hr
    exact ⟨r', hr'⟩
  · rintro front c back rfl cur hcur
    have hc : c.2.isObserverAttestation = false := hown c (by simp)
    rcases slotView_applyExt cfg c.1 (front.foldl (applyCall cfg) {}) hc with
      ⟨hshut, -, -⟩ | ⟨hcnt, hview⟩
    · rw [hshut.empty] at hcur
      cases hcur
    · refine ⟨hcnt, (congrFun hview _).trans ?_⟩
      rw [LastWriter.put_self, hcur]
      rfl

/-- Node 1 opens two slots, is turned away with a third and then updates the first. -/
def keyCalls : List (Int64 × Record) :=
  [(10, { topic := [116], nodeID := [1], hlc := 5, body := [1], sig := [1], key := [1] }),
    (11, { topic := [116], nodeID := [1], hlc := 6, body := [2], sig := [2], key := [2] }),
    (12, { topic := [116], nodeID := [1], hlc := 7, body := [3], sig := [3], key := [3] }),
    (13, { topic := [116], nodeID := [1], hlc := 8, body := [4], sig := [4], key := [1] })]

/-- With two keys a node, the third slot is hidden and the first holds the update. -/
theorem keyCalls_restricted :
    (keyCalls.foldl (applyCall (({} : StoreConfig).setCaps 0 0 2 0)) {}).rejectedCap = 1 ∧
    (keyCalls.foldl (applyCall {}) {}).slotView ([116], { nodeID := [1], key := [1] }) =
      some { topic := [116], nodeID := [1], hlc := 8, body := [4], sig := [4], key := [1] } :=
  ⟨by decide, (capped_restricts (({} : StoreConfig).setCaps 0 0 2 0) keyCalls (by decide)).1 {}
    (by decide) _ _ (by decide)⟩

/-! ## Refused records -/

/-- A merge that reports neither an application nor an accumulation leaves the topic as it was. -/
theorem applyTopic_refused {cfg : StoreConfig} {nowMs : Int64} {ts : TopicStore} {r : Record}
    (happ : (applyTopic cfg nowMs ts r).applied = false)
    (hacc : (applyTopic cfg nowMs ts r).accumulated = false) :
    (applyTopic cfg nowMs ts r).ts = ts := by
  unfold applyTopic at *
  split_ifs at * with hatt
  · have hno : ¬ Admitted cfg nowMs ts r := by
      rw [← accumulated_iff_admitted, hacc]
      exact Bool.false_ne_true
    have hstep := applyAttestationLocked_step cfg nowMs ts r
    generalize applyAttestationLocked cfg nowMs ts r = o at hstep
    cases hstep with
    | refused => rfl
    | kept hok => exact absurd hok hno
    | crossed hok => exact absurd hok hno
  · have hstep := applyOwner_step cfg nowMs ts r
    generalize applyOwner cfg nowMs ts r = o at hstep happ
    cases hstep with
    | full => rfl
    | opened => cases happ
    | newer => cases happ
    | stale => rfl

/-- **Refused records.** For every store and every record that `ApplyExt` neither applies nor
accumulates: the topics, with their slots, witness sets and marks, are those from before exactly
when the topic was there already or was turned away by the topic cap. Otherwise the record leaves an
empty topic behind, which counts against the topic cap, and nothing else. -/
theorem refused_unchanged_iff (cfg : StoreConfig) (nowMs : Int64) (s : RecordStore) (r : Record)
    (happ : (applyExt cfg nowMs s r).1.applied = false)
    (hacc : (applyExt cfg nowMs s r).1.accumulated = false) :
    ((applyExt cfg nowMs s r).2.byTopic.lookup = s.byTopic.lookup ↔
      ¬ (s.byTopic.lookup r.topic = none ∧ s.byTopic.len < cfg.maxTopics)) ∧
    (s.byTopic.lookup r.topic = none ∧ s.byTopic.len < cfg.maxTopics →
      ∀ t, (applyExt cfg nowMs s r).2.byTopic.lookup t =
        if t = r.topic then some {} else s.byTopic.lookup t) := by
  by_cases hroom : TopicRoom cfg s r.topic
  swap
  · rw [applyExt_of_no_room hroom]
    have hfull : ¬ (s.byTopic.lookup r.topic = none ∧ s.byTopic.len < cfg.maxTopics) :=
      fun h => hroom fun _ => h.2
    exact ⟨iff_of_true rfl hfull, fun h => absurd h hfull⟩
  rw [applyExt_of_room hroom] at happ hacc ⊢
  have hlookup : ∀ t, (s.commit r.topic (applyTopic cfg nowMs (s.topic r.topic) r)).2.byTopic.lookup
      t = if t = r.topic then some (s.topic r.topic) else s.byTopic.lookup t := by
    intro t
    unfold RecordStore.commit
    dsimp only
    rw [applyTopic_refused happ hacc, FMap.lookup_insert_eq]
  cases htopic : s.byTopic.lookup r.topic with
  | none =>
    refine ⟨iff_of_false (fun hsame => ?_) fun hno => hno ⟨rfl, hroom htopic⟩, fun _ t => ?_⟩
    · have := congrFun hsame r.topic
      rw [hlookup, if_pos rfl, htopic] at this
      cases this
    · rw [hlookup, RecordStore.topic, htopic]
      rfl
  | some ts =>
    have hheld : ¬(some ts = none ∧ s.byTopic.len < cfg.maxTopics) := fun h => (by cases h.1)
    refine ⟨iff_of_true (funext fun t => ?_) hheld, fun h => absurd h hheld⟩
    rw [hlookup, RecordStore.topic, htopic]
    split_ifs with ht
    · rw [ht, htopic]
      rfl
    · rfl

/-- A store that accepts no observer and keeps one topic. -/
def StoreConfig.refusing (cfg : StoreConfig) : StoreConfig :=
  (cfg.setObserverRoleCheck (some fun _ _ => false)).setCaps 1 0 0 0

/-- An attestation of observer 1 on topic `a`. -/
def refusedAttestation : Record :=
  { topic := [97], nodeID := [9], hlc := 5, tombstone := true, sig := [1], observerNodeID := [1]
    observedAtUnixMs := 1000 }

/-- A record of node 8 on a topic. -/
def recordOn (t : Topic) : Record :=
  { topic := t, nodeID := [8], hlc := 6, body := [7], sig := [8] }

/-- Topic `a` stays and takes the one place, so that a record on topic `b` is turned away. -/
theorem refused_uses_topic :
    (applyExt (StoreConfig.refusing {}) 1000 {} refusedAttestation).1 =
      { applied := false, replaced := false, accumulated := false } ∧
    (applyExt (StoreConfig.refusing {}) 1000 {} refusedAttestation).2.topics = [[97]] ∧
    (applyExt (StoreConfig.refusing {}) 1000 {} (recordOn [98])).1.applied = true ∧
    (applyExt (StoreConfig.refusing {}) 1000
      (applyExt (StoreConfig.refusing {}) 1000 {} refusedAttestation).2
      (recordOn [98])).1.applied = false :=
  ⟨by decide, by decide, by decide, by decide⟩

/-- On a topic that is there, the same attestation leaves no trace. -/
theorem refused_on_known_topic :
    (applyExt (StoreConfig.refusing {}) 1000
      (applyExt (StoreConfig.refusing {}) 900 {} (recordOn [97])).2
      refusedAttestation).2.byTopic.lookup =
    (applyExt (StoreConfig.refusing {}) 900 {} (recordOn [97])).2.byTopic.lookup :=
  (refused_unchanged_iff (StoreConfig.refusing {}) 1000 _ refusedAttestation (by decide)
    (by decide)).1.mpr fun h => (nomatch h.1)

end Swarm
