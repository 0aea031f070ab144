import Swarm.Store.Steps

/-!
# The store as a view of slots

What the reads and the roots see of a store is the partial map from full slots to records. Records
sit in their own slots along every run (`run_placed`), so a canonical listing depends on the view
alone (`topicRecordsWhere_congr`). For an owner record that no cap turns away, `ApplyExt` is the
last-writer write of `LastWriter` on the view (`slotView_applyExt`).
-/

namespace Swarm

/-- The record in a full slot. -/
def RecordStore.slotView (s : RecordStore) : LastWriter.View (Topic × RecordKey) Record :=
  fun k => (s.topic k.1).records.lookup k.2

theorem slotView_eq_getRawKeyed (s : RecordStore) (t : Topic) (node : NodeID) (key : Bytes) :
    s.slotView (t, { nodeID := node, key := key }) = s.getRawKeyed t node key := by
  unfold RecordStore.slotView RecordStore.getRawKeyed RecordStore.topic
  dsimp only
  cases s.byTopic.lookup t <;> rfl

theorem getKeyed_eq_some_iff {s : RecordStore} {t : Topic} {node : NodeID} {key : Bytes}
    {r : Record} : s.getKeyed t node key = some r ↔
      s.slotView (t, { nodeID := node, key := key }) = some r ∧ r.tombstone = false := by
  unfold RecordStore.getKeyed
  rw [slotView_eq_getRawKeyed]
  cases s.getRawKeyed t node key with
  | none => simp
  | some x =>
    by_cases hx : x.tombstone = true
    · simp only [hx, if_true, Option.some.injEq]
      constructor
      · intro h
        cases h
      · rintro ⟨rfl, hlive⟩
        rw [hx] at hlive
        cases hlive
    · simp only [hx, Bool.false_eq_true, if_false, Option.some.injEq]
      constructor
      · rintro rfl
        exact ⟨rfl, Bool.not_eq_true _ ▸ hx⟩
      · exact fun h => h.1

/-! ## Records sit in their own slots -/

/-- Every record of a topic carries the topic and the slot it is stored under. -/
def Placed (t : Topic) (ts : TopicStore) : Prop :=
  ∀ k r, ts.records.lookup k = some r → slotOf r = (t, k)

theorem Placed.keyOf_eq {t : Topic} {ts : TopicStore} (h : Placed t ts) {k : RecordKey}
    {r : Record} (hr : ts.records.lookup k = some r) : keyOf r = k :=
  congrArg Prod.snd (h k r hr)

theorem placed_insert {t : Topic} {ts ts' : TopicStore} {r : Record} (h : Placed t ts)
    (hr : r.topic = t)
    (hts : ∀ k, ts'.records.lookup k = if k = keyOf r then some r else ts.records.lookup k) :
    Placed t ts' := by
  intro k x hx
  rw [hts k] at hx
  split_ifs at hx with hk
  · cases hx
    rw [hk, ← hr]
    rfl
  · exact h k x hx

theorem placed_synthesise {t : Topic} {ts : TopicStore} {att : Record} (set : FMap NodeID Record)
    (h : Placed t ts) (hatt : att.topic = t) : Placed t (synthesise ts set att).ts := by
  intro k x hx
  rcases eq_or_synth_of_lookup hx with hold | ⟨hk, rfl⟩
  · exact h k x hold
  · show (att.topic, ({ nodeID := att.nodeID, key := k.key } : RecordKey)) = (t, k)
    rw [hatt, ← hk]

theorem placed_applyTopic {cfg : StoreConfig} {nowMs : Int64} {ts : TopicStore} {r : Record}
    (h : Placed r.topic ts) : Placed r.topic (applyTopic cfg nowMs ts r).ts := by
  apply applyTopic_preserves h
  · intro _ _ k x hx
    rw [records_accumulate] at hx
    exact h k x hx
  · intro _ _ _ hkept
    exact placed_synthesise _ hkept rfl
  · intro _
    exact placed_insert h rfl (lookup_openSlot ts nowMs r)
  · intro _
    exact placed_insert h rfl (lookup_replaceSlot ts nowMs r)

theorem placed_reap {t : Topic} {ts : TopicStore} (nowMs ttlMs : Int64) (h : Placed t ts) :
    Placed t (ts.reap nowMs ttlMs) := by
  intro k r hr
  rw [lookup_reap, Option.bind_eq_some_iff] at hr
  obtain ⟨r', hr', hkeep⟩ := hr
  split_ifs at hkeep
  cases hkeep
  exact h k _ hr'

theorem run_placed (cfg : StoreConfig) (ops : List StoreOp) (t : Topic) :
    Placed t ((runStore cfg {} ops).topic t) :=
  runStore_invariant (P := fun _ t ts => Placed t ts) (fun _ _ _ h => by cases h)
    (fun _ _ _ _ h => h) (fun _ _ _ _ h => placed_applyTopic h)
    (fun _ nowMs _ ttlMs _ _ h => placed_reap nowMs ttlMs h) ops t

/-- A slot that was empty is opened by the record of its own key, or is the keyless one. -/
theorem slot_of_applyTopic {cfg : StoreConfig} {nowMs : Int64} {ts : TopicStore} {r x : Record}
    {k : RecordKey} (h : (applyTopic cfg nowMs ts r).ts.records.lookup k = some x) :
    ts.records.lookup k ≠ none ∨ k = keyOf r ∨ k.key = [] := by
  revert h
  apply applyTopic_preserves (P := fun ts' => ts'.records.lookup k = some x →
    ts.records.lookup k ≠ none ∨ k = keyOf r ∨ k.key = [])
  · exact fun h => Or.inl (h ▸ Option.some_ne_none x)
  · intro _ _ h
    rw [records_accumulate] at h
    exact Or.inl (h ▸ Option.some_ne_none x)
  · intro _ _ _ _ h
    rw [lookup_synthesise, records_accumulate] at h
    cases hcur : ts.records.lookup k with
    | some cur => exact Or.inl (Option.some_ne_none cur)
    | none =>
      rw [hcur] at h
      dsimp only at h
      split_ifs at h with hk
      exact Or.inr (Or.inr (congrArg RecordKey.key hk.1))
  · intro _ h
    rw [lookup_openSlot] at h
    split_ifs at h with hk
    · exact Or.inr (Or.inl hk)
    · exact Or.inl (h ▸ Option.some_ne_none x)
  · intro _ h
    rw [lookup_replaceSlot] at h
    split_ifs at h with hk
    · exact Or.inr (Or.inl hk)
    · exact Or.inl (h ▸ Option.some_ne_none x)

/-- The keys of the slots are those of the records passed, and the empty one. -/
theorem run_keys {K : Bytes → Prop} (hnil : K []) (cfg : StoreConfig) (ops : List StoreOp)
    (t : Topic) (hops : ∀ nowMs r, StoreOp.apply nowMs r ∈ ops → K r.key) :
    ∀ k, ((runStore cfg {} ops).topic t).records.lookup k ≠ none → K k.key := by
  revert hops
  refine runStore_invariant (P := fun ops _ ts =>
    (∀ nowMs r, StoreOp.apply nowMs r ∈ ops → K r.key) →
      ∀ k, ts.records.lookup k ≠ none → K k.key)
    (fun _ _ _ h => absurd rfl h)
    (fun _ _ _ _ h hops => h fun nowMs r hr => hops nowMs r (List.mem_append_left _ hr))
    (fun ops nowMs r ts h hops k hk => ?_) (fun ops nowMs ttlFor ttlMs t ts h hops k hk => ?_) ops t
  · obtain ⟨x, hx⟩ := Option.ne_none_iff_exists'.mp hk
    rcases slot_of_applyTopic hx with hold | rfl | hkey
    · exact h (fun nowMs r hr => hops nowMs r (List.mem_append_left _ hr)) k hold
    · exact hops nowMs r (List.mem_append_right _ List.mem_cons_self)
    · rw [hkey]
      exact hnil
  · refine h (fun nowMs r hr => hops nowMs r (List.mem_append_left _ hr)) k fun hnone => hk ?_
    rw [lookup_reap, hnone]
    rfl

/-- Retention adds nothing. -/
theorem slotView_of_reapExpired {nowMs : Int64} {ttlFor : Option (Topic → Duration)}
    {s : RecordStore} {k : Topic × RecordKey} {r : Record}
    (h : (reapExpired nowMs ttlFor s).2.slotView k = some r) : s.slotView k = some r := by
  unfold RecordStore.slotView at h ⊢
  rcases topic_reapExpired nowMs ttlFor s k.1 with heq | ⟨ttlMs, heq⟩
  · rwa [heq] at h
  · rw [heq, lookup_reap, Option.bind_eq_some_iff] at h
    obtain ⟨x, hx, hkeep⟩ := h
    split_ifs at hkeep
    cases hkeep
    exact hx

/-! ## Canonical listings -/

theorem topicRecordsWhere_eq (s : RecordStore) (t : Topic) (keep : Record → Bool) :
    s.topicRecordsWhere t keep =
      sortSlice (fun a b => lessRecordKey (keyOf a) (keyOf b))
        ((s.topic t).records.values.filter keep) := by
  unfold RecordStore.topicRecordsWhere RecordStore.topic
  cases s.byTopic.lookup t <;> rfl

/-- Records in their own slots have distinct slots. -/
theorem nodup_lex_filter_values {t : Topic} {ts : TopicStore} (hp : Placed t ts)
    (keep : Record → Bool) :
    ((ts.records.values.filter keep).map fun r => (keyOf r).lex).Nodup := by
  have hkeys : (ts.records.values.map keyOf).Nodup :=
    FMap.nodup_map_values fun k r hr => hp.keyOf_eq hr
  have hsub : ((ts.records.values.filter keep).map keyOf).Nodup :=
    hkeys.sublist (List.filter_sublist.map _)
  have := hsub.map RecordKey.lex_injective
  rwa [List.map_map] at this

/-- Listings agree when each slot holds the same record after filtering. -/
theorem topicRecordsWhere_congr {s s' : RecordStore} {t : Topic} {keep keep' : Record → Bool}
    (hp : Placed t (s.topic t))
    (h : ∀ k, (s.slotView (t, k)).filter keep = (s'.slotView (t, k)).filter keep') :
    s.topicRecordsWhere t keep = s'.topicRecordsWhere t keep' := by
  rw [topicRecordsWhere_eq, topicRecordsWhere_eq]
  exact SortSlice.congr (fun a b => lessRecordKey_iff (keyOf a) (keyOf b))
    (FMap.filter_values_perm h) (nodup_lex_filter_values hp keep)

/-- A listing ascends strictly in the slot order. -/
theorem topicRecordsWhere_pairwise {s : RecordStore} {t : Topic} (hp : Placed t (s.topic t))
    (keep : Record → Bool) :
    (s.topicRecordsWhere t keep).Pairwise fun a b => (keyOf a).lex < (keyOf b).lex := by
  rw [topicRecordsWhere_eq]
  exact SortSlice.pairwise_lt (fun a b => lessRecordKey_iff (keyOf a) (keyOf b))
    (nodup_lex_filter_values hp keep)

theorem mem_topicRecordsWhere {s : RecordStore} {t : Topic} {keep : Record → Bool} {r : Record} :
    r ∈ s.topicRecordsWhere t keep ↔ (∃ k, s.slotView (t, k) = some r) ∧ keep r = true := by
  rw [topicRecordsWhere_eq, SortSlice.mem_iff, List.mem_filter, FMap.mem_values]
  rfl

/-- A listing of every record determines the slots. -/
theorem slotView_congr_of_listing {s s' : RecordStore} {t : Topic} (hp : Placed t (s.topic t))
    (hp' : Placed t (s'.topic t)) (h : s.topicRecordsAll t = s'.topicRecordsAll t) (k : RecordKey) :
    s.slotView (t, k) = s'.slotView (t, k) := by
  have hlisted : ∀ {s : RecordStore}, Placed t (s.topic t) → ∀ r,
      s.slotView (t, k) = some r ↔ r ∈ s.topicRecordsAll t ∧ keyOf r = k := by
    intro s hp r
    unfold RecordStore.topicRecordsAll
    rw [mem_topicRecordsWhere, and_iff_left rfl]
    constructor
    · exact fun hr => ⟨⟨k, hr⟩, hp.keyOf_eq hr⟩
    · rintro ⟨⟨k', hr⟩, rfl⟩
      rwa [hp.keyOf_eq hr]
  refine Option.ext fun r => ?_
  show s.slotView (t, k) = some r ↔ s'.slotView (t, k) = some r
  rw [hlisted hp, hlisted hp', h]

theorem mem_nodeRecords {s : RecordStore} {t : Topic} {node : NodeID} {r : Record} :
    r ∈ s.nodeRecords t node ↔
      (∃ k, s.slotView (t, k) = some r ∧ k.nodeID = node) ∧ r.tombstone = false := by
  show _ ↔ (∃ k, (s.topic t).records.lookup k = some r ∧ k.nodeID = node) ∧ _
  unfold RecordStore.nodeRecords RecordStore.topic
  cases s.byTopic.lookup t with
  | none => simp
  | some ts =>
    simp only [List.mem_map, SortSlice.mem_iff, List.mem_filter, Bool.and_eq_true, beq_iff_eq,
      Bool.not_eq_true', Option.getD_some]
    constructor
    · rintro ⟨k, ⟨e, ⟨he, hk, hlive⟩, rfl⟩, rfl⟩
      rw [FMap.lookup_eq_some_iff.mpr he]
      exact ⟨⟨e.1, FMap.lookup_eq_some_iff.mpr he, hk⟩, hlive⟩
    · rintro ⟨⟨k, hr, hk⟩, hlive⟩
      exact ⟨k, ⟨⟨k, r⟩, ⟨FMap.lookup_eq_some_iff.mp hr, hk, hlive⟩, rfl⟩, by rw [hr]; rfl⟩

/-! ## Owner records -/

section Owner

variable {s : RecordStore} {r : Record}

theorem slotView_commit (s : RecordStore) (t : Topic) (o : Outcome) (k : Topic × RecordKey) :
    (s.commit t o).2.slotView k = if k.1 = t then o.ts.records.lookup k.2 else s.slotView k := by
  unfold RecordStore.slotView
  rw [topic_commit]
  split_ifs <;> rfl

/-- A merge that writes the winner to the slot of `r` is the last-writer write. -/
theorem slotView_commit_eq_put {o : Outcome}
    (h : ∀ k, o.ts.records.lookup k = if k = keyOf r then
      some (LastWriter.winner rankOf (s.slotView (slotOf r)) r)
      else (s.topic r.topic).records.lookup k) :
    (s.commit r.topic o).2.slotView = LastWriter.put slotOf rankOf s.slotView r := by
  funext k
  rw [slotView_commit]
  by_cases hk : k = slotOf r
  · rw [hk, LastWriter.put_self, if_pos (show (slotOf r).1 = r.topic from rfl), h,
      if_pos (show (slotOf r).2 = keyOf r from rfl)]
  · rw [LastWriter.put_of_ne _ _ hk]
    split_ifs with ht
    · have hne : k.2 ≠ keyOf r := fun h' => hk (Prod.ext ht h')
      rw [h, if_neg hne, ← ht]
      rfl
    · rfl

theorem slotView_commit_self (s : RecordStore) {t : Topic} {o : Outcome} (h : o.ts = s.topic t) :
    (s.commit t o).2.slotView = s.slotView := by
  funext k
  rw [slotView_commit, h]
  split_ifs with ht
  · rw [← ht]
    rfl
  · rfl

/-- The slot is empty and a cap keeps owner records from opening it. -/
structure Shut (cfg : StoreConfig) (s : RecordStore) (k : Topic × RecordKey) : Prop where
  empty : s.slotView k = none
  cap : ¬ TopicRoom cfg s k.1 ∨ cfg.maxRecordsPerTopic ≤ (s.topic k.1).records.len ∨
    cfg.maxKeysPerNode ≤ (s.topic k.1).held k.2.nodeID

/-- An owner record is turned away by a cap and counted, or written by last-writer-wins. -/
theorem slotView_applyExt (cfg : StoreConfig) (nowMs : Int64) (s : RecordStore) {r : Record}
    (hr : r.isObserverAttestation = false) :
    (Shut cfg s (slotOf r) ∧ (applyExt cfg nowMs s r).2.rejectedCap = s.rejectedCap + 1 ∧
      (applyExt cfg nowMs s r).2.slotView = s.slotView) ∨
    ((applyExt cfg nowMs s r).2.rejectedCap = s.rejectedCap ∧
      (applyExt cfg nowMs s r).2.slotView = LastWriter.put slotOf rankOf s.slotView r) := by
  rcases applyExt_eq cfg nowMs s r with ⟨hnone, hfull, heq⟩ | heq
  · rw [heq]
    have hempty : s.slotView (slotOf r) = none := by
      show (s.topic r.topic).records.lookup (keyOf r) = none
      rw [RecordStore.topic, hnone]
      rfl
    exact Or.inl ⟨⟨hempty, Or.inl fun hroom => absurd (hroom hnone) (not_lt.mpr hfull)⟩, rfl, rfl⟩
  rw [heq, applyTopic, if_neg (by rw [hr]; exact Bool.false_ne_true)]
  have hstep := applyOwner_step cfg nowMs (s.topic r.topic) r
  generalize applyOwner cfg nowMs (s.topic r.topic) r = o at hstep
  cases hstep with
  | full hnew hcap => exact Or.inl ⟨⟨hnew, Or.inr hcap⟩, rfl, slotView_commit_self s rfl⟩
  | opened hnew =>
    refine Or.inr ⟨rfl, slotView_commit_eq_put fun k => ?_⟩
    rw [show s.slotView (slotOf r) = none from hnew]
    exact lookup_openSlot _ nowMs r k
  | newer hcur hlt =>
    refine Or.inr ⟨rfl, slotView_commit_eq_put fun k => ?_⟩
    rw [show s.slotView (slotOf r) = some _ from hcur, LastWriter.winner, if_pos hlt]
    exact lookup_replaceSlot _ nowMs r k
  | stale hcur hle =>
    refine Or.inr ⟨rfl, slotView_commit_eq_put fun k => ?_⟩
    rw [show s.slotView (slotOf r) = some _ from hcur, LastWriter.winner, if_neg (not_lt.mpr hle)]
    split_ifs with hk
    · rw [hk, hcur]
    · rfl

end Owner

end Swarm
