import Swarm.Engine.History
import Swarm.Store.View
import Swarm.Node

/-!
# The reads of a node agree

`GetKeyed`, `NodeRecords`, `TopicRecords` and `Topics` walk the store in four ways. Because records
sit in their own slots along every run, they are four readings of one thing: the live records, each
once, in the order of slots (`reads_agree`).
-/

namespace Swarm

section Listings

variable {s : RecordStore} {t : Topic} {node : NodeID}

/-- The records of a node are listed in the order of their slots. -/
theorem nodeRecords_pairwise (hp : Placed t (s.topic t)) (node : NodeID) :
    (s.nodeRecords t node).Pairwise fun a b => (keyOf a).lex < (keyOf b).lex := by
  unfold RecordStore.nodeRecords
  unfold RecordStore.topic at hp
  cases hts : s.byTopic.lookup t with
  | none => exact .nil
  | some ts =>
    rw [hts] at hp
    dsimp only
    have hnodup : ((ts.records.entries.filter fun e =>
        e.1.nodeID == node && !e.2.tombstone).map Sigma.fst).Nodup :=
      ts.records.nodupKeys.sublist List.filter_sublist
    have hsorted := SortSlice.pairwise_lt lessRecordKey_iff (hnodup.map RecordKey.lex_injective)
    rw [List.pairwise_map]
    refine hsorted.imp_of_mem fun {a b} ha hb hlt => ?_
    -- what is stored under a slot is the record of that slot
    have hkey : ∀ k, k ∈ sortSlice lessRecordKey ((ts.records.entries.filter fun e =>
        e.1.nodeID == node && !e.2.tombstone).map Sigma.fst) →
        keyOf ((ts.records.lookup k).getD {}) = k := by
      intro k hk
      obtain ⟨e, he, rfl⟩ := List.mem_map.mp (SortSlice.mem_iff.mp hk)
      have hslot := FMap.lookup_eq_some_iff.mpr (List.mem_filter.mp he).1
      rw [hslot]
      exact hp.keyOf_eq hslot
    rwa [hkey a ha, hkey b hb]

theorem nodup_of_slots {l : List Record}
    (h : l.Pairwise fun a b => (keyOf a).lex < (keyOf b).lex) : l.Nodup :=
  h.imp fun {a b} hlt (heq : a = b) => absurd hlt (heq ▸ lt_irrefl _)

/-- Records in the order of slots are determined by which they are. -/
theorem eq_of_slots {l l' : List Record}
    (h : l.Pairwise fun a b => (keyOf a).lex < (keyOf b).lex)
    (h' : l'.Pairwise fun a b => (keyOf a).lex < (keyOf b).lex)
    (hmem : ∀ r, r ∈ l ↔ r ∈ l') : l = l' := by
  have hperm : l.Perm l' :=
    (List.perm_ext_iff_of_nodup (nodup_of_slots h) (nodup_of_slots h')).mpr hmem
  exact hperm.eq_of_pairwise (fun a b _ _ hab hba => absurd (hab.trans hba) (lt_irrefl _)) h h'

theorem mem_topicRecords (hp : Placed t (s.topic t)) {r : Record} :
    r ∈ s.topicRecords t ↔ s.getKeyed t r.nodeID r.key = some r := by
  unfold RecordStore.topicRecords
  rw [mem_topicRecordsWhere, getKeyed_eq_some_iff, Bool.not_eq_true']
  refine and_congr ⟨?_, fun h => ⟨_, h⟩⟩ Iff.rfl
  rintro ⟨k, hk⟩
  have hslot : keyOf r = k := hp.keyOf_eq hk
  rw [← hslot] at hk
  exact hk

/-- The records of a node are the part of the topic's records that is its own. -/
theorem nodeRecords_eq_filter (hp : Placed t (s.topic t)) (node : NodeID) :
    s.nodeRecords t node = (s.topicRecords t).filter fun r => r.nodeID == node := by
  refine eq_of_slots (nodeRecords_pairwise hp node)
    ((topicRecordsWhere_pairwise hp _).filter _) fun r => ?_
  unfold RecordStore.topicRecords
  rw [mem_nodeRecords, List.mem_filter, mem_topicRecordsWhere, Bool.not_eq_true', beq_iff_eq,
    and_right_comm]
  refine and_congr ?_ Iff.rfl
  constructor
  · rintro ⟨k, hk, hid⟩
    have hslot : keyOf r = k := hp.keyOf_eq hk
    rw [← hslot] at hid
    exact ⟨⟨k, hk⟩, hid⟩
  · rintro ⟨⟨k, hk⟩, hid⟩
    have hslot : keyOf r = k := hp.keyOf_eq hk
    refine ⟨k, hk, ?_⟩
    rw [← hslot]
    exact hid

/-- A topic with something to read is listed. -/
theorem mem_topics_of_getKeyed {key : Bytes} {r : Record} (h : s.getKeyed t node key = some r) :
    t ∈ s.topics := by
  unfold RecordStore.topics
  rw [SortSlice.mem_iff, FMap.mem_keys]
  unfold RecordStore.getKeyed RecordStore.getRawKeyed at h
  cases hts : s.byTopic.lookup t with
  | none =>
    rw [hts] at h
    cases h
  | some ts => exact ⟨ts, rfl⟩

theorem topics_pairwise (s : RecordStore) : s.topics.Pairwise fun a b => a < b := by
  unfold RecordStore.topics
  refine SortSlice.pairwise_lt (k := id) (fun a b => decide_eq_true_iff) ?_
  rw [List.map_id]
  exact s.byTopic.keys_nodup

end Listings

/-- The store of a node is a run of store calls. -/
theorem store_run (env : Env) (rd : Reading) (configFn : NodeID → PerPeerConfig)
    (ops : List NodeOp) :
    ∃ calls, (runNode env (newNode rd configFn) ops).store = runStore env.storeCfg {} calls := by
  have hkept : Kept env (fun _ => True) (History env fun _ => True) :=
    History.kept (fun _ _ _ => trivial) fun _ _ => trivial
  exact ⟨_, (hkept.run ops ⟨rfl, fun _ _ _ => trivial⟩).store⟩

/-- After every run of a node its reads show the same live records: `TopicRecords` lists exactly
what `GetKeyed` finds, each record once, with the topic and slot it was read under, in the order of
slots; `NodeRecords` is the part of it that is the node's own, in the same order; and `Topics`
lists, in order and without repetition, every topic with something to read. -/
theorem reads_agree (env : Env) (rd : Reading) (configFn : NodeID → PerPeerConfig)
    (ops : List NodeOp) (t : Topic) :
    let s := (runNode env (newNode rd configFn) ops).store
    (∀ node key r, s.getKeyed t node key = some r ↔
        r ∈ s.topicRecords t ∧ r.nodeID = node ∧ r.key = key) ∧
      (∀ r ∈ s.topicRecords t, r.topic = t ∧ r.tombstone = false) ∧
      (s.topicRecords t).Pairwise (fun a b => (keyOf a).lex < (keyOf b).lex) ∧
      (∀ node, s.nodeRecords t node = (s.topicRecords t).filter fun r => r.nodeID == node) ∧
      (s.topicRecords t ≠ [] → t ∈ s.topics) ∧ s.topics.Pairwise (fun a b => a < b) := by
  intro s
  obtain ⟨calls, hcalls⟩ := store_run env rd configFn ops
  have hp : Placed t (s.topic t) := by
    show Placed t ((runNode env (newNode rd configFn) ops).store.topic t)
    rw [hcalls]
    exact run_placed env.storeCfg calls t
  refine ⟨fun node key r => ?_, fun r hr => ?_, topicRecordsWhere_pairwise hp _,
    nodeRecords_eq_filter hp, fun hne => ?_, topics_pairwise s⟩
  · rw [mem_topicRecords hp]
    constructor
    · intro hget
      have hkey : keyOf r = ⟨node, key⟩ := hp.keyOf_eq (getKeyed_eq_some_iff.mp hget).1
      obtain rfl : r.nodeID = node := congrArg RecordKey.nodeID hkey
      obtain rfl : r.key = key := congrArg RecordKey.key hkey
      exact ⟨hget, rfl, rfl⟩
    · rintro ⟨hget, rfl, rfl⟩
      exact hget
  · have hget := getKeyed_eq_some_iff.mp ((mem_topicRecords hp).mp hr)
    exact ⟨congrArg Prod.fst (hp _ r hget.1), hget.2⟩
  · obtain ⟨r, hr⟩ := List.exists_mem_of_ne_nil _ hne
    exact mem_topics_of_getKeyed ((mem_topicRecords hp).mp hr)

end Swarm
