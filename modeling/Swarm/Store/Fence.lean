import Swarm.Lib.Runs
import Swarm.Store.Quorum

/-!
# The restored-at fence

A live owner record stamps the restored-at mark of its node, and attestations observed at or
before the mark are refused. `Fenced` is what the mark is for: no kept witness is as old as it.

The path that replaces a record deletes the witness set before it stamps; the path that opens a
slot stamps alone, so witnesses kept from before stay and are counted. `fence_iff_opensFenced`
says that this path is the only leak: the states of a run are fenced exactly when no slot is
opened over such witnesses, and in those runs no stale witness is ever counted.
-/

namespace Swarm

/-- Every kept witness was observed after the mark of its target. -/
def Fenced (ts : TopicStore) : Prop :=
  ∀ node hwm o a, ts.restoredAtUnixMs.lookup node = some hwm →
    (ts.witnesses node).lookup o = some a → hwm < a.observedAtUnixMs

/-- The owner record finds its slot empty and no cap in its way. -/
def OpensSlot (cfg : StoreConfig) (ts : TopicStore) (r : Record) : Prop :=
  r.isObserverAttestation = false ∧ ts.records.lookup (keyOf r) = none ∧
    ts.records.len < cfg.maxRecordsPerTopic ∧ ts.held r.nodeID < cfg.maxKeysPerNode

/-- A live owner record that opens a slot finds only witnesses observed after the clock. -/
def OpensFenced (cfg : StoreConfig) (s : RecordStore) (c : Int64 × Record) : Prop :=
  TopicRoom cfg s c.2.topic → OpensSlot cfg (s.topic c.2.topic) c.2 → c.2.tombstone = false →
    ∀ o a, ((s.topic c.2.topic).witnesses c.2.nodeID).lookup o = some a →
      c.1 < a.observedAtUnixMs

/-! ## One step -/

theorem lt_of_not_fenced {ts : TopicStore} {att : Record} {hwm : Int64}
    (h : ts.fenced att = false) (hm : ts.restoredAtUnixMs.lookup att.nodeID = some hwm) :
    hwm < att.observedAtUnixMs := by
  unfold TopicStore.fenced at h
  rw [hm] at h
  exact not_le.mp (of_decide_eq_false h)

/-- An admitted attestation joins witnesses observed after the mark. -/
theorem Fenced.witnessesAfter {cfg : StoreConfig} {nowMs : Int64} {ts : TopicStore} {att : Record}
    (h : Fenced ts) (hok : Admitted cfg nowMs ts att) {hwm : Int64} {o : NodeID} {a : Record}
    (hm : ts.restoredAtUnixMs.lookup att.nodeID = some hwm)
    (ha : (ts.witnessesAfter cfg att).lookup o = some a) : hwm < a.observedAtUnixMs := by
  rcases lookup_witnessesAfter ha with ⟨-, rfl⟩ | hold
  · exact lt_of_not_fenced hok.fence hm
  · exact h _ hwm o a hm hold

theorem Fenced.accumulate {cfg : StoreConfig} {nowMs : Int64} {ts : TopicStore} {att : Record}
    (h : Fenced ts) (hok : Admitted cfg nowMs ts att) : Fenced (ts.accumulate cfg att) := by
  intro node hwm o a hm ha
  rw [witnesses_accumulate] at ha
  split_ifs at ha with hnode
  · exact h.witnessesAfter hok (hnode ▸ hm) ha
  · exact h node hwm o a hm ha

theorem Fenced.applyAttestation {cfg : StoreConfig} {nowMs : Int64} {ts : TopicStore}
    {att : Record} (h : Fenced ts) : Fenced (applyAttestationLocked cfg nowMs ts att).ts := by
  have hstep := applyAttestationLocked_step cfg nowMs ts att
  generalize applyAttestationLocked cfg nowMs ts att = o at hstep
  cases hstep with
  | refused => exact h
  | kept hok => exact h.accumulate hok
  | crossed hok =>
    intro node hwm o a hm ha
    rw [synthesise_restoredAt] at hm
    rw [witnesses_synthesise] at ha
    exact h.accumulate hok node hwm o a hm ha

theorem Fenced.replaceSlot {nowMs : Int64} {ts : TopicStore} {r : Record} (h : Fenced ts) :
    Fenced (ts.replaceSlot nowMs r) := by
  intro node hwm o a hm ha
  rw [witnesses_replaceSlot] at ha
  split_ifs at ha with hnode
  · cases ha
  · have hm' : (ts.stampRestored nowMs r).lookup node = some hwm := hm
    rw [lookup_stampRestored, if_neg fun h' => hnode h'.2] at hm'
    exact h node hwm o a hm' ha

/-- Opening a slot keeps the fence exactly when the kept witnesses are newer than the clock. -/
theorem fenced_openSlot_iff {nowMs : Int64} {ts : TopicStore} {r : Record} (h : Fenced ts) :
    Fenced (ts.openSlot nowMs r) ↔
      (r.tombstone = false → ∀ o a, (ts.witnesses r.nodeID).lookup o = some a →
        nowMs < a.observedAtUnixMs) := by
  have hmark : ∀ node, (ts.openSlot nowMs r).restoredAtUnixMs.lookup node =
      if r.tombstone = false ∧ node = r.nodeID then some nowMs
      else ts.restoredAtUnixMs.lookup node := lookup_stampRestored ts nowMs r
  constructor
  · intro hf hlive o a ha
    exact hf r.nodeID nowMs o a (by rw [hmark, if_pos ⟨hlive, rfl⟩]) ha
  · intro hw node hwm o a hm ha
    rw [hmark] at hm
    split_ifs at hm with hnode
    · cases hm
      obtain ⟨hlive, rfl⟩ := hnode
      exact hw hlive o a ha
    · exact h node hwm o a hm ha

/-- Fences are looked at topic by topic. -/
def StoreFenced (s : RecordStore) : Prop := ∀ t, Fenced (s.topic t)

theorem storeFenced_empty : StoreFenced {} := by
  intro t node hwm o a hm
  cases hm

theorem storeFenced_commit_iff {s : RecordStore} {t : Topic} {o : Outcome} (h : StoreFenced s) :
    StoreFenced (s.commit t o).2 ↔ Fenced o.ts := by
  constructor
  · intro hf
    have := hf t
    rwa [topic_commit, if_pos rfl] at this
  · intro ho t'
    rw [topic_commit]
    split_ifs
    · exact ho
    · exact h t'

/-- One call keeps every topic fenced exactly when it does not open a slot over old witnesses. -/
theorem storeFenced_applyCall_iff {cfg : StoreConfig} {s : RecordStore} (c : Int64 × Record)
    (h : StoreFenced s) : StoreFenced (applyCall cfg s c) ↔ OpensFenced cfg s c := by
  obtain ⟨nowMs, r⟩ := c
  unfold applyCall OpensFenced
  dsimp only
  by_cases hroom : TopicRoom cfg s r.topic
  swap
  · rw [applyExt_of_no_room hroom]
    exact ⟨fun _ hr => absurd hr hroom, fun _ => h⟩
  rw [applyExt_of_room hroom, storeFenced_commit_iff h]
  unfold applyTopic
  cases hatt : r.isObserverAttestation with
  | true =>
    refine ⟨fun _ _ hopens => ?_, fun _ => (h _).applyAttestation⟩
    have hown := hopens.1
    rw [hatt] at hown
    cases hown
  | false =>
    rw [if_neg Bool.false_ne_true]
    have hstep := applyOwner_step cfg nowMs (s.topic r.topic) r
    generalize applyOwner cfg nowMs (s.topic r.topic) r = o at hstep
    cases hstep with
    | full _ hcap =>
      refine ⟨fun _ _ hopens => ?_, fun _ => h _⟩
      obtain ⟨-, -, hlen, hkeys⟩ := hopens
      omega
    | opened hnew hlen hkeys =>
      rw [fenced_openSlot_iff (h _)]
      exact ⟨fun hw _ _ => hw, fun hw => hw hroom ⟨hatt, hnew, hlen, hkeys⟩⟩
    | newer hcur =>
      refine ⟨fun _ _ hopens => ?_, fun _ => (h _).replaceSlot⟩
      rw [hopens.2.1] at hcur
      cases hcur
    | stale hcur =>
      refine ⟨fun _ _ hopens => ?_, fun _ => h _⟩
      rw [hopens.2.1] at hcur
      cases hcur

/-! ## Marks only move forward -/

/-- The node carries a mark at or after `T`. -/
def Marked (T : Int64) (node : NodeID) (ts : TopicStore) : Prop :=
  ∃ hwm, ts.restoredAtUnixMs.lookup node = some hwm ∧ T ≤ hwm

theorem marked_stampRestored {T nowMs : Int64} {node : NodeID} {ts : TopicStore} {r : Record}
    (h : Marked T node ts) (hT : T ≤ nowMs) :
    ∃ hwm, (ts.stampRestored nowMs r).lookup node = some hwm ∧ T ≤ hwm := by
  rw [lookup_stampRestored]
  split_ifs
  · exact ⟨nowMs, rfl, hT⟩
  · exact h

theorem Marked.applyTopic {cfg : StoreConfig} {T nowMs : Int64} {node : NodeID} {ts : TopicStore}
    {r : Record} (h : Marked T node ts) (hT : T ≤ nowMs) :
    Marked T node (applyTopic cfg nowMs ts r).ts := by
  apply applyTopic_preserves h
  · exact fun _ _ => h
  · intro _ _ _ hkept
    unfold Marked
    rw [synthesise_restoredAt]
    exact hkept
  · exact fun _ => marked_stampRestored h hT
  · exact fun _ => marked_stampRestored h hT

theorem Marked.applyCall {cfg : StoreConfig} {T : Int64} {node : NodeID} {s : RecordStore}
    {t : Topic} (c : Int64 × Record) (h : Marked T node (s.topic t)) (hT : T ≤ c.1) :
    Marked T node ((applyCall cfg s c).topic t) := by
  unfold Swarm.applyCall
  rcases topic_applyExt cfg c.1 s c.2 t with heq | ⟨-, heq⟩
  · rwa [heq]
  · rw [heq]
    exact h.applyTopic hT

/-- An applied live owner record leaves its node marked at the clock. -/
theorem marked_of_applied {cfg : StoreConfig} {s : RecordStore} {c : Int64 × Record}
    (hown : c.2.isObserverAttestation = false) (hlive : c.2.tombstone = false)
    (happ : (applyExt cfg c.1 s c.2).1.applied = true) :
    Marked c.1 c.2.nodeID ((applyCall cfg s c).topic c.2.topic) := by
  obtain ⟨nowMs, r⟩ := c
  unfold applyCall Marked
  have hstamp : ∀ ts : TopicStore, (ts.stampRestored nowMs r).lookup r.nodeID = some nowMs :=
    fun ts => by rw [lookup_stampRestored, if_pos ⟨hlive, rfl⟩]
  rcases applyExt_eq cfg nowMs s r with ⟨-, -, heq⟩ | heq
  · rw [heq] at happ
    cases happ
  rw [heq, applyTopic, if_neg (by rw [hown]; exact Bool.false_ne_true)] at happ ⊢
  rw [topic_commit, if_pos rfl]
  have hstep := applyOwner_step cfg nowMs (s.topic r.topic) r
  generalize applyOwner cfg nowMs (s.topic r.topic) r = o at hstep happ
  cases hstep with
  | full => cases happ
  | opened => exact ⟨nowMs, hstamp _, le_rfl⟩
  | newer => exact ⟨nowMs, hstamp _, le_rfl⟩
  | stale => cases happ

/-! ## Runs -/

/-- The attestation is counted in a set that reaches the quorum. -/
def Crosses (cfg : StoreConfig) (s : RecordStore) (c : Int64 × Record) : Prop :=
  c.2.isObserverAttestation = true ∧ Admitted cfg c.1 (s.topic c.2.topic) c.2 ∧
    cfg.observerQuorum ≤ ((s.topic c.2.topic).witnessesAfter cfg c.2).len

/-- The clock of a run never goes back. -/
def ClockMonotone (calls : List (Int64 × Record)) : Prop :=
  calls.Pairwise fun c d => c.1 ≤ d.1

/-- In a run that opens no slot over old witnesses, the witnesses counted after a live owner
record was applied are distinct observers that observed later than that. -/
theorem counted_after_publish {cfg : StoreConfig} {front mid : List (Int64 × Record)}
    {c d : Int64 × Record}
    (hclock : ClockMonotone (c :: mid))
    (hsteps : Runs.StepsMeet (applyCall cfg) (OpensFenced cfg) {} (front ++ c :: mid))
    (hown : c.2.isObserverAttestation = false) (hlive : c.2.tombstone = false)
    (happ : (applyExt cfg c.1 (front.foldl (applyCall cfg) {}) c.2).1.applied = true)
    (htopic : d.2.topic = c.2.topic) (hnode : d.2.nodeID = c.2.nodeID)
    (hcross : Crosses cfg ((front ++ c :: mid).foldl (applyCall cfg) {}) d) :
    ∀ o a, ((((front ++ c :: mid).foldl (applyCall cfg) {}).topic d.2.topic).witnessesAfter
      cfg d.2).lookup o = some a → a.observerNodeID = o ∧ c.1 < a.observedAtUnixMs := by
  have hfenced : StoreFenced ((front ++ c :: mid).foldl (applyCall cfg) {}) :=
    Runs.StepsMeet.invariant (P := StoreFenced)
      (fun s a hs ha => (storeFenced_applyCall_iff a hs).mpr ha) hsteps storeFenced_empty
  have hmarked : Marked c.1 c.2.nodeID
      (((front ++ c :: mid).foldl (applyCall cfg) {}).topic c.2.topic) := by
    rw [List.foldl_append, List.foldl_cons]
    have hstart := marked_of_applied hown hlive happ
    have hlater : ∀ e ∈ mid, c.1 ≤ e.1 := (List.pairwise_cons.mp hclock).1
    generalize applyCall cfg (front.foldl (applyCall cfg) {}) c = s at hstart
    clear hclock hsteps happ hcross hfenced
    induction mid generalizing s with
    | nil => exact hstart
    | cons e mid ih =>
      exact ih (fun e' he' => hlater e' (List.mem_cons_of_mem _ he')) _
        (hstart.applyCall e (hlater e List.mem_cons_self))
  obtain ⟨hatt, hok, -⟩ := hcross
  obtain ⟨hwm, hm, hle⟩ := hmarked
  have hinv := run_quorumInv cfg (applyOps (front ++ c :: mid)) d.2.topic
  rw [runStore_applyOps] at hinv
  intro o a ha
  refine ⟨(hinv.witnessesAfter hatt hok ha).1, lt_of_le_of_lt hle ?_⟩
  exact (hfenced d.2.topic).witnessesAfter hok (by rw [htopic, hnode]; exact hm) ha

/-- **No stale witness.** For runs of `ApplyExt` with a clock that never goes back: every state
reached keeps only witnesses observed after the mark of their target, exactly when no live owner
record opens a slot of a node over witnesses observed at or before the clock. In these runs, once
a live owner record of a node was applied at `T`, every set that later reaches the quorum for the
node counts at least the quorum of distinct observers, all of whom observed after `T`. -/
theorem fence_iff_opensFenced (cfg : StoreConfig) (calls : List (Int64 × Record))
    (hclock : ClockMonotone calls) :
    (Runs.StatesMeet (applyCall cfg) StoreFenced {} calls ↔
      Runs.StepsMeet (applyCall cfg) (OpensFenced cfg) {} calls) ∧
    (Runs.StepsMeet (applyCall cfg) (OpensFenced cfg) {} calls →
      ∀ front c mid d back, calls = front ++ c :: mid ++ d :: back →
        c.2.isObserverAttestation = false → c.2.tombstone = false →
        (applyExt cfg c.1 (front.foldl (applyCall cfg) {}) c.2).1.applied = true →
        d.2.topic = c.2.topic → d.2.nodeID = c.2.nodeID →
        Crosses cfg ((front ++ c :: mid).foldl (applyCall cfg) {}) d →
        cfg.observerQuorum ≤ ((((front ++ c :: mid).foldl (applyCall cfg) {}).topic
          d.2.topic).witnessesAfter cfg d.2).len ∧
        ∀ o a, ((((front ++ c :: mid).foldl (applyCall cfg) {}).topic
          d.2.topic).witnessesAfter cfg d.2).lookup o = some a →
          a.observerNodeID = o ∧ c.1 < a.observedAtUnixMs) := by
  refine ⟨Runs.statesMeet_iff_stepsMeet (fun s c hs => storeFenced_applyCall_iff c hs)
    storeFenced_empty calls, ?_⟩
  rintro hsteps front c mid d back rfl hown hlive happ htopic hnode hcross
  have hpre := (Runs.stepsMeet_append.mp hsteps).1
  have hmid : ClockMonotone (c :: mid) :=
    ((List.pairwise_append.mp hclock).1.sublist (List.sublist_append_right front (c :: mid)))
  exact ⟨hcross.2.2, counted_after_publish hmid hpre hown hlive happ htopic hnode hcross⟩

/-- Observer 1 attests the death of node 9 at 1000, node 9 then opens a slot at 2000, and observer 2
attests at 3000. -/
def staleCalls : List (Int64 × Record) :=
  [(1000, { topic := [116], nodeID := [9], hlc := 5, tombstone := true, sig := [1]
            observerNodeID := [1], observedAtUnixMs := 1000 }),
    (2000, { topic := [116], nodeID := [9], hlc := 6, body := [7], sig := [9] }),
    (3000, { topic := [116], nodeID := [9], hlc := 7, tombstone := true, sig := [2]
             observerNodeID := [2], observedAtUnixMs := 3000 })]

/-- The record of node 9 was applied at 2000; the tombstone over it counts the witness of 1000. -/
theorem staleCalls_counted :
    ClockMonotone staleCalls ∧
    (runStore {} {} (applyOps (staleCalls.take 2))).getKeyed [116] [9] [] =
      some { topic := [116], nodeID := [9], hlc := 6, body := [7], sig := [9] } ∧
    (runStore {} {} (applyOps staleCalls)).getRawKeyed [116] [9] [] =
      some { topic := [116], nodeID := [9], hlc := 8, tombstone := true } ∧
    ((((runStore {} {} (applyOps staleCalls)).topic [116]).witnesses [9]).lookup [1]).map
      Record.observedAtUnixMs = some 1000 ∧
    ¬ Runs.StatesMeet (applyCall {}) StoreFenced {} staleCalls := by
  refine ⟨by unfold ClockMonotone; decide, by decide, by decide, by decide, ?_⟩
  rintro ⟨-, -, hfenced, -⟩
  exact absurd (hfenced [116] [9] 2000 [1] _ (by decide) rfl) (by decide)

/-- Node 9 publishes at 1000 and two observers attest its death afterwards. -/
def freshCalls : List (Int64 × Record) :=
  [(1000, { topic := [116], nodeID := [9], hlc := 6, body := [7], sig := [9] }),
    (1200, { topic := [116], nodeID := [9], hlc := 7, tombstone := true, sig := [1]
             observerNodeID := [1], observedAtUnixMs := 1100 }),
    (1200, { topic := [116], nodeID := [9], hlc := 8, tombstone := true, sig := [2]
             observerNodeID := [2], observedAtUnixMs := 1150 })]

theorem freshCalls_fenced :
    Runs.StatesMeet (applyCall {}) StoreFenced {} freshCalls ∧
    (runStore {} {} (applyOps freshCalls)).getRawKeyed [116] [9] [] =
      some { topic := [116], nodeID := [9], hlc := 9, tombstone := true } := by
  refine ⟨((fence_iff_opensFenced {} freshCalls (by unfold ClockMonotone; decide)).1).mpr ?_,
    by decide⟩
  exact ⟨fun _ _ _ _ _ ha => (by cases ha), fun _ hopens => (by cases hopens.1),
    fun _ hopens => (by cases hopens.1), trivial⟩

end Swarm
