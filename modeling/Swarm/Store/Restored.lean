import Swarm.Store.Death

/-!
# Restored nodes

A live owner record of a node moves the restored-at mark of the node to the clock, and retention
drops a mark only when the node has no slot left. A live slot has stood since the record in it was
applied, so a node with a live slot carries a mark that no application of one of its live records is
later than (`live_node_marked`), and attestations from before it are refused.

The tombstone of a quorum stands one above the attestations it counts and carries no signature, so
a signed live record replaces it exactly from the clocks above all of them on. Replacing it deletes
the witness set and moves the mark, and then the old attestations are refused in whatever order they
come again (`restored_survives`).
-/

namespace Swarm

/-! ## What one call writes -/

/-- The attestation reaches the quorum, and the tombstone it leads to in the slot is `x`. -/
structure Synthesises (cfg : StoreConfig) (s : RecordStore) (c : Int64 × Record)
    (k : Topic × RecordKey) (x : Record) : Prop where
  buries : Buries cfg s c
  topic : k.1 = c.2.topic
  node : k.2.nodeID = c.2.nodeID
  record : x = { synthOf ((s.topic c.2.topic).witnessesAfter cfg c.2) c.2 with key := k.2.key }

/-- The call applied a live owner record of the node on the topic. -/
structure AppliesLive (cfg : StoreConfig) (s : RecordStore) (c : Int64 × Record) (t : Topic)
    (node : NodeID) : Prop where
  owner : c.2.isObserverAttestation = false
  live : c.2.tombstone = false
  topic : c.2.topic = t
  node : c.2.nodeID = node
  applied : (applyExt cfg c.1 s c.2).1.applied = true

/-- A record found after a call was there before, is the owner record that was passed, or is the
tombstone of a quorum. -/
theorem slot_applyCall_cases {cfg : StoreConfig} {s : RecordStore} {c : Int64 × Record}
    {k : Topic × RecordKey} {x : Record} (h : (applyCall cfg s c).slotView k = some x) :
    s.slotView k = some x ∨
      (c.2.isObserverAttestation = false ∧ (applyExt cfg c.1 s c.2).1.applied = true ∧
        slotOf c.2 = k ∧ x = c.2) ∨
      Synthesises cfg s c k x := by
  unfold applyCall at h
  by_cases hroom : TopicRoom cfg s c.2.topic
  swap
  · rw [applyExt_of_no_room hroom] at h
    exact Or.inl h
  rw [applyExt_of_room hroom] at h ⊢
  rw [slotView_commit] at h
  split_ifs at h with htopic
  swap
  · exact Or.inl h
  have hview : s.slotView k = (s.topic c.2.topic).records.lookup k.2 := by
    rw [← htopic]
    rfl
  rw [hview]
  show _ ∨ (_ ∧ (applyTopic cfg c.1 (s.topic c.2.topic) c.2).applied = true ∧ _) ∨ _
  unfold applyTopic at h ⊢
  cases hatt : c.2.isObserverAttestation with
  | true =>
    rw [hatt, if_pos rfl] at h
    have hstep := applyAttestationLocked_step cfg c.1 (s.topic c.2.topic) c.2
    generalize applyAttestationLocked cfg c.1 (s.topic c.2.topic) c.2 = o at hstep h
    cases hstep with
    | refused => exact Or.inl h
    | kept =>
      rw [records_accumulate] at h
      exact Or.inl h
    | crossed hok hlen =>
      rcases eq_or_synth_of_lookup h with hold | ⟨hnode, hx⟩
      · rw [records_accumulate] at hold
        exact Or.inl hold
      · exact Or.inr (Or.inr ⟨⟨⟨hatt, hok, hlen⟩, hroom⟩, htopic, hnode, hx⟩)
  | false =>
    rw [hatt, if_neg Bool.false_ne_true] at h
    rw [if_neg Bool.false_ne_true]
    have hslot : ∀ ts' : TopicStore, ts'.records.lookup k.2 = some x →
        (∀ k', ts'.records.lookup k' =
          if k' = keyOf c.2 then some c.2 else (s.topic c.2.topic).records.lookup k') →
        (s.topic c.2.topic).records.lookup k.2 = some x ∨ slotOf c.2 = k ∧ x = c.2 := by
      intro ts' hx hts
      rw [hts] at hx
      split_ifs at hx with hk
      · cases hx
        exact Or.inr ⟨Prod.ext htopic.symm hk.symm, rfl⟩
      · exact Or.inl hx
    have hstep := applyOwner_step cfg c.1 (s.topic c.2.topic) c.2
    generalize applyOwner cfg c.1 (s.topic c.2.topic) c.2 = o at hstep h ⊢
    cases hstep with
    | full => exact Or.inl h
    | opened =>
      have hcases := hslot ((s.topic c.2.topic).openSlot c.1 c.2) h (lookup_openSlot _ c.1 c.2)
      exact hcases.imp_right fun hw => Or.inl ⟨rfl, rfl, hw⟩
    | newer =>
      have hcases :=
        hslot ((s.topic c.2.topic).replaceSlot c.1 c.2) h (lookup_replaceSlot _ c.1 c.2)
      exact hcases.imp_right fun hw => Or.inl ⟨rfl, rfl, hw⟩
    | stale => exact Or.inl h

/-- An attestation observed at or before the mark of its target changes no topic. -/
theorem Marked.refuses {cfg : StoreConfig} {T : Int64} {s : RecordStore} {c : Int64 × Record}
    (h : Marked T c.2.nodeID (s.topic c.2.topic)) (hatt : c.2.isObserverAttestation = true)
    (hat : c.2.observedAtUnixMs ≤ T) :
    (applyExt cfg c.1 s c.2).1.applied = false ∧ (applyExt cfg c.1 s c.2).1.accumulated = false ∧
      ∀ t, (Swarm.applyCall cfg s c).topic t = s.topic t := by
  obtain ⟨hwm, hm, hle⟩ := h
  have hno : ¬ Admitted cfg c.1 (s.topic c.2.topic) c.2 := fun hok =>
    absurd (hat.trans hle) (not_le.mpr (lt_of_not_fenced hok.fence hm))
  unfold Swarm.applyCall
  by_cases hroom : TopicRoom cfg s c.2.topic
  swap
  · rw [applyExt_of_no_room hroom]
    exact ⟨rfl, rfl, fun _ => rfl⟩
  rw [applyExt_of_room hroom, Swarm.applyTopic, if_pos hatt]
  have hstep := applyAttestationLocked_step cfg c.1 (s.topic c.2.topic) c.2
  generalize applyAttestationLocked cfg c.1 (s.topic c.2.topic) c.2 = o at hstep
  cases hstep with
  | refused =>
    refine ⟨rfl, rfl, fun t => ?_⟩
    rw [topic_commit]
    split_ifs with ht
    · rw [ht]
    · rfl
  | kept hok => exact absurd hok hno
  | crossed hok => exact absurd hok hno

/-! ## The mark of a live node -/

/-- The clock reading of a call. -/
def StoreOp.clock : StoreOp → Int64
  | .apply nowMs _ => nowMs
  | .reap nowMs _ => nowMs

/-- The clock of a run never goes back. -/
def ClockForward (ops : List StoreOp) : Prop := ops.Pairwise fun a b => a.clock ≤ b.clock

/-- A live owner record of the node on the topic was applied at `T`. -/
def AppliedAt (cfg : StoreConfig) (ops : List StoreOp) (t : Topic) (node : NodeID) (T : Int64) :
    Prop :=
  ∃ front r back, ops = front ++ .apply T r :: back ∧
    AppliesLive cfg (runStore cfg {} front) (T, r) t node

theorem AppliedAt.append {cfg : StoreConfig} {ops : List StoreOp} {t : Topic} {node : NodeID}
    {T : Int64} (h : AppliedAt cfg ops t node T) (op : StoreOp) :
    AppliedAt cfg (ops ++ [op]) t node T := by
  obtain ⟨front, r, back, rfl, happ⟩ := h
  exact ⟨front, r, back ++ [op], by simp, happ⟩

theorem appliedAt_concat {cfg : StoreConfig} {ops : List StoreOp} {op : StoreOp} {t : Topic}
    {node : NodeID} {T : Int64} (h : AppliedAt cfg (ops ++ [op]) t node T) :
    AppliedAt cfg ops t node T ∨
      ∃ r, op = .apply T r ∧ AppliesLive cfg (runStore cfg {} ops) (T, r) t node := by
  obtain ⟨front, r, back, heq, happ⟩ := h
  rcases List.eq_nil_or_concat back with rfl | ⟨back, last, rfl⟩
  · obtain ⟨rfl, hop⟩ := List.append_inj' heq rfl
    exact Or.inr ⟨r, List.singleton_inj.mp hop, happ⟩
  · rw [List.concat_eq_append, ← List.cons_append, ← List.append_assoc] at heq
    exact Or.inl ⟨front, r, back, (List.append_inj' heq rfl).1, happ⟩

theorem AppliedAt.le_clock {cfg : StoreConfig} {ops : List StoreOp} {op : StoreOp} {t : Topic}
    {node : NodeID} {T : Int64} (h : AppliedAt cfg ops t node T)
    (hclock : ClockForward (ops ++ [op])) : T ≤ op.clock := by
  obtain ⟨front, r, back, rfl, -⟩ := h
  exact (List.pairwise_append.mp hclock).2.2 (.apply T r) (by simp) op (by simp)

/-- The node holds a live slot on the topic. -/
def HoldsLive (s : RecordStore) (t : Topic) (node : NodeID) : Prop :=
  ∃ k x, s.slotView (t, k) = some x ∧ k.nodeID = node ∧ x.tombstone = false

theorem marked_reapExpired {nowMs T : Int64} {ttlFor : Option (Topic → Duration)} {s : RecordStore}
    {t : Topic} {node : NodeID} (h : Marked T node (s.topic t))
    (hlive : HoldsLive (reapExpired nowMs ttlFor s).2 t node) :
    Marked T node ((reapExpired nowMs ttlFor s).2.topic t) := by
  obtain ⟨k, x, hx, hk, -⟩ := hlive
  have hx' : ((reapExpired nowMs ttlFor s).2.topic t).records.lookup k = some x := hx
  rcases topic_reapExpired nowMs ttlFor s t with heq | ⟨ttlMs, heq⟩
  · rw [heq]
    exact h
  · rw [heq] at hx' ⊢
    obtain ⟨hwm, hm, hle⟩ := h
    refine ⟨hwm, ?_, hle⟩
    rw [restoredAt_reap, hm, Option.bind_some, nodePresent_iff.mpr ⟨k, x, hx', hk⟩, if_pos rfl]

theorem holdsLive_of_reapExpired {nowMs : Int64} {ttlFor : Option (Topic → Duration)}
    {s : RecordStore} {t : Topic} {node : NodeID}
    (h : HoldsLive (reapExpired nowMs ttlFor s).2 t node) : HoldsLive s t node := by
  obtain ⟨k, x, hx, hk, hlive⟩ := h
  exact ⟨k, x, slotView_of_reapExpired hx, hk, hlive⟩

/-- A live record of a node was applied, and the mark of the node reaches every such application. -/
structure Restored (cfg : StoreConfig) (ops : List StoreOp) (t : Topic) (node : NodeID) : Prop where
  once : ∃ T, AppliedAt cfg ops t node T
  marked : ∀ T, AppliedAt cfg ops t node T → Marked T node ((runStore cfg {} ops).topic t)

/-- A call that applies a live record moves the mark to the clock. -/
theorem restored_of_applies {cfg : StoreConfig} {ops : List StoreOp} {t : Topic} {node : NodeID}
    {nowMs : Int64} {r : Record}
    (hclock : ClockForward (ops ++ [.apply nowMs r]))
    (h : AppliesLive cfg (runStore cfg {} ops) (nowMs, r) t node) :
    Restored cfg (ops ++ [.apply nowMs r]) t node where
  once := ⟨nowMs, ops, r, [], rfl, h⟩
  marked T hT := by
    have hmark := marked_of_applied h.owner h.live h.applied
    rw [h.topic, h.node] at hmark
    obtain ⟨hwm, hm, hle⟩ := hmark
    rw [runStore_concat]
    refine ⟨hwm, hm, le_trans ?_ hle⟩
    rcases appliedAt_concat hT with hold | ⟨r', hop, -⟩
    · have hle' : T ≤ (StoreOp.apply nowMs r).clock := hold.le_clock hclock
      exact hle'
    · cases hop
      exact le_rfl

theorem run_restored (cfg : StoreConfig) {ops : List StoreOp}
    (hclock : ClockForward ops) {t : Topic} {node : NodeID}
    (hlive : HoldsLive (runStore cfg {} ops) t node) : Restored cfg ops t node := by
  induction ops using List.reverseRecOn with
  | nil =>
    obtain ⟨k, x, hx, -⟩ := hlive
    cases hx
  | append_singleton ops op ih =>
    have hbefore := ih (List.pairwise_append.mp hclock).1
    rw [runStore_concat] at hlive
    cases op with
    | apply nowMs r =>
      by_cases happ : AppliesLive cfg (runStore cfg {} ops) (nowMs, r) t node
      · exact restored_of_applies hclock happ
      -- the live slot is not of this call, so it stood before and the marks cover the past
      obtain ⟨k, x, hx, hk, hx'⟩ := hlive
      have hold : HoldsLive (runStore cfg {} ops) t node := by
        refine ⟨k, x, ?_, hk, hx'⟩
        rcases slot_applyCall_cases (c := (nowMs, r)) hx with hold | ⟨hown, hap, hslot, rfl⟩ | hsyn
        · exact hold
        · exact absurd ⟨hown, hx', congrArg Prod.fst hslot,
            (congrArg (fun k => k.2.nodeID) hslot).trans hk, hap⟩ happ
        · rw [hsyn.record] at hx'
          cases hx'
      obtain ⟨⟨T₀, hT₀⟩, hmarked⟩ := hbefore hold
      refine ⟨⟨T₀, hT₀.append _⟩, fun T hT => ?_⟩
      rw [runStore_concat]
      rcases appliedAt_concat hT with hT | ⟨r', hop, hr'⟩
      · have hle : T ≤ (StoreOp.apply nowMs r).clock := hT.le_clock hclock
        exact (hmarked T hT).applyCall (nowMs, r) hle
      · cases hop
        exact absurd hr' happ
    | reap nowMs ttlFor =>
      obtain ⟨⟨T₀, hT₀⟩, hmarked⟩ := hbefore (holdsLive_of_reapExpired hlive)
      refine ⟨⟨T₀, hT₀.append _⟩, fun T hT => ?_⟩
      rw [runStore_concat]
      rcases appliedAt_concat hT with hT | ⟨r', hop, -⟩
      · exact marked_reapExpired (hmarked T hT) hlive
      · cases hop

/-- **The fence of a live node.** After every run of `ApplyExt` and `reapExpired` with a clock that
never goes back, a node with a live slot on a topic carries a mark there that is at least the clock
of every application of a live owner record of the node on the topic. An attestation observed at or
before such an application is neither applied nor accumulated and leaves every topic as it is. -/
theorem live_node_marked (cfg : StoreConfig) (ops : List StoreOp)
    (hclock : ClockForward ops) (t : Topic) (node : NodeID)
    (hlive : HoldsLive (runStore cfg {} ops) t node) :
    (∃ hwm, ((runStore cfg {} ops).topic t).restoredAtUnixMs.lookup node = some hwm ∧
      ∀ T, AppliedAt cfg ops t node T → T ≤ hwm) ∧
    ∀ T, AppliedAt cfg ops t node T → ∀ c : Int64 × Record, c.2.isObserverAttestation = true →
      c.2.topic = t → c.2.nodeID = node → c.2.observedAtUnixMs ≤ T →
      (applyExt cfg c.1 (runStore cfg {} ops) c.2).1.applied = false ∧
      (applyExt cfg c.1 (runStore cfg {} ops) c.2).1.accumulated = false ∧
      ∀ t', (applyCall cfg (runStore cfg {} ops) c).topic t' = (runStore cfg {} ops).topic t' := by
  obtain ⟨⟨T₀, hT₀⟩, hmarked⟩ := run_restored cfg hclock hlive
  constructor
  · obtain ⟨hwm, hm, -⟩ := hmarked T₀ hT₀
    refine ⟨hwm, hm, fun T hT => ?_⟩
    obtain ⟨hwm', hm', hle⟩ := hmarked T hT
    rw [hm] at hm'
    cases hm'
    exact hle
  · rintro T hT c hatt rfl rfl hat
    exact Marked.refuses (hmarked T hT) hatt hat

/-- Node 9 publishes under two keys, the second of them deleted at once; retention then drops the
older slot. -/
def twoKeyOps : List StoreOp :=
  [.apply 1000 { topic := [116], nodeID := [9], hlc := packHLC 1000 0, sig := [1], key := [1] },
    .apply 5000 { topic := [116], nodeID := [9], hlc := packHLC 5000 0, sig := [2], key := [2] },
    .apply 5000 { topic := [116], nodeID := [9], hlc := packHLC 1000 1, sig := [3], key := [3]
                  tombstone := true },
    .reap 6000 (some fun _ => 2 * second)]

/-- One slot is left, and an attestation from before its record is refused. -/
theorem twoKeyOps_marked :
    ((runStore {} {} twoKeyOps).topic [116]).records.len = 1 ∧
    (applyExt {} 6000 (runStore {} {} twoKeyOps)
      { topic := [116], nodeID := [9], hlc := packHLC 4000 0, tombstone := true, sig := [4]
        observerNodeID := [1], observedAtUnixMs := 4900 }).1.accumulated = false := by
  have hlive : HoldsLive (runStore {} {} twoKeyOps) [116] [9] :=
    ⟨{ nodeID := [9], key := [2] }, _, rfl, rfl, rfl⟩
  have happ : AppliedAt {} twoKeyOps [116] [9] 5000 :=
    ⟨twoKeyOps.take 1, _, twoKeyOps.drop 2, rfl, ⟨rfl, rfl, rfl, rfl, by decide⟩⟩
  refine ⟨by decide, ?_⟩
  exact ((live_node_marked {} twoKeyOps (by unfold ClockForward; decide) [116] [9] hlive).2 5000
    happ (6000, _) rfl rfl rfl (by decide)).2.1

/-! ## Replacing the tombstone of a quorum -/

/-- A record in a slot was passed as an owner record, or a quorum of the run put it there. -/
theorem published_or_synthesised (cfg : StoreConfig) {ops : List StoreOp} {k : Topic × RecordKey}
    {x : Record} (hx : (runStore cfg {} ops).slotView k = some x) :
    Published ops x ∨ ∃ front c back, ops = front ++ .apply c.1 c.2 :: back ∧
      Synthesises cfg (runStore cfg {} front) c k x := by
  induction ops using List.reverseRecOn with
  | nil => cases hx
  | append_singleton ops op ih =>
    rw [runStore_concat] at hx
    have hold : (runStore cfg {} ops).slotView k = some x →
        Published (ops ++ [op]) x ∨ ∃ front c back, ops ++ [op] = front ++ .apply c.1 c.2 :: back ∧
          Synthesises cfg (runStore cfg {} front) c k x := by
      intro h
      rcases ih h with hpub | ⟨front, c, back, rfl, hsyn⟩
      · exact Or.inl (hpub.append op)
      · exact Or.inr ⟨front, c, back ++ [op], by simp, hsyn⟩
    cases op with
    | apply nowMs r =>
      rcases slot_applyCall_cases (c := (nowMs, r)) hx with h | ⟨hown, -, -, rfl⟩ | hsyn
      · exact hold h
      · exact Or.inl ⟨nowMs, by simp, hown⟩
      · exact Or.inr ⟨ops, (nowMs, r), [], rfl, hsyn⟩
    | reap nowMs ttlFor => exact hold (slotView_of_reapExpired hx)

/-- The tombstone of a non-empty set stands at the least clock above its attestations. -/
theorem synthOf_hlc_le_iff {set : FMap NodeID Record} (att : Record) {h : UInt64}
    (hlen : 0 < set.len) (hmax : ∀ a ∈ set.values, a.hlc.toNat < 2 ^ 64 - 1) :
    (synthOf set att).hlc ≤ h ↔ ∀ a ∈ set.values, a.hlc < h := by
  have htop : maxHLCOf set < UInt64.ofNat (2 ^ 64 - 1) :=
    (MaxLoop.lt_iff _ _ _ _).mpr ⟨by decide, fun b hb => hmax b hb⟩
  show maxHLCOf set + 1 ≤ h ↔ _
  rw [Words.add_one_le_iff (Words.lt_add_one htop), maxHLCOf, MaxLoop.lt_iff]
  refine and_iff_right_of_imp fun hall => ?_
  rw [← FMap.length_values] at hlen
  obtain ⟨a, ha⟩ := List.exists_mem_of_length_pos hlen
  exact lt_of_le_of_lt UInt64.zero_le (hall a ha)

/-- An owner record that outranks what its slot holds replaces it. -/
theorem applyExt_newer (cfg : StoreConfig) (nowMs : Int64) {s : RecordStore} {r cur : Record}
    (hown : r.isObserverAttestation = false) (hcur : s.slotView (slotOf r) = some cur)
    (hlt : rankOf cur < rankOf r) :
    (applyExt cfg nowMs s r).1.applied = true ∧
      (applyExt cfg nowMs s r).2.topic r.topic = (s.topic r.topic).replaceSlot nowMs r := by
  have hlookup : (s.topic r.topic).records.lookup (keyOf r) = some cur := hcur
  have hroom : TopicRoom cfg s r.topic := by
    intro hnone
    rw [RecordStore.topic, hnone] at hlookup
    cases hlookup
  rw [applyExt_of_room hroom, applyTopic, if_neg (by rw [hown]; exact Bool.false_ne_true),
    topic_commit, if_pos rfl]
  have hstep := applyOwner_step cfg nowMs (s.topic r.topic) r
  generalize applyOwner cfg nowMs (s.topic r.topic) r = o at hstep
  cases hstep with
  | full hnew =>
    rw [hlookup] at hnew
    cases hnew
  | opened hnew =>
    rw [hlookup] at hnew
    cases hnew
  | newer => exact ⟨rfl, rfl⟩
  | stale hcur' hle =>
    rw [hlookup] at hcur'
    cases hcur'
    exact absurd hlt (not_lt.mpr hle)

/-- Attestations of a node from before its mark leave the topic alone, whatever their order. -/
theorem topic_replay (cfg : StoreConfig) {T : Int64} {t : Topic} {node : NodeID}
    {replay : List (Int64 × Record)}
    (hreplay : ∀ c ∈ replay, c.2.isObserverAttestation = true ∧ c.2.nodeID = node ∧
      c.2.observedAtUnixMs ≤ T) {s : RecordStore} (hmark : Marked T node (s.topic t)) :
    (replay.foldl (applyCall cfg) s).topic t = s.topic t := by
  induction replay generalizing s with
  | nil => rfl
  | cons c replay ih =>
    obtain ⟨hatt, hnode, hat⟩ := hreplay c List.mem_cons_self
    have hone : (applyCall cfg s c).topic t = s.topic t := by
      rcases topic_applyExt cfg c.1 s c.2 t with heq | ⟨rfl, -⟩
      · exact heq
      · exact (Marked.refuses (hnode ▸ hmark) hatt hat).2.2 _
    exact (ih (fun d hd => hreplay d (List.mem_cons_of_mem _ hd)) (by rwa [hone])).trans hone

/-- A signed record replaces a tombstone of the slot that carries no signature exactly from the
clock of the tombstone on. -/
theorem getKeyed_restored_iff (cfg : StoreConfig) (T : Int64) {s : RecordStore} {r x : Record}
    (hown : r.isObserverAttestation = false) (hsig : r.sig ≠ []) (hlive : r.tombstone = false)
    (hx : s.slotView (slotOf r) = some x) (hdead : x.tombstone = true) (hunsigned : x.sig = []) :
    ((applyExt cfg T s r).2.getKeyed r.topic r.nodeID r.key = some r ↔ rankOf x < rankOf r) ∧
      (rankOf x < rankOf r ↔ x.hlc ≤ r.hlc) := by
  constructor
  · rw [getKeyed_eq_some_iff]
    show (applyExt cfg T s r).2.slotView (slotOf r) = some r ∧ _ ↔ _
    rcases slotView_applyExt cfg T s hown with ⟨hshut, -, -⟩ | ⟨-, hview⟩
    · rw [hshut.empty] at hx
      cases hx
    · rw [hview, LastWriter.put_self, hx, LastWriter.winner]
      split_ifs with hlt
      · exact iff_of_true ⟨rfl, hlive⟩ hlt
      · refine iff_of_false (fun h => ?_) hlt
        rw [Option.some.inj h.1, hlive] at hdead
        cases hdead
  · rw [rankOf_lt_iff, sigLess_iff, hunsigned, le_iff_lt_or_eq, eq_comm (a := r.hlc)]
    refine or_congr_right (and_iff_left ?_)
    obtain ⟨b, sig, hcons⟩ := List.exists_cons_of_ne_nil hsig
    rw [hcons]
    exact List.nil_lt_cons b sig

/-- **Auto-restore.** Let a slot hold a record `x` after a run of `ApplyExt` and `reapExpired` whose
attestations have clocks below the top. If no owner record of the run is `x`, then `x` is the
tombstone of a quorum of the run. If it is, of whichever attestation, and `r` is a signed live owner
record for the slot that is applied at `T`, then `GetKeyed` returns `r` exactly when `r` is above
every attestation counted in that quorum; and when it does, attestations of the node observed at or
before `T`, on any topics, in any order and number and at any clocks, leave it so and leave the
witness set of the node empty. -/
theorem restored_survives (cfg : StoreConfig) (ops : List StoreOp)
    (hmax : ∀ nowMs a, StoreOp.apply nowMs a ∈ ops → a.isObserverAttestation = true →
      a.hlc.toNat < 2 ^ 64 - 1)
    (t : Topic) (node : NodeID) (key : Bytes) (x : Record)
    (hx : (runStore cfg {} ops).getRawKeyed t node key = some x) :
    (¬ Published ops x → ∃ front c back, ops = front ++ .apply c.1 c.2 :: back ∧
      Synthesises cfg (runStore cfg {} front) c (t, { nodeID := node, key := key }) x) ∧
    ∀ front c back, ops = front ++ .apply c.1 c.2 :: back →
      Synthesises cfg (runStore cfg {} front) c (t, { nodeID := node, key := key }) x →
      ∀ T r, r.isObserverAttestation = false → r.sig ≠ [] → r.tombstone = false →
        slotOf r = (t, { nodeID := node, key := key }) →
        ((applyExt cfg T (runStore cfg {} ops) r).2.getKeyed t node key = some r ↔
          ∀ a ∈ (((runStore cfg {} front).topic t).witnessesAfter cfg c.2).values,
            a.hlc < r.hlc) ∧
        ((applyExt cfg T (runStore cfg {} ops) r).2.getKeyed t node key = some r →
          ∀ replay : List (Int64 × Record),
            (∀ d ∈ replay, d.2.isObserverAttestation = true ∧ d.2.nodeID = node ∧
              d.2.observedAtUnixMs ≤ T) →
            (replay.foldl (applyCall cfg) (applyExt cfg T (runStore cfg {} ops) r).2).getKeyed
              t node key = some r ∧
            ((replay.foldl (applyCall cfg) (applyExt cfg T (runStore cfg {} ops) r).2).topic
              t).witnesses node = ∅) := by
  rw [← slotView_eq_getRawKeyed] at hx
  refine ⟨fun hno => (published_or_synthesised cfg hx).resolve_left hno, ?_⟩
  rintro front c back hops hsyn T r hown hsig hlive hslot
  obtain ⟨⟨hatt, hok, hlen⟩, -⟩ := hsyn.buries
  have htopic : c.2.topic = t := hsyn.topic.symm
  obtain ⟨rfl, rfl, rfl⟩ : r.topic = t ∧ r.nodeID = node ∧ r.key = key :=
    ⟨congrArg Prod.fst hslot, congrArg (fun k => k.2.nodeID) hslot,
      congrArg (fun k => k.2.key) hslot⟩
  have hdead : x.tombstone = true := by rw [hsyn.record]; rfl
  have hunsigned : x.sig = [] := by rw [hsyn.record]; rfl
  obtain ⟨hread, hrank⟩ :=
    getKeyed_restored_iff cfg T hown hsig hlive hx hdead hunsigned
  have hbelow : ∀ a ∈ (((runStore cfg {} front).topic r.topic).witnessesAfter cfg c.2).values,
      a.hlc.toNat < 2 ^ 64 - 1 := by
    intro a ha
    obtain ⟨o, ho⟩ := FMap.mem_values.mp ha
    rw [← htopic] at ho
    have hwit := ((run_quorumInv cfg front c.2.topic).witnessesAfter hatt hok ho).2
    obtain ⟨nowMs, hmem, -⟩ := hwit.passed
    refine hmax nowMs a ?_ hwit.attests
    rw [hops]
    exact List.mem_append.mpr ((List.mem_append.mp hmem).imp_right fun h =>
      List.mem_cons.mpr (Or.inl (List.mem_singleton.mp h)))
  have hthreshold : x.hlc ≤ r.hlc ↔
      ∀ a ∈ (((runStore cfg {} front).topic r.topic).witnessesAfter cfg c.2).values,
        a.hlc < r.hlc := by
    rw [htopic] at hlen
    rw [← synthOf_hlc_le_iff c.2 (lt_of_lt_of_le cfg.quorum_pos hlen) hbelow, hsyn.record,
      htopic]
  refine ⟨hread.trans (hrank.trans hthreshold), fun hgot replay hreplay => ?_⟩
  obtain ⟨happ, hts⟩ := applyExt_newer cfg T hown hx (hread.mp hgot)
  have hmark : Marked T r.nodeID ((applyExt cfg T (runStore cfg {} ops) r).2.topic r.topic) :=
    marked_of_applied (c := (T, r)) hown hlive happ
  have hsame := topic_replay cfg hreplay hmark
  constructor
  · rw [getKeyed_eq_some_iff] at hgot ⊢
    unfold RecordStore.slotView at hgot ⊢
    rwa [hsame]
  · rw [hsame, hts, witnesses_replaceSlot, if_pos rfl]

/-- Node 9 dies by the attestations of `freshCalls`; its next record has the clock of the
tombstone. -/
theorem freshCalls_restored :
    (runStore {} {} (applyOps freshCalls)).getRawKeyed [116] [9] [] =
      some { topic := [116], nodeID := [9], hlc := 9, tombstone := true } ∧
    ((freshCalls.drop 1 ++ freshCalls.drop 2).foldl (applyCall {})
      (applyExt {} 1400 (runStore {} {} (applyOps freshCalls))
        { topic := [116], nodeID := [9], hlc := 9, body := [7], sig := [9] }).2).getKeyed
      [116] [9] [] = some { topic := [116], nodeID := [9], hlc := 9, body := [7], sig := [9] } := by
  have hslot : (runStore {} {} (applyOps freshCalls)).getRawKeyed [116] [9] [] =
      some { topic := [116], nodeID := [9], hlc := 9, tombstone := true } := by decide
  refine ⟨hslot, ?_⟩
  obtain ⟨hback, hall⟩ := restored_survives {} (applyOps freshCalls)
    (fun nowMs a hmem _ => by
      simp only [applyOps, freshCalls, List.map_cons, List.map_nil, List.mem_cons,
        StoreOp.apply.injEq, List.not_mem_nil, or_false] at hmem
      rcases hmem with ⟨-, rfl⟩ | ⟨-, rfl⟩ | ⟨-, rfl⟩ <;> decide) [116] [9] [] _ hslot
  obtain ⟨front, c, back, hops, hsyn⟩ := hback fun ⟨_, hmem, _⟩ => by
    simp [applyOps, freshCalls] at hmem
  exact ((hall front c back hops hsyn 1400 _ rfl (by decide) rfl rfl).2 (by decide)
    (freshCalls.drop 1 ++ freshCalls.drop 2) (by decide)).1

end Swarm
