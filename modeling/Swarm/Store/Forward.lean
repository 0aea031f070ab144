import Swarm.Store.View

/-!
# Slots only move forward

Three places write a slot: an owner record opens one, an owner record replaces one it outranks, and
a quorum writes its tombstone over slots with a smaller clock. All three move the slot forward in
the order of `rankOf`, and the flag `ApplyExt` returns says whether one of them was reached
(`applyExt_forward`).

So what an owner record left behind is never passed by the same record again
(`not_applied_twice`).
-/

namespace Swarm

open LastWriter (Advances Below Forward View)

/-! ## What the store takes -/

/-- Neither the clock of the slot nor a cap stands against the owner record. -/
structure Takes (cfg : StoreConfig) (s : RecordStore) (r : Record) : Prop where
  topic : TopicRoom cfg s r.topic
  room : (s.topic r.topic).records.lookup (keyOf r) = none →
    (s.topic r.topic).records.len < cfg.maxRecordsPerTopic ∧
      (s.topic r.topic).held r.nodeID < cfg.maxKeysPerNode
  newer : ∀ cur, (s.topic r.topic).records.lookup (keyOf r) = some cur → rankOf cur < rankOf r

theorem applied_iff_takes (cfg : StoreConfig) (nowMs : Int64) (s : RecordStore) {r : Record}
    (hr : r.isObserverAttestation = false) :
    (applyExt cfg nowMs s r).1.applied = true ↔ Takes cfg s r := by
  by_cases htopic : TopicRoom cfg s r.topic
  swap
  · rw [applyExt_of_no_room htopic]
    exact iff_of_false Bool.false_ne_true fun h => htopic h.topic
  rw [applyExt_of_room htopic, applyTopic, if_neg (by rw [hr]; exact Bool.false_ne_true)]
  have hstep := applyOwner_step cfg nowMs (s.topic r.topic) r
  generalize applyOwner cfg nowMs (s.topic r.topic) r = o at hstep
  cases hstep with
  | full hnew hcap =>
    refine iff_of_false Bool.false_ne_true fun h => ?_
    obtain ⟨hroom, hkeys⟩ := h.room hnew
    rcases hcap with hfull | hfull <;> omega
  | opened hnew hroom hkeys =>
    refine iff_of_true rfl ⟨htopic, fun _ => ⟨hroom, hkeys⟩, fun cur hcur => ?_⟩
    rw [hnew] at hcur
    cases hcur
  | newer hcur hlt =>
    refine iff_of_true rfl ⟨htopic, fun hnone => ?_, fun cur hcur' => ?_⟩
    · rw [hcur] at hnone
      cases hnone
    · rw [hcur] at hcur'
      cases hcur'
      exact hlt
  | stale hcur hle =>
    refine iff_of_false Bool.false_ne_true fun h => ?_
    exact absurd (h.newer _ hcur) (not_lt.mpr hle)

/-! ## One merge -/

/-- Every slot is as it was or advanced, and the flag says whether one advanced. -/
structure Reports {K : Type} (f g : View K Record) (applied : Bool) : Prop where
  forward : Forward rankOf f g
  applied_iff : applied = true ↔ ∃ k, g k ≠ f k

namespace Reports

variable {K : Type} {f g : View K Record}

theorem same (h : g = f) : Reports f g false where
  forward k := Or.inl (congrFun h k)
  applied_iff := iff_of_false Bool.false_ne_true fun ⟨k, hk⟩ => hk (congrFun h k)

/-- One slot advanced. -/
theorem advanced [DecidableEq K] (k₀ : K) (h₀ : Advances rankOf (f k₀) (g k₀))
    (h : ∀ k, k ≠ k₀ → g k = f k) : Reports f g true where
  forward k := by
    by_cases hk : k = k₀
    · exact Or.inr (hk ▸ h₀)
    · exact Or.inl (h k hk)
  applied_iff := iff_of_true rfl ⟨k₀, h₀.ne⟩

/-- Storing a record that outranks what its slot holds. -/
theorem write {f g : View RecordKey Record} {r : Record}
    (hlt : ∀ cur, f (keyOf r) = some cur → rankOf cur < rankOf r)
    (hg : ∀ k, g k = if k = keyOf r then some r else f k) : Reports f g true :=
  advanced (keyOf r) ⟨r, (hg _).trans (if_pos rfl), hlt⟩ fun k hk => (hg k).trans (if_neg hk)

end Reports

/-- The loop over the slots reports whether it found an older one. -/
theorem tombstoneSlots_applied (synth : Record) (slots : List RecordKey)
    (records : FMap RecordKey Record) :
    (tombstoneSlots synth slots records).1 = true ↔
      ∃ k ∈ slots, ((records.lookup k).getD {}).hlc < synth.hlc := by
  have gen : ∀ acc : Bool × FMap RecordKey Record,
      (slots.foldl (tombstoneSlot synth) acc).1 = true ↔
        acc.1 = true ∨ ∃ k ∈ slots, ((acc.2.lookup k).getD {}).hlc < synth.hlc := by
    induction slots with
    | nil => intro acc; simp
    | cons k' slots ih =>
      intro acc
      rw [List.foldl_cons, ih]
      unfold tombstoneSlot
      dsimp only
      by_cases hlt : ((acc.2.lookup k').getD {}).hlc < synth.hlc
      · rw [if_pos hlt]
        exact iff_of_true (Or.inl rfl) (Or.inr ⟨k', List.mem_cons_self, hlt⟩)
      · rw [if_neg hlt]
        simp [hlt]
  exact (gen (false, records)).trans (by simp)

/-- What a quorum writes outranks what it overwrites. -/
theorem synthesise_reports (ts : TopicStore) (set : FMap NodeID Record) (att : Record) :
    Reports ts.records.lookup (synthesise ts set att).ts.records.lookup
      (synthesise ts set att).applied where
  forward k := by
    dsimp only
    rw [lookup_synthesise]
    cases hcur : ts.records.lookup k with
    | none =>
      dsimp only
      split_ifs
      · exact Or.inr ⟨_, rfl, fun _ h => (nomatch h)⟩
      · exact Or.inl rfl
    | some cur =>
      dsimp only
      split_ifs with hlt
      · refine Or.inr ⟨_, rfl, fun x hx => ?_⟩
        cases hx
        exact (rankOf_lt_iff _ _).mpr (Or.inl hlt.2)
      · exact Or.inl rfl
  applied_iff := by
    have hslot : ∀ k, (synthesise ts set att).ts.records.lookup k ≠ ts.records.lookup k ↔
        (k.nodeID = att.nodeID ∧ ∃ cur, ts.records.lookup k = some cur ∧
          cur.hlc < (synthOf set att).hlc) ∨
        (k = { nodeID := att.nodeID } ∧ ts.nodePresent att.nodeID = false) := by
      intro k
      rw [lookup_synthesise]
      cases hcur : ts.records.lookup k with
      | none => simp
      | some cur =>
        have habsent : ¬ (k = { nodeID := att.nodeID } ∧ ts.nodePresent att.nodeID = false) := by
          rintro ⟨rfl, hno⟩
          rw [nodePresent_iff.mpr ⟨_, cur, hcur, rfl⟩] at hno
          cases hno
        have hne : cur.hlc < (synthOf set att).hlc →
            some { synthOf set att with key := k.key } ≠ some cur := by
          intro hlt heq
          rw [← Option.some.inj heq] at hlt
          exact absurd hlt (lt_irrefl _)
        dsimp only
        split_ifs with hlt
        · exact iff_of_true (hne hlt.2) (Or.inl ⟨hlt.1, cur, rfl, hlt.2⟩)
        · refine iff_of_false (fun h => h rfl) ?_
          rintro (⟨hk, x, hx, hlt'⟩ | h)
          · cases hx
            exact hlt ⟨hk, hlt'⟩
          · exact habsent h
    simp only [hslot]
    unfold synthesise
    dsimp only
    split_ifs with hslots
    · refine iff_of_true rfl ⟨_, Or.inr ⟨rfl, ?_⟩⟩
      by_contra hpres
      obtain ⟨k, r, hr, hk⟩ := nodePresent_iff.mp (Bool.not_eq_false _ ▸ hpres)
      have hmem : k ∈ ts.nodeSlots att.nodeID := mem_nodeSlots.mpr ⟨⟨r, hr⟩, hk⟩
      rw [List.isEmpty_iff.mp hslots] at hmem
      cases hmem
    · rw [tombstoneSlots_applied]
      simp only [mem_nodeSlots]
      constructor
      · rintro ⟨k, ⟨⟨cur, hcur⟩, hk⟩, hlt⟩
        rw [hcur] at hlt
        exact ⟨k, Or.inl ⟨hk, cur, hcur, hlt⟩⟩
      · rintro ⟨k, ⟨hk, cur, hcur, hlt⟩ | ⟨-, hno⟩⟩
        · exact ⟨k, ⟨⟨cur, hcur⟩, hk⟩, by rw [hcur]; exact hlt⟩
        · refine absurd ?_ hslots
          rw [List.isEmpty_iff, List.eq_nil_iff_forall_not_mem]
          intro k hk
          obtain ⟨⟨r, hr⟩, hnode⟩ := mem_nodeSlots.mp hk
          rw [nodePresent_iff.mpr ⟨k, r, hr, hnode⟩] at hno
          cases hno

theorem applyTopic_reports (cfg : StoreConfig) (nowMs : Int64) (ts : TopicStore) (r : Record) :
    Reports ts.records.lookup (applyTopic cfg nowMs ts r).ts.records.lookup
      (applyTopic cfg nowMs ts r).applied := by
  unfold applyTopic
  split_ifs
  · have hstep := applyAttestationLocked_step cfg nowMs ts r
    generalize applyAttestationLocked cfg nowMs ts r = o at hstep
    cases hstep with
    | refused => exact .same rfl
    | kept => exact .same rfl
    | crossed => exact synthesise_reports (ts.accumulate cfg r) _ r
  · have hstep := applyOwner_step cfg nowMs ts r
    generalize applyOwner cfg nowMs ts r = o at hstep
    cases hstep with
    | full => exact .same rfl
    | opened hnew =>
      refine .write (fun cur hcur => ?_) (lookup_openSlot ts nowMs r)
      rw [hnew] at hcur
      cases hcur
    | newer hcur hlt =>
      refine .write (fun x hx => ?_) (lookup_replaceSlot ts nowMs r)
      rw [hcur] at hx
      cases hx
      exact hlt
    | stale => exact .same rfl

/-- **One call.** Every slot of the store is as it was or advanced, and `applied` says whether one
advanced. -/
theorem applyExt_reports (cfg : StoreConfig) (nowMs : Int64) (s : RecordStore) (r : Record) :
    Reports s.slotView (applyExt cfg nowMs s r).2.slotView (applyExt cfg nowMs s r).1.applied := by
  rcases applyExt_eq cfg nowMs s r with ⟨-, -, heq⟩ | heq
  · rw [heq]
    exact .same rfl
  rw [heq]
  have htopic := applyTopic_reports cfg nowMs (s.topic r.topic) r
  generalize applyTopic cfg nowMs (s.topic r.topic) r = o at htopic
  have hview : ∀ k : RecordKey, s.slotView (r.topic, k) = (s.topic r.topic).records.lookup k :=
    fun _ => rfl
  constructor
  · intro k
    rw [slotView_commit]
    split_ifs with hk
    · have hself : s.slotView k = (s.topic r.topic).records.lookup k.2 := by
        rw [← hview, ← hk]
      rw [hself]
      exact htopic.forward k.2
    · exact Or.inl rfl
  · refine htopic.applied_iff.trans ⟨?_, ?_⟩
    · rintro ⟨k, hk⟩
      refine ⟨(r.topic, k), ?_⟩
      rw [slotView_commit, if_pos rfl]
      exact hk
    · rintro ⟨k, hk⟩
      rw [slotView_commit] at hk
      split_ifs at hk with ht
      · refine ⟨k.2, fun heq' => hk ?_⟩
        rw [heq', ← hview, ← ht]
      · exact absurd rfl hk

/-! ## What a call writes -/

/-- An owner record that is taken stands in its slot. -/
theorem Takes.slotView {cfg : StoreConfig} {s : RecordStore} {r : Record} (h : Takes cfg s r)
    (hown : r.isObserverAttestation = false) (nowMs : Int64) :
    (applyExt cfg nowMs s r).2.slotView (slotOf r) = some r := by
  have happ := (applied_iff_takes cfg nowMs s hown).mpr h
  rcases slotView_applyExt cfg nowMs s hown with ⟨-, -, hview⟩ | ⟨-, hview⟩
  · obtain ⟨k, hk⟩ := (applyExt_reports cfg nowMs s r).applied_iff.mp happ
    exact absurd (congrFun hview k) hk
  · rw [hview, LastWriter.put_self]
    cases hcur : s.slotView (slotOf r) with
    | none => rfl
    | some cur => exact congrArg some (if_pos (h.newer cur hcur))

/-- The tombstone an attestation stands for once it is among the witnesses. -/
def tombstoneBy (cfg : StoreConfig) (s : RecordStore) (att : Record) : Record :=
  synthOf ((s.topic att.topic).witnessesAfter cfg att) att

theorem slotOf_tombstoneBy (cfg : StoreConfig) (s : RecordStore) (att : Record) (key : Bytes) :
    slotOf { tombstoneBy cfg s att with key := key } = (att.topic, ⟨att.nodeID, key⟩) := by
  unfold tombstoneBy synthOf slotOf keyOf
  dsimp only

/-- The call writes a record to its slot: an owner record that is taken, or the tombstone of a
quorum, over an older slot of its target or as the first of them. -/
inductive Puts (cfg : StoreConfig) (s : RecordStore) (c : Int64 × Record) : Record → Prop
  | taken (hown : c.2.isObserverAttestation = false) (htakes : Takes cfg s c.2) : Puts cfg s c c.2
  | buried {key : Bytes} (hatt : c.2.isObserverAttestation = true)
      (htopic : TopicRoom cfg s c.2.topic) (hok : Admitted cfg c.1 (s.topic c.2.topic) c.2)
      (hlen : cfg.observerQuorum ≤ ((s.topic c.2.topic).witnessesAfter cfg c.2).len)
      (hslot : (∃ cur, (s.topic c.2.topic).records.lookup ⟨c.2.nodeID, key⟩ = some cur ∧
          cur.hlc < (tombstoneBy cfg s c.2).hlc) ∨
        key = [] ∧ (s.topic c.2.topic).nodePresent c.2.nodeID = false) :
      Puts cfg s c { tombstoneBy cfg s c.2 with key := key }

section Puts

variable {cfg : StoreConfig} {s : RecordStore} {c : Int64 × Record}

/-- An attestation that changes a slot is admitted and completes a quorum. -/
theorem crossed_of_applied (hatt : c.2.isObserverAttestation = true)
    (htopic : TopicRoom cfg s c.2.topic) (happ : (applyExt cfg c.1 s c.2).1.applied = true) :
    Admitted cfg c.1 (s.topic c.2.topic) c.2 ∧
      cfg.observerQuorum ≤ ((s.topic c.2.topic).witnessesAfter cfg c.2).len := by
  rw [applyExt_of_room htopic, applyTopic, if_pos hatt] at happ
  have hstep := applyAttestationLocked_step cfg c.1 (s.topic c.2.topic) c.2
  generalize applyAttestationLocked cfg c.1 (s.topic c.2.topic) c.2 = o at hstep happ
  cases hstep with
  | refused => cases happ
  | kept => cases happ
  | crossed hok hlen => exact ⟨hok, hlen⟩

/-- A call that crosses a quorum, slot by slot. -/
theorem slotView_of_crossed (hatt : c.2.isObserverAttestation = true)
    (htopic : TopicRoom cfg s c.2.topic) (hok : Admitted cfg c.1 (s.topic c.2.topic) c.2)
    (hlen : cfg.observerQuorum ≤ ((s.topic c.2.topic).witnessesAfter cfg c.2).len)
    (k : Topic × RecordKey) :
    (applyCall cfg s c).slotView k =
      if k.1 = c.2.topic then
        (synthesise ((s.topic c.2.topic).accumulate cfg c.2)
          ((s.topic c.2.topic).witnessesAfter cfg c.2) c.2).ts.records.lookup k.2
      else s.slotView k := by
  unfold applyCall
  rw [applyExt_of_room htopic, slotView_commit, applyTopic, if_pos hatt]
  have hstep := applyAttestationLocked_step cfg c.1 (s.topic c.2.topic) c.2
  generalize applyAttestationLocked cfg c.1 (s.topic c.2.topic) c.2 = o at hstep
  cases hstep with
  | refused _ _ hno => exact absurd hok hno
  | kept _ hfew => exact absurd hlen (not_le.mpr hfew)
  | crossed => rfl

/-- What a call writes is in its slot afterwards. -/
theorem Puts.slotView {w : Record} (h : Puts cfg s c w) :
    (applyCall cfg s c).slotView (slotOf w) = some w := by
  cases h with
  | taken hown htakes => exact htakes.slotView hown c.1
  | @buried key hatt htopic hok hlen hslot =>
    rw [slotOf_tombstoneBy, slotView_of_crossed hatt htopic hok hlen, if_pos rfl, lookup_synthesise,
      records_accumulate]
    unfold tombstoneBy at hslot ⊢
    rcases hslot with ⟨cur, hcur, hlt⟩ | ⟨rfl, hnone⟩
    · rw [hcur]
      dsimp only
      rw [if_pos ⟨rfl, hlt⟩]
    · cases hcur : (s.topic c.2.topic).records.lookup ⟨c.2.nodeID, []⟩ with
      | none =>
        dsimp only
        rw [if_pos ⟨rfl, hnone⟩, synthOf]
      | some cur =>
        rw [nodePresent_iff.mpr ⟨_, cur, hcur, rfl⟩] at hnone
        cases hnone

section Changed

variable {k : Topic × RecordKey} {x : Record} (h : (applyCall cfg s c).slotView k = some x)
  (hne : (applyCall cfg s c).slotView k ≠ s.slotView k)
include hne

theorem applied_of_changed : (applyExt cfg c.1 s c.2).1.applied = true :=
  (applyExt_reports cfg c.1 s c.2).applied_iff.mpr ⟨k, hne⟩

include h

/-- An owner record changes its own slot, by being taken. -/
theorem puts_of_changed_owner (hown : c.2.isObserverAttestation = false) :
    Puts cfg s c x ∧ slotOf x = k := by
  have htakes := (applied_iff_takes cfg c.1 s hown).mp (applied_of_changed hne)
  rcases slotView_applyExt cfg c.1 s hown with ⟨-, -, hview⟩ | ⟨-, hview⟩
  · exact absurd (congrFun hview k) hne
  · by_cases hk : k = slotOf c.2
    · have hin := htakes.slotView hown c.1
      rw [← hk] at hin
      cases hin.symm.trans h
      exact ⟨.taken hown htakes, hk.symm⟩
    · refine absurd ((congrFun hview k).trans ?_) hne
      exact LastWriter.put_of_ne _ _ hk

/-- An attestation changes a slot of its target, by crossing. -/
theorem puts_of_changed_attests (hatt : c.2.isObserverAttestation = true) :
    Puts cfg s c x ∧ slotOf x = k := by
  have happ := applied_of_changed hne
  have htopic : TopicRoom cfg s c.2.topic := by
    by_contra hno
    rw [applyExt_of_no_room hno] at happ
    cases happ
  obtain ⟨hok, hlen⟩ := crossed_of_applied hatt htopic happ
  rw [slotView_of_crossed hatt htopic hok hlen] at h hne
  by_cases ht : k.1 = c.2.topic
  · rw [if_pos ht] at h hne
    have hview : s.slotView k = (s.topic c.2.topic).records.lookup k.2 := by
      rw [← ht]
      rfl
    have hcases := eq_or_overwrites_of_lookup h
    rw [records_accumulate, nodePresent_accumulate, ← tombstoneBy] at hcases
    rcases hcases with hold | ⟨hnode, hx, hslot⟩
    · rw [hview, hold] at hne
      exact absurd h hne
    · obtain ⟨t, node, key⟩ := k
      cases ht
      cases hnode
      rw [hx, slotOf_tombstoneBy]
      exact ⟨.buried hatt htopic hok hlen hslot, rfl⟩
  · rw [if_neg ht] at hne
    exact absurd rfl hne

end Changed

/-- A record found in a slot after a call was there before, or the call wrote it. -/
theorem puts_of_slotView {k : Topic × RecordKey} {x : Record}
    (h : (applyCall cfg s c).slotView k = some x) :
    s.slotView k = some x ∨ (Puts cfg s c x ∧ slotOf x = k) := by
  by_cases hsame : (applyCall cfg s c).slotView k = s.slotView k
  · exact Or.inl (hsame ▸ h)
  right
  cases hatt : c.2.isObserverAttestation with
  | false => exact puts_of_changed_owner h hsame hatt
  | true => exact puts_of_changed_attests h hsame hatt

end Puts

/-! ## Runs -/

theorem below_applyCall (cfg : StoreConfig) (s : RecordStore) (c : Int64 × Record) :
    Below rankOf s.slotView (applyCall cfg s c).slotView :=
  (applyExt_reports cfg c.1 s c.2).forward.below

theorem below_foldl (cfg : StoreConfig) (s : RecordStore) (calls : List (Int64 × Record)) :
    Below rankOf s.slotView (calls.foldl (applyCall cfg) s).slotView := by
  induction calls generalizing s with
  | nil => exact Below.refl _
  | cons c calls ih => exact (below_applyCall cfg s c).trans (ih _)

/-- The slot of the record holds one of at least its rank. -/
def RankHeld (r : Record) (s : RecordStore) : Prop :=
  ∃ y, s.slotView (slotOf r) = some y ∧ rankOf r ≤ rankOf y

theorem RankHeld.mono {r : Record} {s s' : RecordStore} (h : RankHeld r s)
    (hle : Below rankOf s.slotView s'.slotView) : RankHeld r s' := by
  obtain ⟨y, hy, hry⟩ := h
  obtain ⟨z, hz, hyz⟩ := hle _ y hy
  exact ⟨z, hz, hry.trans hyz⟩

/-- An owner record that was applied stands in its slot. -/
theorem rankHeld_of_applied {cfg : StoreConfig} {s : RecordStore} {c : Int64 × Record}
    (hown : c.2.isObserverAttestation = false)
    (happ : (applyExt cfg c.1 s c.2).1.applied = true) : RankHeld c.2 (applyCall cfg s c) :=
  ⟨c.2, ((applied_iff_takes cfg c.1 s hown).mp happ).slotView hown c.1, le_rfl⟩

/-- An owner record whose slot has reached its rank is not applied. -/
theorem RankHeld.not_applied {r : Record} {s : RecordStore} (h : RankHeld r s)
    (hown : r.isObserverAttestation = false) (cfg : StoreConfig) (nowMs : Int64) :
    ¬ (applyExt cfg nowMs s r).1.applied = true := by
  obtain ⟨y, hy, hle⟩ := h
  rw [applied_iff_takes cfg nowMs s hown]
  exact fun htakes => absurd (htakes.newer y hy) (not_lt.mpr hle)

/-- An owner record is applied at most once. -/
theorem not_applied_twice {cfg : StoreConfig} {s : RecordStore} {c d : Int64 × Record}
    (mid : List (Int64 × Record)) (hsame : d.2 = c.2)
    (hown : c.2.isObserverAttestation = false)
    (happ : (applyExt cfg c.1 s c.2).1.applied = true) :
    ¬ (applyExt cfg d.1 (mid.foldl (applyCall cfg) (applyCall cfg s c)) d.2).1.applied = true := by
  have hheld := (rankHeld_of_applied hown happ).mono (below_foldl cfg _ mid)
  rw [hsame]
  exact hheld.not_applied hown cfg d.1

end Swarm
