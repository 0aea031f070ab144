import Swarm.Convergence
import Swarm.Store.Quorum

/-!
# Retention and merging

Retention looks at the wall part of a clock and merging at the whole clock and the signature. A
live record that loses to another one is at least as old as the winner, and tombstones are kept for
twice the time, so when the winner has expired the loser has too, if it is live. Hence it does not
matter for the live records whether two stores are reaped before or after one takes over the signed
records of the other (`reap_commutes_merge`).

The age is the difference of two 64-bit numbers, which wraps for clock readings within 2^48 of the
least: there an old record can pass for a new one, and the two orders differ
(`wrapped_age_loses_record`).
-/

namespace Swarm

open LastWriter (Pruned putAll)

/-! ## What retention drops -/

/-- Whether `reapExpired` drops the record. -/
def reaped (nowMs : Int64) (ttlFor : Option (Topic → Duration)) (r : Record) : Bool :=
  match ttlFor with
  | none => false
  | some ttlFor => decide (0 < ttlFor r.topic) && expired nowMs (ttlFor r.topic).milliseconds r

theorem slotView_reapExpired {s : RecordStore} (hp : ∀ t, Placed t (s.topic t)) (nowMs : Int64)
    (ttlFor : Option (Topic → Duration)) (k : Topic × RecordKey) :
    (reapExpired nowMs ttlFor s).2.slotView k =
      (s.slotView k).filter fun r => !reaped nowMs ttlFor r := by
  cases ttlFor with
  | none =>
    show s.slotView k = _
    cases s.slotView k <;> rfl
  | some ttlFor =>
    unfold RecordStore.slotView
    rw [topic_reapExpired_some]
    cases hr : (s.topic k.1).records.lookup k.2 with
    | none =>
      split_ifs
      · rw [hr]
        rfl
      · rw [lookup_reap, hr]
        rfl
    | some r =>
      have htopic : r.topic = k.1 := congrArg Prod.fst (hp k.1 k.2 r hr)
      rw [Option.filter_some, reaped, htopic]
      split_ifs with httl hkeep hkeep
      · rw [hr]
      · simp [not_lt.mpr httl] at hkeep
      · rw [lookup_reap, hr, Option.bind_some, if_neg]
        simpa [not_le.mp httl] using hkeep
      · rw [lookup_reap, hr, Option.bind_some, if_pos]
        simpa [not_le.mp httl] using hkeep

/-! ## Ages -/

/-- Readings of the clock from which no age wraps. -/
def AgesFit (nowMs : Int64) : Prop := -2 ^ 63 + 2 ^ 48 - 1 ≤ nowMs.toInt

theorem toInt_wall (h : UInt64) : (decompose h).1.toInt64.toInt = h.toNat / 65536 := by
  show (decompose h).1.toInt64.toBitVec.toInt = _
  have hw : (decompose h).1.toNat = h.toNat / 65536 := wall_toNat h
  have hlt := h.toNat_lt
  rw [BitVec.toInt_eq_toNat_bmod]
  show Int.bmod ((decompose h).1.toNat : ℤ) _ = _
  rw [hw, Int.bmod_eq_of_le] <;> omega

theorem toInt_age {nowMs : Int64} (hnow : AgesFit nowMs) (h : UInt64) :
    (nowMs - (decompose h).1.toInt64).toInt = nowMs.toInt - h.toNat / 65536 := by
  unfold AgesFit at hnow
  have hlt := h.toNat_lt
  have hhi := nowMs.toInt_lt
  rw [Int64.toInt_sub, toInt_wall, Int.bmod_eq_of_le] <;> omega

/-- What retention drops, on integers: for a positive time to live the doubled age does not wrap
either. -/
theorem expired_iff {nowMs : Int64} (hnow : AgesFit nowMs) {ttl : Duration} (httl : 0 < ttl)
    (r : Record) : expired nowMs ttl.milliseconds r = true ↔
      (if r.tombstone then 2 * ttl.milliseconds.toInt else ttl.milliseconds.toInt) <
        nowMs.toInt - r.hlc.toNat / 65536 := by
  have hpos := toInt_pos httl
  have hms : 2 * ttl.milliseconds.toInt ≤ ttl.toInt := by
    rw [toInt_milliseconds, Int.tdiv_eq_ediv_of_nonneg hpos.le]
    omega
  have hms₀ := milliseconds_nonneg httl
  have hhi := ttl.toInt_lt
  have hdouble : (2 * ttl.milliseconds).toInt = 2 * ttl.milliseconds.toInt := by
    rw [Int64.toInt_mul, show (2 : Int64).toInt = 2 from rfl, Int.bmod_eq_of_le] <;> omega
  unfold expired
  dsimp only
  cases r.tombstone with
  | true => simp [Int64.lt_iff_toInt_lt, toInt_age hnow, hdouble]
  | false => simp [Int64.lt_iff_toInt_lt, toInt_age hnow]

/-- A live record loses only to younger ones, so it has expired when the winner has. -/
theorem reaped_of_le {nowMs : Int64} (hnow : AgesFit nowMs) {ttlFor : Option (Topic → Duration)}
    {v w : Record} (htopic : v.topic = w.topic) (hle : rankOf v ≤ rankOf w)
    (hw : reaped nowMs ttlFor w = true) (hlive : v.tombstone = false) :
    reaped nowMs ttlFor v = true := by
  cases ttlFor with
  | none => cases hw
  | some ttlFor =>
    simp only [reaped, Bool.and_eq_true, decide_eq_true_eq] at hw ⊢
    obtain ⟨httl, hexp⟩ := hw
    rw [htopic]
    refine ⟨httl, ?_⟩
    rw [expired_iff hnow httl] at hexp ⊢
    rw [hlive]
    have hhlc : v.hlc.toNat ≤ w.hlc.toNat := by
      rcases (rankOf_le_iff v w).mp hle with hlt | ⟨heq, -⟩
      · exact (UInt64.lt_iff_toNat_lt.mp hlt).le
      · rw [heq]
    have hms := milliseconds_nonneg httl
    simp only [Bool.false_eq_true, if_false]
    split_ifs at hexp <;> omega

/-! ## Taking over the signed records of another store -/

/-- The calls pass the signed records of the store, in any order and number. -/
def PassesSigned (s : RecordStore) (calls : List (Int64 × Record)) : Prop :=
  ∀ r, r ∈ calls.map Prod.snd ↔ ∃ t, r ∈ s.topicRecordsSigned t

/-- They pass them topic by topic. -/
def signedCalls (nowMs : Int64) (s : RecordStore) : List (Int64 × Record) :=
  s.topics.flatMap fun t => (s.topicRecordsSigned t).map fun r => (nowMs, r)

theorem passesSigned_signedCalls (nowMs : Int64) (s : RecordStore) :
    PassesSigned s (signedCalls nowMs s) := by
  intro r
  unfold signedCalls
  simp only [List.map_flatMap, List.map_map, List.mem_flatMap, List.mem_map, Function.comp_apply,
    exists_eq_right]
  constructor
  · rintro ⟨t, -, hr⟩
    exact ⟨t, hr⟩
  · rintro ⟨t, hr⟩
    refine ⟨t, ?_, hr⟩
    rw [RecordStore.topics, SortSlice.mem_iff]
    by_contra hmem
    rw [RecordStore.topicRecordsSigned, RecordStore.topicRecordsWhere,
      FMap.not_mem_keys.mp hmem] at hr
    cases hr

theorem reapExpired_runStore (cfg : StoreConfig) (ops : List StoreOp) (nowMs : Int64)
    (ttlFor : Option (Topic → Duration)) : (reapExpired nowMs ttlFor (runStore cfg {} ops)).2 =
      runStore cfg {} (ops ++ [.reap nowMs ttlFor]) :=
  (runStore_concat cfg {} ops (.reap nowMs ttlFor)).symm

section Merge

variable {cfg : StoreConfig} {ops : List StoreOp} {calls : List (Int64 × Record)}

theorem mem_signed_iff {r : Record} :
    (∃ t, r ∈ (runStore cfg {} ops).topicRecordsSigned t) ↔
      (runStore cfg {} ops).slotView (slotOf r) = some r ∧ 0 < r.sig.length := by
  unfold RecordStore.topicRecordsSigned
  simp only [mem_topicRecordsWhere, decide_eq_true_eq]
  constructor
  · rintro ⟨t, ⟨k, hk⟩, hsig⟩
    rw [run_placed cfg ops t k r hk]
    exact ⟨hk, hsig⟩
  · rintro ⟨hslot, hsig⟩
    exact ⟨r.topic, ⟨keyOf r, hslot⟩, hsig⟩

/-- Signed records of a store were passed to it as owner records. -/
theorem PassesSigned.owner (h : PassesSigned (runStore cfg {} ops) calls) :
    ∀ c ∈ calls, c.2.isObserverAttestation = false := by
  intro c hc
  obtain ⟨hslot, hsig⟩ := mem_signed_iff.mp ((h c.2).mp (List.mem_map_of_mem hc))
  rcases (run_quorumInv cfg ops c.2.topic).slots _ c.2 hslot with ⟨-, -, hown⟩ | ⟨hunsigned, -⟩
  · exact hown
  · rw [hunsigned] at hsig
    cases hsig

theorem PassesSigned.unique (h : PassesSigned (runStore cfg {} ops) calls) :
    ∀ v ∈ calls.map Prod.snd, ∀ w ∈ calls.map Prod.snd, slotOf w = slotOf v → w = v := by
  intro v hv w hw hslot
  have hv' := (mem_signed_iff.mp ((h v).mp hv)).1
  have hw' := (mem_signed_iff.mp ((h w).mp hw)).1
  rw [hslot, hv'] at hw'
  exact (Option.some.inj hw').symm

/-- What is passed of a store after retention is what retention leaves of what is passed of it. -/
theorem PassesSigned.reaped_iff {calls' : List (Int64 × Record)} {nowMs : Int64}
    {ttlFor : Option (Topic → Duration)} (h : PassesSigned (runStore cfg {} ops) calls)
    (h' : PassesSigned (reapExpired nowMs ttlFor (runStore cfg {} ops)).2 calls') (r : Record) :
    r ∈ calls'.map Prod.snd ↔
      r ∈ (calls.map Prod.snd).filter fun r => !reaped nowMs ttlFor r := by
  rw [List.mem_filter, h r, h' r, mem_signed_iff, reapExpired_runStore, mem_signed_iff,
    ← reapExpired_runStore, slotView_reapExpired (run_placed cfg ops), Option.filter_eq_some_iff]
  exact and_right_comm

end Merge

/-- **Retention and merging.** Let two stores be reached by runs of `ApplyExt` and `reapExpired`,
and let one take over the signed records of the other with no cap turning one away. For clock
readings whose ages do not wrap and any times to live, the live records of every topic are the same
if both stores are reaped first. -/
theorem reap_commutes_merge (cfg cfg' : StoreConfig) (ops ops' : List StoreOp) (nowMs : Int64)
    (ttlFor : Option (Topic → Duration)) (hnow : AgesFit nowMs)
    (calls calls' : List (Int64 × Record))
    (hcalls : PassesSigned (runStore cfg' {} ops') calls)
    (hcalls' : PassesSigned (reapExpired nowMs ttlFor (runStore cfg' {} ops')).2 calls')
    (hcap : (calls.foldl (applyCall cfg) (runStore cfg {} ops)).rejectedCap =
      (runStore cfg {} ops).rejectedCap)
    (hcap' : (calls'.foldl (applyCall cfg)
        (reapExpired nowMs ttlFor (runStore cfg {} ops)).2).rejectedCap =
      (reapExpired nowMs ttlFor (runStore cfg {} ops)).2.rejectedCap) (t : Topic) :
    (reapExpired nowMs ttlFor
        (calls.foldl (applyCall cfg) (runStore cfg {} ops))).2.topicRecords t =
      (calls'.foldl (applyCall cfg)
        (reapExpired nowMs ttlFor (runStore cfg {} ops)).2).topicRecords t := by
  have howner' := (reapExpired_runStore cfg' ops' nowMs ttlFor ▸ hcalls').owner
  -- both merges as lists of last-writer writes
  rw [← runStore_applyOps] at hcap hcap'
  have hview := slotView_runStore _ hcalls.owner hcap
  have hview' := slotView_runStore _ howner' hcap'
  rw [← LastWriter.putAll_congr _ (fun r => (hcalls.reaped_iff hcalls' r).symm)
    (fun v hv w hw => hcalls.unique v (List.mem_filter.mp hv).1 w (List.mem_filter.mp hw).1)]
    at hview'
  have hpruned : LastWriter.Pruned rankOf (reaped nowMs ttlFor)
      (LastWriter.putAll slotOf rankOf (runStore cfg {} ops).slotView (calls.map Prod.snd)) _ :=
    (LastWriter.pruned_filter (reaped nowMs ttlFor) (runStore cfg {} ops).slotView).putAll
      (calls.map Prod.snd)
  have hstart : (reapExpired nowMs ttlFor (runStore cfg {} ops)).2.slotView = fun k =>
      ((runStore cfg {} ops).slotView k).filter fun r => !reaped nowMs ttlFor r :=
    funext (slotView_reapExpired (run_placed cfg ops) nowMs ttlFor)
  rw [hstart] at hview'
  rw [← hview, ← hview'] at hpruned
  -- every store here is the end of a run, so its records sit in their slots
  have hplaced : ∀ t, Placed t ((runStore cfg (runStore cfg {} ops) (applyOps calls)).topic t) := by
    rw [← runStore_append]
    exact run_placed cfg _
  have hplaced' : ∀ t, Placed t ((runStore cfg (reapExpired nowMs ttlFor
      (runStore cfg {} ops)).2 (applyOps calls')).topic t) := by
    rw [reapExpired_runStore, ← runStore_append]
    exact run_placed cfg _
  rw [← runStore_applyOps, ← runStore_applyOps]
  refine (topicRecordsWhere_congr (hplaced' t) fun k => ?_).symm
  rw [slotView_reapExpired hplaced, Option.filter_filter]
  refine (hpruned.filter_eq fun v w hv hw hle hdrop hlive => ?_).symm
  refine reaped_of_le hnow ?_ hle hdrop (by simpa using hlive)
  exact (congrArg Prod.fst (hplaced' t k v hv)).trans (congrArg Prod.fst (hplaced t k w hw)).symm

/-- Node 1 published at 1000. -/
def reapedOps : List StoreOp :=
  [.apply 1000 { topic := [116], nodeID := [1], hlc := packHLC 1000 0, body := [1], sig := [1] }]

/-- Elsewhere, node 1 deleted its record at 3000 and node 2 published at 5000. -/
def reapedOps' : List StoreOp :=
  [.apply 3000 { topic := [116], nodeID := [1], hlc := packHLC 3000 0, tombstone := true
                 sig := [2] },
    .apply 5000 { topic := [116], nodeID := [2], hlc := packHLC 5000 0, body := [2], sig := [3] }]

/-- At 6000 with two seconds to live, the old record is gone and the tombstone is not; in either
order the record of node 2 is left. -/
theorem reapedOps_commute :
    ((signedCalls 6000 (reapExpired 6000 (some fun _ => 2 * second)
        (runStore {} {} reapedOps')).2).foldl (applyCall {})
      (reapExpired 6000 (some fun _ => 2 * second) (runStore {} {} reapedOps)).2).topicRecords
        [116] =
      [{ topic := [116], nodeID := [2], hlc := packHLC 5000 0, body := [2], sig := [3] }] := by
  refine (reap_commutes_merge {} {} reapedOps reapedOps' 6000 (some fun _ => 2 * second)
    (by unfold AgesFit; decide) _ _ (passesSigned_signedCalls 6000 _)
    (passesSigned_signedCalls 6000 _) (by decide) (by decide) [116]).symm.trans (by decide)

/-- Two records of one slot whose walls are 0 and 1. -/
def wrapOps (wall : UInt64) : List StoreOp :=
  [.apply 0 { topic := [116], nodeID := [1], hlc := packHLC wall 1, body := [7], sig := [1] }]

/-- At the least clock reading the age of the newer record wraps and it is dropped, while the older
one is kept: reaped first, the older one comes back to life. -/
theorem wrapped_age_loses_record :
    (reapExpired (-9223372036854775808) (some fun _ => second)
      ((signedCalls 0 (runStore {} {} (wrapOps 1))).foldl (applyCall {})
        (runStore {} {} (wrapOps 0)))).2.topicRecords [116] = [] ∧
    ((signedCalls 0 (reapExpired (-9223372036854775808) (some fun _ => second)
        (runStore {} {} (wrapOps 1))).2).foldl (applyCall {})
      (reapExpired (-9223372036854775808) (some fun _ => second)
        (runStore {} {} (wrapOps 0))).2).topicRecords [116] =
      [{ topic := [116], nodeID := [1], hlc := 1, body := [7], sig := [1] }] :=
  ⟨by decide, by decide⟩

end Swarm
