import Swarm.Lib.Runs
import Swarm.Store.Steps

/-!
# How often an attestation is reported fresh

`ApplyExt` reports `accumulated` for an attestation that entered the witness set, and the
dissemination layer relays on that report. An attestation that already counted is recognised by
what the set retains: a kept attestation of its observer that is as new in both fields, or a
newest observation that puts it outside the window.

Both can fail. An observer's attestation may replace one that is newer in the other field, and an
attestation outside the window is reported although the window drops it at once. `Steady` excludes
the two, and among steady steps every attestation is reported at most once
(`accumulations_le_one`).
-/

namespace Swarm

/-- The newest observation of the target's witnesses once the attestation is among them. -/
def TopicStore.newestWith (ts : TopicStore) (att : Record) : Int64 :=
  newestOf ((ts.witnesses att.nodeID).insert att.observerNodeID att)

/-- The attestation lies inside the window, and is as new in both fields as the one its observer
has there. -/
structure Steady (cfg : StoreConfig) (ts : TopicStore) (att : Record) : Prop where
  inWindow : (ts.newestWith att).toInt - att.observedAtUnixMs.toInt ≤ cfg.winMs.toInt
  forward : ∀ cur, (ts.witnesses att.nodeID).lookup att.observerNodeID = some cur →
    cur.observedAtUnixMs ≤ att.observedAtUnixMs ∧ cur.hlc ≤ att.hlc

/-- The set recognises the attestation: as kept and not newer, or as outside the window. -/
def Spent (cfg : StoreConfig) (x : Record) (ts : TopicStore) : Prop :=
  (∃ cur, (ts.witnesses x.nodeID).lookup x.observerNodeID = some cur ∧
    x.observedAtUnixMs ≤ cur.observedAtUnixMs ∧ x.hlc ≤ cur.hlc) ∨
  cfg.winMs.toInt < (newestOf (ts.witnesses x.nodeID)).toInt - x.observedAtUnixMs.toInt

/-! ## Windows on integers -/

theorem winMs_nonneg (cfg : StoreConfig) : 0 ≤ cfg.winMs.toInt :=
  milliseconds_nonneg cfg.window_pos

/-- For an observation not after the newest, the wrapping test of the loop is the test on
integers, except that differences beyond 64 bits count as recent. -/
theorem lt_toInt_of_pruned {win newest at_ : Int64} (hw : 0 ≤ win.toInt) (hle : at_ ≤ newest)
    (h : win < newest - at_) : win.toInt < newest.toInt - at_.toInt := by
  rw [Int64.lt_iff_toInt_lt, Int64.toInt_sub, Int.bmod_def] at h
  rw [Int64.le_iff_toInt_le] at hle
  have := newest.toInt_lt
  have := at_.le_toInt
  split_ifs at h <;> omega

theorem not_pruned_of_toInt {win newest at_ : Int64} (hle : at_ ≤ newest)
    (h : newest.toInt - at_.toInt ≤ win.toInt) : ¬ win < newest - at_ := by
  rw [Int64.lt_iff_toInt_lt, Int64.toInt_sub, Int.bmod_def]
  rw [Int64.le_iff_toInt_le] at hle
  have := win.toInt_lt
  split_ifs <;> omega

theorem observedAt_le_newestOf {set : FMap NodeID Record} {o : NodeID} {a : Record}
    (h : set.lookup o = some a) : a.observedAtUnixMs ≤ newestOf set :=
  MaxLoop.le_of_mem _ _ (FMap.mem_values.mpr ⟨o, h⟩)

/-- The window never drops the newest observation. -/
theorem newestOf_pruneWindow {win : Int64} (hw : 0 ≤ win.toInt) (set : FMap NodeID Record) :
    newestOf (pruneWindow win set) = newestOf set := by
  apply le_antisymm
  · refine (MaxLoop.le_iff _ _ _ _).mpr ⟨MaxLoop.start_le _ _ _, fun a ha => ?_⟩
    obtain ⟨o, ho⟩ := FMap.mem_values.mp ha
    rw [lookup_pruneWindow, Option.bind_eq_some_iff] at ho
    obtain ⟨b, hb, hkeep⟩ := ho
    split_ifs at hkeep
    cases hkeep
    exact observedAt_le_newestOf hb
  · rcases MaxLoop.eq_start_or_mem Record.observedAtUnixMs 0 set.values with h | ⟨a, ha, h⟩
    · show maxLoop Record.observedAtUnixMs 0 set.values ≤ _
      rw [h]
      exact MaxLoop.start_le _ _ _
    · obtain ⟨o, ho⟩ := FMap.mem_values.mp ha
      have hnew : a.observedAtUnixMs = newestOf set := h
      have hkeep : ¬ win < newestOf set - a.observedAtUnixMs :=
        not_pruned_of_toInt hnew.le (by rw [hnew]; omega)
      rw [← hnew]
      refine observedAt_le_newestOf (o := o) ?_
      rw [lookup_pruneWindow, ho, Option.bind_some, if_neg hkeep]

/-! ## One step -/

section Step

variable {cfg : StoreConfig} {nowMs : Int64} {ts : TopicStore} {att x : Record}

/-- A steady attestation does not lower the newest observation. -/
theorem Steady.newestOf_le (h : Steady cfg ts att) :
    newestOf (ts.witnesses att.nodeID) ≤ ts.newestWith att := by
  refine (MaxLoop.le_iff _ _ _ _).mpr ⟨MaxLoop.start_le _ _ _, fun a ha => ?_⟩
  obtain ⟨o, ho⟩ := FMap.mem_values.mp ha
  by_cases hobs : o = att.observerNodeID
  · subst hobs
    refine (h.forward a ho).1.trans (observedAt_le_newestOf (o := att.observerNodeID) ?_)
    rw [FMap.lookup_insert_eq, if_pos rfl]
  · refine observedAt_le_newestOf (o := o) ?_
    rw [FMap.lookup_insert_eq, if_neg hobs]
    exact ho

theorem newestOf_witnessesAfter (cfg : StoreConfig) (ts : TopicStore) (att : Record) :
    newestOf (ts.witnessesAfter cfg att) = ts.newestWith att :=
  newestOf_pruneWindow (winMs_nonneg cfg) _

/-- A steady attestation is still there after the window is applied. -/
theorem Steady.lookup_self (h : Steady cfg ts att) :
    (ts.witnessesAfter cfg att).lookup att.observerNodeID = some att := by
  have hin : ((ts.witnesses att.nodeID).insert att.observerNodeID att).lookup
      att.observerNodeID = some att := by
    rw [FMap.lookup_insert_eq, if_pos rfl]
  unfold TopicStore.witnessesAfter
  rw [lookup_pruneWindow, hin, Option.bind_some,
    if_neg (not_pruned_of_toInt (observedAt_le_newestOf hin) h.inWindow)]

/-- What the set recognises is not admitted again by a steady step. -/
theorem Spent.not_admitted (h : Spent cfg x ts)
    (hsteady : Admitted cfg nowMs ts x → Steady cfg ts x) : ¬ Admitted cfg nowMs ts x := by
  intro hok
  rcases h with ⟨cur, hcur, hat, hhlc⟩ | hold
  · have := hok.fresh
    unfold superseded at this
    rw [hcur] at this
    simp [hat, hhlc] at this
  · have hle := (hsteady hok).newestOf_le
    have hwin := (hsteady hok).inWindow
    rw [Int64.le_iff_toInt_le] at hle
    omega

theorem Steady.spent_self (h : Steady cfg ts att) : Spent cfg att (ts.accumulate cfg att) := by
  left
  refine ⟨att, ?_, le_rfl, le_rfl⟩
  rw [witnesses_accumulate, if_pos rfl]
  exact h.lookup_self

/-- Once recognised, an attestation stays so through every steady step. -/
theorem Spent.accumulate (h : Spent cfg x ts) (hs : Steady cfg ts att) :
    Spent cfg x (ts.accumulate cfg att) := by
  unfold Spent
  rw [witnesses_accumulate]
  by_cases hnode : x.nodeID = att.nodeID
  swap
  · rw [if_neg hnode]
    exact h
  rw [if_pos hnode, newestOf_witnessesAfter]
  unfold Spent at h
  rw [hnode] at h
  have hgrow := hs.newestOf_le
  rw [Int64.le_iff_toInt_le] at hgrow
  rcases h with ⟨cur, hcur, hat, hhlc⟩ | hold
  · by_cases hobs : x.observerNodeID = att.observerNodeID
    · obtain ⟨hat', hhlc'⟩ := hs.forward cur (hobs ▸ hcur)
      exact Or.inl ⟨att, hobs ▸ hs.lookup_self, hat.trans hat', hhlc.trans hhlc'⟩
    · have hin : ((ts.witnesses att.nodeID).insert att.observerNodeID att).lookup
          x.observerNodeID = some cur := by
        rw [FMap.lookup_insert_eq, if_neg hobs]
        exact hcur
      by_cases hprune : cfg.winMs < ts.newestWith att - cur.observedAtUnixMs
      · have hold : cfg.winMs.toInt < (ts.newestWith att).toInt - cur.observedAtUnixMs.toInt :=
          lt_toInt_of_pruned (winMs_nonneg cfg) (observedAt_le_newestOf hin) hprune
        rw [Int64.le_iff_toInt_le] at hat
        exact Or.inr (by omega)
      · refine Or.inl ⟨cur, ?_, hat, hhlc⟩
        unfold TopicStore.witnessesAfter
        rw [lookup_pruneWindow, hin, Option.bind_some]
        exact if_neg hprune
  · exact Or.inr (by omega)

theorem Spent.applyAttestation (h : Spent cfg x ts)
    (hsteady : Admitted cfg nowMs ts att → Steady cfg ts att) :
    Spent cfg x (applyAttestationLocked cfg nowMs ts att).ts := by
  have hstep := applyAttestationLocked_step cfg nowMs ts att
  generalize applyAttestationLocked cfg nowMs ts att = o at hstep
  cases hstep with
  | refused => exact h
  | kept hok => exact h.accumulate (hsteady hok)
  | crossed hok =>
    unfold Spent
    rw [witnesses_synthesise]
    exact h.accumulate (hsteady hok)

end Step

/-! ## Runs of attestations -/

/-- The call passes an attestation that, if it is admitted, is steady. -/
def SteadyCall (cfg : StoreConfig) (s : RecordStore) (c : Int64 × Record) : Prop :=
  c.2.isObserverAttestation = true ∧
    (Admitted cfg c.1 (s.topic c.2.topic) c.2 → Steady cfg (s.topic c.2.topic) c.2)

/-- How often the calls report `x` as accumulated. -/
def accumulations (cfg : StoreConfig) (x : Record) : RecordStore → List (Int64 × Record) → ℕ
  | _, [] => 0
  | s, c :: calls =>
    (if c.2 = x ∧ (applyExt cfg c.1 s c.2).1.accumulated = true then 1 else 0) +
      accumulations cfg x (applyCall cfg s c) calls

section Calls

variable {cfg : StoreConfig} {s : RecordStore} {c : Int64 × Record} {x : Record}

theorem Spent.applyCall (h : Spent cfg x (s.topic x.topic)) (hc : SteadyCall cfg s c) :
    Spent cfg x ((applyCall cfg s c).topic x.topic) := by
  unfold Swarm.applyCall
  rcases topic_applyExt cfg c.1 s c.2 x.topic with heq | ⟨htopic, heq⟩
  · rw [heq]
    exact h
  · rw [heq, htopic, applyTopic, if_pos hc.1]
    rw [htopic] at h
    exact h.applyAttestation hc.2

/-- An accumulated attestation was admitted, and merged into its topic. -/
theorem admitted_of_accumulated (hatt : c.2.isObserverAttestation = true)
    (h : (applyExt cfg c.1 s c.2).1.accumulated = true) :
    Admitted cfg c.1 (s.topic c.2.topic) c.2 ∧ (applyCall cfg s c).topic c.2.topic =
      (applyAttestationLocked cfg c.1 (s.topic c.2.topic) c.2).ts := by
  unfold applyCall
  rcases applyExt_eq cfg c.1 s c.2 with ⟨-, -, heq⟩ | heq
  · rw [heq] at h
    cases h
  · rw [heq, applyTopic, if_pos hatt] at h
    rw [heq, topic_commit, if_pos rfl, applyTopic, if_pos hatt]
    exact ⟨(accumulated_iff_admitted _ _ _ _).mp h, rfl⟩

theorem spent_of_accumulated (hc : SteadyCall cfg s c)
    (h : (applyExt cfg c.1 s c.2).1.accumulated = true) :
    Spent cfg c.2 ((applyCall cfg s c).topic c.2.topic) := by
  obtain ⟨hok, heq⟩ := admitted_of_accumulated hc.1 h
  rw [heq]
  have hstep := applyAttestationLocked_step cfg c.1 (s.topic c.2.topic) c.2
  generalize applyAttestationLocked cfg c.1 (s.topic c.2.topic) c.2 = o at hstep
  cases hstep with
  | refused _ _ hno => exact absurd hok hno
  | kept => exact (hc.2 hok).spent_self
  | crossed =>
    unfold Spent
    rw [witnesses_synthesise]
    exact (hc.2 hok).spent_self

theorem Spent.not_accumulated (h : Spent cfg c.2 (s.topic c.2.topic)) (hc : SteadyCall cfg s c) :
    (applyExt cfg c.1 s c.2).1.accumulated ≠ true := fun hacc =>
  h.not_admitted hc.2 (admitted_of_accumulated hc.1 hacc).1

/-- Recognised attestations are not reported any more. -/
theorem accumulations_of_spent {calls : List (Int64 × Record)}
    (hsteps : Runs.StepsMeet (Swarm.applyCall cfg) (SteadyCall cfg) s calls)
    (h : Spent cfg x (s.topic x.topic)) : accumulations cfg x s calls = 0 := by
  induction calls generalizing s with
  | nil => rfl
  | cons c calls ih =>
    have hno : ¬ (c.2 = x ∧ (applyExt cfg c.1 s c.2).1.accumulated = true) := by
      rintro ⟨rfl, hacc⟩
      exact h.not_accumulated hsteps.1 hacc
    unfold accumulations
    rw [if_neg hno, ih hsteps.2 (h.applyCall hsteps.1)]

/-- From every store, steady attestations are reported at most once each. -/
theorem accumulations_le_one {calls : List (Int64 × Record)}
    (hsteps : Runs.StepsMeet (Swarm.applyCall cfg) (SteadyCall cfg) s calls) :
    accumulations cfg x s calls ≤ 1 := by
  induction calls generalizing s with
  | nil => exact Nat.zero_le 1
  | cons c calls ih =>
    unfold accumulations
    split_ifs with hacc
    · obtain ⟨rfl, hacc⟩ := hacc
      rw [accumulations_of_spent hsteps.2 (spent_of_accumulated hsteps.1 hacc)]
    · rw [Nat.zero_add]
      exact ih hsteps.2

end Calls

end Swarm
