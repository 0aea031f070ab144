import Swarm.Subscribe.Basic

/-!
# A subscriber is called at most once for a record

The filter of `finishReplay` looks at the queue only. A record of the snapshot whose delivery comes
after the gate opened is delivered again, and `at_most_once_iff` says that this is the one way a
record is delivered twice.
-/

namespace Swarm

/-- The call is for the accepted record: its delivery, or its replay. -/
def SubCall.isFor (t : Ticket) : SubCall → Bool
  | .replay r => decide (r = t.2)
  | .live u => decide (u.1 = t.1)

/-- The subscriber was called at most once for every accepted record. -/
def AtMostOnce (st : SubState) : Prop :=
  ∀ i r p, st.accepted[i]? = some (r, p) → st.calls.countP (SubCall.isFor (i, r)) ≤ 1

/-- The record delivered through the open gate was not in the snapshot. -/
def DeliversNew (st : SubState) : SubAct → Prop
  | .deliver i => ∀ r, st.accepted[i]? = some (r, .copied) → st.replaying = false → r ∉ st.snapshot
  | _ => True

theorem countP_isFor (st : SubState) (i : ℕ) (r : Record) :
    st.calls.countP (SubCall.isFor (i, r)) =
      st.replays.count r + (st.lives.map Prod.fst).count i := by
  unfold SubState.replays SubState.lives
  induction st.calls with
  | nil => rfl
  | cons c l ih =>
    cases c with
    | replay x =>
      rw [List.countP_cons, ih]
      simp only [List.filterMap_cons, List.count_cons, SubCall.isFor, beq_iff_eq,
        decide_eq_true_eq]
      omega
    | live u =>
      rw [List.countP_cons, ih]
      simp only [List.filterMap_cons, List.map_cons, List.count_cons, SubCall.isFor, beq_iff_eq,
        decide_eq_true_eq]
      omega

theorem SubInv.nodup_replays {st : SubState} (h : SubInv st) : st.replays.Nodup := by
  have hkeys := h.keys
  rw [h.seen, List.map_append] at hkeys
  exact (List.nodup_append.mp hkeys).1.of_map

theorem SubInv.nodup_lives {st : SubState} (h : SubInv st) : (st.lives.map Prod.fst).Nodup := by
  have honce := h.once
  unfold SubState.tickets at honce
  rw [List.map_append, List.map_append] at honce
  exact (List.nodup_append.mp (List.nodup_append.mp honce).1).1

/-- Nothing is repeated exactly when no delivered record was replayed. -/
theorem atMostOnce_iff {st : SubState} (h : SubInv st) :
    AtMostOnce st ↔ ∀ t ∈ st.lives, t.2 ∉ st.replays := by
  constructor
  · intro hone t ht hrep
    have hle := hone t.1 t.2 .done (h.handed t (List.mem_append_left _ (List.mem_append_left _ ht)))
    rw [countP_isFor] at hle
    have h1 : 0 < st.replays.count t.2 := List.count_pos_iff.mpr hrep
    have h2 : 0 < (st.lives.map Prod.fst).count t.1 :=
      List.count_pos_iff.mpr (List.mem_map_of_mem ht)
    omega
  · intro hnew i r p hi
    rw [countP_isFor]
    have h1 : st.replays.count r ≤ 1 := List.nodup_iff_count_le_one.mp h.nodup_replays r
    have h2 : (st.lives.map Prod.fst).count i ≤ 1 := List.nodup_iff_count_le_one.mp h.nodup_lives i
    by_cases hlive : i ∈ st.lives.map Prod.fst
    · obtain ⟨t, ht, rfl⟩ := List.mem_map.mp hlive
      have hdone := h.handed t (List.mem_append_left _ (List.mem_append_left _ ht))
      rw [hi] at hdone
      cases hdone
      have h3 : st.replays.count t.2 = 0 := List.count_eq_zero.mpr (hnew t ht)
      omega
    · have h3 : (st.lives.map Prod.fst).count i = 0 := List.count_eq_zero.mpr hlive
      show st.replays.count r + (st.lives.map Prod.fst).count i ≤ 1
      omega

/-- **One step.** Only a delivery through the open gate can repeat a record. -/
theorem atMostOnce_step_iff {cfg : StoreConfig} {topic : Topic} {st : SubState} (a : SubAct)
    (h : SubInv st) (hone : AtMostOnce st) :
    AtMostOnce (a.step cfg topic st) ↔ DeliversNew st a := by
  have hold := (atMostOnce_iff h).mp hone
  rw [atMostOnce_iff (h.step a)]
  have heff := subEffect cfg topic st a
  generalize a.step cfg topic st = st' at heff ⊢
  cases heff with
  | delivered hi hopen =>
    rename_i i r
    rw [lives_of_live rfl, replays_of_live rfl]
    -- behind the open gate the whole snapshot was replayed
    have hsnap : st.snapshot = st.replays :=
      h.seen_of_replayedAll (by simp [SubState.rest, (h.opened hopen).1])
    constructor
    · intro hnew r' hi' _
      rw [hi] at hi'
      cases hi'
      rw [hsnap]
      exact hnew (i, r) (List.mem_append_right _ List.mem_cons_self)
    · intro hnew t ht
      rcases List.mem_append.mp ht with hmem | hself
      · exact hold t hmem
      · cases List.mem_singleton.mp hself
        rw [← hsnap]
        exact hnew r hi hopen
  | queued hi hshut =>
    refine iff_of_true hold ?_
    intro r _ hopen
    rw [hshut] at hopen
    cases hopen
  | idle hno =>
    refine iff_of_true hold ?_
    cases a with
    | deliver i =>
      intro r hi _
      exact absurd hi (hno i r rfl)
    | _ => exact trivial
  | replayed hpc =>
    refine iff_of_true ?_ trivial
    intro t ht
    rw [lives_of_replay rfl, h.early (by rw [hpc]; rfl)] at ht
    cases ht
  | flushed hpc hnew =>
    refine iff_of_true ?_ trivial
    rw [lives_of_live rfl, replays_of_live rfl]
    intro t ht hrep
    rcases List.mem_append.mp ht with hmem | hself
    · exact hold t hmem hrep
    · cases List.mem_singleton.mp hself
      rw [h.covered_of_mem hrep rfl le_rfl] at hnew
      cases hnew
  | _ => exact iff_of_true hold trivial

/-- **At most once.** For every store that calls were made on and every interleaving of `Subscribe`
with the steps of accepted records: in every state reached the subscriber was called at most once
for every accepted record, exactly when no record of the snapshot is delivered through the open
gate. -/
theorem at_most_once_iff (cfg : StoreConfig) (topic : Topic) (calls : List StoreOp)
    (acts : List SubAct) :
    Runs.StatesMeet (SubAct.step cfg topic) AtMostOnce { store := runStore cfg {} calls } acts ↔
      Runs.StepsMeet (SubAct.step cfg topic) DeliversNew { store := runStore cfg {} calls }
        acts := by
  have hstart : AtMostOnce { store := runStore cfg {} calls } := by
    intro i r p hi
    cases hi
  exact Runs.statesMeet_iff_of_invariant (I := SubInv) (fun _ a h => h.step a)
    (fun _ a h hone => atMostOnce_step_iff a h hone) (SubInv.initial cfg calls) hstart acts

/-- A record is applied before `Subscribe` starts and reaches the gate after it returned. -/
def lateDelivery : List SubAct :=
  [.apply 0 (ownedBy9 1 5), .register, .snapshot, .replay, .finishReplay, .relock, .copy 0,
    .deliver 0]

/-- The one record that was accepted is delivered twice. -/
theorem late_delivery_repeats :
    (runSubscribe {} [116] [] lateDelivery).accepted = [(ownedBy9 1 5, .done)] ∧
    (runSubscribe {} [116] [] lateDelivery).calls =
      [.replay (ownedBy9 1 5), .live (0, ownedBy9 1 5)] ∧
    ¬ AtMostOnce (runSubscribe {} [116] [] lateDelivery) := by
  have haccepted : (runSubscribe {} [116] [] lateDelivery).accepted =
      [(ownedBy9 1 5, .done)] := by decide
  have hcalls : (runSubscribe {} [116] [] lateDelivery).calls =
      [.replay (ownedBy9 1 5), .live (0, ownedBy9 1 5)] := by decide
  refine ⟨haccepted, hcalls, ?_⟩
  intro hone
  have hle := hone 0 (ownedBy9 1 5) .done (by rw [haccepted]; rfl)
  rw [hcalls] at hle
  exact absurd hle (by decide)

end Swarm
