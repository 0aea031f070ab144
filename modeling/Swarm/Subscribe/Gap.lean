import Swarm.Subscribe.Basic

/-!
# What a subscriber misses

The filter of `finishReplay` compares clocks, where the store also compares signatures and writes
tombstones above the clock of an attestation. It may skip a change that the snapshot does not have;
`no_gap_iff` says when it does. `Gapless` carries one direction along a run, and a record the filter
will skip is `Lost` from the step that queues it to the end.
-/

namespace Swarm

namespace SubState

/-- The tickets that wait behind the gate. -/
def waiting (st : SubState) : List Ticket := st.batch ++ st.queue

/-- The record is newer than what the snapshot has in its slot. -/
def Above (st : SubState) (r : Record) : Prop :=
  ∀ x ∈ st.snapshot, keyOf x = keyOf r → x.hlc < r.hlc

end SubState

/-- A record accepted after the snapshot is queued with a clock above the snapshot's. -/
def QueuedAbove (st : SubState) : SubAct → Prop
  | .deliver i => ∀ r, st.accepted[i]? = some (r, .copied) → st.replaying = true →
      st.pc.snapped = true → st.before ≤ i → st.Above r
  | _ => True

/-- Everything handed over since the snapshot has a ticket, and what waits is above the snapshot. -/
structure Gapless (st : SubState) : Prop where
  got : st.pc.snapped = true → ∀ i r, st.before ≤ i → st.accepted[i]? = some (r, .done) →
    (i, r) ∈ st.tickets
  above : st.pc.snapped = true → ∀ t ∈ st.waiting, st.before ≤ t.1 → st.Above t.2

namespace Gapless

variable {cfg : StoreConfig} {topic : Topic} {st : SubState}

/-- Before the snapshot there is nothing to show. -/
theorem of_not_snapped (hpc : st.pc.snapped = false) : Gapless st where
  got hs := by
    rw [hpc] at hs
    cases hs
  above hs := by
    rw [hpc] at hs
    cases hs

/-- A step that hands nothing over and leaves the tickets where they are. -/
theorem of_same {st' : SubState} (h : Gapless st)
    (hpc : st'.pc.snapped = true → st.pc.snapped = true) (hsnap : st'.snapshot = st.snapshot)
    (hbefore : st'.before = st.before)
    (hdone : ∀ (i : ℕ) (r : Record), st'.accepted[i]? = some (r, Progress.done) →
      st.accepted[i]? = some (r, Progress.done))
    (htickets : st'.tickets = st.tickets) (hwaiting : st'.waiting = st.waiting) : Gapless st' where
  got hs i r hi hd := by
    rw [hbefore] at hi
    rw [htickets]
    exact h.got (hpc hs) i r hi (hdone i r hd)
  above hs t ht hi := by
    rw [hbefore] at hi
    rw [hwaiting] at ht
    unfold SubState.Above
    rw [hsnap]
    exact h.above (hpc hs) t ht hi

/-- A ticket that the filter skips is not above the snapshot. -/
theorem not_above_of_covered (hinv : SubInv st) {r : Record}
    (hcov : SubState.covered st.replayed r = true) : ¬ st.Above r := by
  unfold SubState.covered at hcov
  split at hcov
  · rename_i hlc hlook
    obtain ⟨x, hx, hkey, rfl⟩ := (hinv.table _ _).mp hlook
    intro habove
    have hmem : x ∈ st.snapshot := by
      rw [hinv.seen]
      exact List.mem_append_left _ hx
    exact absurd (of_decide_eq_true hcov) (not_le.mpr (habove x hmem hkey))
  · cases hcov

/-- A record is handed over and gets a ticket. -/
theorem got_ticket (h : Gapless st) {st' : SubState} {i : ℕ} {r : Record}
    (hpc : st'.pc = st.pc) (hbefore : st'.before = st.before)
    (hacc : st'.accepted = st.accepted.set i (r, .done))
    (htickets : ∀ t, t ∈ st.tickets ∨ t = (i, r) → t ∈ st'.tickets) :
    st'.pc.snapped = true → ∀ j x, st'.before ≤ j → st'.accepted[j]? = some (x, .done) →
      (j, x) ∈ st'.tickets := by
  intro hs j x hj hx
  rw [hpc] at hs
  rw [hbefore] at hj
  rw [hacc, List.getElem?_set] at hx
  split_ifs at hx with heq hlt
  · subst heq
    cases hx
    exact htickets _ (Or.inr rfl)
  · exact htickets _ (Or.inl (h.got hs j x hj hx))

theorem queued (h : Gapless st) {i : ℕ} {r : Record}
    (hr : st.pc.snapped = true → st.before ≤ i → st.Above r) :
    Gapless { st with
      accepted := st.accepted.set i (r, .done), queue := st.queue ++ [(i, r)] } where
  got := by
    refine h.got_ticket rfl rfl rfl ?_
    intro t ht
    simp only [SubState.tickets, SubState.lives, SubState.batch, List.mem_append,
      List.mem_singleton] at ht ⊢
    tauto
  above hs t ht hi := by
    rcases List.mem_append.mp ht with hbatch | hqueue
    · exact h.above hs t (List.mem_append_left _ hbatch) hi
    · rcases List.mem_append.mp hqueue with hold | hself
      · exact h.above hs t (List.mem_append_right _ hold) hi
      · cases List.mem_singleton.mp hself
        exact hr hs hi

theorem delivered (h : Gapless st) {i : ℕ} {r : Record} :
    Gapless { st with
      accepted := st.accepted.set i (r, .done), calls := st.calls ++ [.live (i, r)] } where
  got := by
    refine h.got_ticket rfl rfl rfl ?_
    intro t ht
    simp only [SubState.tickets, SubState.lives, SubState.batch, List.mem_append,
      List.filterMap_append, List.filterMap_cons, List.filterMap_nil, List.mem_singleton] at ht ⊢
    tauto
  above hs t ht hi := h.above hs t ht hi

/-- A ticket leaves the batch, to the subscriber or past the filter. -/
theorem flush (h : Gapless st) {st' : SubState} {t : Ticket} {rest : List Ticket}
    (hpc : st.pc = .flush (t :: rest)) (hpc' : st'.pc = .flush rest)
    (hsnap : st'.snapshot = st.snapshot) (hbefore : st'.before = st.before)
    (hacc : st'.accepted = st.accepted) (hqueue : st'.queue = st.queue)
    (hlives : ∀ u, u ∈ st.lives ∨ u = t ∧ st.Above t.2 → u ∈ st'.lives) : Gapless st' := by
  have hsnapped : st.pc.snapped = true := by rw [hpc]; rfl
  have hwaiting : st.waiting = t :: st'.waiting := by
    simp [SubState.waiting, SubState.batch, hpc, hpc', hqueue]
  constructor
  · intro _ i r hi hx
    rw [hbefore] at hi
    rw [hacc] at hx
    have hold := h.got hsnapped i r hi hx
    unfold SubState.tickets at hold ⊢
    rw [List.append_assoc] at hold ⊢
    change (i, r) ∈ st.lives ++ st.waiting at hold
    rw [hwaiting] at hold
    rcases List.mem_append.mp hold with hlive | hwait
    · exact List.mem_append_left _ (hlives _ (Or.inl hlive))
    · rcases List.mem_cons.mp hwait with rfl | hrest
      · have habove := h.above hsnapped (i, r) (by rw [hwaiting]; exact List.mem_cons_self) hi
        exact List.mem_append_left _ (hlives _ (Or.inr ⟨rfl, habove⟩))
      · exact List.mem_append_right _ hrest
  · intro _ u hu hi
    rw [hbefore] at hi
    unfold SubState.Above
    rw [hsnap]
    exact h.above hsnapped u (by rw [hwaiting]; exact List.mem_cons_of_mem _ hu) hi

theorem step {a : SubAct} (h : Gapless st) (hinv : SubInv st) (hq : QueuedAbove st a) :
    Gapless (a.step cfg topic st) := by
  have heff := subEffect cfg topic st a
  generalize a.step cfg topic st = st' at heff ⊢
  cases heff with
  | idle _ => exact h
  | stored => exact h.of_same id rfl rfl (fun _ _ => id) rfl rfl
  | accepted =>
    rename_i nowMs r
    refine h.of_same id rfl rfl ?_ rfl rfl
    intro i x hx
    have hx' : (st.accepted ++ [(r, Progress.applied)])[i]? = some (x, .done) := hx
    rw [List.getElem?_append] at hx'
    split_ifs at hx' with hlt
    · exact hx'
    · cases List.mem_singleton.mp (List.mem_of_getElem? hx')
  | missed hpc hi =>
    refine of_not_snapped ?_
    show st.pc.snapped = false
    rw [hpc]
    rfl
  | copied hi =>
    rename_i i r
    refine h.of_same id rfl rfl ?_ rfl rfl
    intro j x hx
    have hx' : (st.accepted.set i (r, Progress.copied))[j]? = some (x, .done) := hx
    rw [List.getElem?_set] at hx'
    split_ifs at hx' with heq hlt
    · cases hx'
    · exact hx'
  | queued hi hshut => exact h.queued fun hs hbefore => hq _ hi hshut hs hbefore
  | delivered _ _ => exact h.delivered
  | registered _ => exact of_not_snapped rfl
  | snapped hpc =>
    -- everything accepted so far was accepted before the snapshot
    constructor
    · intro _ i r hi hx
      exact absurd (List.getElem?_eq_some_iff.mp hx).1 (Nat.not_lt.mpr hi)
    · intro _ t ht hi
      have hqueue : t ∈ st.queue := ht
      have hdone := hinv.handed t (List.mem_append_right _ hqueue)
      exact absurd (List.getElem?_eq_some_iff.mp hdone).1 (Nat.not_lt.mpr hi)
  | replayed hpc =>
    refine h.of_same (fun _ => by rw [hpc]; rfl) rfl rfl (fun _ _ => id) ?_ ?_
    · simp [SubState.tickets, SubState.lives, SubState.batch, hpc]
    · simp [SubState.waiting, SubState.batch, hpc]
  | entered hpc =>
    refine h.of_same (fun _ => by rw [hpc]; rfl) rfl rfl (fun _ _ => id) ?_ ?_
    · simp [SubState.tickets, SubState.lives, SubState.batch, hpc]
    · simp [SubState.waiting, SubState.batch, hpc]
  | skipped hpc hcov =>
    refine h.flush hpc rfl rfl rfl rfl rfl ?_
    rintro u (hlive | ⟨-, habove⟩)
    · exact hlive
    · exact absurd habove (not_above_of_covered hinv hcov)
  | flushed hpc _ =>
    refine h.flush hpc rfl rfl rfl rfl rfl ?_
    intro u hu
    rw [lives_of_live rfl, List.mem_append, List.mem_singleton]
    exact hu.imp_right And.left
  | opened hpc _ =>
    refine h.of_same (fun _ => by rw [hpc]; rfl) rfl rfl (fun _ _ => id) ?_ ?_
    · simp [SubState.tickets, SubState.lives, SubState.batch, hpc]
    · simp [SubState.waiting, SubState.batch, hpc]
  | taken hpc =>
    refine h.of_same (fun _ => by rw [hpc]; rfl) rfl rfl (fun _ _ => id) ?_ ?_
    · simp [SubState.tickets, SubState.lives, SubState.batch, hpc]
    · simp [SubState.waiting, SubState.batch, hpc]

end Gapless

/-! ## What the filter loses -/

/-- The ticket was handed over since the snapshot, is not above it, and was not delivered. -/
structure Lost (st : SubState) (t : Ticket) : Prop where
  snapped : st.pc.snapped = true
  since : st.before ≤ t.1
  handed : st.accepted[t.1]? = some (t.2, .done)
  shadowed : ¬ st.Above t.2
  missed : t ∉ st.lives

section

variable {cfg : StoreConfig} {topic : Topic} {st : SubState}

/-- What is handed over stays so. -/
theorem handed_step {i : ℕ} {r : Record} (a : SubAct) (hi : st.accepted[i]? = some (r, .done)) :
    (a.step cfg topic st).accepted[i]? = some (r, .done) := by
  have hset : ∀ (j : ℕ) (x : Record) (p q : Progress), st.accepted[j]? = some (x, p) → p ≠ .done →
      (st.accepted.set j (x, q))[i]? = some (r, .done) := by
    intro j x p q hj hp
    have hne : j ≠ i := by
      rintro rfl
      rw [hi] at hj
      cases hj
      exact hp rfl
    rw [List.getElem?_set_ne hne]
    exact hi
  have heff := subEffect cfg topic st a
  generalize a.step cfg topic st = st' at heff ⊢
  cases heff with
  | accepted =>
    show (st.accepted ++ _)[i]? = _
    rw [List.getElem?_append_left (List.getElem?_eq_some_iff.mp hi).1]
    exact hi
  | missed _ hj => exact hset _ _ .applied .done hj (by decide)
  | copied hj => exact hset _ _ .applied .copied hj (by decide)
  | queued hj _ => exact hset _ _ .copied .done hj (by decide)
  | delivered hj _ => exact hset _ _ .copied .done hj (by decide)
  | _ => exact hi

/-- Once it is taken the snapshot stays. -/
theorem snapped_step (cfg : StoreConfig) (topic : Topic) (a : SubAct)
    (hs : st.pc.snapped = true) :
    (a.step cfg topic st).pc.snapped = true ∧ (a.step cfg topic st).snapshot = st.snapshot ∧
      (a.step cfg topic st).before = st.before := by
  have heff := subEffect cfg topic st a
  generalize a.step cfg topic st = st' at heff ⊢
  cases heff with
  | registered hpc =>
    rw [hpc] at hs
    cases hs
  | snapped hpc =>
    rw [hpc] at hs
    cases hs
  | replayed _ => exact ⟨rfl, rfl, rfl⟩
  | entered _ => exact ⟨rfl, rfl, rfl⟩
  | skipped _ _ => exact ⟨rfl, rfl, rfl⟩
  | flushed _ _ => exact ⟨rfl, rfl, rfl⟩
  | opened _ _ => exact ⟨rfl, rfl, rfl⟩
  | taken _ => exact ⟨rfl, rfl, rfl⟩
  | _ => exact ⟨hs, rfl, rfl⟩

/-- While `finishReplay` works, a record that is not above the snapshot is skipped. -/
theorem covered_of_not_above (h : SubInv st) (hpc : st.rest = []) {r : Record}
    (hr : ¬ st.Above r) : SubState.covered st.replayed r = true := by
  unfold SubState.Above at hr
  push Not at hr
  obtain ⟨x, hx, hkey, hle⟩ := hr
  rw [h.seen_of_replayedAll hpc] at hx
  exact h.covered_of_mem hx hkey hle

/-- What is lost stays lost. -/
theorem Lost.step {t : Ticket} (h : Lost st t) (hinv : SubInv st) (a : SubAct) :
    Lost (a.step cfg topic st) t := by
  obtain ⟨hpc, hsnap, hbefore⟩ := snapped_step cfg topic a h.snapped
  refine ⟨hpc, ?_, handed_step a h.handed, ?_, ?_⟩
  · rw [hbefore]
    exact h.since
  · unfold SubState.Above
    rw [hsnap]
    exact h.shadowed
  · have heff := subEffect cfg topic st a
    generalize a.step cfg topic st = st' at heff ⊢
    cases heff with
    | delivered hi _ =>
      rw [lives_of_live rfl]
      intro hmem
      rcases List.mem_append.mp hmem with hold | hself
      · exact h.missed hold
      · cases List.mem_singleton.mp hself
        have hdone := h.handed
        rw [hi] at hdone
        cases hdone
    | replayed _ =>
      rw [lives_of_replay rfl]
      exact h.missed
    | flushed hflush hnew =>
      rw [lives_of_live rfl]
      intro hmem
      rcases List.mem_append.mp hmem with hold | hself
      · exact h.missed hold
      · cases List.mem_singleton.mp hself
        have hrest : st.rest = [] := by simp [SubState.rest, hflush]
        rw [covered_of_not_above hinv hrest h.shadowed] at hnew
        cases hnew
    | _ => exact h.missed

theorem Lost.run {t : Ticket} (h : Lost st t) (hinv : SubInv st) (acts : List SubAct) :
    Lost (acts.foldl (SubAct.step cfg topic) st) t := by
  induction acts generalizing st with
  | nil => exact h
  | cons a acts ih => exact ih (h.step hinv a) (hinv.step a)

/-- A step that misses the condition loses a record. -/
theorem exists_lost_step (cfg : StoreConfig) (topic : Topic) (hinv : SubInv st) {a : SubAct}
    (hq : ¬ QueuedAbove st a) :
    ∃ t, Lost (a.step cfg topic st) t := by
  cases a with
  | deliver i =>
    unfold QueuedAbove at hq
    push Not at hq
    obtain ⟨r, hi, hrep, hs, hbefore, hr⟩ := hq
    have hstep : SubAct.step cfg topic st (.deliver i) =
        { st with accepted := st.accepted.set i (r, .done), queue := st.queue ++ [(i, r)] } := by
      simp only [SubAct.step, SubState.deliver, hi, hrep, if_true]
    rw [hstep]
    refine ⟨(i, r), hs, hbefore, ?_, hr, ?_⟩
    · exact List.getElem?_set_self (List.getElem?_eq_some_iff.mp hi).1
    · intro hmem
      exact hinv.not_mem_tickets hi (by decide) (i, r)
        (List.mem_append_left _ (List.mem_append_left _ hmem)) rfl
  | _ => exact absurd trivial hq

theorem exists_lost (hinv : SubInv st) {acts : List SubAct}
    (hq : ¬ Runs.StepsMeet (SubAct.step cfg topic) QueuedAbove st acts) :
    ∃ t, Lost (acts.foldl (SubAct.step cfg topic) st) t := by
  induction acts generalizing st with
  | nil => exact absurd trivial hq
  | cons a acts ih =>
    by_cases ha : QueuedAbove st a
    · exact ih (hinv.step a) fun hrest => hq ⟨ha, hrest⟩
    · obtain ⟨t, ht⟩ := exists_lost_step cfg topic hinv ha
      exact ⟨t, ht.run (hinv.step a) acts⟩

end

/-- **No gap.** For every store that calls were made on and every interleaving of `Subscribe` with
the steps of accepted records, up to the return of `Subscribe` or beyond: the subscriber was called
with every record that was applied after the snapshot and handed over, exactly when the records
queued at the gate since the snapshot have clocks above what the snapshot has in their slots. -/
theorem no_gap_iff (cfg : StoreConfig) (topic : Topic) (calls : List StoreOp) (acts : List SubAct)
    (hret : (runSubscribe cfg topic calls acts).pc = .returned) :
    (∀ i r, (runSubscribe cfg topic calls acts).before ≤ i →
      (runSubscribe cfg topic calls acts).accepted[i]? = some (r, .done) →
      SubCall.live (i, r) ∈ (runSubscribe cfg topic calls acts).calls) ↔
    Runs.StepsMeet (SubAct.step cfg topic) QueuedAbove { store := runStore cfg {} calls } acts := by
  have hstart := SubInv.initial cfg calls
  constructor
  · intro hall
    by_contra hq
    obtain ⟨t, ht⟩ := exists_lost hstart hq
    exact ht.missed (mem_lives.mpr (hall t.1 t.2 ht.since ht.handed))
  · intro hq i r hi hdone
    obtain ⟨hinv, hgap⟩ := hq.invariant (P := fun st => SubInv st ∧ Gapless st)
      (fun st a h hqa => ⟨h.1.step a, h.2.step h.1 hqa⟩) ⟨hstart, .of_not_snapped rfl⟩
    change SubInv (runSubscribe cfg topic calls acts) at hinv
    change Gapless (runSubscribe cfg topic calls acts) at hgap
    have hmem := hgap.got (by rw [hret]; rfl) i r hi hdone
    -- nothing waits once `Subscribe` has returned
    have hbatch : (runSubscribe cfg topic calls acts).batch = [] := by
      simp [SubState.batch, hret]
    unfold SubState.tickets at hmem
    rw [hbatch, hinv.queue_of_returned hret, List.append_nil, List.append_nil] at hmem
    exact mem_lives.mp hmem

/-- A record with the clock of the snapshot's and a greater signature replaces it while the
snapshot is replayed. -/
def equalClock : List SubAct :=
  [.apply 0 (ownedBy9 1 5), .register, .snapshot, .apply 0 (ownedBy9 2 5), .copy 1, .deliver 1,
    .replay, .finishReplay, .relock, .flush, .relock]

/-- The store has the second record, the subscriber the first only. -/
theorem equal_clock_suppressed :
    (runSubscribe {} [116] [] equalClock).pc = .returned ∧
    (runSubscribe {} [116] [] equalClock).before = 1 ∧
    (runSubscribe {} [116] [] equalClock).accepted[1]? = some (ownedBy9 2 5, .done) ∧
    (runSubscribe {} [116] [] equalClock).store.getKeyed [116] [9] [] = some (ownedBy9 2 5) ∧
    (runSubscribe {} [116] [] equalClock).calls = [.replay (ownedBy9 1 5)] := by
  refine ⟨by decide, by decide, by decide, by decide, by decide⟩

/-- A newer record replaces that of the snapshot while it is replayed. -/
def newerClock : List SubAct :=
  [.apply 0 (ownedBy9 1 5), .register, .snapshot, .apply 0 (ownedBy9 2 6), .copy 1, .deliver 1,
    .replay, .finishReplay, .relock, .flush, .relock]

theorem newer_clock_delivered :
    (runSubscribe {} [116] [] newerClock).accepted[1]? = some (ownedBy9 2 6, .done) ∧
    SubCall.live (1, ownedBy9 2 6) ∈ (runSubscribe {} [116] [] newerClock).calls := by
  have hdone : (runSubscribe {} [116] [] newerClock).accepted[1]? =
      some (ownedBy9 2 6, .done) := by decide
  have hq : Runs.StepsMeet (SubAct.step {} [116]) QueuedAbove { store := runStore {} {} [] }
      newerClock := by
    refine ⟨trivial, trivial, trivial, trivial, trivial, ?_, trivial, trivial, trivial, trivial,
      trivial, trivial⟩
    intro r hi _ _ _ x hx _
    cases Option.some.inj hi
    have hsnap : x ∈ [ownedBy9 1 5] := hx
    cases List.mem_singleton.mp hsnap
    decide
  exact ⟨hdone, (no_gap_iff {} [116] [] newerClock (by decide)).mpr hq 1 (ownedBy9 2 6)
    (by decide) hdone⟩

end Swarm
