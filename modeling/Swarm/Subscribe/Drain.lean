import Swarm.Subscribe.Basic

/-!
# The drain of a gate

`subGate` of `node.go` with its lock. A goroutine in `deliver` looks at `replaying` under the lock
and queues its record or, the lock released, calls the subscriber. `finishReplay` takes the queue
under the lock, hands it over with the lock released, and comes back to the lock; it clears
`replaying` when it finds the queue empty there. A call of the subscriber has a beginning and an
end, and any other goroutine may move between the two.

The log keeps what happened in order. `GateInv` holds in every interleaving: the tickets queued so
far are those `finishReplay` dealt with, its batch, and the queue.
-/

namespace Swarm

open SubState (covered)

/-- Where a call of `deliver` is: before the lock, returned with its record queued, past the open
gate, in the subscriber, back from it. -/
inductive DeliverAt where
  | called
  | queued
  | passed
  | inside
  | returned
  deriving DecidableEq

/-- Where `finishReplay` is: with what is left of its batch, in the subscriber, or done. It starts
as it comes back from a batch, before the lock with nothing in hand. -/
inductive FinishAt where
  | flush (batch : List Ticket)
  | inside (t : Ticket) (rest : List Ticket)
  | returned
  deriving DecidableEq

/-- What the log shows: a record queued, skipped by the filter, or the beginning and end of a call
of the subscriber, by `finishReplay` or by `deliver` itself. -/
inductive GateEvent where
  | queued (t : Ticket)
  | skipped (t : Ticket)
  | drainCall (t : Ticket)
  | drainReturn (t : Ticket)
  | directCall (t : Ticket)
  | directReturn (t : Ticket)
  deriving DecidableEq

/-- The gate with the calls made on it. A call of `deliver` is known by its place among them. No
step reads the log. -/
structure SubGate where
  replaying : Bool := true
  queue : List Ticket := []
  delivers : List (Record × DeliverAt) := []
  finish : FinishAt := .flush []
  log : List GateEvent := []

/-- A goroutine calls `deliver`, or moves on inside its call, or `finishReplay` moves on. -/
inductive GateAct where
  | call (r : Record)
  | deliver (i : ℕ)
  | finishReplay
  deriving DecidableEq

namespace SubGate

/-- A goroutine calls `deliver`. -/
def call (g : SubGate) (r : Record) : SubGate :=
  { g with delivers := g.delivers ++ [(r, .called)] }

/-- The next step of `deliver`: the locked one, then the call of `inner` and its return. -/
def deliver (g : SubGate) (i : ℕ) : SubGate :=
  match g.delivers[i]? with
  | some (r, .called) =>
    if g.replaying then
      { g with
        delivers := g.delivers.set i (r, .queued)
        queue := g.queue ++ [(i, r)]
        log := g.log ++ [.queued (i, r)] }
    else { g with delivers := g.delivers.set i (r, .passed) }
  | some (r, .passed) =>
    { g with delivers := g.delivers.set i (r, .inside), log := g.log ++ [.directCall (i, r)] }
  | some (r, .inside) =>
    { g with delivers := g.delivers.set i (r, .returned), log := g.log ++ [.directReturn (i, r)] }
  | _ => g

/-- The next step of `finishReplay`. -/
def finishReplay (replayed : FMap RecordKey UInt64) (g : SubGate) : SubGate :=
  match g.finish with
  | .flush [] =>
    -- under the lock
    if g.queue = [] then { g with finish := .returned, replaying := false }
    else { g with finish := .flush g.queue, queue := [] }
  | .flush (t :: rest) =>
    if covered replayed t.2 then { g with finish := .flush rest, log := g.log ++ [.skipped t] }
    else { g with finish := .inside t rest, log := g.log ++ [.drainCall t] }
  | .inside t rest => { g with finish := .flush rest, log := g.log ++ [.drainReturn t] }
  | .returned => g

end SubGate

/-- The gate after a step. -/
def GateAct.step (replayed : FMap RecordKey UInt64) (g : SubGate) : GateAct → SubGate
  | .call r => g.call r
  | .deliver i => g.deliver i
  | .finishReplay => g.finishReplay replayed

/-- An interleaving, from a new gate. -/
def runGate (replayed : FMap RecordKey UInt64) (acts : List GateAct) : SubGate :=
  acts.foldl (GateAct.step replayed) {}

/-! ## What a step can do -/

/-- The record a goroutine comes with. -/
def GateAct.called? : GateAct → Option Record
  | .call r => some r
  | _ => none

/-- The effect of a step. -/
inductive GateEffect (replayed : FMap RecordKey UInt64) (g : SubGate) : GateAct → SubGate → Prop
  | idle {a : GateAct} (hcall : a.called? = none)
      (hend : a = .finishReplay → g.finish = .returned)
      (hdone : ∀ i r p, a = .deliver i → g.delivers[i]? = some (r, p) →
        p = .queued ∨ p = .returned) :
      GateEffect replayed g a g
  | called {r : Record} :
      GateEffect replayed g (.call r) { g with delivers := g.delivers ++ [(r, .called)] }
  | queued {i : ℕ} {r : Record} (hi : g.delivers[i]? = some (r, .called))
      (hshut : g.replaying = true) :
      GateEffect replayed g (.deliver i)
        { g with
          delivers := g.delivers.set i (r, .queued)
          queue := g.queue ++ [(i, r)]
          log := g.log ++ [.queued (i, r)] }
  | passed {i : ℕ} {r : Record} (hi : g.delivers[i]? = some (r, .called))
      (hopen : g.replaying = false) :
      GateEffect replayed g (.deliver i) { g with delivers := g.delivers.set i (r, .passed) }
  | entered {i : ℕ} {r : Record} (hi : g.delivers[i]? = some (r, .passed)) :
      GateEffect replayed g (.deliver i)
        { g with
          delivers := g.delivers.set i (r, .inside)
          log := g.log ++ [.directCall (i, r)] }
  | left {i : ℕ} {r : Record} (hi : g.delivers[i]? = some (r, .inside)) :
      GateEffect replayed g (.deliver i)
        { g with
          delivers := g.delivers.set i (r, .returned)
          log := g.log ++ [.directReturn (i, r)] }
  | opened (hpc : g.finish = .flush []) (hqueue : g.queue = []) :
      GateEffect replayed g .finishReplay { g with finish := .returned, replaying := false }
  | taken (hpc : g.finish = .flush []) (hqueue : g.queue ≠ []) :
      GateEffect replayed g .finishReplay { g with finish := .flush g.queue, queue := [] }
  | skipped {t : Ticket} {rest : List Ticket} (hpc : g.finish = .flush (t :: rest))
      (hcov : covered replayed t.2 = true) :
      GateEffect replayed g .finishReplay
        { g with finish := .flush rest, log := g.log ++ [.skipped t] }
  | drained {t : Ticket} {rest : List Ticket} (hpc : g.finish = .flush (t :: rest))
      (hnew : covered replayed t.2 = false) :
      GateEffect replayed g .finishReplay
        { g with finish := .inside t rest, log := g.log ++ [.drainCall t] }
  | handedOver {t : Ticket} {rest : List Ticket} (hpc : g.finish = .inside t rest) :
      GateEffect replayed g .finishReplay
        { g with finish := .flush rest, log := g.log ++ [.drainReturn t] }

theorem gateEffect (replayed : FMap RecordKey UInt64) (g : SubGate) (a : GateAct) :
    GateEffect replayed g a (a.step replayed g) := by
  cases a with
  | call r => exact .called
  | deliver i =>
    show GateEffect replayed g _ (g.deliver i)
    unfold SubGate.deliver
    split
    · rename_i hi
      split_ifs with hshut
      · exact .queued hi hshut
      · exact .passed hi (by simpa using hshut)
    · rename_i hi
      exact .entered hi
    · rename_i hi
      exact .left hi
    · rename_i hcalled hpassed hinside
      refine .idle rfl (by simp) ?_
      intro j r p hj hi
      cases hj
      cases p with
      | called => exact absurd hi (hcalled r)
      | queued => exact Or.inl rfl
      | passed => exact absurd hi (hpassed r)
      | inside => exact absurd hi (hinside r)
      | returned => exact Or.inr rfl
  | finishReplay =>
    show GateEffect replayed g _ (g.finishReplay replayed)
    unfold SubGate.finishReplay
    split
    · rename_i hpc
      split_ifs with hqueue
      · exact .opened hpc hqueue
      · exact .taken hpc hqueue
    · rename_i hpc
      split_ifs with hcov
      · exact .skipped hpc hcov
      · exact .drained hpc (by simpa using hcov)
    · rename_i hpc
      exact .handedOver hpc
    · rename_i hpc
      exact .idle rfl (fun _ => hpc) (by simp)

/-! ## Readings of the log -/

namespace GateEvent

/-- The ticket, where it was queued. -/
def enqueued? : GateEvent → Option Ticket
  | .queued t => some t
  | _ => none

/-- The ticket, where `finishReplay` dealt with it. -/
def handled? : GateEvent → Option Ticket
  | .skipped t => some t
  | .drainCall t => some t
  | _ => none

/-- The ticket, where `finishReplay` called the subscriber. -/
def drained? : GateEvent → Option Ticket
  | .drainCall t => some t
  | _ => none

/-- The ticket, where that call returned. -/
def drainReturned? : GateEvent → Option Ticket
  | .drainReturn t => some t
  | _ => none

/-- The ticket, where `deliver` called the subscriber. -/
def direct? : GateEvent → Option Ticket
  | .directCall t => some t
  | _ => none

/-- Past the open gate. -/
def isDirect : GateEvent → Bool
  | .directCall _ => true
  | .directReturn _ => true
  | _ => false

/-- A direct call is in no other reading. -/
theorem readings_of_isDirect {e : GateEvent} (h : e.isDirect = true) :
    e.enqueued? = none ∧ e.handled? = none ∧ e.drained? = none ∧ e.drainReturned? = none := by
  cases e with
  | directCall t => exact ⟨rfl, rfl, rfl, rfl⟩
  | directReturn t => exact ⟨rfl, rfl, rfl, rfl⟩
  | queued t => cases h
  | skipped t => cases h
  | drainCall t => cases h
  | drainReturn t => cases h

end GateEvent

namespace SubGate

/-- The tickets queued, in order. -/
def enqueued (g : SubGate) : List Ticket := g.log.filterMap GateEvent.enqueued?

/-- The tickets `finishReplay` dealt with, in order. -/
def handled (g : SubGate) : List Ticket := g.log.filterMap GateEvent.handled?

/-- The tickets `finishReplay` called the subscriber with, in order. -/
def drained (g : SubGate) : List Ticket := g.log.filterMap GateEvent.drained?

/-- Those of them whose call returned. -/
def drainReturned (g : SubGate) : List Ticket := g.log.filterMap GateEvent.drainReturned?

/-- The tickets `deliver` called the subscriber with. -/
def directs (g : SubGate) : List Ticket := g.log.filterMap GateEvent.direct?

/-- What is left of the batch. -/
def batch (g : SubGate) : List Ticket :=
  match g.finish with
  | .flush batch => batch
  | .inside _ rest => rest
  | .returned => []

/-- The ticket in the subscriber. -/
def inHand (g : SubGate) : List Ticket :=
  match g.finish with
  | .inside t _ => [t]
  | _ => []

end SubGate

/-- The table holds the slot of the record with a clock at least as large. -/
def HeldIn (replayed : FMap RecordKey UInt64) (r : Record) : Prop :=
  ∃ hlc, replayed.lookup (keyOf r) = some hlc ∧ r.hlc ≤ hlc

/-- The filter of `finishReplay` passes over what the table holds. -/
theorem covered_iff {replayed : FMap RecordKey UInt64} {r : Record} :
    covered replayed r = true ↔ HeldIn replayed r := by
  unfold covered HeldIn
  cases replayed.lookup (keyOf r) with
  | none => simp
  | some hlc => simp

instance (replayed : FMap RecordKey UInt64) (r : Record) : Decidable (HeldIn replayed r) :=
  decidable_of_iff _ covered_iff

/-- The tickets of records that the table does not hold. -/
def unheld (replayed : FMap RecordKey UInt64) (l : List Ticket) : List Ticket :=
  l.filter fun t => ¬HeldIn replayed t.2

/-! ## Where the calls of `deliver` are -/

/-- The record of the call waits in the queue, or did. -/
def DeliverAt.isQueued (p : DeliverAt) : Bool := decide (p = .queued)

/-- The call entered the subscriber. -/
def DeliverAt.hasEntered (p : DeliverAt) : Bool := decide (p = .inside ∨ p = .returned)

/-- The call of the ticket is at a place in `D`. -/
def Stands (D : DeliverAt → Bool) (l : List (Record × DeliverAt)) (t : Ticket) : Prop :=
  ∃ p, l[t.1]? = some (t.2, p) ∧ D p = true

/-- The tickets are, each once, those of the calls at a place in `D`. -/
def Shows (D : DeliverAt → Bool) (l : List (Record × DeliverAt)) (ts : List Ticket) : Prop :=
  ts.Nodup ∧ ∀ t, t ∈ ts ↔ Stands D l t

section Shows

variable {D : DeliverAt → Bool} {l : List (Record × DeliverAt)} {ts : List Ticket}
variable {i : ℕ} {r : Record} {p q : DeliverAt}

theorem stands_iff (hi : l[i]? = some (r, p)) : Stands D l (i, r) ↔ D p = true := by
  constructor
  · rintro ⟨x, hx, hD⟩
    rw [hi] at hx
    cases hx
    exact hD
  · exact fun hD => ⟨p, hi, hD⟩

/-- One step of a call moves its ticket, and no other. -/
theorem stands_set (hi : l[i]? = some (r, p)) (t : Ticket) :
    Stands D (l.set i (r, q)) t ↔ if t = (i, r) then D q = true else Stands D l t := by
  have hlt := (List.getElem?_eq_some_iff.mp hi).1
  split_ifs with ht
  · rw [ht]
    exact stands_iff (List.getElem?_set_self hlt)
  · obtain ⟨j, r'⟩ := t
    unfold Stands
    by_cases hj : j = i
    · -- the place of the call, with another record
      subst hj
      have hr : r ≠ r' := fun hr => ht (by rw [hr])
      simp [List.getElem?_set_self hlt, hi, hr]
    · rw [List.getElem?_set_ne (Ne.symm hj)]

/-- A new call is at its beginning. -/
theorem Shows.called (h : Shows D l ts) (hD : D .called = false) (r : Record) :
    Shows D (l ++ [(r, .called)]) ts := by
  refine ⟨h.1, fun t => (h.2 t).trans ⟨?_, ?_⟩⟩
  · rintro ⟨p, hp, hDp⟩
    refine ⟨p, ?_, hDp⟩
    rw [List.getElem?_append_left (List.getElem?_eq_some_iff.mp hp).1]
    exact hp
  · rintro ⟨p, hp, hDp⟩
    rw [List.getElem?_append] at hp
    split_ifs at hp with hi
    · exact ⟨p, hp, hDp⟩
    · cases List.mem_singleton.mp (List.mem_of_getElem? hp)
      rw [hD] at hDp
      cases hDp

/-- A step that `D` does not tell apart. -/
theorem Shows.keep (h : Shows D l ts) (hi : l[i]? = some (r, p)) (hD : D p = D q) :
    Shows D (l.set i (r, q)) ts := by
  refine ⟨h.1, fun t => ?_⟩
  rw [h.2, stands_set hi]
  split_ifs with ht
  · rw [ht, stands_iff hi, hD]
  · rfl

/-- A step into `D`. -/
theorem Shows.concat (h : Shows D l ts) (hi : l[i]? = some (r, p)) (hp : D p = false)
    (hq : D q = true) : Shows D (l.set i (r, q)) (ts ++ [(i, r)]) := by
  have hnew : (i, r) ∉ ts := by
    rw [h.2, stands_iff hi, hp]
    exact Bool.false_ne_true
  refine ⟨List.nodup_append.mpr ⟨h.1, List.nodup_singleton _, ?_⟩, fun t => ?_⟩
  · intro t ht u hu heq
    rw [heq, List.mem_singleton.mp hu] at ht
    exact hnew ht
  · rw [stands_set hi, List.mem_append, List.mem_singleton, h.2]
    split_ifs with ht
    · exact ⟨fun _ => hq, fun _ => Or.inr ht⟩
    · exact ⟨fun hor => hor.resolve_right ht, Or.inl⟩

end Shows

/-! ## What holds in every state -/

/-- The tickets queued are, in order, those dealt with, the batch, and the queue; the subscriber was
called with those the table does not hold, one call at a time; past the gate nothing but direct
calls follows; and the log shows each call of `deliver` once. -/
structure GateInv (replayed : FMap RecordKey UInt64) (g : SubGate) : Prop where
  order : g.enqueued = g.handled ++ g.batch ++ g.queue
  filtered : g.drained = unheld replayed g.handled
  returned : g.drained = g.drainReturned ++ g.inHand
  gate : g.replaying = true ∧ g.finish ≠ .returned ∨
    g.replaying = false ∧ g.finish = .returned ∧ g.queue = []
  shut : g.replaying = true → ∀ c ∈ g.delivers, c.2 = .called ∨ c.2 = .queued
  calm : g.replaying = true → ∀ e ∈ g.log, e.isDirect = false
  live : g.log.Pairwise fun e e' => e.isDirect = true → e'.isDirect = true
  queuedOnce : Shows DeliverAt.isQueued g.delivers g.enqueued
  directOnce : Shows DeliverAt.hasEntered g.delivers g.directs

namespace GateInv

variable {replayed : FMap RecordKey UInt64} {g : SubGate}

theorem start (replayed : FMap RecordKey UInt64) : GateInv replayed {} where
  order := rfl
  filtered := rfl
  returned := rfl
  gate := Or.inl ⟨rfl, by simp⟩
  shut _ c hc := by cases hc
  calm _ e he := by cases he
  live := List.Pairwise.nil
  queuedOnce := ⟨List.nodup_nil, by simp [SubGate.enqueued, Stands]⟩
  directOnce := ⟨List.nodup_nil, by simp [SubGate.directs, Stands]⟩

/-- The gate is shut until `finishReplay` is done. -/
theorem replaying_of_running (h : GateInv replayed g) (hpc : g.finish ≠ .returned) :
    g.replaying = true := by
  rcases h.gate with ⟨hshut, -⟩ | ⟨-, hret, -⟩
  · exact hshut
  · exact absurd hret hpc

/-- `finishReplay` is not done while the gate is shut. -/
theorem running (h : GateInv replayed g) (hshut : g.replaying = true) : g.finish ≠ .returned := by
  rcases h.gate with ⟨-, hno⟩ | ⟨hopen, -⟩
  · exact hno
  · rw [hshut] at hopen
    cases hopen

/-- Behind the open gate nothing waits. -/
theorem opened (h : GateInv replayed g) (hopen : g.replaying = false) :
    g.finish = .returned ∧ g.queue = [] := by
  rcases h.gate with ⟨hshut, -⟩ | ⟨-, hpc⟩
  · rw [hopen] at hshut
    cases hshut
  · exact hpc

/-- A call past the gate found it open. -/
theorem open_of_passed (h : GateInv replayed g) {i : ℕ} {r : Record} {p : DeliverAt}
    (hi : g.delivers[i]? = some (r, p)) (hcalled : p ≠ .called) (hqueued : p ≠ .queued) :
    g.replaying = false := by
  by_contra hno
  rcases h.shut (by simpa using hno) (r, p) (List.mem_of_getElem? hi) with hp | hp
  · exact hcalled hp
  · exact hqueued hp

/-- Before the gate opens the log grows by anything. -/
theorem live_shut (h : GateInv replayed g) (hshut : g.replaying = true) (e : GateEvent) :
    (g.log ++ [e]).Pairwise fun e e' => e.isDirect = true → e'.isDirect = true := by
  refine List.pairwise_append.mpr ⟨h.live, List.pairwise_singleton _ _, ?_⟩
  intro e₁ he₁ e₂ _ hdirect
  rw [h.calm hshut e₁ he₁] at hdirect
  cases hdirect

/-- Behind the open gate it grows by direct calls. -/
theorem live_direct (h : GateInv replayed g) {e : GateEvent} (he : e.isDirect = true) :
    (g.log ++ [e]).Pairwise fun e e' => e.isDirect = true → e'.isDirect = true := by
  refine List.pairwise_append.mpr ⟨h.live, List.pairwise_singleton _ _, ?_⟩
  intro e₁ _ e₂ he₂ _
  rw [List.mem_singleton.mp he₂]
  exact he

theorem calm_concat (h : GateInv replayed g) {e : GateEvent} (he : e.isDirect = false)
    (hshut : g.replaying = true) : ∀ e' ∈ g.log ++ [e], e'.isDirect = false := by
  intro e' he'
  rcases List.mem_append.mp he' with hold | hnew
  · exact h.calm hshut e' hold
  · rw [List.mem_singleton.mp hnew]
    exact he

/-- A step of a call keeps it before the gate while the gate is shut. -/
theorem shut_set (h : GateInv replayed g) {c : Record × DeliverAt} (i : ℕ)
    (hc : g.replaying = true → c.2 = .called ∨ c.2 = .queued) (hshut : g.replaying = true) :
    ∀ c' ∈ g.delivers.set i c, c'.2 = .called ∨ c'.2 = .queued := by
  intro c' hc'
  rcases List.mem_or_eq_of_mem_set hc' with hold | hnew
  · exact h.shut hshut c' hold
  · rw [hnew]
    exact hc hshut

theorem called (h : GateInv replayed g) (r : Record) :
    GateInv replayed { g with delivers := g.delivers ++ [(r, .called)] } := by
  refine { h with
    shut := ?_
    queuedOnce := h.queuedOnce.called rfl r
    directOnce := h.directOnce.called rfl r }
  intro hshut c hc
  rcases List.mem_append.mp hc with hold | hnew
  · exact h.shut hshut c hold
  · rw [List.mem_singleton.mp hnew]
    exact Or.inl rfl

theorem queued (h : GateInv replayed g) {i : ℕ} {r : Record}
    (hi : g.delivers[i]? = some (r, .called)) (hshut : g.replaying = true) :
    GateInv replayed { g with
      delivers := g.delivers.set i (r, .queued)
      queue := g.queue ++ [(i, r)]
      log := g.log ++ [.queued (i, r)] } where
  order := by
    have horder := h.order
    simp only [SubGate.enqueued, SubGate.handled, SubGate.batch, List.filterMap_append] at horder ⊢
    rw [horder]
    simp [List.filterMap_cons, GateEvent.enqueued?, GateEvent.handled?]
  filtered := by
    simpa [SubGate.drained, SubGate.handled, List.filterMap_cons, GateEvent.drained?,
      GateEvent.handled?] using h.filtered
  returned := by
    simpa [SubGate.drained, SubGate.drainReturned, SubGate.inHand, List.filterMap_cons,
      GateEvent.drained?, GateEvent.drainReturned?] using h.returned
  gate := Or.inl ⟨hshut, h.running hshut⟩
  shut := h.shut_set i fun _ => Or.inr rfl
  calm := h.calm_concat rfl
  live := h.live_shut hshut _
  queuedOnce := by
    simpa [SubGate.enqueued, List.filterMap_cons, GateEvent.enqueued?] using
      h.queuedOnce.concat (q := .queued) hi rfl rfl
  directOnce := by
    simpa [SubGate.directs, List.filterMap_cons, GateEvent.direct?] using
      h.directOnce.keep (q := .queued) hi rfl

theorem passed (h : GateInv replayed g) {i : ℕ} {r : Record}
    (hi : g.delivers[i]? = some (r, .called)) (hopen : g.replaying = false) :
    GateInv replayed { g with delivers := g.delivers.set i (r, .passed) } :=
  { h with
    shut := h.shut_set i fun hshut => (by rw [hopen] at hshut; cases hshut)
    queuedOnce := h.queuedOnce.keep hi rfl
    directOnce := h.directOnce.keep hi rfl }

/-- A direct call begins or ends. -/
theorem direct (h : GateInv replayed g) {i : ℕ} {r : Record} {p q : DeliverAt} {e : GateEvent}
    (hi : g.delivers[i]? = some (r, p)) (hcalled : p ≠ .called) (hp : p.isQueued = false)
    (hq : q.isQueued = false) (he : e.isDirect = true)
    (hdirect : Shows DeliverAt.hasEntered (g.delivers.set i (r, q))
      ((g.log ++ [e]).filterMap GateEvent.direct?)) :
    GateInv replayed { g with
      delivers := g.delivers.set i (r, q)
      log := g.log ++ [e] } := by
  have hopen : g.replaying = false :=
    h.open_of_passed hi hcalled (by simpa [DeliverAt.isQueued] using hp)
  have hno : ¬g.replaying = true := by simp [hopen]
  obtain ⟨henq, hhandled, hdrained, hreturned⟩ := GateEvent.readings_of_isDirect he
  refine
    { order := ?_, filtered := ?_, returned := ?_, gate := h.gate, shut := (absurd · hno),
      calm := (absurd · hno), live := h.live_direct he, queuedOnce := ?_, directOnce := hdirect }
  · simpa [SubGate.enqueued, SubGate.handled, SubGate.batch, List.filterMap_cons, henq, hhandled]
      using h.order
  · simpa [SubGate.drained, SubGate.handled, List.filterMap_cons, hdrained, hhandled]
      using h.filtered
  · simpa [SubGate.drained, SubGate.drainReturned, SubGate.inHand, List.filterMap_cons, hdrained,
      hreturned] using h.returned
  · simpa [SubGate.enqueued, List.filterMap_cons, henq] using
      h.queuedOnce.keep hi (hp.trans hq.symm)

theorem entered (h : GateInv replayed g) {i : ℕ} {r : Record}
    (hi : g.delivers[i]? = some (r, .passed)) :
    GateInv replayed { g with
      delivers := g.delivers.set i (r, .inside)
      log := g.log ++ [.directCall (i, r)] } := by
  refine h.direct hi (by decide) rfl rfl rfl ?_
  simpa [SubGate.directs, List.filterMap_cons, GateEvent.direct?] using
    h.directOnce.concat (q := .inside) hi rfl rfl

theorem left (h : GateInv replayed g) {i : ℕ} {r : Record}
    (hi : g.delivers[i]? = some (r, .inside)) :
    GateInv replayed { g with
      delivers := g.delivers.set i (r, .returned)
      log := g.log ++ [.directReturn (i, r)] } := by
  refine h.direct hi (by decide) rfl rfl rfl ?_
  simpa [SubGate.directs, List.filterMap_cons, GateEvent.direct?] using
    h.directOnce.keep (q := .returned) hi rfl

theorem openGate (h : GateInv replayed g) (hpc : g.finish = .flush []) (hqueue : g.queue = []) :
    GateInv replayed { g with finish := .returned, replaying := false } := by
  refine { h with
    order := ?_, returned := ?_, gate := Or.inr ⟨rfl, rfl, hqueue⟩,
    shut := fun hno => (by cases hno), calm := fun hno => (by cases hno) }
  · have horder := h.order
    simp only [SubGate.batch, hpc] at horder
    exact horder
  · have hreturned := h.returned
    simp only [SubGate.inHand, hpc] at hreturned
    exact hreturned

theorem taken (h : GateInv replayed g) (hpc : g.finish = .flush []) :
    GateInv replayed { g with finish := .flush g.queue, queue := [] } := by
  refine { h with
    order := ?_, returned := ?_,
    gate := Or.inl ⟨h.replaying_of_running (by simp [hpc]), by simp⟩ }
  · have horder := h.order
    simp only [SubGate.batch, hpc, List.append_nil] at horder
    exact horder.trans (List.append_nil _).symm
  · have hreturned := h.returned
    simp only [SubGate.inHand, hpc] at hreturned
    exact hreturned

/-- `finishReplay` moves on with an event of its own. -/
theorem finishing (h : GateInv replayed g) {finish : FinishAt} {e : GateEvent}
    (hpc : g.finish ≠ .returned) (hpc' : finish ≠ .returned) (he : e.isDirect = false)
    (henq : e.enqueued? = none) (hdirect : e.direct? = none)
    (horder : g.handled ++ g.batch =
      (g.log ++ [e]).filterMap GateEvent.handled? ++ SubGate.batch { g with finish := finish })
    (hfiltered : (g.log ++ [e]).filterMap GateEvent.drained? =
      unheld replayed ((g.log ++ [e]).filterMap GateEvent.handled?))
    (hreturned : (g.log ++ [e]).filterMap GateEvent.drained? =
      (g.log ++ [e]).filterMap GateEvent.drainReturned? ++
        SubGate.inHand { g with finish := finish }) :
    GateInv replayed { g with finish := finish, log := g.log ++ [e] } := by
  have hshut := h.replaying_of_running hpc
  refine
    { order := ?_, filtered := hfiltered, returned := hreturned, gate := Or.inl ⟨hshut, hpc'⟩,
      shut := h.shut, calm := h.calm_concat he, live := h.live_shut hshut e,
      queuedOnce := ?_, directOnce := ?_ }
  · have hold := h.order
    rw [horder] at hold
    simpa [SubGate.enqueued, SubGate.handled, SubGate.batch, List.filterMap_cons, henq] using hold
  · simpa [SubGate.enqueued, List.filterMap_cons, henq] using h.queuedOnce
  · simpa [SubGate.directs, List.filterMap_cons, hdirect] using h.directOnce

theorem skipped (h : GateInv replayed g) {t : Ticket} {rest : List Ticket}
    (hpc : g.finish = .flush (t :: rest)) (hcov : covered replayed t.2 = true) :
    GateInv replayed { g with finish := .flush rest, log := g.log ++ [.skipped t] } := by
  refine h.finishing (by simp [hpc]) (by simp) rfl rfl rfl ?_ ?_ ?_
  · simp [SubGate.handled, SubGate.batch, GateEvent.handled?, hpc]
  · simpa [SubGate.drained, SubGate.handled, unheld, List.filterMap_cons, GateEvent.handled?,
      GateEvent.drained?, covered_iff.mp hcov] using h.filtered
  · simpa [SubGate.drained, SubGate.drainReturned, SubGate.inHand, List.filterMap_cons,
      GateEvent.drained?, GateEvent.drainReturned?, hpc] using h.returned

theorem drained (h : GateInv replayed g) {t : Ticket} {rest : List Ticket}
    (hpc : g.finish = .flush (t :: rest)) (hnew : covered replayed t.2 = false) :
    GateInv replayed { g with finish := .inside t rest, log := g.log ++ [.drainCall t] } := by
  have hnot : ¬HeldIn replayed t.2 := by rw [← covered_iff, hnew]; exact Bool.false_ne_true
  refine h.finishing (by simp [hpc]) (by simp) rfl rfl rfl ?_ ?_ ?_
  · simp [SubGate.handled, SubGate.batch, GateEvent.handled?, hpc]
  · simpa [SubGate.drained, SubGate.handled, unheld, List.filterMap_cons, GateEvent.handled?,
      GateEvent.drained?, hnot] using h.filtered
  · simpa [SubGate.drained, SubGate.drainReturned, SubGate.inHand, List.filterMap_cons,
      GateEvent.drained?, GateEvent.drainReturned?, hpc] using h.returned

theorem handedOver (h : GateInv replayed g) {t : Ticket} {rest : List Ticket}
    (hpc : g.finish = .inside t rest) :
    GateInv replayed { g with finish := .flush rest, log := g.log ++ [.drainReturn t] } := by
  refine h.finishing (by simp [hpc]) (by simp) rfl rfl rfl ?_ ?_ ?_
  · simp [SubGate.handled, SubGate.batch, List.filterMap_cons, GateEvent.handled?, hpc]
  · simpa [SubGate.drained, SubGate.handled, unheld, List.filterMap_cons, GateEvent.handled?,
      GateEvent.drained?] using h.filtered
  · simpa [SubGate.drained, SubGate.drainReturned, SubGate.inHand, List.filterMap_cons,
      GateEvent.drained?, GateEvent.drainReturned?, hpc] using h.returned

/-- Every step keeps the invariant. -/
theorem step (h : GateInv replayed g) (a : GateAct) : GateInv replayed (a.step replayed g) := by
  have heff := gateEffect replayed g a
  generalize a.step replayed g = g' at heff ⊢
  cases heff with
  | idle => exact h
  | called => exact h.called _
  | queued hi hshut => exact h.queued hi hshut
  | passed hi hopen => exact h.passed hi hopen
  | entered hi => exact h.entered hi
  | left hi => exact h.left hi
  | opened hpc hqueue => exact h.openGate hpc hqueue
  | taken hpc _ => exact h.taken hpc
  | skipped hpc hcov => exact h.skipped hpc hcov
  | drained hpc hnew => exact h.drained hpc hnew
  | handedOver hpc => exact h.handedOver hpc

/-- Every interleaving keeps it. -/
theorem run (replayed : FMap RecordKey UInt64) (acts : List GateAct) :
    GateInv replayed (runGate replayed acts) :=
  List.foldlRecOn acts _ (start replayed) fun _ h a _ => h.step a

/-- Behind the open gate all that was queued is dealt with. -/
theorem handled_of_open (h : GateInv replayed g) (hopen : g.replaying = false) :
    g.handled = g.enqueued := by
  obtain ⟨hpc, hqueue⟩ := h.opened hopen
  rw [h.order, hqueue, List.append_nil]
  simp [SubGate.batch, hpc]

/-- The subscriber is back from all calls of `finishReplay`. -/
theorem drainReturned_of_open (h : GateInv replayed g) (hopen : g.replaying = false) :
    g.drainReturned = unheld replayed g.enqueued := by
  have hreturned := h.returned
  rw [h.filtered, h.handled_of_open hopen] at hreturned
  rw [hreturned]
  simp [SubGate.inHand, (h.opened hopen).1]

/-- What was dealt with comes first among what was queued. -/
theorem handled_prefix (h : GateInv replayed g) : g.handled <+: g.enqueued := by
  rw [h.order, List.append_assoc]
  exact List.prefix_append _ _

/-- A ticket is drained or directly delivered, not both. -/
theorem not_both (h : GateInv replayed g) {t : Ticket} (hq : t ∈ g.enqueued) : t ∉ g.directs := by
  rw [h.queuedOnce.2] at hq
  obtain ⟨p, hp, hD⟩ := hq
  rw [h.directOnce.2]
  rintro ⟨p', hp', hD'⟩
  rw [hp] at hp'
  cases hp'
  cases p with
  | called => cases hD
  | queued => cases hD'
  | passed => cases hD
  | inside => cases hD
  | returned => cases hD

end GateInv

/-! ## How far the goroutines get on their own steps -/

/-- The place of `finishReplay` between two tickets. -/
def FinishAt.phase : FinishAt → ℕ
  | .inside _ _ => 0
  | .flush [] => 1
  | .flush (_ :: _) => 2
  | .returned => 0

theorem FinishAt.phase_flush_pos (batch : List Ticket) : 1 ≤ (FinishAt.flush batch).phase := by
  cases batch with
  | nil => decide
  | cons t rest => exact Nat.le_succ 1

/-- A measure of `finishReplay`: three for each ticket dealt with, and its place in between. -/
def SubGate.progress (g : SubGate) : ℕ := 3 * g.handled.length + g.finish.phase

/-- A step of `finishReplay` raises the measure until it is done, and no other step lowers it. -/
theorem progress_step {replayed : FMap RecordKey UInt64} {g : SubGate} {a : GateAct}
    (hrun : (a.step replayed g).finish ≠ .returned) :
    g.finish ≠ .returned ∧
      g.progress + [a].count .finishReplay ≤ (a.step replayed g).progress := by
  have heff := gateEffect replayed g a
  generalize a.step replayed g = g' at heff hrun ⊢
  unfold SubGate.progress SubGate.handled
  cases heff with
  | idle _ hend _ =>
    have hno : a ≠ .finishReplay := fun ha => hrun (hend ha)
    exact ⟨hrun, by simp [hno]⟩
  | called => exact ⟨hrun, le_refl _⟩
  | queued _ _ => exact ⟨hrun, by simp [List.filterMap_cons, GateEvent.handled?]⟩
  | passed _ _ => exact ⟨hrun, le_refl _⟩
  | entered _ => exact ⟨hrun, by simp [List.filterMap_cons, GateEvent.handled?]⟩
  | left _ => exact ⟨hrun, by simp [List.filterMap_cons, GateEvent.handled?]⟩
  | opened _ _ => exact absurd rfl hrun
  | taken hpc hqueue =>
    obtain ⟨t, rest, hq⟩ := List.exists_cons_of_ne_nil hqueue
    exact ⟨by simp [hpc], by simp [hpc, hq, FinishAt.phase]⟩
  | @skipped t rest hpc _ =>
    have hpos := FinishAt.phase_flush_pos rest
    refine ⟨by simp [hpc], ?_⟩
    simp only [hpc, FinishAt.phase.eq_3, List.filterMap_append, List.length_append,
      List.filterMap_cons, List.filterMap_nil, GateEvent.handled?, List.count_cons_self,
      List.count_nil, List.length_singleton]
    omega
  | @drained t rest hpc _ =>
    refine ⟨by simp [hpc], ?_⟩
    simp only [hpc, FinishAt.phase, List.filterMap_append, List.length_append,
      List.filterMap_cons, List.filterMap_nil, GateEvent.handled?, List.count_cons_self,
      List.count_nil, List.length_singleton]
    omega
  | @handedOver t rest hpc =>
    have hpos := FinishAt.phase_flush_pos rest
    refine ⟨by simp [hpc], ?_⟩
    simp only [hpc, FinishAt.phase.eq_1, List.filterMap_append, List.length_append,
      List.filterMap_cons, List.filterMap_nil, GateEvent.handled?, List.count_cons_self,
      List.count_nil, List.length_nil]
    omega

/-- The steps of `finishReplay`, until it is done, are paid by tickets dealt with. -/
theorem count_lt_progress (replayed : FMap RecordKey UInt64) (acts : List GateAct)
    (hrun : (runGate replayed acts).finish ≠ .returned) :
    acts.count .finishReplay < (runGate replayed acts).progress := by
  induction acts using List.reverseRecOn with
  | nil => exact Nat.zero_lt_one
  | append_singleton acts a ih =>
    have hlast : runGate replayed (acts ++ [a]) = a.step replayed (runGate replayed acts) :=
      List.foldl_concat _ _ _ _
    rw [hlast] at hrun ⊢
    obtain ⟨hbefore, hle⟩ := progress_step hrun
    have hpaid := ih hbefore
    rw [List.count_append]
    omega

/-- After `3 * k + 2` of its steps `finishReplay` has dealt with `k + 1` tickets, or it is done. -/
theorem lt_handled_or_open (replayed : FMap RecordKey UInt64) (acts : List GateAct) (k : ℕ)
    (hsteps : 3 * k + 2 ≤ acts.count .finishReplay) :
    k < (runGate replayed acts).handled.length ∨ (runGate replayed acts).replaying = false := by
  by_cases hrun : (runGate replayed acts).finish = .returned
  · refine Or.inr ?_
    rcases (GateInv.run replayed acts).gate with ⟨-, hno⟩ | ⟨hopen, -⟩
    · exact absurd hrun hno
    · exact hopen
  · have hpaid := count_lt_progress replayed acts hrun
    have hphase : (runGate replayed acts).finish.phase ≤ 2 := by
      unfold FinishAt.phase
      split <;> decide
    unfold SubGate.progress at hpaid
    exact Or.inl (by omega)

/-- The steps a call of `deliver` has before it. -/
def DeliverAt.toGo : DeliverAt → ℕ
  | .called => 3
  | .passed => 2
  | .inside => 1
  | .queued => 0
  | .returned => 0

/-- One call moves, the others stay. -/
theorem toGo_set {l : List (Record × DeliverAt)} {i j : ℕ} {r r' : Record} {p p' q : DeliverAt}
    (hi : l[i]? = some (r, p)) (hj : l[j]? = some (r', p')) (hq : q.toGo < p'.toGo) :
    ∃ x, (l.set j (r', q))[i]? = some (r, x) ∧
      x.toGo ≤ p.toGo - [GateAct.deliver j].count (.deliver i) := by
  by_cases hij : i = j
  · subst hij
    rw [hi] at hj
    cases hj
    refine ⟨q, List.getElem?_set_self (List.getElem?_eq_some_iff.mp hi).1, ?_⟩
    rw [List.count_singleton_self]
    omega
  · refine ⟨p, ?_, ?_⟩
    · rw [List.getElem?_set_ne (Ne.symm hij)]
      exact hi
    · simp [Ne.symm hij]

/-- A step of a call brings it further, and no other step moves it. -/
theorem toGo_step (replayed : FMap RecordKey UInt64) {g : SubGate} {i : ℕ} {r : Record}
    {p : DeliverAt} (hi : g.delivers[i]? = some (r, p)) (a : GateAct) :
    ∃ q, (a.step replayed g).delivers[i]? = some (r, q) ∧
      q.toGo ≤ p.toGo - [a].count (.deliver i) := by
  have heff := gateEffect replayed g a
  generalize a.step replayed g = g' at heff ⊢
  cases heff with
  | idle _ _ hdone =>
    refine ⟨p, hi, ?_⟩
    by_cases ha : a = .deliver i
    · rcases hdone i r p ha hi with rfl | rfl
      · exact Nat.zero_le _
      · exact Nat.zero_le _
    · simp [ha]
  | called =>
    refine ⟨p, ?_, by simp⟩
    show (g.delivers ++ _)[i]? = _
    rw [List.getElem?_append_left (List.getElem?_eq_some_iff.mp hi).1]
    exact hi
  | queued hj _ => exact toGo_set hi hj (by decide)
  | passed hj _ => exact toGo_set hi hj (by decide)
  | entered hj => exact toGo_set hi hj (by decide)
  | left hj => exact toGo_set hi hj (by decide)
  | opened _ _ => exact ⟨p, hi, by simp⟩
  | taken _ _ => exact ⟨p, hi, by simp⟩
  | skipped _ _ => exact ⟨p, hi, by simp⟩
  | drained _ _ => exact ⟨p, hi, by simp⟩
  | handedOver _ => exact ⟨p, hi, by simp⟩

theorem toGo_run (replayed : FMap RecordKey UInt64) {g : SubGate} {i : ℕ} {r : Record}
    {p : DeliverAt} (hi : g.delivers[i]? = some (r, p)) (acts : List GateAct) :
    ∃ q, (acts.foldl (GateAct.step replayed) g).delivers[i]? = some (r, q) ∧
      q.toGo ≤ p.toGo - acts.count (.deliver i) := by
  induction acts generalizing g p with
  | nil => exact ⟨p, hi, le_refl _⟩
  | cons a acts ih =>
    obtain ⟨q, hq, hle⟩ := toGo_step replayed hi a
    obtain ⟨x, hx, hle'⟩ := ih hq
    refine ⟨x, hx, ?_⟩
    rw [← List.singleton_append, List.count_append]
    omega

/-- A call of `deliver` returns within three steps of its own. -/
theorem settled_of_three_steps (replayed : FMap RecordKey UInt64) {g : SubGate} {i : ℕ}
    {r : Record} {p : DeliverAt} (hi : g.delivers[i]? = some (r, p)) {acts : List GateAct}
    (hsteps : 3 ≤ acts.count (.deliver i)) :
    (acts.foldl (GateAct.step replayed) g).delivers[i]? = some (r, .queued) ∨
      (acts.foldl (GateAct.step replayed) g).delivers[i]? = some (r, .returned) := by
  obtain ⟨q, hq, hle⟩ := toGo_run replayed hi acts
  have hp : p.toGo ≤ 3 := by
    cases p <;> decide
  have hzero : q.toGo = 0 := by omega
  cases q with
  | called => cases hzero
  | queued => exact Or.inl hq
  | passed => cases hzero
  | inside => cases hzero
  | returned => exact Or.inr hq

/-! ## The contract of the gate -/

/-- A step adds the call it makes to the calls of `deliver`, and no other. -/
theorem delivers_step (replayed : FMap RecordKey UInt64) (g : SubGate) (a : GateAct) :
    (a.step replayed g).delivers.map Prod.fst =
      g.delivers.map Prod.fst ++ [a].filterMap GateAct.called? := by
  have hmoved : ∀ {i : ℕ} {r : Record} {p q : DeliverAt}, g.delivers[i]? = some (r, p) →
      (g.delivers.set i (r, q)).map Prod.fst = g.delivers.map Prod.fst ++ [] := by
    intro i r p q hi
    rw [List.append_nil]
    refine List.ext_getElem? fun j => ?_
    rw [List.getElem?_map, List.getElem?_map]
    by_cases hj : i = j
    · rw [← hj, List.getElem?_set_self (List.getElem?_eq_some_iff.mp hi).1, hi]
      rfl
    · rw [List.getElem?_set_ne hj]
  have heff := gateEffect replayed g a
  generalize a.step replayed g = g' at heff ⊢
  cases heff with
  | idle hcall _ _ =>
    rw [List.filterMap_cons_none hcall]
    exact (List.append_nil _).symm
  | called =>
    rw [List.map_append]
    rfl
  | queued hi _ => exact hmoved hi
  | passed hi _ => exact hmoved hi
  | entered hi => exact hmoved hi
  | left hi => exact hmoved hi
  | opened _ _ => exact (List.append_nil _).symm
  | taken _ _ => exact (List.append_nil _).symm
  | skipped _ _ => exact (List.append_nil _).symm
  | drained _ _ => exact (List.append_nil _).symm
  | handedOver _ => exact (List.append_nil _).symm

theorem delivers_run (replayed : FMap RecordKey UInt64) (acts : List GateAct) :
    (runGate replayed acts).delivers.map Prod.fst = acts.filterMap GateAct.called? := by
  induction acts using List.reverseRecOn with
  | nil => rfl
  | append_singleton acts a ih =>
    rw [runGate, List.foldl_concat, delivers_step, List.filterMap_append, ← ih]
    rfl

/-- What an interleaving leaves behind. -/
structure Drains (replayed : FMap RecordKey UInt64) (acts : List GateAct) (g : SubGate) : Prop where
  /-- The calls of `deliver` are those that were made, in order. -/
  made : g.delivers.map Prod.fst = acts.filterMap GateAct.called?
  /-- `finishReplay` calls the subscriber in the order of the queue, but for what the table
  holds. -/
  ordered : g.drained <+: unheld replayed g.enqueued
  /-- Once the gate is open it has called it with all of them, and every call returned. -/
  complete : g.replaying = false →
    g.drained = unheld replayed g.enqueued ∧ g.drainReturned = unheld replayed g.enqueued
  /-- However many records arrive, its first `3 * k + 2` steps take care of the first `k + 1`. -/
  prompt : ∀ k, 3 * k + 2 ≤ acts.count .finishReplay →
    unheld replayed (g.enqueued.take (k + 1)) <+: g.drained
  /-- It opens the gate unless records keep arriving. -/
  opens : 3 * g.enqueued.length + 2 ≤ acts.count .finishReplay → g.replaying = false
  /-- Before the first direct call every call of `finishReplay` has returned. -/
  after : ∀ front t back, g.log = front ++ .directCall t :: back →
    front.filterMap GateEvent.drainReturned? = unheld replayed g.enqueued
  /-- The subscriber is called for calls of `deliver`, and at most once for each. -/
  once : ∀ t, g.drained.count t + g.directs.count t ≤ 1
  called : ∀ t, t ∈ g.drained ∨ t ∈ g.directs → ∃ p, g.delivers[t.1]? = some (t.2, p)
  /-- A call of `deliver` returns within three steps of its own, -/
  returns : ∀ front back i r p, acts = front ++ back →
    (runGate replayed front).delivers[i]? = some (r, p) → 3 ≤ back.count (.deliver i) →
      g.delivers[i]? = some (r, .queued) ∨ g.delivers[i]? = some (r, .returned)
  /-- with its record queued, then drained once unless the table holds it, -/
  queued : ∀ i r, g.delivers[i]? = some (r, .queued) →
    g.enqueued.count (i, r) = 1 ∧ g.directs.count (i, r) = 0 ∧
      (g.replaying = false → g.drained.count (i, r) = if HeldIn replayed r then 0 else 1)
  /-- or delivered directly, once. -/
  direct : ∀ i r, g.delivers[i]? = some (r, .returned) →
    g.drained.count (i, r) = 0 ∧ g.directs.count (i, r) = 1

namespace GateInv

variable {replayed : FMap RecordKey UInt64} {g : SubGate}

theorem drained_prefix (h : GateInv replayed g) : g.drained <+: unheld replayed g.enqueued := by
  rw [h.filtered]
  exact h.handled_prefix.filter _

theorem drained_sublist (h : GateInv replayed g) : g.drained.Sublist g.enqueued :=
  h.drained_prefix.sublist.trans List.filter_sublist

/-- A ticket of a call that is not queued is not drained. -/
theorem count_drained_eq_zero (h : GateInv replayed g) {t : Ticket} (ht : t ∉ g.enqueued) :
    g.drained.count t = 0 :=
  List.count_eq_zero.mpr fun hmem => ht (h.drained_sublist.mem hmem)

/-- Only direct calls follow a direct call. -/
theorem drainReturned_front (h : GateInv replayed g) {front back : List GateEvent} {t : Ticket}
    (hlog : g.log = front ++ .directCall t :: back) :
    front.filterMap GateEvent.drainReturned? = g.drainReturned := by
  have hlive := h.live
  rw [hlog] at hlive
  have hback : back.filterMap GateEvent.drainReturned? = [] := by
    refine List.filterMap_eq_nil_iff.mpr fun e he => ?_
    have hdirect := (List.pairwise_cons.mp (List.pairwise_append.mp hlive).2.1).1 e he rfl
    exact (GateEvent.readings_of_isDirect hdirect).2.2.2
  unfold SubGate.drainReturned
  rw [hlog, List.filterMap_append, List.filterMap_cons_none rfl, hback, List.append_nil]

/-- A direct call found the gate open. -/
theorem open_of_directCall (h : GateInv replayed g) {t : Ticket} (ht : .directCall t ∈ g.log) :
    g.replaying = false := by
  by_contra hno
  have hcalm := h.calm (by simpa using hno) _ ht
  cases hcalm

end GateInv

/-- **The drain loses nothing and keeps the order.** -/
theorem drain_lossless (replayed : FMap RecordKey UInt64) (acts : List GateAct) :
    Drains replayed acts (runGate replayed acts) := by
  have h := GateInv.run replayed acts
  have hdone := lt_handled_or_open replayed acts
  generalize hg : runGate replayed acts = g at h hdone ⊢
  have hcomplete : g.replaying = false → g.drained = unheld replayed g.enqueued := by
    intro hopen
    rw [h.filtered, h.handled_of_open hopen]
  constructor
  case made => exact hg ▸ delivers_run replayed acts
  case ordered => exact h.drained_prefix
  case complete => exact fun hopen => ⟨hcomplete hopen, h.drainReturned_of_open hopen⟩
  case prompt =>
    intro k hsteps
    rcases hdone k hsteps with hlt | hopen
    · rw [h.filtered]
      refine List.IsPrefix.filter _ (List.prefix_of_prefix_length_le (List.take_prefix _ _)
        h.handled_prefix ?_)
      exact (List.length_take_le _ _).trans hlt
    · rw [hcomplete hopen]
      exact (List.take_prefix _ _).filter _
  case opens =>
    intro hsteps
    rcases hdone _ hsteps with hlt | hopen
    · exact absurd h.handled_prefix.length_le (Nat.not_le_of_lt hlt)
    · exact hopen
  case after =>
    intro front t back hlog
    have hopen := h.open_of_directCall (t := t) (by rw [hlog]; simp)
    rw [h.drainReturned_front hlog, h.drainReturned_of_open hopen]
  case once =>
    intro t
    by_cases ht : t ∈ g.enqueued
    · have hdirect : g.directs.count t = 0 := List.count_eq_zero.mpr (h.not_both ht)
      have hle := (h.drained_sublist.count_le t).trans
        (List.nodup_iff_count_le_one.mp h.queuedOnce.1 t)
      omega
    · have hle := List.nodup_iff_count_le_one.mp h.directOnce.1 t
      rw [h.count_drained_eq_zero ht]
      omega
  case called =>
    rintro t (ht | ht)
    · obtain ⟨p, hp, -⟩ := (h.queuedOnce.2 t).mp (h.drained_sublist.mem ht)
      exact ⟨p, hp⟩
    · obtain ⟨p, hp, -⟩ := (h.directOnce.2 t).mp ht
      exact ⟨p, hp⟩
  case returns =>
    rintro front back i r p rfl hi hsteps
    rw [← hg, runGate, List.foldl_append]
    exact settled_of_three_steps replayed hi hsteps
  case queued =>
    intro i r hi
    have hmem : (i, r) ∈ g.enqueued := (h.queuedOnce.2 _).mpr ⟨.queued, hi, rfl⟩
    have hone : g.enqueued.count (i, r) = 1 := List.count_eq_one_of_mem h.queuedOnce.1 hmem
    refine ⟨hone, List.count_eq_zero.mpr (h.not_both hmem), fun hopen => ?_⟩
    rw [hcomplete hopen, unheld]
    split_ifs with hheld
    · refine List.count_eq_zero.mpr fun hin => ?_
      simp [hheld] at hin
    · rw [List.count_filter (by simpa using hheld), hone]
  case direct =>
    intro i r hi
    have hmem : (i, r) ∈ g.directs := (h.directOnce.2 _).mpr ⟨.returned, hi, rfl⟩
    have hnot : (i, r) ∉ g.enqueued := fun hq => h.not_both hq hmem
    exact ⟨h.count_drained_eq_zero hnot, List.count_eq_one_of_mem h.directOnce.1 hmem⟩

/-- A record of node 9 under a key, at a clock. -/
def keyedRecord (key : UInt8) (hlc : UInt64) : Record :=
  { topic := [116], nodeID := [9], key := [key], hlc := hlc }

/-- The replay showed key 2 at clock 5. -/
def shownTable : FMap RecordKey UInt64 := (∅ : FMap RecordKey UInt64).insert ⟨[9], [2]⟩ 5

/-- Two records are queued, one of them shown before; `finishReplay` takes the queue, hands over the
other and opens the gate; a third record comes then. -/
def drainedActs : List GateAct :=
  [.call (keyedRecord 1 3), .call (keyedRecord 2 4), .deliver 0, .deliver 1] ++
    List.replicate 5 .finishReplay ++
    [.call (keyedRecord 3 6), .deliver 2, .deliver 2, .deliver 2]

theorem drained_then_direct :
    (runGate shownTable drainedActs).log =
        [.queued (0, keyedRecord 1 3), .queued (1, keyedRecord 2 4),
          .drainCall (0, keyedRecord 1 3), .drainReturn (0, keyedRecord 1 3),
          .skipped (1, keyedRecord 2 4),
          .directCall (2, keyedRecord 3 6), .directReturn (2, keyedRecord 3 6)] ∧
      (runGate shownTable drainedActs).drained =
        unheld shownTable [(0, keyedRecord 1 3), (1, keyedRecord 2 4)] ∧
      (runGate shownTable drainedActs).directs.count (2, keyedRecord 3 6) = 1 := by
  have h := drain_lossless shownTable drainedActs
  have hopen : (runGate shownTable drainedActs).replaying = false := by decide +kernel
  have hqueued : (runGate shownTable drainedActs).enqueued =
      [(0, keyedRecord 1 3), (1, keyedRecord 2 4)] := by decide +kernel
  refine ⟨by decide +kernel, ?_, (h.direct 2 (keyedRecord 3 6) (by decide +kernel)).2⟩
  rw [(h.complete hopen).1, hqueued]

end Swarm
