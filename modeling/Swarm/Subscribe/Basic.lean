import Swarm.Lib.Runs
import Swarm.Store.View

/-!
# Subscribing while records arrive

`Subscribe` of `node.go` next to the goroutines that accept records, as a run of their atomic steps.
An accepted record takes three: `ApplyExt` under the store's lock, the copy of the callbacks under
`subsMu` in `deliverToSubs`, and the gate's `deliver`, which queues it or calls the subscriber.
`Subscribe` registers its gate, takes the snapshot, replays it record by record, and drains the
queue in `finishReplay`, skipping what the snapshot covers by its clock, until it finds the queue
empty and opens the gate.

`subEffect` says what a step can do, and every interleaving keeps `SubInv`.
-/

namespace Swarm

/-- How far an accepted record is: in the store, the gate among its callbacks, handed over. -/
inductive Progress where
  | applied
  | copied
  | done
  deriving DecidableEq

/-- An accepted record with its place in the order of acceptance. -/
abbrev Ticket : Type := ℕ × Record

/-- A call of the subscriber: with a record of the snapshot, or with an accepted one. -/
inductive SubCall where
  | replay (r : Record)
  | live (t : Ticket)
  deriving DecidableEq

/-- Where `Subscribe` is: before its registration, after it, in the replay with what is left of the
snapshot, in `finishReplay` with what is left of a batch, or done. -/
inductive SubscribeAt where
  | start
  | registered
  | replay (rest : List Record)
  | flush (batch : List Ticket)
  | returned
  deriving DecidableEq

/-- The store, the records accepted on the topic, and one subscription with its gate. The snapshot
and the number of records accepted before it are kept for reference; no step reads them. -/
structure SubState where
  store : RecordStore
  accepted : List (Record × Progress) := []
  pc : SubscribeAt := .start
  replaying : Bool := true
  queue : List Ticket := []
  replayed : FMap RecordKey UInt64 := ∅
  calls : List SubCall := []
  snapshot : List Record := []
  before : ℕ := 0

/-- The atomic steps. -/
inductive SubAct where
  | apply (nowMs : Int64) (r : Record)
  | copy (i : ℕ)
  | deliver (i : ℕ)
  | register
  | snapshot
  | replay
  | finishReplay
  | flush
  | relock

namespace SubState

/-- `ApplyExt`; a record of the topic that was applied is on its way to the subscribers. -/
def apply (cfg : StoreConfig) (topic : Topic) (st : SubState) (nowMs : Int64) (r : Record) :
    SubState :=
  let (res, store) := applyExt cfg nowMs st.store r
  if res.applied ∧ r.topic = topic then
    { st with store := store, accepted := st.accepted ++ [(r, .applied)] }
  else { st with store := store }

/-- `deliverToSubs` copies the callbacks: the gate is among them once it is registered. -/
def copy (st : SubState) (i : ℕ) : SubState :=
  match st.accepted[i]? with
  | some (r, .applied) =>
    match st.pc with
    | .start => { st with accepted := st.accepted.set i (r, .done) }
    | _ => { st with accepted := st.accepted.set i (r, .copied) }
  | _ => st

/-- `subGate.deliver`. -/
def deliver (st : SubState) (i : ℕ) : SubState :=
  match st.accepted[i]? with
  | some (r, .copied) =>
    let st := { st with accepted := st.accepted.set i (r, .done) }
    if st.replaying then { st with queue := st.queue ++ [(i, r)] }
    else { st with calls := st.calls ++ [.live (i, r)] }
  | _ => st

/-- `Subscribe` enters its gate into `subs`. -/
def register (st : SubState) : SubState :=
  match st.pc with
  | .start => { st with pc := .registered }
  | _ => st

/-- `Subscribe` takes the snapshot. -/
def takeSnapshot (topic : Topic) (st : SubState) : SubState :=
  match st.pc with
  | .registered =>
    { st with
      pc := .replay (st.store.topicRecordsAll topic)
      snapshot := st.store.topicRecordsAll topic
      before := st.accepted.length }
  | _ => st

/-- One turn of the replay loop. -/
def replayOne (st : SubState) : SubState :=
  match st.pc with
  | .replay (r :: rest) =>
    { st with
      pc := .replay rest
      replayed := st.replayed.insert (keyOf r) r.hlc
      calls := st.calls ++ [.replay r] }
  | _ => st

/-- The flush loop with an empty queue in hand: take the next batch, or open the gate. -/
def relock (st : SubState) : SubState :=
  match st.pc with
  | .flush [] =>
    if st.queue = [] then { st with pc := .returned, replaying := false }
    else { st with pc := .flush st.queue, queue := [] }
  | _ => st

/-- `finishReplay` is entered once the snapshot is replayed. -/
def enterFinish (st : SubState) : SubState :=
  match st.pc with
  | .replay [] => { st with pc := .flush [] }
  | _ => st

/-- The filter of `finishReplay`: the slot was replayed with a clock at least as new. -/
def covered (replayed : FMap RecordKey UInt64) (r : Record) : Bool :=
  match replayed.lookup (keyOf r) with
  | some hlc => decide (r.hlc ≤ hlc)
  | none => false

/-- One record of a batch. -/
def flushOne (st : SubState) : SubState :=
  match st.pc with
  | .flush (t :: rest) =>
    if covered st.replayed t.2 then { st with pc := .flush rest }
    else { st with pc := .flush rest, calls := st.calls ++ [.live t] }
  | _ => st

end SubState

/-- The state after a step; a step that is not enabled does nothing. -/
def SubAct.step (cfg : StoreConfig) (topic : Topic) (st : SubState) : SubAct → SubState
  | .apply nowMs r => st.apply cfg topic nowMs r
  | .copy i => st.copy i
  | .deliver i => st.deliver i
  | .register => st.register
  | .snapshot => st.takeSnapshot topic
  | .replay => st.replayOne
  | .finishReplay => st.enterFinish
  | .flush => st.flushOne
  | .relock => st.relock

/-- A run, from a store that any calls were made on. -/
def runSubscribe (cfg : StoreConfig) (topic : Topic) (calls : List StoreOp) (acts : List SubAct) :
    SubState :=
  acts.foldl (SubAct.step cfg topic) { store := runStore cfg {} calls }

/-! ## What a step can do -/

/-- The effect of a step. -/
inductive SubEffect (cfg : StoreConfig) (topic : Topic) (st : SubState) :
    SubAct → SubState → Prop
  | idle {a : SubAct}
      (hno : ∀ i r, a = .deliver i → st.accepted[i]? ≠ some (r, .copied)) :
      SubEffect cfg topic st a st
  | stored {nowMs : Int64} {r : Record} :
      SubEffect cfg topic st (.apply nowMs r)
        { st with store := (applyExt cfg nowMs st.store r).2 }
  | accepted {nowMs : Int64} {r : Record} :
      SubEffect cfg topic st (.apply nowMs r)
        { st with
          store := (applyExt cfg nowMs st.store r).2
          accepted := st.accepted ++ [(r, .applied)] }
  | missed {i : ℕ} {r : Record} (hpc : st.pc = .start)
      (hi : st.accepted[i]? = some (r, .applied)) :
      SubEffect cfg topic st (.copy i) { st with accepted := st.accepted.set i (r, .done) }
  | copied {i : ℕ} {r : Record} (hi : st.accepted[i]? = some (r, .applied)) :
      SubEffect cfg topic st (.copy i) { st with accepted := st.accepted.set i (r, .copied) }
  | queued {i : ℕ} {r : Record} (hi : st.accepted[i]? = some (r, .copied))
      (hshut : st.replaying = true) :
      SubEffect cfg topic st (.deliver i)
        { st with
          accepted := st.accepted.set i (r, .done)
          queue := st.queue ++ [(i, r)] }
  | delivered {i : ℕ} {r : Record} (hi : st.accepted[i]? = some (r, .copied))
      (hopen : st.replaying = false) :
      SubEffect cfg topic st (.deliver i)
        { st with
          accepted := st.accepted.set i (r, .done)
          calls := st.calls ++ [.live (i, r)] }
  | registered (hpc : st.pc = .start) :
      SubEffect cfg topic st .register { st with pc := .registered }
  | snapped (hpc : st.pc = .registered) :
      SubEffect cfg topic st .snapshot
        { st with
          pc := .replay (st.store.topicRecordsAll topic)
          snapshot := st.store.topicRecordsAll topic
          before := st.accepted.length }
  | replayed {r : Record} {rest : List Record} (hpc : st.pc = .replay (r :: rest)) :
      SubEffect cfg topic st .replay
        { st with
          pc := .replay rest
          replayed := st.replayed.insert (keyOf r) r.hlc
          calls := st.calls ++ [.replay r] }
  | entered (hpc : st.pc = .replay []) :
      SubEffect cfg topic st .finishReplay { st with pc := .flush [] }
  | skipped {t : Ticket} {rest : List Ticket} (hpc : st.pc = .flush (t :: rest))
      (hcov : SubState.covered st.replayed t.2 = true) :
      SubEffect cfg topic st .flush { st with pc := .flush rest }
  | flushed {t : Ticket} {rest : List Ticket} (hpc : st.pc = .flush (t :: rest))
      (hnew : SubState.covered st.replayed t.2 = false) :
      SubEffect cfg topic st .flush
        { st with pc := .flush rest, calls := st.calls ++ [.live t] }
  | opened (hpc : st.pc = .flush []) (hqueue : st.queue = []) :
      SubEffect cfg topic st .relock { st with pc := .returned, replaying := false }
  | taken (hpc : st.pc = .flush []) :
      SubEffect cfg topic st .relock { st with pc := .flush st.queue, queue := [] }

theorem subEffect (cfg : StoreConfig) (topic : Topic) (st : SubState) (a : SubAct) :
    SubEffect cfg topic st a (a.step cfg topic st) := by
  cases a with
  | apply nowMs r =>
    show SubEffect cfg topic st _ (st.apply cfg topic nowMs r)
    unfold SubState.apply
    dsimp only
    split_ifs
    · exact .accepted
    · exact .stored
  | copy i =>
    show SubEffect cfg topic st _ (st.copy i)
    unfold SubState.copy
    split
    · rename_i hi
      split
      · rename_i hpc
        exact .missed hpc hi
      · exact .copied hi
    · exact .idle (by simp)
  | deliver i =>
    show SubEffect cfg topic st _ (st.deliver i)
    unfold SubState.deliver
    split
    · rename_i hi
      dsimp only
      split_ifs with hshut
      · exact .queued hi hshut
      · exact .delivered hi (by simpa using hshut)
    · rename_i hno
      refine .idle ?_
      intro j r hj hi
      cases hj
      exact hno r hi
  | register =>
    show SubEffect cfg topic st _ st.register
    unfold SubState.register
    split
    · rename_i hpc
      exact .registered hpc
    · exact .idle (by simp)
  | snapshot =>
    show SubEffect cfg topic st _ (st.takeSnapshot topic)
    unfold SubState.takeSnapshot
    split
    · rename_i hpc
      exact .snapped hpc
    · exact .idle (by simp)
  | replay =>
    show SubEffect cfg topic st _ st.replayOne
    unfold SubState.replayOne
    split
    · rename_i hpc
      exact .replayed hpc
    · exact .idle (by simp)
  | finishReplay =>
    show SubEffect cfg topic st _ st.enterFinish
    unfold SubState.enterFinish
    split
    · rename_i hpc
      exact .entered hpc
    · exact .idle (by simp)
  | flush =>
    show SubEffect cfg topic st _ st.flushOne
    unfold SubState.flushOne
    split
    · rename_i hpc
      split_ifs with hcov
      · exact .skipped hpc hcov
      · exact .flushed hpc (by simpa using hcov)
    · exact .idle (by simp)
  | relock =>
    show SubEffect cfg topic st _ st.relock
    unfold SubState.relock
    split
    · rename_i hpc
      split_ifs with hqueue
      · exact .opened hpc hqueue
      · exact .taken hpc
    · exact .idle (by simp)

/-! ## What holds in every state -/

namespace SubState

/-- The accepted records the subscriber was called with. -/
def lives (st : SubState) : List Ticket :=
  st.calls.filterMap fun
    | .live t => some t
    | .replay _ => none

/-- The records of the snapshot the subscriber was called with. -/
def replays (st : SubState) : List Record :=
  st.calls.filterMap fun
    | .replay r => some r
    | .live _ => none

/-- What is left of the batch in hand. -/
def batch (st : SubState) : List Ticket :=
  match st.pc with
  | .flush batch => batch
  | _ => []

/-- What is left of the snapshot. -/
def rest (st : SubState) : List Record :=
  match st.pc with
  | .replay rest => rest
  | _ => []

/-- The tickets at the gate: delivered, in the batch, in the queue. -/
def tickets (st : SubState) : List Ticket := st.lives ++ st.batch ++ st.queue

end SubState

theorem mem_lives {st : SubState} {t : Ticket} : t ∈ st.lives ↔ .live t ∈ st.calls := by
  unfold SubState.lives
  rw [List.mem_filterMap]
  constructor
  · rintro ⟨c, hc, heq⟩
    cases c with
    | replay r => cases heq
    | live u =>
      cases heq
      exact hc
  · intro hc
    exact ⟨.live t, hc, rfl⟩

theorem lives_of_live {st st' : SubState} {t : Ticket} (h : st'.calls = st.calls ++ [.live t]) :
    st'.lives = st.lives ++ [t] := by
  simp [SubState.lives, h]

theorem replays_of_live {st st' : SubState} {t : Ticket} (h : st'.calls = st.calls ++ [.live t]) :
    st'.replays = st.replays := by
  simp [SubState.replays, h]

theorem lives_of_replay {st st' : SubState} {r : Record}
    (h : st'.calls = st.calls ++ [.replay r]) : st'.lives = st.lives := by
  simp [SubState.lives, h]

theorem replays_of_replay {st st' : SubState} {r : Record}
    (h : st'.calls = st.calls ++ [.replay r]) : st'.replays = st.replays ++ [r] := by
  simp [SubState.replays, h]

/-- The snapshot was taken. -/
def SubscribeAt.snapped : SubscribeAt → Bool
  | .start => false
  | .registered => false
  | _ => true

/-- The snapshot was replayed. -/
def SubscribeAt.replayedAll : SubscribeAt → Bool
  | .flush _ => true
  | .returned => true
  | _ => false

/-- The invariant: tickets are handed over once, the calls are the snapshot in order and then the
delivered tickets, the table of `Subscribe` shows the snapshot so far, and the gate opens with the
queue empty. -/
structure SubInv (st : SubState) : Prop where
  placed : ∀ t, Placed t (st.store.topic t)
  handed : ∀ t ∈ st.tickets, st.accepted[t.1]? = some (t.2, .done)
  once : (st.tickets.map Prod.fst).Nodup
  seen : st.snapshot = st.replays ++ st.rest
  keys : (st.snapshot.map keyOf).Nodup
  table : ∀ k h, st.replayed.lookup k = some h ↔ ∃ x ∈ st.replays, keyOf x = k ∧ x.hlc = h
  unseen : st.pc.snapped = false → st.replays = []
  early : st.pc.replayedAll = false → st.lives = []
  gate : st.replaying = true ∧ st.pc ≠ .returned ∨
    st.replaying = false ∧ st.pc = .returned ∧ st.queue = []

namespace SubInv

variable {cfg : StoreConfig} {topic : Topic} {st : SubState}

theorem start {s : RecordStore} (hs : ∀ t, Placed t (s.topic t)) : SubInv { store := s } where
  placed := hs
  handed _ h := (by cases h)
  once := List.nodup_nil
  seen := rfl
  keys := List.nodup_nil
  table k h := by
    constructor
    · intro hk
      cases hk
    · rintro ⟨x, hx, -⟩
      cases hx
  unseen _ := rfl
  early _ := rfl
  gate := Or.inl ⟨rfl, fun h => (by cases h)⟩

/-- Behind the open gate nothing waits. -/
theorem opened (h : SubInv st) (hopen : st.replaying = false) :
    st.pc = .returned ∧ st.queue = [] := by
  rcases h.gate with ⟨hshut, -⟩ | ⟨-, hpc⟩
  · rw [hopen] at hshut
    cases hshut
  · exact hpc

/-- The gate is shut until `Subscribe` is done. -/
theorem shut (h : SubInv st) (hpc : st.pc ≠ .returned) : st.replaying = true := by
  rcases h.gate with ⟨hshut, -⟩ | ⟨-, hret, -⟩
  · exact hshut
  · exact absurd hret hpc

/-- The gate is open once `Subscribe` is done. -/
theorem queue_of_returned (h : SubInv st) (hpc : st.pc = .returned) : st.queue = [] := by
  rcases h.gate with ⟨-, hno⟩ | ⟨-, -, hqueue⟩
  · exact absurd hpc hno
  · exact hqueue

/-- A call on the store keeps every slot in its place. -/
theorem placed_applyExt (h : SubInv st) (cfg : StoreConfig) (nowMs : Int64) (r : Record)
    (t : Topic) : Placed t ((applyExt cfg nowMs st.store r).2.topic t) := by
  rcases topic_applyExt cfg nowMs st.store r t with heq | ⟨rfl, heq⟩
  · rw [heq]
    exact h.placed t
  · rw [heq]
    exact placed_applyTopic (h.placed r.topic)

theorem accepted (h : SubInv st) (nowMs : Int64) (r : Record) :
    SubInv { st with
      store := (applyExt cfg nowMs st.store r).2, accepted := st.accepted ++ [(r, .applied)] } := by
  refine { h with placed := h.placed_applyExt cfg nowMs r, handed := fun t ht => ?_ }
  have hold := h.handed t ht
  show (st.accepted ++ [(r, Progress.applied)])[t.1]? = _
  rw [List.getElem?_append_left (List.getElem?_eq_some_iff.mp hold).1]
  exact hold

/-- An acceptance that is not handed over has no ticket. -/
theorem not_mem_tickets (h : SubInv st) {i : ℕ} {r : Record} {p : Progress}
    (hi : st.accepted[i]? = some (r, p)) (hp : p ≠ .done) : ∀ t ∈ st.tickets, t.1 ≠ i := by
  rintro t ht rfl
  rw [h.handed t ht] at hi
  cases hi
  exact hp rfl

theorem advance (h : SubInv st) {i : ℕ} {r : Record} {p : Progress} (q : Progress)
    (hi : st.accepted[i]? = some (r, p)) (hp : p ≠ .done) :
    SubInv { st with accepted := st.accepted.set i (r, q) } := by
  refine { h with handed := fun t ht => ?_ }
  show (st.accepted.set i (r, q))[t.1]? = _
  rw [List.getElem?_set_ne (Ne.symm (h.not_mem_tickets hi hp t ht))]
  exact h.handed t ht

/-- One more ticket, of an acceptance that had none. -/
theorem handed_concat (h : SubInv st) {i : ℕ} {r : Record}
    (hi : st.accepted[i]? = some (r, .copied)) :
    (∀ t ∈ st.tickets ++ [(i, r)],
      (st.accepted.set i (r, Progress.done))[t.1]? = some (t.2, .done)) ∧
    ((st.tickets ++ [(i, r)]).map Prod.fst).Nodup := by
  constructor
  · intro t ht
    rcases List.mem_append.mp ht with hold | hnew
    · exact (h.advance .done hi (by decide)).handed t hold
    · cases List.mem_singleton.mp hnew
      exact List.getElem?_set_self (List.getElem?_eq_some_iff.mp hi).1
  · rw [List.map_append, List.nodup_append]
    refine ⟨h.once, List.nodup_singleton _, ?_⟩
    rintro j hj k hk rfl
    obtain ⟨t, ht, rfl⟩ := List.mem_map.mp hj
    exact h.not_mem_tickets hi (by decide) t ht (List.mem_singleton.mp hk)

theorem queued (h : SubInv st) {i : ℕ} {r : Record} (hi : st.accepted[i]? = some (r, .copied))
    (hshut : st.replaying = true) :
    SubInv { st with
      accepted := st.accepted.set i (r, .done), queue := st.queue ++ [(i, r)] } := by
  obtain ⟨hhanded, honce⟩ := h.handed_concat hi
  have htickets : SubState.tickets { st with
      accepted := st.accepted.set i (r, .done), queue := st.queue ++ [(i, r)] } =
      st.tickets ++ [(i, r)] := by
    simp [SubState.tickets, SubState.lives, SubState.batch]
  refine { h with handed := ?_, once := ?_, gate := ?_ }
  · rw [htickets]
    exact hhanded
  · rw [htickets]
    exact honce
  · rcases h.gate with hgate | ⟨hopen, -⟩
    · exact Or.inl hgate
    · rw [hshut] at hopen
      cases hopen

theorem delivered (h : SubInv st) {i : ℕ} {r : Record} (hi : st.accepted[i]? = some (r, .copied))
    (hopen : st.replaying = false) :
    SubInv { st with
      accepted := st.accepted.set i (r, .done), calls := st.calls ++ [.live (i, r)] } := by
  obtain ⟨hhanded, honce⟩ := h.handed_concat hi
  -- nothing is queued and nothing is left of a batch
  obtain ⟨hpc, hqueue⟩ := h.opened hopen
  have htickets : SubState.tickets { st with
      accepted := st.accepted.set i (r, .done), calls := st.calls ++ [.live (i, r)] } =
      st.tickets ++ [(i, r)] := by
    simp [SubState.tickets, SubState.lives, SubState.batch, hpc, hqueue]
  have hreplays : SubState.replays { st with
      accepted := st.accepted.set i (r, .done), calls := st.calls ++ [.live (i, r)] } =
      st.replays := replays_of_live rfl
  refine { h with handed := ?_, once := ?_, seen := ?_, table := ?_, unseen := ?_, early := ?_ }
  · rw [htickets]
    exact hhanded
  · rw [htickets]
    exact honce
  · rw [hreplays]
    exact h.seen
  · rw [hreplays]
    exact h.table
  · rw [hreplays]
    exact h.unseen
  · intro hearly
    have hearly' : st.pc.replayedAll = false := hearly
    rw [hpc] at hearly'
    cases hearly'

/-- `Subscribe` itself leaves the store and the acceptances alone and adds no ticket. -/
theorem subscriber {st' : SubState} (h : SubInv st) (hstore : st'.store = st.store)
    (hacc : st'.accepted = st.accepted) (htickets : st'.tickets.Sublist st.tickets)
    (hseen : st'.snapshot = st'.replays ++ st'.rest) (hkeys : (st'.snapshot.map keyOf).Nodup)
    (htable : ∀ k h, st'.replayed.lookup k = some h ↔
      ∃ x ∈ st'.replays, keyOf x = k ∧ x.hlc = h)
    (hunseen : st'.pc.snapped = false → st'.replays = [])
    (hearly : st'.pc.replayedAll = false → st'.lives = [])
    (hgate : st'.replaying = true ∧ st'.pc ≠ .returned ∨
      st'.replaying = false ∧ st'.pc = .returned ∧ st'.queue = []) : SubInv st' where
  placed t := by
    rw [hstore]
    exact h.placed t
  handed t ht := by
    rw [hacc]
    exact h.handed t (htickets.subset ht)
  once := h.once.sublist (htickets.map _)
  seen := hseen
  keys := hkeys
  table := htable
  unseen := hunseen
  early := hearly
  gate := hgate

theorem registered (h : SubInv st) (hpc : st.pc = .start) :
    SubInv { st with pc := .registered } := by
  have hseen := h.seen
  have hrest : st.rest = [] := by simp [SubState.rest, hpc]
  rw [hrest] at hseen
  refine h.subscriber rfl rfl ?_ hseen h.keys h.table (fun _ => h.unseen (by rw [hpc]; rfl))
    (fun _ => h.early (by rw [hpc]; rfl)) (Or.inl ⟨h.shut (by simp [hpc]), by simp⟩)
  simp [SubState.tickets, SubState.lives, SubState.batch, hpc]

/-- A snapshot has every slot once. -/
theorem nodup_keys_topicRecordsAll {s : RecordStore} {t : Topic} (hp : Placed t (s.topic t)) :
    ((s.topicRecordsAll t).map keyOf).Nodup := by
  have hasc := topicRecordsWhere_pairwise hp fun _ => true
  refine List.Pairwise.map keyOf (fun a b hlt => ?_) hasc
  intro heq
  rw [heq] at hlt
  exact lt_irrefl _ hlt

theorem snapped (h : SubInv st) (hpc : st.pc = .registered) :
    SubInv { st with
      pc := .replay (st.store.topicRecordsAll topic)
      snapshot := st.store.topicRecordsAll topic
      before := st.accepted.length } := by
  refine h.subscriber rfl rfl ?_ ?_ (nodup_keys_topicRecordsAll (h.placed topic)) h.table
    (fun hno => (by cases hno)) (fun _ => h.early (by rw [hpc]; rfl))
    (Or.inl ⟨h.shut (by simp [hpc]), by simp⟩)
  · simp [SubState.tickets, SubState.lives, SubState.batch, hpc]
  · show st.store.topicRecordsAll topic = st.replays ++ st.store.topicRecordsAll topic
    rw [h.unseen (by rw [hpc]; rfl), List.nil_append]

theorem replayed (h : SubInv st) {r : Record} {rest : List Record}
    (hpc : st.pc = .replay (r :: rest)) :
    SubInv { st with
      pc := .replay rest
      replayed := st.replayed.insert (keyOf r) r.hlc
      calls := st.calls ++ [.replay r] } := by
  have hseen : st.snapshot = st.replays ++ r :: rest := by
    rw [h.seen]
    simp [SubState.rest, hpc]
  -- the slot of the record was not replayed before
  have hfresh : ∀ x ∈ st.replays, keyOf x ≠ keyOf r := by
    intro x hx heq
    have hnodup := h.keys
    rw [hseen, List.map_append, List.nodup_append] at hnodup
    exact hnodup.2.2 _ (List.mem_map_of_mem hx) _ List.mem_cons_self heq
  refine h.subscriber rfl rfl ?_ ?_ h.keys ?_ (fun hno => (by cases hno)) ?_
    (Or.inl ⟨h.shut (by simp [hpc]), by simp⟩)
  · simp [SubState.tickets, SubState.lives, SubState.batch, hpc]
  · rw [replays_of_replay rfl, List.append_assoc]
    exact hseen
  · intro k v
    rw [replays_of_replay rfl]
    show (st.replayed.insert (keyOf r) r.hlc).lookup k = some v ↔ _
    rw [FMap.lookup_insert_eq]
    simp only [List.mem_append, List.mem_singleton]
    by_cases hk : k = keyOf r
    · rw [if_pos hk]
      constructor
      · intro hv
        cases hv
        exact ⟨r, Or.inr rfl, hk.symm, rfl⟩
      · rintro ⟨x, hx | rfl, hkey, hv⟩
        · exact absurd (hkey.trans hk) (hfresh x hx)
        · rw [hv]
    · rw [if_neg hk, h.table]
      constructor
      · rintro ⟨x, hx, hxk⟩
        exact ⟨x, Or.inl hx, hxk⟩
      · rintro ⟨x, hx | rfl, hkey, hv⟩
        · exact ⟨x, hx, hkey, hv⟩
        · exact absurd hkey.symm hk
  · intro _
    rw [lives_of_replay rfl]
    exact h.early (by rw [hpc]; rfl)

/-- After the replay nothing is left of the snapshot. -/
theorem seen_of_replayedAll (h : SubInv st) (hpc : st.rest = []) : st.snapshot = st.replays := by
  rw [h.seen, hpc, List.append_nil]

/-- `finishReplay` moves on without a call. -/
theorem finishing (h : SubInv st) {batch queue : List Ticket} (hrest : st.rest = [])
    (hpc : st.pc ≠ .returned) (hwaiting : (batch ++ queue).Sublist (st.batch ++ st.queue)) :
    SubInv { st with pc := .flush batch, queue := queue } := by
  refine h.subscriber rfl rfl ?_ ?_ h.keys h.table (fun hno => (by cases hno))
    (fun hno => (by cases hno)) (Or.inl ⟨h.shut hpc, by simp⟩)
  · show (st.lives ++ batch ++ queue).Sublist (st.lives ++ st.batch ++ st.queue)
    rw [List.append_assoc, List.append_assoc]
    exact hwaiting.append_left _
  · show st.snapshot = st.replays ++ []
    rw [h.seen_of_replayedAll hrest, List.append_nil]

theorem flushed (h : SubInv st) {t : Ticket} {rest : List Ticket}
    (hpc : st.pc = .flush (t :: rest)) :
    SubInv { st with pc := .flush rest, calls := st.calls ++ [.live t] } := by
  have hreplays : SubState.replays { st with
      pc := .flush rest, calls := st.calls ++ [.live t] } = st.replays := replays_of_live rfl
  refine h.subscriber rfl rfl ?_ ?_ h.keys ?_ (fun hno => (by cases hno))
    (fun hno => (by cases hno)) (Or.inl ⟨h.shut (by simp [hpc]), by simp⟩)
  · simp [SubState.tickets, SubState.lives, SubState.batch, hpc]
  · rw [hreplays, h.seen]
    simp [SubState.rest, hpc]
  · rw [hreplays]
    exact h.table

theorem returned (h : SubInv st) (hpc : st.pc = .flush []) (hqueue : st.queue = []) :
    SubInv { st with pc := .returned, replaying := false } := by
  refine h.subscriber rfl rfl ?_ ?_ h.keys h.table (fun hno => (by cases hno))
    (fun hno => (by cases hno)) (Or.inr ⟨rfl, rfl, hqueue⟩)
  · simp [SubState.tickets, SubState.lives, SubState.batch, hpc]
  · rw [h.seen]
    simp [SubState.rest, SubState.replays, hpc]

/-- Every step keeps the invariant. -/
theorem step (h : SubInv st) (a : SubAct) : SubInv (a.step cfg topic st) := by
  have heff := subEffect cfg topic st a
  generalize a.step cfg topic st = st' at heff ⊢
  cases heff with
  | idle _ => exact h
  | stored => exact { h with placed := h.placed_applyExt cfg _ _ }
  | accepted => exact h.accepted _ _
  | missed _ hi => exact h.advance .done hi (by decide)
  | copied hi => exact h.advance .copied hi (by decide)
  | queued hi hshut => exact h.queued hi hshut
  | delivered hi hopen => exact h.delivered hi hopen
  | registered hpc => exact h.registered hpc
  | snapped hpc => exact h.snapped hpc
  | replayed hpc => exact h.replayed hpc
  | entered hpc =>
    exact h.finishing (by simp [SubState.rest, hpc]) (by simp [hpc]) (by simp)
  | skipped hpc _ =>
    exact h.finishing (by simp [SubState.rest, hpc]) (by simp [hpc])
      (by simp [SubState.batch, hpc])
  | flushed hpc _ => exact h.flushed hpc
  | opened hpc hqueue => exact h.returned hpc hqueue
  | taken hpc =>
    exact h.finishing (by simp [SubState.rest, hpc]) (by simp [hpc])
      (by simp [SubState.batch, hpc])

end SubInv

/-- A record of the snapshot is covered once the snapshot is replayed. -/
theorem SubInv.covered_of_mem {st : SubState} (h : SubInv st) {r x : Record}
    (hx : x ∈ st.replays) (hkey : keyOf x = keyOf r) (hle : r.hlc ≤ x.hlc) :
    SubState.covered st.replayed r = true := by
  unfold SubState.covered
  rw [(h.table (keyOf r) x.hlc).mpr ⟨x, hx, hkey, rfl⟩]
  exact decide_eq_true hle

theorem SubInv.initial (cfg : StoreConfig) (calls : List StoreOp) :
    SubInv { store := runStore cfg {} calls } := .start (run_placed cfg calls)

/-- A record of node 9. -/
def ownedBy9 (sig : UInt8) (hlc : UInt64) : Record :=
  { topic := [116], nodeID := [9], hlc := hlc, body := [7], sig := [sig] }

end Swarm
