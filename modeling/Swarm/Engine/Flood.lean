import Swarm.Engine.Kept
import Swarm.Store.Relay

/-!
# Relaying attestations

A node relays a pushed attestation when the store reports it accumulated, so how often it does so
is how often that report is made (`relays_le_accumulations`): at most once among steady calls, and
again and again when two attestations of one observer replace each other
(`swappedPushes_relayed_twice`).

Whatever the store reports, each hop lowers the TTL by one, so a flood of pushes and what follows
from it ends in every network (`flood_terminates`).
-/

namespace Swarm

/-! ## What a push makes a node send -/

/-- The node has the same store and sent only frames in `F` since. -/
structure Pushed (F : Frame → Prop) (n n' : Node) : Prop where
  store : n'.store = n.store
  trace : ∃ evs, n'.trace = n.trace ++ evs ∧ ∀ e ∈ sends evs, F e.2

namespace Pushed

variable {env : Env} {F : Frame → Prop} {n n' n'' : Node}

theorem refl (F : Frame → Prop) (n : Node) : Pushed F n n :=
  ⟨rfl, [], (List.append_nil _).symm, fun _ h => (nomatch h)⟩

/-- What changes neither the store nor the trace. -/
theorem frame (h : Pushed F n n') (hstore : n''.store = n'.store) (htrace : n''.trace = n'.trace) :
    Pushed F n n'' :=
  ⟨hstore.trans h.store, htrace ▸ h.trace⟩

theorem event (h : Pushed F n n') {e : Event} (he : ∀ p ∈ sends [e], F p.2)
    (hstore : n''.store = n'.store) (htrace : n''.trace = n'.trace ++ [e]) : Pushed F n n'' := by
  obtain ⟨evs, hevs, hF⟩ := h.trace
  refine ⟨hstore.trans h.store, evs ++ [e], by rw [htrace, hevs, List.append_assoc], fun p hp => ?_⟩
  rw [sends_append, List.mem_append] at hp
  exact hp.elim (hF p) (he p)

theorem quiet (hihave : ∀ topic node key hlc h, F (frameIHave topic node key hlc h))
    (hprune : ∀ topic, F (framePrune topic)) : Quiet env (fun _ => F) (Pushed F n) where
  toPushes := .of_core (fun _ => hihave) (fun _ => hprune)
    (fun _ _ hf h => h.event (fun p hp => by rw [List.mem_singleton.mp hp]; exact hf) rfl rfl)
    (fun h hcore => h.frame hcore.store hcore.trace)
  accept r h := h.event (fun p hp => by simp [sends] at hp) rfl rfl

end Pushed

/-- The frames handling a push may send: announcements, prunes, and the record one hop on if the
store reported it. -/
inductive PushAnswer (r : Record) (ttl : UInt32) (res : ApplyResult) : Frame → Prop where
  | announce (topic : Topic) (node : NodeID) (key : Bytes) (hlc : UInt64) (h : Bytes) :
    PushAnswer r ttl res (frameIHave topic node key hlc h)
  | prune (topic : Topic) : PushAnswer r ttl res (framePrune topic)
  | forward (httl : 1 < ttl) (hres : res.applied = true ∨ res.accumulated = true) :
    PushAnswer r ttl res (frameEagerPush r (ttl - 1))

/-- Handling a pushed record: nothing when the gate holds it back, else one call on the store and
the frames that follow from its result. -/
theorem handleEager_step (n : Node) (env : Env) (rd : Reading) (sender : NodeID) (r : Record)
    (ttl : UInt32) :
    (env.gate.letThrough env.cr rd.wallMs r = false ∧
      Pushed (fun _ => False) n (n.handleEager env rd sender (some r) ttl)) ∨
    (env.gate.letThrough env.cr rd.wallMs r = true ∧
      ∃ n' : Node, n'.store = (applyExt env.storeCfg rd.nowMs n.store r).2 ∧
        n'.trace = n.trace ++ [.apply rd.nowMs r (applyExt env.storeCfg rd.nowMs n.store r).1] ∧
        Pushed (PushAnswer r ttl (applyExt env.storeCfg rd.nowMs n.store r).1) n'
          (n.handleEager env rd sender (some r) ttl)) := by
  by_cases hok : env.gate.letThrough env.cr rd.wallMs r = true
  · obtain ⟨n', happ, hstore, htrace, -⟩ := n.applyExt_inbound env rd r
    refine Or.inr ⟨hok, n', hstore, htrace, ?_⟩
    generalize (applyExt env.storeCfg rd.nowMs n.store r).1 = res at happ
    have hq : Quiet env (fun _ => PushAnswer r ttl res) (Pushed (PushAnswer r ttl res) n') :=
      Pushed.quiet .announce .prune
    have hrefl := Pushed.refl (PushAnswer r ttl res) n'
    unfold Node.handleEager
    dsimp only
    rw [inbound_eq_true_iff.mpr hok, happ]
    split_ifs with hno hrel hrep hnew
    · cases hno
    · refine hq.relayAttestation sender (fun httl _ => .forward httl (Or.inr ?_)) hrefl
      simp only [Bool.and_eq_true] at hrel
      exact hrel.1.2
    · exact hq.sendPrune sender _ hrefl
    · exact hrefl
    · exact hq.eagerAccepted rd sender (fun httl _ => .forward httl (Or.inl (by simpa using hnew)))
        hrefl
  · have hno : (n.inbound env rd r).1 = false :=
      Bool.eq_false_iff.mpr fun h => hok (inbound_eq_true_iff.mp h)
    obtain ⟨hstore, htrace, -⟩ := n.inbound_frame env rd r
    refine Or.inl ⟨Bool.not_eq_true _ ▸ hok, ?_⟩
    unfold Node.handleEager
    dsimp only
    rw [hno]
    exact (Pushed.refl _ n).frame hstore htrace

/-- The frames that handling a push sends. -/
theorem sentSince_handleEager {n : Node} {env : Env} {rd : Reading} {sender : NodeID} {r : Record}
    {ttl : UInt32} {e : NodeID × Frame}
    (he : e ∈ n.sentSince (n.handleEager env rd sender (some r) ttl)) :
    env.gate.letThrough env.cr rd.wallMs r = true ∧
      PushAnswer r ttl (applyExt env.storeCfg rd.nowMs n.store r).1 e.2 := by
  unfold Node.sentSince at he
  rcases handleEager_step n env rd sender r ttl with
    ⟨-, -, evs, htrace, hF⟩ | ⟨hok, n', -, htr, -, evs, htrace, hF⟩
  · rw [htrace, List.drop_left] at he
    exact (hF e he).elim
  · rw [htrace, htr, List.append_assoc, List.drop_left, List.singleton_append] at he
    exact ⟨hok, hF e he⟩

/-! ## Relays of one node -/

/-- A pushed record and how it arrives. -/
structure Push where
  rd : Reading
  sender : NodeID
  record : Record
  ttl : UInt32

/-- Handle a push. -/
def Node.push (n : Node) (env : Env) (p : Push) : Node :=
  n.handleEager env p.rd p.sender (some p.record) p.ttl

/-- The calls on the store a sequence of pushes leads to. -/
def passed (env : Env) (ps : List Push) : List (Int64 × Record) :=
  ps.filterMap fun p =>
    if env.gate.letThrough env.cr p.rd.wallMs p.record then some (p.rd.nowMs, p.record) else none

theorem passed_cons (env : Env) (p : Push) (ps : List Push) :
    passed env (p :: ps) =
      if env.gate.letThrough env.cr p.rd.wallMs p.record then
        (p.rd.nowMs, p.record) :: passed env ps
      else passed env ps := by
  unfold passed
  rw [List.filterMap_cons]
  split_ifs <;> rfl

/-- Whether handling the push sends a frame with a record. -/
def Node.relayed (n : Node) (env : Env) (p : Push) : Bool :=
  (n.sentSince (n.push env p)).any fun e => !e.2.records.isEmpty

/-- How often a sequence of pushes makes the node send on `x`. -/
def relays (env : Env) (x : Record) : Node → List Push → ℕ
  | _, [] => 0
  | n, p :: ps =>
    (if p.record = x ∧ n.relayed env p = true then 1 else 0) + relays env x (n.push env p) ps

/-- An attestation that changed a slot was accumulated too. -/
theorem accumulated_of_applied {cfg : StoreConfig} {nowMs : Int64} {s : RecordStore} {r : Record}
    (hatt : r.isObserverAttestation = true) (h : (applyExt cfg nowMs s r).1.applied = true) :
    (applyExt cfg nowMs s r).1.accumulated = true := by
  rcases applyExt_eq cfg nowMs s r with ⟨-, -, heq⟩ | heq
  · rw [heq] at h
    cases h
  · rw [heq, applyTopic, if_pos hatt] at h ⊢
    refine (accumulated_iff_admitted _ _ _ _).mpr ?_
    have hstep := applyAttestationLocked_step cfg nowMs (s.topic r.topic) r
    generalize applyAttestationLocked cfg nowMs (s.topic r.topic) r = o at hstep h
    cases hstep with
    | refused => cases h
    | kept => cases h
    | crossed hok => exact hok

/-- A record is sent on only when its call reported it. -/
theorem reported_of_relayed {n : Node} {env : Env} {p : Push} (h : n.relayed env p = true) :
    env.gate.letThrough env.cr p.rd.wallMs p.record = true ∧
      ((applyExt env.storeCfg p.rd.nowMs n.store p.record).1.applied = true ∨
        (applyExt env.storeCfg p.rd.nowMs n.store p.record).1.accumulated = true) := by
  obtain ⟨e, he, hrec⟩ := List.any_eq_true.mp h
  obtain ⟨hok, hans⟩ := sentSince_handleEager he
  refine ⟨hok, ?_⟩
  generalize e.2 = f at hans hrec
  cases hans with
  | announce => cases hrec
  | prune => cases hrec
  | forward _ hres => exact hres

theorem store_push (n : Node) (env : Env) (p : Push) :
    (n.push env p).store =
      if env.gate.letThrough env.cr p.rd.wallMs p.record then
        applyCall env.storeCfg n.store (p.rd.nowMs, p.record)
      else n.store := by
  unfold Node.push applyCall
  rcases handleEager_step n env p.rd p.sender p.record p.ttl with
    ⟨hno, hstore, -⟩ | ⟨hok, n', hn', -, hstore, -⟩
  · rw [hno, hstore, if_neg Bool.false_ne_true]
  · rw [hok, hstore, hn', if_pos rfl]

/-- A node sends an attestation on at most as often as its store reports it accumulated. -/
theorem relays_le_accumulations (env : Env) (x : Record) (n : Node) (ps : List Push)
    (hatt : ∀ c ∈ passed env ps, c.2.isObserverAttestation = true) :
    relays env x n ps ≤ accumulations env.storeCfg x n.store (passed env ps) := by
  induction ps generalizing n with
  | nil => exact le_rfl
  | cons p ps ih =>
    have htail := ih (n.push env p)
    rw [store_push] at htail
    unfold relays
    rw [passed_cons] at hatt ⊢
    by_cases hok : env.gate.letThrough env.cr p.rd.wallMs p.record = true
    · rw [if_pos hok] at hatt htail ⊢
      have hhere : (if p.record = x ∧ n.relayed env p = true then 1 else 0) ≤
          if p.record = x ∧
            (applyExt env.storeCfg p.rd.nowMs n.store p.record).1.accumulated = true then 1
          else 0 := by
        split_ifs with hrel hacc
        · exact le_rfl
        · refine absurd ⟨hrel.1, ?_⟩ hacc
          exact (reported_of_relayed hrel.2).2.elim
            (accumulated_of_applied (hatt _ List.mem_cons_self)) id
        · exact Nat.zero_le 1
        · exact le_rfl
      exact Nat.add_le_add hhere (htail fun c hc => hatt c (List.mem_cons_of_mem _ hc))
    · rw [if_neg hok] at hatt htail ⊢
      rw [if_neg fun h => hok (reported_of_relayed h.2).1, Nat.zero_add]
      exact htail hatt

/-! ## Floods -/

/-- Pushes and what they make a node send. -/
def Flooding : Frame → Prop
  | .eager _ _ => True
  | .ihave _ _ _ _ _ => True
  | .prune _ => True
  | _ => False

/-- The hops a frame has left. -/
def hops : Frame → ℕ
  | .eager _ ttl => ttl.toNat + 1
  | _ => 0

/-- What answers a flooding frame has fewer hops left. -/
theorem flooding_answer (env : NodeID → Env) (i : NodeID) (n : Node) (src : NodeID) (f : Frame)
    (rd : Reading) (hf : Flooding f) :
    ∀ e ∈ (frameHandler env i n src f rd).2, Flooding e.2 ∧ hops e.2 < hops f := by
  intro e he
  unfold frameHandler Node.onReceive Node.receiveFrame at he
  dsimp only at he
  split_ifs at he
  · exact absurd he (not_mem_sentSince rfl e)
  · exact absurd he (not_mem_sentSince rfl e)
  · cases f with
    | eager record ttl =>
      cases record with
      | none => exact absurd he (not_mem_sentSince rfl e)
      | some r =>
        obtain ⟨-, hans⟩ := sentSince_handleEager he
        generalize e.2 = g at hans
        cases hans with
        | announce => exact ⟨trivial, Nat.succ_pos _⟩
        | prune => exact ⟨trivial, Nat.succ_pos _⟩
        | forward httl =>
          refine ⟨trivial, ?_⟩
          show (ttl - 1).toNat + 1 < ttl.toNat + 1
          have hlt : 1 < ttl.toNat := UInt32.lt_iff_toNat_lt.mp httl
          rw [UInt32.toNat_sub_of_le _ _ (UInt32.le_of_lt httl),
            show (1 : UInt32).toNat = 1 from rfl]
          omega
    | ihave topic node hlc h key =>
      obtain ⟨missing, heq⟩ := n.handleIHave_eq (env i) rd src topic node hlc key
      refine absurd he (not_mem_sentSince ?_ e)
      show (n.handleIHave (env i) rd src topic node hlc key).trace = n.trace
      rw [heq]
    | prune => exact absurd he (not_mem_sentSince rfl e)
    | _ => exact hf.elim

/-- A flood of pushes ends: no network delivers for ever. -/
theorem flood_terminates (env : NodeID → Env) (net : Network.Net NodeID Node Frame)
    (hflood : ∀ p ∈ net.flight, Flooding p.msg) :
    ¬ ∃ run : ℕ → Network.Net NodeID Node Frame,
      run 0 = net ∧ ∀ k, Network.Step (frameHandler env) (run k) (run (k + 1)) :=
  Network.no_infinite_run (Network.acc_of_rank (flooding_answer env) net hflood)

/-- **Relay of attestations.** From every store, calls that are all steady report each attestation
accumulated at most once. A node whose store they are made on sends each attestation on at most
once, whatever the TTLs, and a flood of pushes ends in every network. -/
theorem attestations_relayed_once (cfg : StoreConfig) (s : RecordStore)
    (calls : List (Int64 × Record))
    (hsteady : Runs.StepsMeet (applyCall cfg) (SteadyCall cfg) s calls) :
    (∀ x, accumulations cfg x s calls ≤ 1) ∧
    (∀ (env : Env) (n : Node) (ps : List Push), env.storeCfg = cfg → n.store = s →
      passed env ps = calls → ∀ x, relays env x n ps ≤ 1) ∧
    ∀ (env : NodeID → Env) (net : Network.Net NodeID Node Frame),
      (∀ p ∈ net.flight, Flooding p.msg) →
      ¬ ∃ run : ℕ → Network.Net NodeID Node Frame,
        run 0 = net ∧ ∀ k, Network.Step (frameHandler env) (run k) (run (k + 1)) := by
  refine ⟨fun x => accumulations_le_one hsteady, ?_, flood_terminates⟩
  rintro env n ps rfl rfl rfl x
  have hatt := hsteady.forall_mem fun _ _ hc => hc.1
  exact (relays_le_accumulations env x n ps hatt).trans (accumulations_le_one hsteady)

/-- An attestation against node 9, signed in the clear. -/
def attestation (observer : UInt8) (observedAt : Int64) (hlc : UInt64) : Record :=
  signRecord .inClear
    { topic := [116], nodeID := [9], hlc := hlc, tombstone := true, observerNodeID := [observer]
      observedAtUnixMs := observedAt }
    (List.replicate 64 observer)

/-- A new node with one peer. -/
def plainNode : Node := (newNode ⟨0, 0⟩ fun _ => {}).onPeerJoin [2]

/-- Two observers attest the death of node 9; the first attestation arrives again. -/
def freshPushes : List Push :=
  [⟨⟨0, 0⟩, [1], attestation 1 10 5, 8⟩, ⟨⟨0, 0⟩, [3], attestation 3 20 6, 8⟩,
    ⟨⟨0, 0⟩, [4], attestation 1 10 5, 8⟩]

theorem freshPushes_relayed_once :
    passed plainEnv freshPushes = freshPushes.map (fun p => (0, p.record)) ∧
    Runs.StepsMeet (applyCall {}) (SteadyCall {}) {} (freshPushes.map fun p => (0, p.record)) ∧
    relays plainEnv (attestation 1 10 5) plainNode freshPushes ≤ 1 := by
  have hpassed : passed plainEnv freshPushes = freshPushes.map (fun p => (0, p.record)) := by
    decide +kernel
  have hsteady : Runs.StepsMeet (applyCall {}) (SteadyCall {}) {}
      (freshPushes.map fun p => (0, p.record)) := by
    refine ⟨⟨rfl, fun _ => ⟨by decide +kernel, ?_⟩⟩, ⟨rfl, fun _ => ⟨by decide +kernel, ?_⟩⟩,
      ⟨rfl, fun _ => ⟨by decide +kernel, ?_⟩⟩, trivial⟩
    all_goals
      simp only [← Option.mem_def]
      decide +kernel
  exact ⟨hpassed, hsteady, (attestations_relayed_once {} {} _ hsteady).2.1 plainEnv plainNode
    freshPushes rfl rfl hpassed _⟩

/-- One observer's attestations, each newer than the other in one field, take turns. -/
def swappedPushes : List Push :=
  [⟨⟨0, 0⟩, [1], attestation 1 10 5, 8⟩, ⟨⟨0, 0⟩, [1], attestation 1 5 10, 8⟩,
    ⟨⟨0, 0⟩, [1], attestation 1 10 5, 8⟩]

theorem swappedPushes_relayed_twice :
    (∀ p ∈ swappedPushes, p.record.isObserverAttestation = true) ∧
    accumulations {} (attestation 1 10 5) {} (passed plainEnv swappedPushes) = 2 ∧
    relays plainEnv (attestation 1 10 5) plainNode swappedPushes = 2 := by
  decide +kernel

end Swarm
