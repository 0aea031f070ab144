import Swarm.Engine.Kept
import Swarm.Lib.Runs
import Swarm.Store.Forward

/-!
# The accepted-change stream

`recordAccepted` feeds `OnAccepted` and the subscribers. The handlers call it when `ApplyExt`
reported a change; `PublishKeyed` and `PublishKeyedTombstone` call it in any case, since the engine
keeps the result to itself. So the stream shows a record the store refused, for a cap or for its
clock.

`stream_faithful_iff` says that this is the only difference: along a run the records handed to
`recordAccepted` are those `ApplyExt` applied, in order, exactly when the store takes every record
published.
-/

namespace Swarm

/-- The records handed to `recordAccepted`. -/
def acceptedIn : List Event → List Record
  | [] => []
  | .accept r :: l => r :: acceptedIn l
  | .send _ _ :: l => acceptedIn l
  | .apply _ _ _ :: l => acceptedIn l
  | .reap _ _ :: l => acceptedIn l

/-- The records whose `ApplyExt` reported a change. -/
def appliedIn : List Event → List Record
  | [] => []
  | .apply _ r res :: l => if res.applied then r :: appliedIn l else appliedIn l
  | .accept _ :: l => appliedIn l
  | .send _ _ :: l => appliedIn l
  | .reap _ _ :: l => appliedIn l

theorem acceptedIn_append (l l' : List Event) :
    acceptedIn (l ++ l') = acceptedIn l ++ acceptedIn l' := by
  induction l with
  | nil => rfl
  | cons e l ih => cases e <;> simp [acceptedIn, ih]

theorem appliedIn_append (l l' : List Event) :
    appliedIn (l ++ l') = appliedIn l ++ appliedIn l' := by
  induction l with
  | nil => rfl
  | cons e l ih =>
    cases e with
    | apply nowMs r res =>
      cases h : res.applied <;> simp [appliedIn, h, ih]
    | _ => simp [appliedIn, ih]

/-- The stream shows what the store applied, in order. -/
def Faithful (n : Node) : Prop := acceptedIn n.trace = appliedIn n.trace

/-! ## The two streams through the handlers -/

/-- The accepted and the applied records so far. -/
structure Streams (acc app : List Record) (n : Node) : Prop where
  accepted : acceptedIn n.trace = acc
  applied : appliedIn n.trace = app

namespace Streams

variable {env : Env} {acc app : List Record} {n : Node}

theorem calm (env : Env) (acc app : List Record) : Calm env (fun _ => True) (Streams acc app) :=
  .of_core
    (fun _ _ _ h => ⟨by simpa [Node.send, acceptedIn_append, acceptedIn] using h.accepted,
      by simpa [Node.send, appliedIn_append, appliedIn] using h.applied⟩)
    (fun h hcore => ⟨by rw [hcore.trace]; exact h.accepted, by rw [hcore.trace]; exact h.applied⟩)

theorem accept (h : Streams acc app n) (r : Record) : Streams (acc ++ [r]) app (n.accept r) where
  accepted := by
    rw [Node.accept, acceptedIn_append, h.accepted]
    rfl
  applied := by simpa [Node.accept, appliedIn_append, appliedIn] using h.applied

/-- A call on the store extends the applied records by its result. -/
theorem call (h : Streams acc app n) (env : Env) (rd : Reading) (r : Record) :
    Streams acc (app ++ if (n.applyExt env rd r).1.applied then [r] else [])
      (n.applyExt env rd r).2 where
  accepted := by simpa [Node.applyExt, acceptedIn_append, acceptedIn] using h.accepted
  applied := by
    show appliedIn (n.trace ++ [.apply rd.nowMs r (n.applyExt env rd r).1]) = _
    rw [appliedIn_append, h.applied]
    rfl

theorem reapExpired (h : Streams acc app n) (nowMs : Int64) (ttlFor : Option (Topic → Duration)) :
    Streams acc app (n.reapExpired nowMs ttlFor) where
  accepted := by simpa [Node.reapExpired, acceptedIn_append, acceptedIn] using h.accepted
  applied := by simpa [Node.reapExpired, appliedIn_append, appliedIn] using h.applied

theorem eagerAccepted (h : Streams acc app n) (rd : Reading) (sender : NodeID) (r : Record)
    (ttl : UInt32) : Streams (acc ++ [r]) app (n.eagerAccepted env rd sender r ttl) := by
  have hacc : Streams (acc ++ [r]) app (((n.promoteTreeEdgeBounded env sender).clearIHave
      { topic := r.topic, nodeID := r.nodeID, key := r.key, hlc := r.hlc }).accept r) :=
    ((calm env acc app).clear _ ((calm env acc app).promote sender h)).accept r
  have hpush := calm env (acc ++ [r]) app
  unfold Node.eagerAccepted
  dsimp only
  split_ifs
  · exact hpush.lazyPush rd r (hpush.eagerForward sender (fun _ => .push trivial) hacc)
  · exact hpush.lazyPush rd r hacc

end Streams

namespace Faithful

variable {env : Env} {n : Node}

theorem of_streams {l : List Record} (h : Streams l l n) : Faithful n :=
  h.accepted.trans h.applied.symm

theorem streams (h : Faithful n) : Streams (appliedIn n.trace) (appliedIn n.trace) n := ⟨h, rfl⟩

theorem calm (env : Env) : Calm env (fun _ => True) Faithful :=
  .of_core
    (fun dst _ hf h => of_streams ((Streams.calm env _ _).send dst hf h.streams))
    (fun h hcore => by
      unfold Faithful
      rw [hcore.trace]
      exact h)

/-- After a call that changed nothing the streams still agree. -/
theorem not_applied (h : Faithful n) {rd : Reading} {r : Record}
    (hno : (n.applyExt env rd r).1.applied = false) : Faithful (n.applyExt env rd r).2 := by
  have hcall := h.streams.call env rd r
  rw [hno, if_neg Bool.false_ne_true, List.append_nil] at hcall
  exact of_streams hcall

/-- After a call that changed the store the applied records are one ahead. -/
theorem applied (h : Faithful n) {rd : Reading} {r : Record}
    (hyes : (n.applyExt env rd r).1.applied = true) :
    Streams (appliedIn n.trace) (appliedIn n.trace ++ [r]) (n.applyExt env rd r).2 := by
  have hcall := h.streams.call env rd r
  rwa [hyes, if_pos rfl] at hcall

/-- Letting a record in and observing its clock touches neither stream. -/
theorem observed (h : Faithful n) (env : Env) (rd : Reading) (r : Record) :
    Faithful ((n.inbound env rd r).2.observe rd r.hlc) := (calm env).inbound_snd rd r h

/-- A record off the wire is announced exactly when it was applied. -/
theorem handleEager (h : Faithful n) (rd : Reading) (sender : NodeID) (record : Option Record)
    (ttl : UInt32) : Faithful (n.handleEager env rd sender record ttl) := by
  unfold Node.handleEager
  cases record with
  | none => exact h
  | some r =>
    have hobs := h.observed env rd r
    dsimp only
    generalize (n.inbound env rd r).2.observe rd r.hlc = m at hobs ⊢
    cases happ : (m.applyExt env rd r).1.applied with
    | false =>
      have hcall := hobs.not_applied happ
      simp only [Bool.not_false, Bool.true_and]
      split_ifs
      · exact (calm env).inbound_snd rd r h
      · exact (calm env).relayAttestation sender (fun _ _ => .push trivial) hcall
      · exact (calm env).sendPrune sender _ hcall
      · exact hcall
    | true =>
      simp only [Bool.not_true, Bool.false_and, Bool.false_eq_true, if_false]
      split_ifs
      · exact (calm env).inbound_snd rd r h
      · exact of_streams ((hobs.applied happ).eagerAccepted rd sender r ttl)

theorem receiveRecord (h : Faithful n) (rd : Reading) (r : Record) :
    Faithful (Node.receiveRecord env rd n r) := by
  have hobs := h.observed env rd r
  unfold Node.receiveRecord
  dsimp only
  generalize (n.inbound env rd r).2.observe rd r.hlc = m at hobs ⊢
  split_ifs with hno happ
  · exact (calm env).inbound_snd rd r h
  · exact of_streams ((hobs.applied happ).accept r)
  · exact hobs.not_applied (by simpa using happ)

theorem handleRange (h : Faithful n) (rd : Reading) (sender : NodeID) (topic : Topic)
    (records : List Record) (truncated : Bool) :
    Faithful (n.handleRange env rd sender topic records truncated) := by
  have hall : Faithful (records.foldl (Node.receiveRecord env rd) n) :=
    List.foldlRecOn _ _ h fun _ hn r _ => hn.receiveRecord rd r
  unfold Node.handleRange
  dsimp only
  split
  · exact hall
  · split_ifs
    · exact (calm env).sendProbe _ _ _ _ hall
    · exact hall

theorem applyAndBroadcast (h : Faithful n) (rd : Reading) (r : Record) :
    Faithful (n.applyAndBroadcast env rd r) := by
  unfold Node.applyAndBroadcast
  dsimp only
  split_ifs with happ
  · exact (calm env).broadcast rd (fun _ => .push trivial) (of_streams ((h.applied happ).accept r))
  · exact (calm env).broadcast rd (fun _ => .push trivial) (h.not_applied (by simpa using happ))

theorem setTenant (h : Faithful n) (rd : Reading) (tenantID : Bytes) :
    Faithful (n.setTenant env rd tenantID) := by
  unfold Node.setTenant
  split_ifs
  · exact h
  · exact List.foldlRecOn _ _ h fun m hm r _ => applyAndBroadcast (n := m.stamp rd) hm rd _

end Faithful

/-! ## Local publishes -/

/-- A publish is announced in any case, so the streams agree exactly when the store took it. -/
theorem faithful_publishOwn_iff {env : Env} {n : Node} (h : Faithful n) (rd : Reading) {r : Record}
    (hr : r.observerNodeID = []) :
    Faithful (n.publishOwn env rd r) ↔ Takes env.storeCfg n.store (ownRecord env n rd r) := by
  have hown : (ownRecord env n rd r).isObserverAttestation = false := by
    show (r.tombstone && r.observerNodeID != []) = false
    simp [hr]
  have hstamp : Faithful (n.stamp rd) := h
  have happlied : ((n.stamp rd).applyExt env rd (ownRecord env n rd r)).1 =
      (applyExt env.storeCfg rd.nowMs n.store (ownRecord env n rd r)).1 := rfl
  rw [publishOwn_eq, ← applied_iff_takes env.storeCfg rd.nowMs n.store hown, ← happlied]
  generalize ownRecord env n rd r = x
  unfold Node.plumPublish
  dsimp only
  cases happ : ((n.stamp rd).applyExt env rd x).1.applied with
  | true =>
    refine iff_of_true ?_ rfl
    have hcall := hstamp.applied happ
    rw [Bool.not_true, if_neg Bool.false_ne_true]
    exact Faithful.of_streams
      (((Streams.calm env _ _).broadcast rd (fun _ => .push trivial) hcall).accept x)
  | false =>
    refine iff_of_false ?_ Bool.false_ne_true
    have hcall := (hstamp.not_applied happ).streams.accept x
    rw [Bool.not_false, if_pos rfl]
    intro hf
    -- the announced record is one too many
    have hlen := congrArg List.length (hcall.accepted.symm.trans (hf.trans hcall.applied))
    rw [List.length_append] at hlen
    simp at hlen

/-- The store takes what is published. -/
def StreamStep (env : Env) (n : Node) : NodeOp → Prop
  | .publishKeyed rd topic key body =>
    (n.publishKeyed env rd topic key body).1 = none →
      Takes env.storeCfg n.store
        (ownRecord env n rd { topic := topic, key := key, body := body })
  | .publishKeyedTombstone rd topic key =>
    (n.publishKeyedTombstone env rd topic key).1 = none →
      Takes env.storeCfg n.store
        (ownRecord env n rd { topic := topic, key := key, tombstone := true })
  | _ => True

/-- **One step.** The streams still agree exactly when the store takes what the step publishes. -/
theorem faithful_exec_iff {env : Env} {n : Node} (op : NodeOp) (h : Faithful n) :
    Faithful (op.exec env n) ↔ StreamStep env n op := by
  cases hcalls : op.calls with
  | false =>
    refine iff_of_true ((Faithful.calm env).exec hcalls h) ?_
    cases op with
    | publishKeyed => cases hcalls
    | publishKeyedTombstone => cases hcalls
    | _ => exact trivial
  | true =>
    cases op with
    | receive rd sender f =>
      refine iff_of_true ?_ trivial
      show Faithful (n.onReceive env rd sender f)
      unfold Node.onReceive Node.receiveFrame
      split_ifs
      · exact h
      · exact h
      · cases f with
        | eager record ttl => exact h.handleEager rd sender record ttl
        | merkleRange topic records truncated =>
          exact h.handleRange rd sender topic records truncated
        | _ => cases hcalls
    | publishKeyed rd topic key body =>
      show Faithful (n.publishKeyed env rd topic key body).2 ↔
        ((n.publishKeyed env rd topic key body).1 = none → _)
      unfold Node.publishKeyed
      split_ifs
      · exact iff_of_true h fun herr => (by cases herr)
      · exact iff_of_true h fun herr => (by cases herr)
      · exact iff_of_true h fun herr => (by cases herr)
      · exact (faithful_publishOwn_iff h rd rfl).trans ⟨fun ht _ => ht, fun ht => ht rfl⟩
    | publishKeyedTombstone rd topic key =>
      show Faithful (n.publishKeyedTombstone env rd topic key).2 ↔
        ((n.publishKeyedTombstone env rd topic key).1 = none → _)
      unfold Node.publishKeyedTombstone
      split_ifs
      · exact iff_of_true h fun herr => (by cases herr)
      · exact iff_of_true h fun herr => (by cases herr)
      · exact (faithful_publishOwn_iff h rd rfl).trans ⟨fun ht _ => ht, fun ht => ht rfl⟩
    | publishObserverTombstone rd topic target =>
      refine iff_of_true ?_ trivial
      show Faithful (n.publishObserverTombstone env rd topic target).2
      unfold Node.publishObserverTombstone
      split_ifs
      · exact h
      · exact h
      · exact Faithful.applyAndBroadcast (n := n.stamp rd) h rd _
    | setTenant rd tenantID => exact iff_of_true (h.setTenant rd tenantID) trivial
    | tickLoop rd =>
      refine iff_of_true ?_ trivial
      show Faithful (n.tickLoop env rd)
      have hticked := (Faithful.calm env).ticks rd rd.wall h
      unfold Node.tickLoop
      dsimp only
      split_ifs
      · exact Faithful.of_streams
          (((Streams.calm env _ _).markReap _ hticked.streams).reapExpired _ _)
      · exact hticked
    | reap nowMs ttlFor =>
      exact iff_of_true (Faithful.of_streams (h.streams.reapExpired nowMs ttlFor)) trivial
    | _ => cases hcalls

/-- **The stream is faithful exactly when every publish is taken.** For every configuration and
every run of a node over frames and local operations: in every state reached the records handed to
`recordAccepted` are those whose `ApplyExt` reported a change, in order, exactly when the store
takes every record that `PublishKeyed` and `PublishKeyedTombstone` publish without an error. -/
theorem stream_faithful_iff (env : Env) (rd : Reading) (configFn : NodeID → PerPeerConfig)
    (ops : List NodeOp) :
    Runs.StatesMeet (NodeOp.exec env) Faithful (newNode rd configFn) ops ↔
      Runs.StepsMeet (NodeOp.exec env) (StreamStep env) (newNode rd configFn) ops :=
  Runs.statesMeet_iff_stepsMeet (fun _ op hn => faithful_exec_iff op hn)
    (show Faithful (newNode rd configFn) from rfl) ops

/-- A node that keeps one record a topic. -/
def oneRecordEnv : Env := { plainEnv with storeCfg := plainEnv.storeCfg.setCaps 0 1 0 0 }

/-- The second key is refused by the cap; both records are announced. -/
theorem refused_publish_announced :
    ((runNode oneRecordEnv (newNode ⟨0, 0⟩ fun _ => {})
        [.publishKeyed ⟨1000000000, 1000000000⟩ [116] [1] [6]]).publishKeyed oneRecordEnv
      ⟨2000000000, 2000000000⟩ [116] [2] [7]).1 = none ∧
    (appliedIn (runNode oneRecordEnv (newNode ⟨0, 0⟩ fun _ => {})
      [.publishKeyed ⟨1000000000, 1000000000⟩ [116] [1] [6],
        .publishKeyed ⟨2000000000, 2000000000⟩ [116] [2] [7]]).trace).map Record.key = [[1]] ∧
    (acceptedIn (runNode oneRecordEnv (newNode ⟨0, 0⟩ fun _ => {})
      [.publishKeyed ⟨1000000000, 1000000000⟩ [116] [1] [6],
        .publishKeyed ⟨2000000000, 2000000000⟩ [116] [2] [7]]).trace).map Record.key =
      [[1], [2]] := by
  decide +kernel

end Swarm
