import Swarm.Engine.Flood
import Swarm.Store.Forward

/-!
# Forwarding owner records

Eager push sends an owner record on when `ApplyExt` reported a change. Slots only move forward, so
along a run without retention the report is made at most once for one record, whatever else the
node does in between, and the record is sent on at most once (`slots_move_forward`).
-/

namespace Swarm

/-- No retention has run. -/
def Unreaped (n : Node) : Prop := ∀ nowMs ttlFor, StoreOp.reap nowMs ttlFor ∉ storeOps n.trace

theorem Unreaped.of_append {n n' : Node} (ops : List StoreOp) (h : Unreaped n')
    (htrace : storeOps n'.trace = storeOps n.trace ++ ops) : Unreaped n := by
  intro nowMs ttlFor hmem
  exact h nowMs ttlFor (htrace ▸ List.mem_append_left _ hmem)

/-- A slot that reached the rank of a record stays there until retention runs. -/
theorem rankHeld_kept (env : Env) (r : Record) :
    Kept env (fun _ => True) fun n => Unreaped n → RankHeld r n.store where
  toCalm := .of_core
    (fun _ _ _ h hun => h (hun.of_append [] (by simp [Node.send, storeOps_append, storeOps])))
    (fun h hcore hun => hcore.store ▸ h (hun.of_append [] (by rw [hcore.trace, List.append_nil])))
  inbound _ _ _ := trivial
  signed _ _ := trivial
  apply rd x _ h hun := by
    refine (h (hun.of_append _ (storeOps_append _ _))).mono ?_
    exact below_applyCall env.storeCfg _ (rd.nowMs, x)
  reap nowMs ttlFor _ hun := by
    refine absurd ?_ (hun nowMs ttlFor)
    unfold Node.reapExpired
    rw [storeOps_append]
    exact List.mem_append_right _ List.mem_cons_self
  accept x h hun := h (hun.of_append [] (by simp [Node.accept, storeOps_append, storeOps]))
  clock _ h := h

/-! ## Sending on -/

/-- The operation makes the node send a frame with the record. -/
def SendsOn (env : Env) (n : Node) (op : NodeOp) (r : Record) : Prop :=
  ∃ e ∈ n.sentSince (op.exec env n), r ∈ e.2.records

/-- Owner records are never reported accumulated. -/
theorem not_accumulated_owner {cfg : StoreConfig} {nowMs : Int64} {s : RecordStore} {r : Record}
    (hown : r.isObserverAttestation = false) :
    (applyExt cfg nowMs s r).1.accumulated = false := by
  rcases applyExt_eq cfg nowMs s r with ⟨-, -, heq⟩ | heq
  · rw [heq]
  rw [heq, applyTopic, if_neg (by rw [hown]; exact Bool.false_ne_true)]
  have hstep := applyOwner_step cfg nowMs (s.topic r.topic) r
  generalize applyOwner cfg nowMs (s.topic r.topic) r = o at hstep
  cases hstep <;> rfl

/-- A pushed owner record is sent on only when the store applied it. -/
theorem applied_of_sendsOn {env : Env} {n : Node} {rd : Reading} {sender : NodeID} {r : Record}
    {ttl : UInt32} (hown : r.isObserverAttestation = false)
    (h : SendsOn env n (.receive rd sender (.eager (some r) ttl)) r) :
    (applyExt env.storeCfg rd.nowMs n.store r).1.applied = true ∧
      (NodeOp.exec env n (.receive rd sender (.eager (some r) ttl))).store =
        applyCall env.storeCfg n.store (rd.nowMs, r) := by
  obtain ⟨e, he, hr⟩ := h
  change e ∈ n.sentSince (n.onReceive env rd sender (.eager (some r) ttl)) at he
  show _ ∧ (n.onReceive env rd sender (.eager (some r) ttl)).store = _
  unfold Node.onReceive Node.receiveFrame at he ⊢
  split_ifs at he ⊢
  · exact absurd he (not_mem_sentSince rfl e)
  · exact absurd he (not_mem_sentSince rfl e)
  · obtain ⟨hok, hans⟩ := sentSince_handleEager he
    have hstore := store_push n env ⟨rd, sender, r, ttl⟩
    rw [if_pos hok] at hstore
    refine ⟨?_, hstore⟩
    generalize e.2 = f at hans hr
    cases hans with
    | announce => cases hr
    | prune => cases hr
    | forward _ hres =>
      refine hres.resolve_right fun hacc => ?_
      rw [not_accumulated_owner hown] at hacc
      cases hacc

/-- Along a run without retention a pushed owner record is sent on at most once. -/
theorem not_sendsOn_twice {env : Env} {n : Node} {rd rd' : Reading} {sender sender' : NodeID}
    {r : Record} {ttl ttl' : UInt32} (mid : List NodeOp) (hown : r.isObserverAttestation = false)
    (hun : Unreaped (runNode env n (.receive rd sender (.eager (some r) ttl) :: mid)))
    (h : SendsOn env n (.receive rd sender (.eager (some r) ttl)) r) :
    ¬ SendsOn env (runNode env n (.receive rd sender (.eager (some r) ttl) :: mid))
      (.receive rd' sender' (.eager (some r) ttl')) r := by
  obtain ⟨happ, hstore⟩ := applied_of_sendsOn hown h
  have hheld : RankHeld r (NodeOp.exec env n (.receive rd sender (.eager (some r) ttl))).store := by
    rw [hstore]
    exact rankHeld_of_applied (c := (rd.nowMs, r)) hown happ
  have hrun := (rankHeld_kept env r).run mid (fun _ => hheld) hun
  exact fun h' => hrun.not_applied hown _ _ (applied_of_sendsOn hown h').1

/-- **Slots only move forward.** For every run of `ApplyExt` calls and every call in it: a slot that
is held stays held and, if it changes, moves up in the order of clock and then signature, and the
call reports `applied` exactly when a slot changed. An owner record is applied at most once in the
run. In a run of a node without retention, over any frames and local operations, a pushed owner
record is sent on at most once. -/
theorem slots_move_forward (cfg : StoreConfig) (calls : List (Int64 × Record)) :
    (∀ front c back, calls = front ++ c :: back →
      (∀ topic node key x,
        (front.foldl (applyCall cfg) {}).getRawKeyed topic node key = some x →
        ∃ y, ((front ++ [c]).foldl (applyCall cfg) {}).getRawKeyed topic node key = some y ∧
          (y = x ∨ x.hlc < y.hlc ∨ (x.hlc = y.hlc ∧ x.sig < y.sig))) ∧
      ((applyExt cfg c.1 (front.foldl (applyCall cfg) {}) c.2).1.applied = true ↔
        ∃ topic node key, ((front ++ [c]).foldl (applyCall cfg) {}).getRawKeyed topic node key ≠
          (front.foldl (applyCall cfg) {}).getRawKeyed topic node key)) ∧
    (∀ front c mid d back, calls = front ++ c :: mid ++ d :: back → d.2 = c.2 →
      c.2.isObserverAttestation = false →
      (applyExt cfg c.1 (front.foldl (applyCall cfg) {}) c.2).1.applied = true →
      ¬ (applyExt cfg d.1 ((front ++ c :: mid).foldl (applyCall cfg) {}) d.2).1.applied = true) ∧
    ∀ (env : Env) (rd₀ : Reading) (configFn : NodeID → PerPeerConfig) (front mid : List NodeOp)
      (rd rd' : Reading) (sender sender' : NodeID) (ttl ttl' : UInt32) (r : Record),
      r.isObserverAttestation = false →
      Unreaped (runNode env (newNode rd₀ configFn)
        (front ++ .receive rd sender (.eager (some r) ttl) :: mid)) →
      SendsOn env (runNode env (newNode rd₀ configFn) front)
        (.receive rd sender (.eager (some r) ttl)) r →
      ¬ SendsOn env (runNode env (newNode rd₀ configFn)
          (front ++ .receive rd sender (.eager (some r) ttl) :: mid))
        (.receive rd' sender' (.eager (some r) ttl')) r := by
  refine ⟨?_, ?_, ?_⟩
  · intro front c back _
    have hreports := applyExt_reports cfg c.1 (front.foldl (applyCall cfg) {}) c.2
    rw [List.foldl_append]
    change Reports _ (applyCall cfg (front.foldl (applyCall cfg) {}) c).slotView _ at hreports
    refine ⟨fun topic node key x hx => ?_, hreports.applied_iff.trans ?_⟩
    · rw [← slotView_eq_getRawKeyed] at hx ⊢
      rcases hreports.forward (topic, { nodeID := node, key := key }) with heq | ⟨y, hy, hlt⟩
      · exact ⟨x, heq.trans hx, Or.inl rfl⟩
      · refine ⟨y, hy, Or.inr (((rankOf_lt_iff x y).mp (hlt x hx)).imp_right fun h => ?_)⟩
        exact ⟨h.1.symm, (sigLess_iff _ _).mp h.2⟩
    · simp only [← slotView_eq_getRawKeyed]
      constructor
      · rintro ⟨k, hk⟩
        exact ⟨k.1, k.2.nodeID, k.2.key, hk⟩
      · rintro ⟨topic, node, key, hk⟩
        exact ⟨_, hk⟩
  · rintro front c mid d back - hsame hown happ
    rw [List.foldl_append]
    exact not_applied_twice mid hsame hown happ
  · intro env rd₀ configFn front mid rd rd' sender sender' ttl ttl' r hown hun h
    unfold runNode at hun h ⊢
    rw [List.foldl_append] at hun ⊢
    exact not_sendsOn_twice mid hown hun h

/-- Node 9 publishes under two keys, two observers attest its death, and the first record arrives
again. -/
def movingCalls : List (Int64 × Record) :=
  [(10, { topic := [116], nodeID := [9], hlc := 5, body := [1], sig := [1] }),
    (11, { topic := [116], nodeID := [9], hlc := 9, body := [2], sig := [2], key := [107] }),
    (1200, { topic := [116], nodeID := [9], hlc := 6, tombstone := true, sig := [3]
             observerNodeID := [1], observedAtUnixMs := 1000 }),
    (1200, { topic := [116], nodeID := [9], hlc := 7, tombstone := true, sig := [4]
             observerNodeID := [2], observedAtUnixMs := 1000 }),
    (1300, { topic := [116], nodeID := [9], hlc := 5, body := [1], sig := [1] })]

/-- The quorum moved the keyless slot only, and the record that comes back is not applied again. -/
theorem movingCalls_forward :
    (movingCalls.foldl (applyCall {}) {}).getRawKeyed [116] [9] [] =
      some { topic := [116], nodeID := [9], hlc := 8, tombstone := true } ∧
    (movingCalls.foldl (applyCall {}) {}).getRawKeyed [116] [9] [107] =
      some { topic := [116], nodeID := [9], hlc := 9, body := [2], sig := [2], key := [107] } ∧
    ¬ (applyExt {} 1300 ((movingCalls.take 4).foldl (applyCall {}) {})
      { topic := [116], nodeID := [9], hlc := 5, body := [1], sig := [1] }).1.applied = true :=
  ⟨by decide, by decide, (slots_move_forward {} movingCalls).2.1 []
    (10, { topic := [116], nodeID := [9], hlc := 5, body := [1], sig := [1] })
    ((movingCalls.take 4).drop 1)
    (1300, { topic := [116], nodeID := [9], hlc := 5, body := [1], sig := [1] }) [] rfl rfl rfl
    (by decide)⟩

end Swarm
