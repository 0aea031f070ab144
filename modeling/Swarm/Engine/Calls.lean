import Swarm.Engine.Kept

/-!
# Which records a node passes to its store

`Calls F n n'` says that between two states of a node only records in `F` were passed to the store.
A frame passes records of its own that the gate let through, and nothing else (`calls_onReceive`).
A local operation passes records the node just signed: its own, or an attestation in its name
(`calls_local`).
-/

namespace Swarm

/-- The calls on the store made since pass records in `F` only. -/
def Calls (F : Record → Prop) (n n' : Node) : Prop :=
  ∃ ops, storeOps n'.trace = storeOps n.trace ++ ops ∧
    ∀ nowMs r, StoreOp.apply nowMs r ∈ ops → F r

namespace Calls

variable {env : Env} {F : Record → Prop} {n n' n'' : Node} {r : Record}

theorem refl (F : Record → Prop) (n : Node) : Calls F n n :=
  ⟨[], (List.append_nil _).symm, fun _ _ h => (nomatch h)⟩

/-- What makes no call. -/
theorem same (h : Calls F n n') (htrace : storeOps n''.trace = storeOps n'.trace) :
    Calls F n n'' := by
  obtain ⟨ops, hops, hF⟩ := h
  exact ⟨ops, htrace.trans hops, hF⟩

theorem call (h : Calls F n n') {op : StoreOp} (hop : ∀ nowMs r, op = .apply nowMs r → F r)
    (htrace : storeOps n''.trace = storeOps n'.trace ++ [op]) : Calls F n n'' := by
  obtain ⟨ops, hops, hF⟩ := h
  refine ⟨ops ++ [op], by rw [htrace, hops, List.append_assoc], fun nowMs r hmem => ?_⟩
  rw [List.mem_append, List.mem_singleton] at hmem
  exact hmem.elim (hF nowMs r) fun heq => hop nowMs r heq.symm

theorem calm (env : Env) : Calm env (fun _ => True) (Calls F n) :=
  .of_core (fun _ _ _ h => h.same (by simp [Node.send, storeOps_append, storeOps]))
    fun h hcore => h.same (congrArg storeOps hcore.trace)

theorem accept (h : Calls F n n') (r : Record) : Calls F n (n'.accept r) :=
  h.same (by simp [Node.accept, storeOps_append, storeOps])

theorem quiet (env : Env) : Quiet env (Sendable fun _ => True) (Calls F n) where
  toPushes := (calm env).toPushes
  accept r h := h.accept r

theorem applyExt (h : Calls F n n') (hr : F r) (env : Env) (rd : Reading) :
    Calls F n (n'.applyExt env rd r).2 :=
  h.call (by rintro _ _ ⟨⟩; exact hr) (storeOps_append _ _)

theorem reapExpired (h : Calls F n n') (nowMs : Int64) (ttlFor : Option (Topic → Duration)) :
    Calls F n (n'.reapExpired nowMs ttlFor) :=
  h.call (by rintro _ _ ⟨⟩) (storeOps_append _ _)

/-! ## Local operations -/

theorem publishOwn (h : Calls F n n') {rd : Reading} (hr : F (ownRecord env n' rd r)) :
    Calls F n (n'.publishOwn env rd r) := by
  have hstamp : Calls F n (n'.stamp rd) := h.same rfl
  have happ := hstamp.applyExt hr env rd
  rw [publishOwn_eq]
  refine Calls.accept ?_ _
  unfold Node.plumPublish
  dsimp only
  split_ifs
  · exact happ
  · exact (calm env).broadcast rd (fun _ => .push trivial) happ

theorem applyAndBroadcast (h : Calls F n n') (hr : F r) (env : Env) (rd : Reading) :
    Calls F n (n'.applyAndBroadcast env rd r) := by
  have happ := h.applyExt hr env rd
  unfold Node.applyAndBroadcast
  dsimp only
  split_ifs
  · exact (calm env).broadcast rd (fun _ => .push trivial) (happ.accept r)
  · exact (calm env).broadcast rd (fun _ => .push trivial) happ

end Calls

/-- The node signed the record: one of its own, or an attestation in its name. -/
structure SignedBy (env : Env) (r : Record) : Prop where
  pubKey : r.pubKey = env.cr.ed25519Public env.cfg.privKey
  role : (r.isObserverAttestation = false ∧ r.nodeID = env.id) ∨
    (r.isObserverAttestation = true ∧ r.observerNodeID = env.id)

theorem signedBy_own (env : Env) {r : Record} (hobs : r.observerNodeID = [])
    (hid : r.nodeID = env.id) : SignedBy env (signRecord env.cr r env.cfg.privKey) where
  pubKey := rfl
  role := by
    refine Or.inl ⟨?_, hid⟩
    show (r.tombstone && r.observerNodeID != []) = false
    rw [hobs]
    exact Bool.and_false _

theorem signedBy_attestation (env : Env) (hid : env.id ≠ []) {r : Record}
    (htomb : r.tombstone = true) (hobs : r.observerNodeID = env.id) :
    SignedBy env (signRecord env.cr r env.cfg.privKey) where
  pubKey := rfl
  role := by
    refine Or.inr ⟨?_, hobs⟩
    show (r.tombstone && r.observerNodeID != []) = true
    rw [htomb, hobs]
    simpa using hid

/-- The operation is a frame off the wire. -/
def NodeOp.remote : NodeOp → Bool
  | .receive _ _ _ => true
  | _ => false

/-- A local operation passes records the node signed. -/
theorem calls_local {env : Env} (hid : env.id ≠ []) (n : Node) {op : NodeOp}
    (hop : op.remote = false) : Calls (SignedBy env) n (op.exec env n) := by
  have hrefl := Calls.refl (SignedBy env) n
  have hticks : ∀ rd now, Calls (SignedBy env) n ((n.processGrafts env now).merkleTick env rd) :=
    fun rd now => (Calls.calm env).ticks rd now hrefl
  cases op with
  | receive => cases hop
  | publishKeyed rd topic key body =>
    show Calls (SignedBy env) n (n.publishKeyed env rd topic key body).2
    unfold Node.publishKeyed
    split_ifs
    · exact hrefl
    · exact hrefl
    · exact hrefl
    · exact hrefl.publishOwn (signedBy_own env rfl rfl)
  | publishKeyedTombstone rd topic key =>
    show Calls (SignedBy env) n (n.publishKeyedTombstone env rd topic key).2
    unfold Node.publishKeyedTombstone
    split_ifs
    · exact hrefl
    · exact hrefl
    · exact hrefl.publishOwn (signedBy_own env rfl rfl)
  | publishObserverTombstone rd topic target =>
    show Calls (SignedBy env) n (n.publishObserverTombstone env rd topic target).2
    unfold Node.publishObserverTombstone
    split_ifs
    · exact hrefl
    · exact hrefl
    · have hstamp : Calls (SignedBy env) n (n.stamp rd) := hrefl.same rfl
      refine hstamp.applyAndBroadcast ?_ env rd
      exact signedBy_attestation env hid rfl rfl
  | setTenant rd tenantID =>
    show Calls (SignedBy env) n (n.setTenant env rd tenantID)
    unfold Node.setTenant
    split_ifs
    · exact hrefl
    · refine List.foldlRecOn (motive := fun m : Node => Calls (SignedBy env) n m) _ _
        (hrefl.same rfl) fun m hm r _ => ?_
      have hstamp : Calls (SignedBy env) n (m.stamp rd) := hm.same rfl
      refine hstamp.applyAndBroadcast ?_ env rd
      exact signedBy_own env rfl rfl
  | tick rd now => exact hticks rd now
  | tickLoop rd =>
    show Calls (SignedBy env) n (n.tickLoop env rd)
    unfold Node.tickLoop
    dsimp only
    split_ifs
    · exact ((hticks rd rd.wall).same rfl).reapExpired _ _
    · exact hticks rd rd.wall
  | reap nowMs ttlFor => exact hrefl.reapExpired nowMs ttlFor
  | probePeer peer => exact (Calls.calm env).probePeer peer hrefl
  | join peer => exact hrefl.same rfl
  | leave peer => exact hrefl.same rfl
  | setPaused paused => exact hrefl.same rfl
  | stop => exact hrefl.same rfl

/-! ## Frames -/

section Frames

variable {env : Env} {rd : Reading} {F : Record → Prop} {n n' : Node} {r : Record}

theorem Calls.inbound (h : Calls F n n') (env : Env) (rd : Reading) (r : Record) :
    Calls F n (n'.inbound env rd r).2 :=
  h.same (congrArg storeOps (n'.inbound_frame env rd r).2.1)

/-- A record that the gate let through is passed to the store. -/
theorem Calls.admitted (h : Calls F n n') (hno : ¬(!(n'.inbound env rd r).1) = true)
    (hr : env.gate.letThrough env.cr rd.wallMs r = true → F r) :
    Calls F n (((n'.inbound env rd r).2.observe rd r.hlc).applyExt env rd r).2 := by
  have hok := inbound_eq_true_iff.mp (by simpa using hno)
  have hobs : Calls F n ((n'.inbound env rd r).2.observe rd r.hlc) := (h.inbound env rd r).same rfl
  exact hobs.applyExt (hr hok) env rd

theorem Calls.handleEager (sender : NodeID) (ttl : UInt32) (h : Calls F n n')
    (hr : env.gate.letThrough env.cr rd.wallMs r = true → F r) :
    Calls F n (n'.handleEager env rd sender (some r) ttl) := by
  unfold Node.handleEager
  dsimp only
  split_ifs with hno
  · exact h.inbound env rd r
  all_goals have happ := h.admitted hno hr
  · exact (Calls.calm env).relayAttestation sender (fun _ _ => .push trivial) happ
  · exact (Calls.calm env).sendPrune sender _ happ
  · exact happ
  · exact (Calls.quiet env).eagerAccepted rd sender (fun _ _ => .push trivial) happ

theorem Calls.receiveRecord (h : Calls F n n')
    (hr : env.gate.letThrough env.cr rd.wallMs r = true → F r) :
    Calls F n (Node.receiveRecord env rd n' r) := by
  unfold Node.receiveRecord
  dsimp only
  split_ifs with hno
  · exact h.inbound env rd r
  · exact (h.admitted hno hr).accept r
  · exact h.admitted hno hr

/-- A frame passes records of its own that the gate let through. -/
theorem calls_onReceive (n : Node) (env : Env) (rd : Reading) (sender : NodeID) (f : Frame) :
    Calls (fun r => r ∈ f.records ∧ env.gate.letThrough env.cr rd.wallMs r = true) n
      (n.onReceive env rd sender f) := by
  have hrefl := Calls.refl
    (fun r => r ∈ f.records ∧ env.gate.letThrough env.cr rd.wallMs r = true) n
  by_cases hcalls : (NodeOp.receive rd sender f).calls = true
  swap
  · exact (Calls.calm env).exec (Bool.eq_false_iff.mpr hcalls) hrefl
  unfold Node.onReceive Node.receiveFrame
  split_ifs
  · exact hrefl
  · exact hrefl
  cases f with
  | eager record ttl =>
    cases record with
    | none => exact hrefl
    | some r => exact hrefl.handleEager sender ttl fun hok => ⟨List.mem_singleton_self r, hok⟩
  | merkleRange topic recs truncated =>
    have hfold := List.foldlRecOn
      (motive := fun m : Node => Calls (fun r => r ∈ recs ∧
        env.gate.letThrough env.cr rd.wallMs r = true) n m) recs (Node.receiveRecord env rd) hrefl
      fun m hm r hr => hm.receiveRecord fun hok => ⟨hr, hok⟩
    dsimp only
    unfold Node.handleRange
    dsimp only
    split
    · exact hfold
    · split_ifs
      · exact (Calls.calm env).sendProbe _ _ _ _ hfold
      · exact hfold
  | _ => cases hcalls

end Frames

end Swarm
