import Swarm.Engine.Kept
import Swarm.Lib.Runs

/-!
# Reading one's own writes

A publish is read back when its stamp outranks what the slot holds, so the clock of a node has to
be ahead of everything kept for the node's own slots. Stamps of the node itself and remote stamps
observed within the budget move the clock up; a synthesised tombstone stands at most one above a
witness, and the stamp that ties with it wins by its signature.

Two things break this. A stamp taken at the counter's limit moves the clock back, and a record of
the node that the gate admits beyond the budget of `Observe` leaves the clock behind. `ClockStep`
excludes both, and after runs of such steps every publish is read back
(`publishKeyed_reads_back`).
-/

namespace Swarm

/-! ## The store against a clock -/

/-- The clock is at or above everything kept for the node: only an unsigned tombstone may stand
one above it. -/
structure ClockAhead (id : NodeID) (w : UInt64) (ts : TopicStore) : Prop where
  slots : ∀ k r, ts.records.lookup k = some r → k.nodeID = id →
    r.hlc ≤ w ∨ (r.sig = [] ∧ r.hlc.toNat ≤ w.toNat + 1)
  witnesses : ∀ o a, (ts.witnesses id).lookup o = some a → a.hlc ≤ w

namespace ClockAhead

variable {id : NodeID} {w : UInt64} {ts : TopicStore}

theorem mono (h : ClockAhead id w ts) {w' : UInt64} (hle : w ≤ w') : ClockAhead id w' ts where
  slots k r hr hk := by
    rcases h.slots k r hr hk with hlow | ⟨hsig, htop⟩
    · exact Or.inl (hlow.trans hle)
    · refine Or.inr ⟨hsig, ?_⟩
      have := UInt64.le_iff_toNat_le.mp hle
      omega
  witnesses o a ha := (h.witnesses o a ha).trans hle

/-- Storing a record of this node at or below the clock, or one of another node. -/
theorem write (h : ClockAhead id w ts) {ts' : TopicStore} {r : Record}
    (hr : r.nodeID = id → r.hlc ≤ w)
    (hts : ∀ k, ts'.records.lookup k = if k = keyOf r then some r else ts.records.lookup k)
    (hset : ∀ o a, (ts'.witnesses id).lookup o = some a → (ts.witnesses id).lookup o = some a) :
    ClockAhead id w ts' where
  slots k x hx hk := by
    rw [hts] at hx
    split_ifs at hx with hself
    · cases hx
      rw [hself] at hk
      exact Or.inl (hr hk)
    · exact h.slots k x hx hk
  witnesses o a ha := h.witnesses o a (hset o a ha)

theorem accumulate (h : ClockAhead id w ts) (cfg : StoreConfig) {att : Record}
    (hatt : att.nodeID = id → att.hlc ≤ w) : ClockAhead id w (ts.accumulate cfg att) where
  slots := h.slots
  witnesses o a ha := by
    rw [witnesses_accumulate] at ha
    split_ifs at ha with hnode
    · rcases lookup_witnessesAfter ha with ⟨-, rfl⟩ | hold
      · exact hatt hnode.symm
      · rw [← hnode] at hold
        exact h.witnesses o a hold
    · exact h.witnesses o a ha

/-- A quorum against this node writes its tombstone at most one above the clock. -/
theorem synthesise (h : ClockAhead id w ts) (set : FMap NodeID Record) (att : Record)
    (hset : att.nodeID = id → ∀ a ∈ set.values, a.hlc ≤ w) :
    ClockAhead id w (synthesise ts set att).ts where
  slots k r hr hk := by
    rcases eq_or_synth_of_lookup hr with hold | ⟨hnode, rfl⟩
    · exact h.slots k r hold hk
    · have hmax : maxHLCOf set ≤ w :=
        (MaxLoop.le_iff _ _ _ _).mpr ⟨UInt64.zero_le, hset (hnode.symm.trans hk)⟩
      refine Or.inr ⟨rfl, ?_⟩
      show (maxHLCOf set + 1).toNat ≤ _
      rw [UInt64.le_iff_toNat_le] at hmax
      rw [UInt64.toNat_add]
      have h1 : (1 : UInt64).toNat = 1 := rfl
      omega
  witnesses o a ha := by
    rw [witnesses_synthesise] at ha
    exact h.witnesses o a ha

theorem applyTopic (h : ClockAhead id w ts) (cfg : StoreConfig) (nowMs : Int64) {r : Record}
    (hr : r.nodeID = id → r.hlc ≤ w) : ClockAhead id w (applyTopic cfg nowMs ts r).ts := by
  apply applyTopic_preserves h
  · intro _ _
    exact h.accumulate cfg hr
  · intro _ _ _ hkept
    refine hkept.synthesise _ _ fun hnode a ha => ?_
    obtain ⟨o, ho⟩ := FMap.mem_values.mp ha
    apply hkept.witnesses o a
    rw [witnesses_accumulate, if_pos hnode.symm]
    exact ho
  · intro _
    exact h.write hr (lookup_openSlot ts nowMs r) fun _ _ ha => ha
  · intro _
    exact h.write hr (lookup_replaceSlot ts nowMs r) fun _ _ ha =>
      lookup_witnesses_of_replaceSlot ha

theorem reap (h : ClockAhead id w ts) (nowMs ttlMs : Int64) :
    ClockAhead id w (ts.reap nowMs ttlMs) where
  slots k r hr hk := by
    rw [lookup_reap, Option.bind_eq_some_iff] at hr
    obtain ⟨x, hx, hkeep⟩ := hr
    split_ifs at hkeep
    cases hkeep
    exact h.slots k r hx hk
  witnesses := h.witnesses

end ClockAhead

/-! ## The node -/

/-- The clock of the node is ahead on every topic. -/
def Ahead (env : Env) (n : Node) : Prop := ∀ t, ClockAhead env.id n.hlc (n.store.topic t)

namespace Ahead

variable {env : Env} {n : Node}

theorem core {n' : Node} (h : Ahead env n) (hcore : SameCore n n') : Ahead env n' := by
  intro t
  rw [hcore.hlc, hcore.store]
  exact h t

theorem calm (env : Env) : Calm env (fun _ => True) (Ahead env) :=
  .of_core (fun _ _ _ h => h) core

/-- The clock moves up. -/
theorem clock (h : Ahead env n) {w : UInt64} (hle : n.hlc ≤ w) : Ahead env { n with hlc := w } :=
  fun t => (h t).mono hle

/-- A call on the store with a record that is not ahead of the clock. -/
theorem call (h : Ahead env n) (rd : Reading) {r : Record}
    (hr : r.nodeID = env.id → r.hlc ≤ n.hlc) :
    Ahead env (n.applyExt env rd r).2 := by
  intro t
  show ClockAhead env.id n.hlc ((applyExt env.storeCfg rd.nowMs n.store r).2.topic t)
  rcases topic_applyExt env.storeCfg rd.nowMs n.store r t with heq | ⟨-, heq⟩
  · rw [heq]
    exact h t
  · rw [heq]
    exact (h t).applyTopic _ _ hr

theorem reapExpired (h : Ahead env n) (nowMs : Int64) (ttlFor : Option (Topic → Duration)) :
    Ahead env (n.reapExpired nowMs ttlFor) := by
  intro t
  show ClockAhead env.id n.hlc ((Swarm.reapExpired nowMs ttlFor n.store).2.topic t)
  rcases topic_reapExpired nowMs ttlFor n.store t with heq | ⟨ttlMs, heq⟩
  · rw [heq]
    exact h t
  · rw [heq]
    exact (h t).reap nowMs ttlMs

theorem accept (h : Ahead env n) (r : Record) : Ahead env (n.accept r) := h

theorem quiet (env : Env) : Quiet env (Sendable fun _ => True) (Ahead env) where
  toPushes := (calm env).toPushes
  accept _ h := h

end Ahead

/-! ## Steps that keep the clock ahead -/

/-- The wall reading fits its 48 bits. -/
def WallFits (rd : Reading) : Prop := rd.wallMs.toUInt64.toNat < 2 ^ 48

/-- A stamp taken now does not wrap the counter. -/
def StampMoves (rd : Reading) (n : Node) : Prop := ¬ CounterWraps n.hlc rd.wallMs.toUInt64

/-- A record of this node that the gate admits is within the budget of `Observe`. -/
def OwnInBudget (env : Env) (rd : Reading) (r : Record) : Prop :=
  env.gate.letThrough env.cr rd.wallMs r = true → r.nodeID = env.id → InBudget r.hlc rd.wallMs

/-- Wall readings fit, no stamp wraps the counter, and no record of this node is admitted from
beyond the budget. -/
def ClockStep (env : Env) (n : Node) : NodeOp → Prop
  | .receive rd _ f => WallFits rd ∧ ∀ r ∈ f.records, OwnInBudget env rd r
  | .publishKeyed rd _ _ _ => WallFits rd ∧ StampMoves rd n
  | .publishKeyedTombstone rd _ _ => WallFits rd ∧ StampMoves rd n
  | .publishObserverTombstone rd _ _ => WallFits rd ∧ StampMoves rd n
  | .setTenant rd tenantID => WallFits rd ∧
    Runs.StepsMeet (Node.retire env rd) (fun n _ => StampMoves rd n) { n with tenant := tenantID }
      (Node.ownRecords env n.store)
  | _ => True

namespace Ahead

variable {env : Env} {n : Node} {rd : Reading}

theorem stamp (h : Ahead env n) (hwall : WallFits rd) (hmoves : StampMoves rd n) :
    Ahead env (n.stamp rd) :=
  h.clock (lt_nowNext hwall hmoves).le

/-- A record off the wire is observed before it is applied. -/
theorem received (h : Ahead env n) (hwall : WallFits rd) {r : Record} (hown : OwnInBudget env rd r)
    (hok : (n.inbound env rd r).1 = true) :
    Ahead env (((n.inbound env rd r).2.observe rd r.hlc).applyExt env rd r).2 := by
  have hobs : Ahead env ((n.inbound env rd r).2.observe rd r.hlc) :=
    ((calm env).inbound_snd rd r h).clock (le_observeNext _ _ hwall)
  refine hobs.call rd fun hnode => ?_
  exact remote_le_observeNext _ hwall (hown (inbound_eq_true_iff.mp hok) hnode)

theorem handleEager (h : Ahead env n) (hwall : WallFits rd) (sender : NodeID)
    {record : Option Record} (ttl : UInt32) (hown : ∀ r, record = some r → OwnInBudget env rd r) :
    Ahead env (n.handleEager env rd sender record ttl) := by
  unfold Node.handleEager
  cases record with
  | none => exact h
  | some r =>
    dsimp only
    split_ifs with hno
    · exact (calm env).inbound_snd rd r h
    all_goals have happ := h.received hwall (hown r rfl) (by simpa using hno)
    · exact (calm env).relayAttestation sender (fun _ _ => .push trivial) happ
    · exact (calm env).sendPrune sender _ happ
    · exact happ
    · exact (quiet env).eagerAccepted rd sender (fun _ _ => .push trivial) happ

theorem receiveRecord (h : Ahead env n) (hwall : WallFits rd) {r : Record}
    (hown : OwnInBudget env rd r) : Ahead env (Node.receiveRecord env rd n r) := by
  unfold Node.receiveRecord
  dsimp only
  split_ifs with hno
  · exact (calm env).inbound_snd rd r h
  · exact (h.received hwall hown (by simpa using hno)).accept r
  · exact h.received hwall hown (by simpa using hno)

theorem handleRange (h : Ahead env n) (hwall : WallFits rd) (sender : NodeID) (topic : Topic)
    {records : List Record} (truncated : Bool) (hown : ∀ r ∈ records, OwnInBudget env rd r) :
    Ahead env (n.handleRange env rd sender topic records truncated) := by
  have hall : Ahead env (records.foldl (Node.receiveRecord env rd) n) :=
    List.foldlRecOn _ _ h fun _ hn r hr => hn.receiveRecord hwall (hown r hr)
  unfold Node.handleRange
  dsimp only
  split
  · exact hall
  · split_ifs
    · exact (calm env).sendProbe _ _ _ _ hall
    · exact hall

theorem publishOwn (h : Ahead env n) (hwall : WallFits rd) (hmoves : StampMoves rd n) (r : Record) :
    Ahead env (n.publishOwn env rd r) := by
  have happ : Ahead env ((n.stamp rd).applyExt env rd (ownRecord env n rd r)).2 :=
    (h.stamp hwall hmoves).call rd fun _ => le_rfl
  rw [publishOwn_eq]
  unfold Node.plumPublish
  dsimp only
  split_ifs
  · exact happ.accept _
  · exact ((calm env).broadcast rd (fun _ => .push trivial) happ).accept _

theorem applyAndBroadcast (h : Ahead env n) {r : Record} (hr : r.nodeID = env.id → r.hlc ≤ n.hlc) :
    Ahead env (n.applyAndBroadcast env rd r) := by
  have happ := h.call rd hr
  unfold Node.applyAndBroadcast
  dsimp only
  split_ifs
  · exact (calm env).broadcast rd (fun _ => .push trivial) (happ.accept r)
  · exact (calm env).broadcast rd (fun _ => .push trivial) happ

theorem setTenant (h : Ahead env n) (hwall : WallFits rd) (tenantID : Bytes)
    (hmoves : Runs.StepsMeet (Node.retire env rd) (fun n _ => StampMoves rd n)
      { n with tenant := tenantID } (Node.ownRecords env n.store)) :
    Ahead env (n.setTenant env rd tenantID) := by
  unfold Node.setTenant
  split_ifs
  · exact h
  · have hstart : Ahead env { n with tenant := tenantID } := h
    refine Runs.StepsMeet.invariant (fun m r hm hmoves => ?_) hmoves hstart
    exact (hm.stamp hwall hmoves).applyAndBroadcast fun _ => le_rfl

/-- Every step keeps the clock ahead. -/
theorem exec (h : Ahead env n) {op : NodeOp} (hop : ClockStep env n op) :
    Ahead env (op.exec env n) := by
  cases hcalls : op.calls with
  | false => exact (calm env).exec hcalls h
  | true =>
    cases op with
    | receive rd sender f =>
      obtain ⟨hwall, hown⟩ := hop
      show Ahead env (n.onReceive env rd sender f)
      unfold Node.onReceive Node.receiveFrame
      split_ifs
      · exact h
      · exact h
      · cases f with
        | eager record ttl =>
          refine h.handleEager hwall sender ttl fun r hr => ?_
          subst hr
          exact hown r List.mem_cons_self
        | merkleRange topic records truncated =>
          exact h.handleRange hwall sender topic truncated hown
        | _ => cases hcalls
    | publishKeyed rd topic key body =>
      show Ahead env (n.publishKeyed env rd topic key body).2
      unfold Node.publishKeyed
      split_ifs
      · exact h
      · exact h
      · exact h
      · exact h.publishOwn hop.1 hop.2 _
    | publishKeyedTombstone rd topic key =>
      show Ahead env (n.publishKeyedTombstone env rd topic key).2
      unfold Node.publishKeyedTombstone
      split_ifs
      · exact h
      · exact h
      · exact h.publishOwn hop.1 hop.2 _
    | publishObserverTombstone rd topic target =>
      show Ahead env (n.publishObserverTombstone env rd topic target).2
      unfold Node.publishObserverTombstone
      split_ifs
      · exact h
      · exact h
      · exact (h.stamp hop.1 hop.2).applyAndBroadcast fun _ => le_rfl
    | setTenant rd tenantID => exact h.setTenant hop.1 tenantID hop.2
    | tickLoop rd =>
      show Ahead env (n.tickLoop env rd)
      have hticked := (calm env).ticks rd rd.wall h
      unfold Node.tickLoop
      dsimp only
      split_ifs
      · exact reapExpired hticked _ _
      · exact hticked
    | reap nowMs ttlFor => exact h.reapExpired nowMs ttlFor
    | _ => cases hcalls

end Ahead

/-! ## Reading back -/

/-- A record stamped above the clock outranks what is kept for this node. -/
theorem ClockAhead.rank_lt {id : NodeID} {w : UInt64} {ts : TopicStore} (h : ClockAhead id w ts)
    {k : RecordKey} {cur r : Record} (hcur : ts.records.lookup k = some cur) (hk : k.nodeID = id)
    (hstamp : w < r.hlc) (hsig : r.sig ≠ []) : rankOf cur < rankOf r := by
  rw [rankOf_lt_iff]
  rcases h.slots k cur hcur hk with hlow | ⟨hnil, htop⟩
  · exact Or.inl (lt_of_le_of_lt hlow hstamp)
  · rw [sigLess_iff, hnil]
    have hle : cur.hlc ≤ r.hlc := by
      rw [UInt64.lt_iff_toNat_lt] at hstamp
      rw [UInt64.le_iff_toNat_le]
      omega
    rcases hle.lt_or_eq with hlt | heq
    · exact Or.inl hlt
    · -- the stamp ties with a synthesised tombstone, which carries no signature
      refine Or.inr ⟨heq.symm, ?_⟩
      cases hs : r.sig with
      | nil => exact absurd hs hsig
      | cons b bs => exact List.nil_lt_cons b bs

theorem sig_signRecord_ne_nil (cr : Crypto) (r : Record) (priv : Bytes) :
    (signRecord cr r priv).sig ≠ [] := by
  intro hnil
  have hlen := cr.ed25519Sign_length priv (signableBytes { r with pubKey := cr.ed25519Public priv })
  rw [show cr.ed25519Sign priv (signableBytes { r with pubKey := cr.ed25519Public priv }) = []
    from hnil] at hlen
  cases hlen

/-- A publish changes the store by the one call it makes. -/
theorem publishOwn_store (n : Node) (env : Env) (rd : Reading) (r : Record) :
    (n.publishOwn env rd r).store =
      (applyExt env.storeCfg rd.nowMs n.store (ownRecord env n rd r)).2 := by
  rw [publishOwn_eq]
  unfold Node.plumPublish
  dsimp only
  split_ifs
  · rfl
  · exact (Calm.store env _).broadcast rd (fun _ => .push trivial) rfl

theorem publishKeyed_of_ok {n : Node} {env : Env} {rd : Reading} {topic : Topic} {key body : Bytes}
    (h : (n.publishKeyed env rd topic key body).1 = none) :
    (n.publishKeyed env rd topic key body).2 =
      n.publishOwn env rd { topic := topic, nodeID := [], hlc := 0, key := key, body := body } := by
  unfold Node.publishKeyed at h ⊢
  split_ifs at h ⊢
  rfl

/-- With the clock ahead, a publish that meets no cap is written whatever its slot holds. -/
theorem Ahead.slotView_publishOwn {env : Env} {n : Node} {rd : Reading} (h : Ahead env n)
    (hwall : WallFits rd) (hmoves : StampMoves rd n) {r : Record}
    (hown : (ownRecord env n rd r).isObserverAttestation = false)
    (hcap : (n.publishOwn env rd r).store.rejectedCap = n.store.rejectedCap) :
    (n.publishOwn env rd r).store.slotView =
      Function.update n.store.slotView (slotOf (ownRecord env n rd r))
        (some (ownRecord env n rd r)) := by
  rw [publishOwn_store] at hcap ⊢
  have hstamp : n.hlc < (ownRecord env n rd r).hlc := lt_nowNext hwall hmoves
  have hsig : (ownRecord env n rd r).sig ≠ [] := sig_signRecord_ne_nil _ _ _
  rcases slotView_applyExt env.storeCfg rd.nowMs n.store hown with ⟨-, hrej, -⟩ | ⟨-, hput⟩
  · omega
  rw [hput, LastWriter.put]
  congr 2
  unfold LastWriter.winner
  cases hcur : n.store.slotView (slotOf (ownRecord env n rd r)) with
  | none => rfl
  | some cur => exact if_pos ((h _).rank_lt hcur rfl hstamp hsig)

/-- **Read your own writes.** For every configuration and every run of a node over arbitrary frames
and local operations in which wall readings fit their 48 bits, no stamp is taken at the counter's
limit, and no record of this node is admitted from beyond the budget of `Observe`: a publish that
returns no error and meets no cap is read back at once. -/
theorem publishKeyed_reads_back (env : Env) (rd₀ : Reading) (configFn : NodeID → PerPeerConfig)
    (ops : List NodeOp) (rd : Reading) (topic : Topic) (key body : Bytes)
    (hsteps : Runs.StepsMeet (NodeOp.exec env) (ClockStep env) (newNode rd₀ configFn)
      (ops ++ [.publishKeyed rd topic key body]))
    (hnil : ((runNode env (newNode rd₀ configFn) ops).publishKeyed env rd topic key body).1 = none)
    (hcap : (runNode env (newNode rd₀ configFn)
        (ops ++ [.publishKeyed rd topic key body])).store.rejectedCap =
      (runNode env (newNode rd₀ configFn) ops).store.rejectedCap) :
    ∃ r, (runNode env (newNode rd₀ configFn)
        (ops ++ [.publishKeyed rd topic key body])).store.getKeyed topic env.id key = some r ∧
      r.tombstone = false ∧ r.body = body := by
  obtain ⟨hpre, ⟨hwall, hmoves⟩, -⟩ := Runs.stepsMeet_append.mp hsteps
  have hahead : Ahead env (runNode env (newNode rd₀ configFn) ops) := by
    refine Runs.StepsMeet.invariant (fun n op hn hop => hn.exec hop) hpre ?_
    intro t
    exact ⟨fun k r hr => (by cases hr), fun o a ha => (by cases ha)⟩
  have hrun : runNode env (newNode rd₀ configFn) (ops ++ [.publishKeyed rd topic key body]) =
      ((runNode env (newNode rd₀ configFn) ops).publishKeyed env rd topic key body).2 :=
    List.foldl_append
  rw [hrun] at hcap ⊢
  change ¬ CounterWraps (runNode env (newNode rd₀ configFn) ops).hlc _ at hmoves
  generalize runNode env (newNode rd₀ configFn) ops = n at hahead hnil hcap hmoves ⊢
  rw [publishKeyed_of_ok hnil] at hcap ⊢
  have hview := hahead.slotView_publishOwn hwall hmoves rfl hcap
  refine ⟨ownRecord env n rd
    { topic := topic, nodeID := [], hlc := 0, key := key, body := body },
    getKeyed_eq_some_iff.mpr ⟨?_, rfl⟩, rfl, rfl⟩
  rw [hview]
  exact Function.update_self _ _ _

/-- A second publish of the same slot in the same millisecond is read back. -/
theorem second_publish_reads_back :
    ∃ r, (runNode plainEnv (newNode ⟨0, 0⟩ fun _ => {})
        ([.publishKeyed ⟨1000000000, 1000000000⟩ [116] [107] [1]] ++
          [.publishKeyed ⟨1000000000, 1000000000⟩ [116] [107] [2]])).store.getKeyed [116]
        plainEnv.id [107] = some r ∧ r.tombstone = false ∧ r.body = [2] :=
  publishKeyed_reads_back plainEnv ⟨0, 0⟩ (fun _ => {})
    [.publishKeyed ⟨1000000000, 1000000000⟩ [116] [107] [1]] ⟨1000000000, 1000000000⟩ [116] [107]
    [2] ⟨⟨by unfold WallFits; decide, by unfold StampMoves; decide +kernel⟩,
      ⟨by unfold WallFits; decide, by unfold StampMoves; decide +kernel⟩, trivial⟩
    (by decide +kernel) (by decide +kernel)

/-- A record of the node itself with the counter at its limit, as one published before a restart. -/
def limitRecord : Record :=
  signRecord .inClear
    { topic := [116], nodeID := plainEnv.id, key := [107], hlc := packHLC 1000 0xFFFF, body := [6] }
    plainEnv.cfg.privKey

/-- The node receives it in the millisecond of its wall part and publishes in the same one. -/
def limitOps : List NodeOp :=
  [.receive ⟨1000000000, 1000000000⟩ [1] (frameEagerPush limitRecord 8)]

/-- The publish returns no error and meets no cap; the slot still reads the received body. -/
theorem publish_at_counter_limit_lost :
    ((runNode plainEnv (newNode ⟨0, 0⟩ fun _ => {}) limitOps).publishKeyed plainEnv
      ⟨1000000000, 1000000000⟩ [116] [107] [1, 2]).1 = none ∧
    ((runNode plainEnv (newNode ⟨0, 0⟩ fun _ => {}) limitOps).publishKeyed plainEnv
      ⟨1000000000, 1000000000⟩ [116] [107] [1, 2]).2.store.rejectedCap = 0 ∧
    ((runNode plainEnv (newNode ⟨0, 0⟩ fun _ => {}) limitOps).publishKeyed plainEnv
      ⟨1000000000, 1000000000⟩ [116] [107] [1, 2]).2.store.getKeyed [116] plainEnv.id [107] =
        some limitRecord ∧
    limitRecord.body = [6] := by
  decide +kernel

end Swarm
