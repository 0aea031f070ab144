import Swarm.Engine.Core
import Swarm.Engine.Exchange
import Swarm.Engine.Repair
import Swarm.Lib.PullGossip

/-!
# Anti-entropy in a fleet

Any number of nodes run the whole engine: they publish, push, announce, graft, prune, and probe each
other on any topic, frames are delivered in any order, and probes and pages of several exchanges
cross. `Sync` has what two nodes of it say to each other on one topic; here this is
`PullSync.Gossip`, with everything else around it.

All a frame can do to a store is to write the records in it. So whatever a node handles or does, its
store only grows in the order of ranks as long as no cap turns a record away, and what it sends are
records it holds. That makes every frame whose records come from the pool fair, with whatever root,
range, hash or clock it carries, and the rounds of `PullSync` reach everyone.
-/

namespace Swarm

open LastWriter (Below)

/-! ## Stores of a fleet -/

/-- The records of the pool on a topic. -/
def onTopic (S : Set Record) (topic : Topic) : Set Record := {r | r ∈ S ∧ r.topic = topic}

/-- The slots hold records of the pool, in their own slots, and there are no attestations. -/
structure Stocked (S : Set Record) (s : RecordStore) : Prop where
  stored : ∀ slot r, s.slotView slot = some r → r ∈ S ∧ slotOf r = slot
  unattested : ∀ t, (s.topic t).attestations = ∅

/-- The later store has turned away as much or more, and if as much, holds no less. -/
structure Grows (s s' : RecordStore) : Prop where
  refused : s.rejectedCap ≤ s'.rejectedCap
  below : s'.rejectedCap = s.rejectedCap → Below rankOf s.slotView s'.slotView

theorem Grows.refl (s : RecordStore) : Grows s s := ⟨le_rfl, fun _ => Below.refl _⟩

theorem Grows.trans {s s' s'' : RecordStore} (h : Grows s s') (h' : Grows s' s'') :
    Grows s s'' where
  refused := h.refused.trans h'.refused
  below heq := by
    have hmid : s'.rejectedCap = s.rejectedCap := le_antisymm (h'.refused.trans heq.le) h.refused
    exact (h.below hmid).trans (h'.below (heq.trans hmid.symm))

theorem Grows.topic {s s' : RecordStore} (h : Grows s s') (topic : Topic)
    (heq : s'.rejectedCap = s.rejectedCap) :
    Below rankOf (topicView topic s) (topicView topic s') :=
  fun k v hv => h.below heq (topic, k) v hv

section Stores

variable {S : Set Record} {s : RecordStore} {r : Record}

theorem Stocked.storedIn (h : Stocked S s) (topic : Topic) :
    StoredIn topic (onTopic S topic) s := by
  intro k r hr
  obtain ⟨hmem, hslot⟩ := h.stored (topic, k) r hr
  exact ⟨⟨hmem, congrArg Prod.fst hslot⟩, congrArg Prod.snd hslot⟩

/-- One record of the pool keeps a store within it, and the store grows. -/
theorem Stocked.applyExt (hown : ∀ r ∈ S, r.isObserverAttestation = false) (h : Stocked S s)
    (hr : r ∈ S) (cfg : StoreConfig) (nowMs : Int64) :
    Stocked S (applyExt cfg nowMs s r).2 ∧ Grows s (applyExt cfg nowMs s r).2 := by
  have hun := fun t => unattested_applyExt (h.unattested t) (hown r hr) cfg nowMs
  rcases slotView_applyExt cfg nowMs s (hown r hr) with ⟨-, hcap, hview⟩ | ⟨hcap, hview⟩
  · refine ⟨⟨fun slot x hx => h.stored slot x (by rwa [hview] at hx), hun⟩, by omega, fun _ => ?_⟩
    rw [hview]
    exact Below.refl _
  · refine ⟨⟨fun slot x hx => ?_, hun⟩, hcap.ge, fun _ => ?_⟩
    · rw [hview] at hx
      by_cases hslot : slot = slotOf r
      · subst hslot
        rw [LastWriter.put_self] at hx
        cases hx
        rcases LastWriter.winner_eq_or rankOf (s.slotView (slotOf r)) r with he | he
        · rw [he]
          exact ⟨hr, rfl⟩
        · exact h.stored _ _ he
      · rw [LastWriter.put_of_ne _ _ hslot] at hx
        exact h.stored slot x hx
    · rw [hview]
      exact LastWriter.below_put slotOf rankOf _ r

end Stores

/-! ## Nodes of a fleet -/

/-- A running node with a store of the pool. -/
structure FleetNode (S : Set Record) (n : Node) : Prop where
  running : n.stopped = false
  stocked : Stocked S n.store

/-- Every record in the frame is in the pool. -/
def FairFrame (S : Set Record) (f : Frame) : Prop := ∀ r ∈ f.records, r ∈ S

section Nodes

variable {S : Set Record} {env : Env} {n : Node}

theorem FleetNode.syncNode (h : FleetNode S n) (topic : Topic) :
    SyncNode topic (onTopic S topic) n :=
  ⟨h.running, h.stocked.storedIn topic, h.stocked.unattested topic⟩

/-- The core of a node decides whether it belongs to the fleet. -/
theorem FleetNode.of_core {c : Core} {n' : Node} (hcore : coreOf n' = c)
    (hrun : c.stopped = false) (hstock : Stocked S c.store) : FleetNode S n' := by
  subst hcore
  exact ⟨hrun, hstock⟩

/-- Records of the pool keep the core within it, whether or not the gate lets them through. -/
theorem foldl_receive (hown : ∀ r ∈ S, r.isObserverAttestation = false) (env : Env) (rd : Reading)
    {c : Core} (hrun : c.stopped = false) (hstock : Stocked S c.store) {recs : List Record}
    (hrecs : ∀ r ∈ recs, r ∈ S) :
    (recs.foldl (Core.receive env rd) c).stopped = false ∧
      Stocked S (recs.foldl (Core.receive env rd) c).store ∧
      Grows c.store (recs.foldl (Core.receive env rd) c).store := by
  refine List.foldlRecOn (motive := fun d : Core => d.stopped = false ∧ Stocked S d.store ∧
    Grows c.store d.store) recs _ ⟨hrun, hstock, Grows.refl _⟩ fun d hd r hr => ?_
  obtain ⟨hrun', hstock', hgrows⟩ := hd
  obtain ⟨hnext, hstep⟩ := hstock'.applyExt hown (hrecs r hr) env.storeCfg rd.nowMs
  unfold Core.receive
  split_ifs
  · exact ⟨hrun', hnext, hgrows.trans hstep⟩
  · exact ⟨hrun', hstock', hgrows⟩

/-- A fair frame keeps a node in the fleet, and its store grows. -/
theorem FleetNode.onReceive (hown : ∀ r ∈ S, r.isObserverAttestation = false) (h : FleetNode S n)
    (env : Env) (rd : Reading) (sender : NodeID) {f : Frame} (hf : FairFrame S f) :
    FleetNode S (n.onReceive env rd sender f) ∧
      Grows n.store (n.onReceive env rd sender f).store := by
  have hcore := coreOf_receiveFrame env rd n sender f
  have hopen : n.onReceive env rd sender f = n.receiveFrame env rd sender f := by
    unfold Node.onReceive
    rw [h.running, if_neg Bool.false_ne_true]
  rw [hopen]
  obtain ⟨hrun, hstock, hgrows⟩ := foldl_receive hown env rd (c := coreOf n) h.running h.stocked hf
  split_ifs at hcore
  · refine ⟨.of_core hcore h.running h.stocked, ?_⟩
    rw [show (n.receiveFrame env rd sender f).store = n.store from congrArg Core.store hcore]
    exact Grows.refl _
  · refine ⟨.of_core hcore hrun hstock, ?_⟩
    rw [show (n.receiveFrame env rd sender f).store = _ from congrArg Core.store hcore]
    exact hgrows

/-! ## What nodes send -/

/-- Only frames in `F` were sent since. -/
def Emits (F : Frame → Prop) (n n' : Node) : Prop :=
  ∃ evs, n'.trace = n.trace ++ evs ∧ ∀ e ∈ sends evs, F e.2

theorem Emits.of_sentSince {F : Frame → Prop} {n n' : Node} (h : Emits F n n') {e : NodeID × Frame}
    (he : e ∈ n.sentSince n') : F e.2 := by
  obtain ⟨evs, htrace, hF⟩ := h
  unfold Node.sentSince at he
  rw [htrace, List.drop_left] at he
  exact hF e he

theorem Emits.event {F : Frame → Prop} {n n' n'' : Node} (h : Emits F n n') {e : Event}
    (htrace : n''.trace = n'.trace ++ [e]) (he : ∀ p ∈ sends [e], F p.2) : Emits F n n'' := by
  obtain ⟨evs, hevs, hF⟩ := h
  refine ⟨evs ++ [e], by rw [htrace, hevs, List.append_assoc], fun p hp => ?_⟩
  rw [sends_append, List.mem_append] at hp
  exact hp.elim (hF p) (he p)

/-- What a node may send out of a store of the pool is fair. -/
theorem Stocked.sendable {s : RecordStore} (h : Stocked S s) {f : Frame}
    (hf : Sendable (· ∈ S) s f) : FairFrame S f := by
  intro r hr
  cases hf with
  | push hmem =>
    cases List.mem_singleton.mp hr
    exact hmem
  | slot hslot _ =>
    cases List.mem_singleton.mp hr
    rw [← slotView_eq_getRawKeyed] at hslot
    exact (h.stored _ _ hslot).1
  | @reply topic a b =>
    rcases mem_rangeReply hr with hrange | hatt
    · obtain ⟨⟨k, hk⟩, -⟩ := mem_rangeRecords.mp hrange
      exact (h.stored (topic, k) r hk).1
    · rw [topicAttestations_eq_nil (h.unattested topic)] at hatt
      cases hatt
  | plain hnone =>
    rw [hnone] at hr
    cases hr

/-- What leaves the store alone sends fair frames out of it. -/
theorem FleetNode.calm (h : FleetNode S n) (env : Env) :
    Calm env (· ∈ S) (Pushed (FairFrame S) n) :=
  .of_core
    (fun _ _ hf hp => hp.event (fun p he => by
      rw [List.mem_singleton.mp he]
      rw [hp.store] at hf
      exact h.stocked.sendable hf) rfl rfl)
    (fun hp hcore => hp.frame hcore.store hcore.trace)

/-- A page is answered by a probe at most. -/
theorem handleRange_emits (F : Frame → Prop) (hprobe : ∀ t a b root, F (.merkle t a b root))
    (n : Node) (env : Env) (rd : Reading) (sender : NodeID) (topic : Topic) (recs : List Record)
    (truncated : Bool) : Emits F n (n.handleRange env rd sender topic recs truncated) := by
  have hfold : Answered (fun e => F e.2) n (recs.foldl (Node.receiveRecord env rd) n) :=
    List.foldlRecOn (motive := fun m : Node => Answered (fun e => F e.2) n m) recs _
      (Answered.refl _ n) fun m hm r _ => hm.trans (receiveRecord_answered m env rd _ r).1
  unfold Node.handleRange
  dsimp only
  split
  · exact hfold.trace
  · split_ifs
    · exact (hfold.trans (sendProbe_answered _ env sender topic _ none (hprobe ..))).trace
    · exact hfold.trace

/-- A fair frame is answered by fair frames. -/
theorem FleetNode.answers (h : FleetNode S n) (env : Env) (rd : Reading) (sender : NodeID)
    {f : Frame} (hf : FairFrame S f) {e : NodeID × Frame}
    (he : e ∈ n.sentSince (n.onReceive env rd sender f)) : FairFrame S e.2 := by
  by_cases hcalls : (NodeOp.receive rd sender f).calls = true
  swap
  · have hpushed := (h.calm env).exec (Bool.eq_false_iff.mpr hcalls) (.refl _ n)
    exact Emits.of_sentSince hpushed.trace he
  have hnone : n.sentSince n = [] := sentSince_eq_nil rfl
  unfold Node.onReceive Node.receiveFrame at he
  split_ifs at he
  · rw [hnone] at he
    cases he
  · rw [hnone] at he
    cases he
  cases f with
  | eager record ttl =>
    cases record with
    | none =>
      change e ∈ n.sentSince n at he
      rw [hnone] at he
      cases he
    | some r =>
      have hans := (sentSince_handleEager he).2
      generalize e.2 = f at hans
      intro x hx
      cases hans with
      | announce => cases hx
      | prune => cases hx
      | forward =>
        cases List.mem_singleton.mp hx
        exact hf r (List.mem_singleton_self r)
  | merkleRange topic recs truncated =>
    refine Emits.of_sentSince (handleRange_emits (FairFrame S) ?_ n env rd sender topic recs
      truncated) he
    intro t a b root r hr
    cases hr
  | _ => cases hcalls

/-- A publish sends the record and announcements of it. -/
theorem publishOwn_emits {rd : Reading} {r : Record} (hr : ownRecord env n rd r ∈ S) :
    Emits (FairFrame S) n (n.publishOwn env rd r) := by
  have hplain : ∀ f : Frame, f.records = [] → FairFrame S f := by
    intro f hf x hx
    rw [hf] at hx
    cases hx
  have hquiet : ∀ e : Event, sends [e] = [] → ∀ p ∈ sends [e], FairFrame S p.2 := by
    intro e he p hp
    rw [he] at hp
    cases hp
  have hpushes : Pushes env (fun _ => FairFrame S) (Emits (FairFrame S) n) :=
    .of_core (fun _ _ _ _ _ _ => hplain _ rfl) (fun _ _ => hplain _ rfl)
      (fun _ _ hf h => h.event rfl (fun p hp => by rw [List.mem_singleton.mp hp]; exact hf))
      (fun h hcore => by
        obtain ⟨evs, htrace, hF⟩ := h
        exact ⟨evs, hcore.trace.trans htrace, hF⟩)
  have hpush : FairFrame S (frameEagerPush (ownRecord env n rd r) eagerTTL) := by
    intro x hx
    cases List.mem_singleton.mp hx
    exact hr
  have happ : Emits (FairFrame S) n ((n.stamp rd).applyExt env rd (ownRecord env n rd r)).2 :=
    Emits.event ⟨[], (List.append_nil _).symm, fun _ hp => (nomatch hp)⟩ rfl (hquiet _ rfl)
  rw [publishOwn_eq]
  refine Emits.event ?_ rfl (hquiet _ rfl)
  unfold Node.plumPublish
  dsimp only
  split_ifs
  · exact happ
  · exact hpushes.broadcast rd (fun _ => hpush) happ

end Nodes

/-! ## What nodes do by themselves -/

/-- What a node of the fleet does by itself: it publishes and tombstones records of the pool, ticks,
probes a peer, and learns about peers and pauses. It does not stop, reap, change its tenant or
attest. -/
inductive FleetOp (S : Set Record) (env : Env) (n : Node) : NodeOp → Prop where
  | publish (rd : Reading) (topic : Topic) (key body : Bytes)
    (hr : publishedRecord env n rd topic key body ∈ S) :
    FleetOp S env n (.publishKeyed rd topic key body)
  | tombstone (rd : Reading) (topic : Topic) (key : Bytes)
    (hr : tombstoneRecord env n rd topic key ∈ S) :
    FleetOp S env n (.publishKeyedTombstone rd topic key)
  | tick (rd : Reading) (now : Time) : FleetOp S env n (.tick rd now)
  | probePeer (peer : NodeID) : FleetOp S env n (.probePeer peer)
  | join (peer : NodeID) : FleetOp S env n (.join peer)
  | leave (peer : NodeID) : FleetOp S env n (.leave peer)
  | setPaused (paused : Bool) : FleetOp S env n (.setPaused paused)

/-- A node carries out such an operation and sends what it sends. -/
def fleetAct (S : Set Record) (env : NodeID → Env) (i : NodeID) (n n' : Node)
    (out : List (NodeID × Frame)) : Prop :=
  ∃ op, FleetOp S (env i) n op ∧ n' = op.exec (env i) n ∧ out = n.sentSince n'

section Acts

variable {S : Set Record} {env : Env} {n : Node}

theorem FleetNode.publishOwn (hown : ∀ r ∈ S, r.isObserverAttestation = false)
    (h : FleetNode S n) {rd : Reading} {r : Record} (hr : ownRecord env n rd r ∈ S) :
    FleetNode S (n.publishOwn env rd r) ∧ Grows n.store (n.publishOwn env rd r).store ∧
      Emits (FairFrame S) n (n.publishOwn env rd r) := by
  obtain ⟨hstock, hgrows⟩ := h.stocked.applyExt hown hr env.storeCfg rd.nowMs
  have hcore := coreOf_publishOwn env rd n r
  refine ⟨.of_core hcore h.running hstock, ?_, publishOwn_emits hr⟩
  rw [show (n.publishOwn env rd r).store = _ from congrArg Core.store hcore]
  exact hgrows

theorem FleetNode.exec (hown : ∀ r ∈ S, r.isObserverAttestation = false) (h : FleetNode S n)
    {op : NodeOp} (hop : FleetOp S env n op) :
    FleetNode S (op.exec env n) ∧ Grows n.store (op.exec env n).store ∧
      Emits (FairFrame S) n (op.exec env n) := by
  have hnone : Emits (FairFrame S) n n := ⟨[], (List.append_nil _).symm, fun _ he => (nomatch he)⟩
  have hcalm : op.calls = false → op.core env (coreOf n) = coreOf n →
      FleetNode S (op.exec env n) ∧ Grows n.store (op.exec env n).store ∧
        Emits (FairFrame S) n (op.exec env n) := by
    intro hcalls hcore
    have hpushed := (h.calm env).exec hcalls (.refl _ n)
    refine ⟨.of_core ((coreOf_exec env n op).trans hcore) h.running h.stocked, ?_, hpushed.trace⟩
    rw [hpushed.store]
    exact Grows.refl _
  cases hop with
  | publish rd topic key body hr =>
    show FleetNode S (n.publishKeyed env rd topic key body).2 ∧
      Grows n.store (n.publishKeyed env rd topic key body).2.store ∧
      Emits (FairFrame S) n (n.publishKeyed env rd topic key body).2
    unfold Node.publishKeyed
    split_ifs
    · exact ⟨h, Grows.refl _, hnone⟩
    · exact ⟨h, Grows.refl _, hnone⟩
    · exact ⟨h, Grows.refl _, hnone⟩
    · exact h.publishOwn hown hr
  | tombstone rd topic key hr =>
    show FleetNode S (n.publishKeyedTombstone env rd topic key).2 ∧
      Grows n.store (n.publishKeyedTombstone env rd topic key).2.store ∧
      Emits (FairFrame S) n (n.publishKeyedTombstone env rd topic key).2
    unfold Node.publishKeyedTombstone
    split_ifs
    · exact ⟨h, Grows.refl _, hnone⟩
    · exact ⟨h, Grows.refl _, hnone⟩
    · exact h.publishOwn hown hr
  | tick => exact hcalm rfl rfl
  | probePeer => exact hcalm rfl rfl
  | join => exact hcalm rfl rfl
  | leave => exact hcalm rfl rfl
  | setPaused => exact hcalm rfl rfl

end Acts

/-! ## The fleet -/

/-- The frame is a probe or a page of the topic. -/
def talksOn (topic : Topic) : Frame → Prop
  | .merkle t _ _ _ => t = topic
  | .merkleRange t _ _ => t = topic
  | _ => False

/-- A node asks for everything by a probe of the full range with the root of what it holds. It has
nothing to ask for when it holds what the other node holds, or something newer. -/
def topicTerms (cr : Crypto) (topic : Topic) : PullSync.Terms Node Frame where
  asks n f := f = .merkle topic none none (topicMerkleRoot cr n.store topic none none)
  talk := talksOn topic
  even n m := Below rankOf (topicView topic n.store) (topicView topic m.store)

section Fleet

variable {cr : Crypto} {env : NodeID → Env} {T : Set Reading} {topic : Topic} {S : Set Record}

/-- Anti-entropy on a topic, with everything else the engine does around it. -/
def fleetGossip (hcr : ∀ i, (env i).cr = cr)
    (hgate : ∀ rd ∈ T, ∀ i, ∀ r ∈ onTopic S topic,
      (env i).gate.letThrough (env i).cr rd.wallMs r = true)
    (hown : ∀ r ∈ S, r.isObserverAttestation = false) (hS : SyncPool cr topic (onTopic S topic))
    (htext : Servable topic (onTopic S topic)) (hpin : EntryPinned (onTopic S topic)) :
    PullSync.Gossip (antiEntropy hcr hgate hS htext hpin) (fleetAct S env)
      (topicTerms cr topic) where
  Inv := FleetNode S
  Fair := FairFrame S
  good h := h.syncNode topic
  fair_keeps i src rd n f h hf := by
    obtain ⟨hnode, hgrows⟩ := h.onReceive hown (env i) rd.1 src hf
    exact ⟨hnode, hgrows.refused⟩
  fair_grows i src rd n f h hf hdrop :=
    (h.onReceive hown (env i) rd.1 src hf).2.topic topic hdrop
  fair_sends i src rd n f h hf e he := h.answers (env i) rd.1 src hf he
  act_keeps := by
    rintro i n _ _ h ⟨op, hop, rfl, rfl⟩
    obtain ⟨hnode, hgrows, -⟩ := h.exec hown hop
    exact ⟨hnode, hgrows.refused⟩
  act_grows := by
    rintro i n _ _ h ⟨op, hop, rfl, rfl⟩ hdrop
    exact (h.exec hown hop).2.1.topic topic hdrop
  act_sends := by
    rintro i n _ _ h ⟨op, hop, rfl, rfl⟩ e he
    exact (h.exec hown hop).2.2.of_sentSince he
  asks_probe := by
    rintro n _ h rfl
    exact ⟨none, ⟨n.store, (h.syncNode topic).stored, rfl, rfl⟩, fun _ => rfl⟩
  probe_talks := by
    rintro _ c snap ⟨s, -, -, rfl⟩
    rfl
  page_talks := by
    rintro _ recs next ⟨truncated, -, -, rfl⟩
    rfl
  even_below h := h

end Fleet

/-- **Convergence of a fleet.** Nodes run the engine over records of a pool: frames are delivered in
any order at readings at which the gates admit the records of the topic, and in between nodes
publish, tombstone, tick, probe and learn about peers. At the start anything whose records are in
the pool may be in flight. In a round every member of a group probes each of its neighbours for the
whole topic, unless it holds all the neighbour holds, and at its end no probe or page of the topic
is in flight within the group. If neighbours connect the group and no cap turns a record away there,
then after as many rounds as it has other members every member holds in each slot what any member
held at the start, or something newer. If nothing new was published meanwhile, all members hold the
same. -/
theorem gossip_converges (cr : Crypto) (env : NodeID → Env) (hcr : ∀ i, (env i).cr = cr)
    (topic : Topic) (S : Set Record) (hown : ∀ r ∈ S, r.isObserverAttestation = false)
    (hS : SyncPool cr topic (onTopic S topic)) (htext : Servable topic (onTopic S topic))
    (hpin : EntryPinned (onTopic S topic)) (T : Set Reading)
    (hgate : ∀ rd ∈ T, ∀ i, ∀ r ∈ onTopic S topic,
      (env i).gate.letThrough (env i).cr rd.wallMs r = true)
    (P : Finset NodeID) (nbr : NodeID → NodeID → Prop)
    (hjoined : ∀ x ∈ P, ∀ y ∈ P, Relation.ReflTransGen (fun a b => a ∈ P ∧ b ∈ P ∧ nbr a b) x y)
    (net net' : Network.Net NodeID Node Frame) (hnodes : ∀ i, FleetNode S (net.node i))
    (hflight : ∀ p ∈ net.flight, FairFrame S p.msg) (n : ℕ) (hn : P.card ≤ n + 1)
    (hrounds : PullSync.Rounds (syncHandler env T) (fleetAct S env) (topicTerms cr topic) P nbr net
      n net')
    (hcap : ∀ i ∈ P, (net'.node i).store.rejectedCap = (net.node i).store.rejectedCap) :
    (∀ x ∈ P, ∀ y ∈ P, ∀ k r, (net.node y).store.slotView (topic, k) = some r →
      ∃ r', (net'.node x).store.slotView (topic, k) = some r' ∧
        (r.hlc < r'.hlc ∨ (r.hlc = r'.hlc ∧ (r.sig < r'.sig ∨ r.sig = r'.sig)))) ∧
    ((∀ r ∈ onTopic S topic, ∃ y ∈ P, ∃ r', (net.node y).store.slotView (slotOf r) = some r' ∧
        (r.hlc < r'.hlc ∨ (r.hlc = r'.hlc ∧ (r.sig < r'.sig ∨ r.sig = r'.sig)))) →
      ∀ x ∈ P, ∀ y ∈ P, ∀ k,
        (net'.node x).store.slotView (topic, k) = (net'.node y).store.slotView (topic, k)) := by
  have hsane : (fleetGossip hcr hgate hown hS htext hpin).Sane net := ⟨hnodes, hflight⟩
  have hcaught := fun x hx y hy w => PullSync.Gossip.caught_rounds (w := w) (x := x) (y := y) hsane
    hrounds hcap hjoined hn hx hy
  have hnodes' := (hsane.rounds hrounds).1.inv
  simp only [← rankOf_le_iff]
  refine ⟨fun x hx y hy k r hr => ?_, fun hall x hx y hy k => ?_⟩
  · obtain ⟨hmem, rfl⟩ := (hnodes y).stocked.storedIn topic k r hr
    exact hcaught x hx y hy r ⟨r, hr, le_rfl⟩
  · have hholds : ∀ z ∈ P, LastWriter.Holds keyOf rankOf (onTopic S topic)
        (topicView topic (net'.node z).store) := by
      intro z hz
      refine ⟨(hnodes' z).stocked.storedIn topic, fun r hr => ?_⟩
      obtain ⟨w, hw, r', hr', hle⟩ := hall r hr
      rw [show slotOf r = (topic, keyOf r) from Prod.ext hr.2 rfl] at hr'
      exact hcaught z hz w hw r ⟨r', hr', hle⟩
    have hpinned : LastWriter.Pinned keyOf rankOf (onTopic S topic) :=
      fun r hr r' hr' hkey hrank =>
        hpin r hr r' hr' (congrArg RecordKey.nodeID hkey) ((rankOf_eq_iff r r').mp hrank).1
          ((rankOf_eq_iff r r').mp hrank).2
    exact congrFun ((hholds x hx).unique (hholds y hy) hpinned) k

/-! ### Three nodes in a line -/

/-- Node 3 holds the record, the others nothing. -/
def thirdHolds (i : NodeID) : Node :=
  { newNode ⟨0, 0⟩ (fun _ => {}) with
    store :=
      if i = [3] then runStore plainEnv.storeCfg {} (applyOps [(0, clearRecord [107])]) else {} }

theorem zero_mem_readings : (⟨0, 0⟩ : Reading) ∈ ({⟨0, 0⟩} : Set Reading) := rfl

/-- One node probes another for all it has, and the frames that follow are delivered. -/
def probeRun (node : NodeID → Node) (i j : NodeID) :
    (NodeID → Node) × List (Network.Packet NodeID Frame) :=
  Network.deliverAll (syncHandler (fun _ => plainEnv) {⟨0, 0⟩})
    (Function.update node i ((node i).probePeer plainEnv j))
    (((node i).sentSince ((node i).probePeer plainEnv j)).map fun e => ⟨i, e.1, e.2⟩)
    (List.replicate 9 ⟨⟨0, 0⟩, zero_mem_readings⟩)

/-- Node 3 probes node 2, then node 2 probes node 1. -/
def thirdToSecond : (NodeID → Node) × List (Network.Packet NodeID Frame) :=
  probeRun thirdHolds [3] [2]

def secondToFirst : (NodeID → Node) × List (Network.Packet NodeID Frame) :=
  probeRun thirdToSecond.1 [2] [1]

section Third

variable {node : NodeID → Node} {net : Network.Net NodeID Node Frame} {i j : NodeID}
  {log : List (NodeID × NodeID)}

theorem onTopic_clear : onTopic {clearRecord [107]} [116] = {clearRecord [107]} := by
  ext r
  constructor
  · exact fun h => h.1
  · rintro rfl
    exact ⟨rfl, rfl⟩

/-- A node whose probe is answered by a probe back was asked. -/
theorem probeRun_asked (hij : j ≠ i) {f : Frame}
    (hsent : (node i).sentSince ((node i).probePeer plainEnv j) = [(j, f)])
    (hback : (i, Frame.merkle [116] none none (topicMerkleRoot .inClear
        ((node j).onReceive plainEnv ⟨0, 0⟩ i f).store [116] none none)) ∈
      (node j).sentSince ((node j).onReceive plainEnv ⟨0, 0⟩ i f))
    (hrun : PullSync.Run (syncHandler (fun _ => plainEnv) {⟨0, 0⟩})
      (fleetAct {clearRecord [107]} fun _ => plainEnv) (topicTerms .inClear [116]) net log
      ⟨node, 0⟩) :
    PullSync.Run (syncHandler (fun _ => plainEnv) {⟨0, 0⟩})
      (fleetAct {clearRecord [107]} fun _ => plainEnv) (topicTerms .inClear [116]) net
      (log ++ [(j, i)]) ⟨(probeRun node i j).1, (probeRun node i j).2⟩ := by
  have hact : fleetAct {clearRecord [107]} (fun _ => plainEnv) i (node i)
      ((node i).probePeer plainEnv j) [(j, f)] := ⟨_, .probePeer j, rfl, hsent.symm⟩
  have hprobed := hrun.move (.act node 0 hact) [] (fun k hk => (nomatch hk))
  rw [List.map_nil, List.append_nil,
    show (0 + Network.emitted i [(j, f)] : Multiset (Network.Packet NodeID Frame)) =
      ⟨i, j, f⟩ ::ₘ 0 from zero_add _] at hprobed
  unfold probeRun
  rw [hsent]
  generalize (node i).probePeer plainEnv j = n at hprobed ⊢
  have hnode : Function.update node i n j = node j := Function.update_of_ne hij _ _
  have hasks : ∃ m, (i, m) ∈ (syncHandler (fun _ => plainEnv) {⟨0, 0⟩} j
        (Function.update node i n j) i f ⟨⟨0, 0⟩, rfl⟩).2 ∧
      (topicTerms .inClear [116]).asks (Function.update (Function.update node i n) j
        (syncHandler (fun _ => plainEnv) {⟨0, 0⟩} j (Function.update node i n j) i f
          ⟨⟨0, 0⟩, rfl⟩).1 j) m := by
    rw [Function.update_self, hnode]
    exact ⟨_, hback, rfl⟩
  have hasked := hprobed.move (.deliver _ 0 ⟨i, j, f⟩ ⟨⟨0, 0⟩, rfl⟩) [i] fun k hk => by
    rw [List.mem_singleton.mp hk]
    exact hasks
  exact hasked.steps (Network.deliverAll_run _ _ _ (List.replicate 8 _))

theorem below_of_holds {n m : Node} (hn : FleetNode {clearRecord [107]} n)
    (hm : m.store.slotView ([116], keyOf (clearRecord [107])) = some (clearRecord [107])) :
    Below rankOf (topicView [116] n.store) (topicView [116] m.store) := by
  intro k r hr
  obtain ⟨hmem, hslot⟩ := hn.stocked.stored ([116], k) r hr
  rw [Set.mem_singleton_iff.mp hmem] at hslot ⊢
  cases congrArg Prod.snd hslot
  exact ⟨_, hm, le_rfl⟩

theorem third_owner :
    ∀ r ∈ ({clearRecord [107]} : Set Record), r.isObserverAttestation = false := by
  rintro _ rfl
  rfl

theorem third_fleet (i : NodeID) : FleetNode {clearRecord [107]} (thirdHolds i) := by
  have hempty : Stocked {clearRecord [107]} {} := ⟨fun _ _ hr => (nomatch hr), fun _ => rfl⟩
  refine ⟨rfl, ?_⟩
  show Stocked {clearRecord [107]} (if i = [3] then _ else _)
  split_ifs
  · exact (hempty.applyExt third_owner rfl plainEnv.storeCfg 0).1
  · exact hempty

theorem third_pool : SyncPool .inClear [116] (onTopic {clearRecord [107]} [116]) := by
  rw [onTopic_clear]
  exact syncPool_clear (by decide +kernel)

theorem third_text : Servable [116] (onTopic {clearRecord [107]} [116]) := by
  rw [onTopic_clear]
  exact ⟨rfl, by rintro _ rfl; rfl⟩

theorem third_pinned : EntryPinned (onTopic {clearRecord [107]} [116]) := by
  rw [onTopic_clear]
  exact entryPinned_singleton _

theorem third_gate : ∀ rd ∈ ({⟨0, 0⟩} : Set Reading), ∀ _ : NodeID,
    ∀ r ∈ onTopic {clearRecord [107]} [116],
      plainEnv.gate.letThrough plainEnv.cr rd.wallMs r = true := by
  rw [onTopic_clear]
  rintro _ rfl _ _ rfl
  decide +kernel

/-- In the first round node 2 gets the record. -/
theorem third_first_round : PullSync.Round (syncHandler (fun _ => plainEnv) {⟨0, 0⟩})
    (fleetAct {clearRecord [107]} fun _ => plainEnv) (topicTerms .inClear [116]) trio lineNbr
    ⟨thirdHolds, 0⟩ ⟨thirdToSecond.1, 0⟩ := by
  have hnone : ∀ i, (topicTerms .inClear [116]).even (thirdHolds [1]) i ∧
      (topicTerms .inClear [116]).even (thirdHolds [2]) i :=
    fun i => ⟨fun k r hr => (nomatch hr), fun k r hr => (nomatch hr)⟩
  have hrun := probeRun_asked (show [2] ≠ [3] by decide)
    (f := .merkle [116] none none (topicMerkleRoot .inClear (thirdHolds [3]).store [116] none none))
    (by decide +kernel) (by decide +kernel)
    (((PullSync.Run.nil.note [1] [2] (hnone _).2).note [2] [1] (hnone _).1).note [3] [2]
      (hnone _).2)
  have hquiet : (probeRun thirdHolds [3] [2]).2 = [] :=
    List.length_eq_zero_iff.mp (by decide +kernel)
  rw [hquiet] at hrun
  refine ⟨_, hrun, ?_, fun p hp => absurd hp (Multiset.notMem_zero p)⟩
  unfold lineNbr
  decide

theorem third_fleet_run {net' : Network.Net NodeID Node Frame}
    (hrun : PullSync.Run (syncHandler (fun _ => plainEnv) {⟨0, 0⟩})
      (fleetAct {clearRecord [107]} fun _ => plainEnv) (topicTerms .inClear [116]) ⟨thirdHolds, 0⟩
      log net') (i : NodeID) : FleetNode {clearRecord [107]} (net'.node i) := by
  have hsane : (fleetGossip (fun _ => rfl) third_gate third_owner third_pool third_text
      third_pinned).Sane ⟨thirdHolds, 0⟩ :=
    ⟨third_fleet, fun p hp => absurd hp (Multiset.notMem_zero p)⟩
  exact (hsane.run hrun).1.inv i

/-- Where nodes 2 and 3 hold the record, they have nothing to ask for, and node 1 gets it. -/
theorem third_next_round {f : Frame} (hfleet : ∀ i, FleetNode {clearRecord [107]} (node i))
    (hsecond : (node [2]).store.slotView ([116], keyOf (clearRecord [107])) =
      some (clearRecord [107]))
    (hthird : (node [3]).store.slotView ([116], keyOf (clearRecord [107])) =
      some (clearRecord [107]))
    (hsent : (node [2]).sentSince ((node [2]).probePeer plainEnv [1]) = [([1], f)])
    (hback : ([2], Frame.merkle [116] none none (topicMerkleRoot .inClear
        ((node [1]).onReceive plainEnv ⟨0, 0⟩ [2] f).store [116] none none)) ∈
      (node [1]).sentSince ((node [1]).onReceive plainEnv ⟨0, 0⟩ [2] f))
    (hquiet : (probeRun node [2] [1]).2 = []) :
    PullSync.Round (syncHandler (fun _ => plainEnv) {⟨0, 0⟩})
      (fleetAct {clearRecord [107]} fun _ => plainEnv) (topicTerms .inClear [116]) trio lineNbr
      ⟨node, 0⟩ ⟨(probeRun node [2] [1]).1, 0⟩ := by
  have hrun := probeRun_asked (show [1] ≠ [2] by decide) hsent hback
    (((PullSync.Run.nil.note [2] [1] (below_of_holds (hfleet [1]) hsecond)).note [2] [3]
      (below_of_holds (hfleet [3]) hsecond)).note [3] [2] (below_of_holds (hfleet [2]) hthird))
  rw [hquiet] at hrun
  refine ⟨_, hrun, ?_, fun p hp => absurd hp (Multiset.notMem_zero p)⟩
  unfold lineNbr
  decide

theorem third_second_round : PullSync.Round (syncHandler (fun _ => plainEnv) {⟨0, 0⟩})
    (fleetAct {clearRecord [107]} fun _ => plainEnv) (topicTerms .inClear [116]) trio lineNbr
    ⟨thirdToSecond.1, 0⟩ ⟨secondToFirst.1, 0⟩ := by
  obtain ⟨log, hrun, -⟩ := third_first_round
  have hfleet := third_fleet_run hrun
  dsimp only at hfleet
  exact third_next_round
    (f := .merkle [116] none none
      (topicMerkleRoot .inClear (thirdToSecond.1 [2]).store [116] none none))
    hfleet (by decide +kernel) (by decide +kernel) (by decide +kernel) (by decide +kernel)
    (List.length_eq_zero_iff.mp (by decide +kernel))

end Third

theorem line_joined : ∀ x ∈ trio, ∀ y ∈ trio,
    Relation.ReflTransGen (fun a b => a ∈ trio ∧ b ∈ trio ∧ lineNbr a b) x y := by
  intro x hx y hy
  have hstep : ∀ x ∈ trio, x = [2] ∨
      (x ∈ trio ∧ [2] ∈ trio ∧ lineNbr x [2]) ∧ ([2] ∈ trio ∧ x ∈ trio ∧ lineNbr [2] x) := by
    unfold lineNbr
    decide
  -- everyone is a neighbour of node 2
  rcases hstep x hx with rfl | ⟨hthere, -⟩
  · rcases hstep y hy with rfl | ⟨-, hback⟩
    · exact .refl
    · exact .single hback
  · rcases hstep y hy with rfl | ⟨-, hback⟩
    · exact .single hthere
    · exact .tail (.single hthere) hback

/-- The record that node 3 held reaches node 1 through node 2. -/
theorem third_reaches_first :
    ((secondToFirst.1 [1]).store.slotView ([116], keyOf (clearRecord [107]))).isSome = true ∧
    ∀ k, (secondToFirst.1 [1]).store.slotView ([116], k) =
      (secondToFirst.1 [3]).store.slotView ([116], k) := by
  have hholds : (thirdHolds [3]).store.slotView ([116], keyOf (clearRecord [107])) =
      some (clearRecord [107]) := by decide +kernel
  have hcap : ∀ i ∈ trio,
      (secondToFirst.1 i).store.rejectedCap = (thirdHolds i).store.rejectedCap := by
    decide +kernel
  have hall := gossip_converges .inClear (fun _ => plainEnv) (fun _ => rfl) [116]
    {clearRecord [107]} third_owner third_pool third_text third_pinned {⟨0, 0⟩} third_gate trio
    lineNbr line_joined ⟨thirdHolds, 0⟩ ⟨secondToFirst.1, 0⟩ third_fleet
    (fun p hp => absurd hp (Multiset.notMem_zero p)) 2 (by decide)
    (.snoc (.snoc .nil third_first_round) third_second_round)
  dsimp only at hall
  obtain ⟨hcaught, hsame⟩ := hall hcap
  refine ⟨?_, hsame ?_ [1] (by decide) [3] (by decide)⟩
  · obtain ⟨r, hr, -⟩ := hcaught [1] (by decide) [3] (by decide) _ _ hholds
    exact Option.isSome_iff_exists.mpr ⟨r, hr⟩
  · rintro r ⟨rfl, -⟩
    exact ⟨[3], by decide, _, hholds, Or.inr ⟨rfl, Or.inr rfl⟩⟩

end Swarm
