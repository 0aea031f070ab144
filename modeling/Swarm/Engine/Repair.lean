import Mathlib.Tactic.Ring
import Swarm.Engine.Ready

/-!
# Lazy push repairs what eager push leaves out

The Plumtree engine as a flood in the sense of `LazyFlood`: a node pushes a record it takes along
its tree edges, announces it to the other peers, and grafts from an announcer what it does not get
in time. No tree is assumed: prunes and promotions may leave any tree edges behind.

`plumtree_converges`: among up to nine nodes this alone brings every record everywhere. Records that
come in range replies are not part of it: a node does not pass those on.
-/

namespace Swarm

/-! ## What a node does by itself -/

/-- The record a call of `PublishKeyedTombstone` signs. -/
def tombstoneRecord (env : Env) (n : Node) (rd : Reading) (topic : Topic) (key : Bytes) : Record :=
  ownRecord env n rd { topic := topic, nodeID := [], hlc := 0, key := key, tombstone := true }

/-- The tick comes before any announcement that was not grafted expires. -/
def Timely (n : Node) (now : Time) : Prop :=
  ∀ k e, n.missingIHaves.lookup k = some e → e.grafted = false → Node.ihaveExpired now e = false

/-- A node publishes a record of the pool, or the engine ticks. -/
inductive PlumAct (env : NodeID → Env) (pool : Finset Record) (i : NodeID) (n : Node) :
    Node → List (NodeID × Frame) → Prop where
  | publish (rd : Reading) (topic : Topic) (key body : Bytes)
    (h : publishedRecord (env i) n rd topic key body ∈ pool) :
    PlumAct env pool i n (n.publishKeyed (env i) rd topic key body).2
      (n.sentSince (n.publishKeyed (env i) rd topic key body).2)
  | tombstone (rd : Reading) (topic : Topic) (key : Bytes)
    (h : tombstoneRecord (env i) n rd topic key ∈ pool) :
    PlumAct env pool i n (n.publishKeyedTombstone (env i) rd topic key).2
      (n.sentSince (n.publishKeyedTombstone (env i) rd topic key).2)
  | tick (now : Time) (h : Timely n now) :
    PlumAct env pool i n (n.processGrafts (env i) now) (n.sentSince (n.processGrafts (env i) now))

section Acts

variable {env : NodeID → Env} {T : Set Reading} {P : Finset NodeID} {pool : Finset Record}
  {nbr : NodeID → NodeID → Prop} {i : NodeID} {n n' : Node} {r x : Record} {rd : Reading}

theorem Open.publishOwn (h : Open n) (e : Env) (rd : Reading) (r : Record) :
    Open (n.publishOwn e rd r) := by
  have happ : Open ((n.stamp rd).applyExt e rd (ownRecord e n rd r)).2 :=
    ⟨h.running, h.unpaused, h.uncapped⟩
  rw [publishOwn_eq]
  refine (Open.quiet e).accept _ ?_
  unfold Node.plumPublish
  dsimp only
  split_ifs
  · exact happ
  · exact (Open.quiet e).lazyPush rd _ ((Open.quiet e).eagerPush (fun _ => trivial) happ)

/-- The frames of a node that publishes: a push along the tree edges and an announcement to every
other peer, for which each queue has a place. -/
theorem Ready.published_sends (h : Ready pool nbr i n) (hpool : GroupPool env T P pool)
    (hx : ownRecord (env i) n rd r = x) (hmem : x ∈ pool)
    (happ : (applyExt (env i).storeCfg rd.nowMs n.store x).1.applied = true) :
    n.sentSince (n.publishOwn (env i) rd r) =
      (n.bestTreeEdges (env i)).1.map (fun p => (p, frameEagerPush x eagerTTL)) ++
        (n.bestTreeEdges (env i)).2.peers.nonTreeEdges.map (fun p =>
          (p, frameIHave x.topic x.nodeID x.key x.hlc (bodyHash (env i).cr x))) ∧
      ∀ p, RoomAt (n.publishOwn (env i) rd r).peers p
        (lacking pool (n.publishOwn (env i) rd r)) := by
  have hf := hpool.floods x hmem
  have hlt := (h.lacking_applyExt hpool hmem (hx ▸ publishOwn_store n (env i) rd r)).2 happ
  generalize lacking pool (n.publishOwn (env i) rd r) = c at hlt ⊢
  have henc : (frameIHave x.topic x.nodeID x.key x.hlc (bodyHash (env i).cr x)).encodes = true := by
    simp [Frame.encodes, frameIHave, Frame.strings, hf.topic, hf.key]
  generalize hm : ((n.stamp rd).applyExt (env i) rd x).2 = m
  rw [publishOwn_taken hx hm happ (hf.encodes eagerTTL)]
  generalize hb : ((m.setPeers (n.bestTreeEdges (env i)).2.peers).sendAll
    (n.bestTreeEdges (env i)).1 (frameEagerPush x eagerTTL)) = b
  rw [sendAll_eq] at hb
  have hbopen : Open b := by
    rw [← hb, ← hm]
    exact ⟨h.running, h.unpaused, ((Open.quiet (env i)).best h.toOpen).uncapped⟩
  have hbpeers : b.peers = (n.bestTreeEdges (env i)).2.peers := by
    rw [← hb]
    rfl
  have hplace : ∀ p, RoomAt b.peers p (c + 1) := by
    intro p
    rw [hbpeers]
    exact ((h.queues p).le hlt).best (env i)
  obtain ⟨pt, hlazy, hroom⟩ := hbopen.lazyPush hplace (env i) rd x henc
  rw [hlazy, sendAll_eq, hbpeers]
  refine ⟨sentSince_sendAll
    [.apply rd.nowMs x (applyExt (env i).storeCfg rd.nowMs n.store x).1] [.accept x]
    _ _ _ _ ?_ rfl rfl, hroom⟩
  rw [← hb, ← hm]
  rfl

/-- A publish that the store does not take sends nothing. -/
theorem publishOwn_refused {e : Env} (hx : ownRecord e n rd r = x)
    (happ : ¬ (applyExt e.storeCfg rd.nowMs n.store x).1.applied = true) :
    (n.publishOwn e rd r).peers = n.peers ∧ n.sentSince (n.publishOwn e rd r) = [] := by
  have heq : n.publishOwn e rd r = ((n.stamp rd).applyExt e rd x).2.accept x := by
    rw [publishOwn_eq, hx]
    unfold Node.plumPublish
    dsimp only
    rw [show ((n.stamp rd).applyExt e rd x).1.applied = false from Bool.eq_false_iff.mpr happ]
    rfl
  rw [heq]
  refine ⟨rfl, ?_⟩
  unfold Node.sentSince
  show sends (((n.trace ++ [Event.apply ..]) ++ [Event.accept x]).drop n.trace.length) = []
  rw [List.append_assoc, List.drop_left]
  rfl

/-- Publishing keeps the node in order. -/
theorem Ready.publishOwn (h : Ready pool nbr i n) (hpool : GroupPool env T P pool)
    (hx : ownRecord (env i) n rd r ∈ pool) : Ready pool nbr i (n.publishOwn (env i) rd r) := by
  have hbooks : SameBooks n (n.publishOwn (env i) rd r) := (SameBooks.refl n).publishOwn rd r
  have hstore := publishOwn_store n (env i) rd r
  refine ⟨h.toOpen.publishOwn (env i) rd r, fun p => (hbooks.peers p).trans (h.peers p),
    fun slot y hy => ?_, fun k e he => ?_, ?_⟩
  · rw [hstore] at hy
    exact h.stored_applyExt hpool hx slot y hy
  · rw [hbooks.pending] at he
    exact h.tracked k e he
  · by_cases happ : (applyExt (env i).storeCfg rd.nowMs n.store
        (ownRecord (env i) n rd r)).1.applied = true
    · exact (h.published_sends hpool rfl hx happ).2
    · intro p
      rw [(publishOwn_refused rfl happ).1]
      exact (h.queues p).le (h.lacking_applyExt hpool hx hstore).1

/-- A record that a node publishes is passed on, unless the node holds a newer one. -/
theorem Ready.publish (h : Ready pool nbr i n) (hpool : GroupPool env T P pool)
    (hinside : ∀ p, nbr i p → p ∈ P) (hx : ownRecord (env i) n rd r = x) (hmem : x ∈ pool)
    (hcap : (n.publishOwn (env i) rd r).store.rejectedCap = n.store.rejectedCap) :
    (plumParts pool).Stays n (n.publishOwn (env i) rd r) ∧
        n.sentSince (n.publishOwn (env i) rd r) = [] ∨
      (plumParts pool).Passes nbr P.card i none 9 (slotOf x) x.hlc n (n.publishOwn (env i) rd r)
        (n.sentSince (n.publishOwn (env i) rd r)) := by
  have hf := hpool.floods x hmem
  have hstore := publishOwn_store n (env i) rd r
  rw [hx] at hstore
  have hbooks : SameBooks n (n.publishOwn (env i) rd r) := (SameBooks.refl n).publishOwn rd r
  have hhas := holdsFrom_applyExt hf.owner hstore hcap
  by_cases hheld : HoldsFrom n (slotOf x) x.hlc
  · have happ : ¬ (applyExt (env i).storeCfg rd.nowMs n.store x).1.applied = true := fun happ =>
      (h.applied_iff hpool hmem (hstore ▸ hcap)).mp happ hheld
    refine Or.inl ⟨stays_of (fun slot hlc => ?_) hbooks.pending, ?_⟩
    · rw [hhas]
      refine or_iff_left_of_imp ?_
      rintro ⟨rfl, hle⟩
      exact hheld.le hle
    · exact (publishOwn_refused hx happ).2
  · have happ := (h.applied_iff hpool hmem (hstore ▸ hcap)).mpr hheld
    obtain ⟨-, hedges⟩ := edges_partition (n.bestTreeEdges (env i)).2.peers
    have hnbr : ∀ p, p ∈ (n.bestTreeEdges (env i)).1 ++
        (n.bestTreeEdges (env i)).2.peers.nonTreeEdges ↔ nbr i p := by
      intro p
      rw [List.mem_append, ← n.mem_bestTreeEdges (env i), ← List.mem_append, hedges,
        ((SameBooks.refl n).best).peers, h.peers]
    refine Or.inr (passes_of_sent hmem hinside hheld hhas (Or.inr hbooks.pending)
      (h.published_sends hpool hx hmem happ).1 (fun _ => rfl) ?_ (fun p hp => (hnbr p).mp hp)
      (fun _ _ => by decide) fun _ p hp _ => (hnbr p).mpr hp)
    refine (nodup_bestTreeEdges n (env i)).append (PeerTable.nodup_nonTreeEdges _) ?_
    intro p hp hp'
    have htree := PeerTable.mem_treeEdges.mp ((n.mem_bestTreeEdges (env i) p).mpr hp)
    rw [(PeerTable.mem_nonTreeEdges.mp hp').2] at htree
    cases htree

/-! ## Ticks -/

/-- What a tick leaves of a pending announcement. -/
def aged (e : Env) (now : Time) (x : IHaveEntry) : Option IHaveEntry :=
  if Node.ihaveExpired now x then none
  else if Node.ihaveDue e now x then some { x with grafted := true } else some x

/-- An announcement is grafted and marked, or dropped, or left as it is. -/
theorem aged_cases (e : Env) (now : Time) (k : IHaveKey) (x : IHaveEntry) :
    x.grafted = false ∧ aged e now x = some { x with grafted := true } ∧
        graftOf e now ⟨k, x⟩ = some (x.announcer, if k.graft.encodes then k.graft else .empty) ∨
      graftOf e now ⟨k, x⟩ = none ∧
        (aged e now x = none ∧ Node.ihaveExpired now x = true ∨ aged e now x = some x) := by
  unfold graftOf aged
  by_cases hdue : Node.ihaveDue e now x = true
  · have hparts := hdue
    unfold Node.ihaveDue at hparts
    simp only [Bool.and_eq_true, Bool.not_eq_true'] at hparts
    refine Or.inl ⟨hparts.1.2, ?_, if_pos hdue⟩
    rw [hparts.1.1, if_pos hdue]
    rfl
  · refine Or.inr ⟨if_neg hdue, ?_⟩
    rw [if_neg hdue]
    split_ifs with hexp
    · exact Or.inl ⟨rfl, hexp⟩
    · exact Or.inr rfl

/-- A graft is one announcer less to ask. -/
theorem grafts_paid (e : Env) (now : Time) (l : List ((_ : IHaveKey) × IHaveEntry)) :
    (l.filterMap (graftOf e now)).length +
      (l.filterMap fun x => (aged e now x.2).map fun v =>
        (⟨x.1, v⟩ : (_ : IHaveKey) × IHaveEntry)).countP (fun x => !x.2.grafted) ≤
    l.countP fun x => !x.2.grafted := by
  induction l with
  | nil => exact le_rfl
  | cons x l ih =>
    rw [List.filterMap_cons, List.filterMap_cons, List.countP_cons]
    rcases aged_cases e now x.1 x.2 with ⟨hnot, haged, hgraft⟩ | ⟨hgraft, ⟨haged, -⟩ | haged⟩
    · rw [hgraft, haged, hnot]
      simp only [Option.map_some, List.countP_cons, List.length_cons]
      simp only [Bool.not_true, Bool.not_false, Bool.false_eq_true, if_false, if_true]
      omega
    · rw [hgraft, haged]
      exact ih.trans (Nat.le_add_right _ _)
    · rw [hgraft, haged]
      simp only [Option.map_some, List.countP_cons]
      omega

theorem frame_processGrafts (n : Node) (e : Env) (now : Time) :
    (n.processGrafts e now).peers = n.peers ∧ (n.processGrafts e now).paused = n.paused ∧
      (n.processGrafts e now).stopped = n.stopped := by
  have hsent : ∀ l : List ((_ : IHaveKey) × IHaveEntry),
      (l.foldl (Node.graftDue e now) n).peers = n.peers ∧
      (l.foldl (Node.graftDue e now) n).paused = n.paused ∧
      (l.foldl (Node.graftDue e now) n).stopped = n.stopped := by
    intro l
    refine List.foldlRecOn (motive := fun m : Node => m.peers = n.peers ∧ m.paused = n.paused ∧
      m.stopped = n.stopped) _ _ ⟨rfl, rfl, rfl⟩ fun m hm x _ => ?_
    unfold Node.graftDue
    split_ifs
    · exact hm
    · exact hm
  exact hsent n.missingIHaves.entries

/-- A tick asks the announcers that have waited long enough. -/
theorem Ready.tick (h : Ready pool nbr i n) (hpool : GroupPool env T P pool) {now : Time}
    (htimely : Timely n now) :
    Ready pool nbr i (n.processGrafts (env i) now) ∧
      (plumParts pool).Asks n (n.processGrafts (env i) now)
        (n.sentSince (n.processGrafts (env i) now)) := by
  have hbooks := SameBooks.processGrafts n (env i) now
  have hstore : (n.processGrafts (env i) now).store = n.store :=
    (Calm.store (env i) n.store).processGrafts now rfl
  obtain ⟨hpeers, hpaused, hstopped⟩ := frame_processGrafts n (env i) now
  have hlook : ∀ k, (n.processGrafts (env i) now).missingIHaves.lookup k =
      (n.missingIHaves.lookup k).bind (aged (env i) now) := by
    intro k
    rw [hbooks.pending]
    exact lookup_ageIHaves n (env i) now k
  have hhas : ∀ slot hlc, HoldsFrom (n.processGrafts (env i) now) slot hlc ↔ HoldsFrom n slot hlc :=
    holdsFrom_congr (by rw [hstore])
  have hcases : ∀ k x, n.missingIHaves.lookup k = some x →
      x.grafted = false ∧ aged (env i) now x = some { x with grafted := true } ∧
          graftOf (env i) now ⟨k, x⟩ = some (x.announcer, k.graft) ∨
        graftOf (env i) now ⟨k, x⟩ = none ∧
          (aged (env i) now x = none ∧ Node.ihaveExpired now x = true ∨
            aged (env i) now x = some x) := by
    intro k x hx
    -- what is tracked encodes
    obtain ⟨r, hr, rfl⟩ := h.tracked k x hx
    have hf := hpool.floods r hr
    have henc : (ihaveKeyOf r).graft.encodes = true := by
      simp [Frame.encodes, IHaveKey.graft, ihaveKeyOf, frameGraft, Frame.strings, hf.topic, hf.key]
    have hcases := aged_cases (env i) now (ihaveKeyOf r) x
    rwa [henc] at hcases
  have hafter : ∀ k e, (n.processGrafts (env i) now).missingIHaves.lookup k = some e →
      ∃ x, n.missingIHaves.lookup k = some x ∧ aged (env i) now x = some e := by
    intro k e he
    rw [hlook] at he
    exact Option.bind_eq_some_iff.mp he
  have hsent : ∀ k x m, n.missingIHaves.lookup k = some x → graftOf (env i) now ⟨k, x⟩ = some m →
      m ∈ n.sentSince (n.processGrafts (env i) now) := by
    intro k x m hx hm
    rw [sentSince_processGrafts]
    exact List.mem_filterMap.mpr ⟨⟨k, x⟩, FMap.lookup_eq_some_iff.mp hx, hm⟩
  refine ⟨⟨⟨hstopped.trans h.running, hpaused.trans h.unpaused, hpeers ▸ h.uncapped⟩,
    fun p => (hbooks.peers p).trans (h.peers p), fun slot r hr => ?_, fun k e he => ?_,
    fun p => ?_⟩, ?_⟩
  · rw [hstore] at hr
    exact h.stored slot r hr
  · obtain ⟨x, hx, -⟩ := hafter k e he
    exact h.tracked k x hx
  · rw [hpeers]
    exact (h.queues p).le (lacking_le fun slot hlc => (hhas slot hlc).mpr)
  refine
    { has := hhas
      waits := fun slot hlc a hwait => ?_
      waits_of := fun slot hlc a hwait => ?_
      asked_of := fun slot hlc hask => ?_
      sends := fun m hm => ?_
      left := lacking_le fun slot hlc => (hhas slot hlc).mpr
      pending := ?_ }
  · obtain ⟨x, hx, hnot, ha⟩ := hwait
    rcases hcases _ x hx with ⟨-, -, hgraft⟩ | ⟨-, ⟨-, hexp⟩ | hsame⟩
    · rw [ha] at hgraft
      exact Or.inr ⟨_, hsent _ x _ hx hgraft, rfl⟩
    · rw [htimely _ x hx hnot] at hexp
      cases hexp
    · refine Or.inl ⟨x, ?_, hnot, ha⟩
      rw [hlook, hx]
      exact hsame
  · obtain ⟨e, he, hnot, ha⟩ := hwait
    obtain ⟨x, hx, haged⟩ := hafter _ e he
    rcases hcases _ x hx with ⟨-, hmark, -⟩ | ⟨-, ⟨hnone, -⟩ | hsame⟩
    · rw [hmark] at haged
      cases haged
      cases hnot
    · rw [hnone] at haged
      cases haged
    · rw [hsame] at haged
      cases haged
      exact ⟨_, hx, hnot, ha⟩
  · obtain ⟨e, he, hgrafted⟩ := hask
    obtain ⟨x, hx, haged⟩ := hafter _ e he
    rcases hcases _ x hx with ⟨-, -, hgraft⟩ | ⟨-, ⟨hnone, -⟩ | hsame⟩
    · exact Or.inr ⟨x.announcer, _, hsent _ x _ hx hgraft, rfl⟩
    · rw [hnone] at haged
      cases haged
    · rw [hsame] at haged
      cases haged
      exact Or.inl ⟨_, hx, hgrafted⟩
  · rw [sentSince_processGrafts] at hm
    obtain ⟨⟨k, x⟩, hmem, hgraft⟩ := List.mem_filterMap.mp hm
    have hx := FMap.lookup_eq_some_iff.mpr hmem
    rcases hcases k x hx with ⟨hnot, -, hgraft'⟩ | ⟨hnone, -⟩
    · rw [hgraft'] at hgraft
      cases hgraft
      exact ⟨(k.topic, { nodeID := k.nodeID, key := k.key }), k.hlc, rfl, x, hx, hnot, rfl⟩
    · rw [hnone] at hgraft
      cases hgraft
  · rw [sentSince_processGrafts, pending_eq, pending_eq, hbooks.pending]
    exact grafts_paid (env i) now n.missingIHaves.entries

end Acts

/-! ## The flood -/

section Flood

variable {env : NodeID → Env} {T : Set Reading} {P : Finset NodeID} {pool : Finset Record}
  {nbr : NodeID → NodeID → Prop} {i src : NodeID} {n n' : Node} {f : Frame}
  {slot : Topic × RecordKey} {hlc : UInt64}

/-- The cap counter only rises. -/
theorem keptRefusals (e : Env) (c : ℕ) :
    Kept e (fun _ => True) fun n => c ≤ n.store.rejectedCap where
  toCalm := .of_core (fun _ _ _ h => h) fun h hcore => by rwa [hcore.store]
  inbound _ _ _ := trivial
  apply rd r _ h := h.trans (rejectedCap_le_exec e.storeCfg _ (.apply (Reading.nowMs rd) r))
  reap nowMs ttlFor h := h.trans (rejectedCap_le_exec e.storeCfg _ (.reap nowMs ttlFor))
  accept _ h := h
  clock _ h := h
  signed _ _ := trivial

theorem rejectedCap_le_op (e : Env) (n : Node) (op : NodeOp) :
    n.store.rejectedCap ≤ (op.exec e n).store.rejectedCap :=
  (keptRefusals e n.store.rejectedCap).run [op] le_rfl

theorem plumKind_push {h : ℕ} (hk : plumKind pool f = .push slot hlc h) :
    ∃ r ∈ pool, ∃ ttl, f = frameEagerPush r ttl ∧ slot = slotOf r ∧ hlc = r.hlc ∧
      h = ttl.toNat := by
  unfold plumKind at hk
  split at hk
  · split_ifs at hk with hr
    cases hk
    exact ⟨_, hr, _, rfl, rfl, rfl, rfl⟩
  all_goals cases hk

theorem plumKind_announce (hk : plumKind pool f = .announce slot hlc) :
    ∃ b, f = frameIHave slot.1 slot.2.nodeID slot.2.key hlc b := by
  unfold plumKind at hk
  split at hk
  · split_ifs at hk
  · cases hk
    exact ⟨_, rfl⟩
  all_goals cases hk

theorem plumKind_request (hk : plumKind pool f = .request slot hlc) :
    f = frameGraft slot.1 slot.2.nodeID slot.2.key hlc := by
  unfold plumKind at hk
  split at hk
  · split_ifs at hk
  · cases hk
  · cases hk
    rfl
  all_goals cases hk

theorem plumKind_idle (hk : plumKind pool f = .idle) : ∃ topic, f = framePrune topic := by
  unfold plumKind at hk
  split at hk
  · split_ifs at hk
  · cases hk
  · cases hk
  · exact ⟨_, rfl⟩
  · cases hk

theorem Floods.handler_ihave {r : Record} (h : Floods env T P r) (hrun : n.stopped = false)
    (i src : NodeID) (b : Bytes) (rd : T) :
    syncHandler env T i n src (frameIHave r.topic r.nodeID r.key r.hlc b) rd =
      (n.handleIHave (env i) rd src r.topic r.nodeID r.hlc r.key, []) := by
  have henc : (frameIHave r.topic r.nodeID r.key r.hlc b).encodes = true := by
    simp [Frame.encodes, frameIHave, Frame.strings, h.topic, h.key]
  have heq : n.onReceive (env i) rd src (frameIHave r.topic r.nodeID r.key r.hlc b) =
      n.handleIHave (env i) rd src r.topic r.nodeID r.hlc r.key := by
    unfold Node.onReceive Node.receiveFrame
    rw [hrun, henc]
    rfl
  obtain ⟨missing, hsame⟩ := n.handleIHave_eq (env i) rd src r.topic r.nodeID r.hlc r.key
  refine Prod.ext heq ?_
  show n.sentSince (n.onReceive (env i) rd src _) = []
  rw [heq, hsame]
  exact sentSince_eq_nil rfl

theorem Floods.handler_graft {r : Record} (h : Floods env T P r) (hrun : n.stopped = false)
    (i src : NodeID) (rd : T) :
    syncHandler env T i n src (frameGraft r.topic r.nodeID r.key r.hlc) rd =
      (n.handleGraft (env i) src r.topic r.nodeID r.key,
        n.sentSince (n.handleGraft (env i) src r.topic r.nodeID r.key)) := by
  have henc : (frameGraft r.topic r.nodeID r.key r.hlc).encodes = true := by
    simp [Frame.encodes, frameGraft, Frame.strings, h.topic, h.key]
  unfold syncHandler frameHandler Node.onReceive Node.receiveFrame
  rw [hrun, henc]
  rfl

/-- The neighbours of a group are in it, and neighbours of each other. -/
structure Neighbours (P : Finset NodeID) (nbr : NodeID → NodeID → Prop) : Prop where
  inside : ∀ {i j}, i ∈ P → nbr i j → j ∈ P
  symm : ∀ {i j}, i ∈ P → nbr i j → nbr j i

theorem PlumAct.ready {out : List (NodeID × Frame)} (h : Ready pool nbr i n)
    (hpool : GroupPool env T P pool) (hact : PlumAct env pool i n n' out) :
    Ready pool nbr i n' := by
  cases hact with
  | publish rd topic key body hr =>
    unfold Node.publishKeyed
    split_ifs
    · exact h
    · exact h
    · exact h
    · exact h.publishOwn hpool hr
  | tombstone rd topic key hr =>
    unfold Node.publishKeyedTombstone
    split_ifs
    · exact h
    · exact h
    · exact h.publishOwn hpool hr
  | tick now htimely => exact (h.tick hpool htimely).1

theorem asks_of_stays (h : (plumParts pool).Stays n n') (hout : n.sentSince n' = []) :
    (plumParts pool).Asks n n' (n.sentSince n') := by
  rw [hout]
  refine ⟨h.has, fun k v a hw => Or.inl ((h.waits k v a).mpr hw), fun k v a => (h.waits k v a).mp,
    fun k v ha => Or.inl ((h.asked k v).mp ha), fun e he => absurd he List.not_mem_nil, h.left, ?_⟩
  rw [List.length_nil, Nat.zero_add]
  exact h.pending

theorem PlumAct.does {out : List (NodeID × Frame)} (h : Ready pool nbr i n)
    (hpool : GroupPool env T P pool) (hinside : ∀ p, nbr i p → p ∈ P)
    (hact : PlumAct env pool i n n' out) (hcap : n'.store.rejectedCap = n.store.rejectedCap) :
    (plumParts pool).Asks n n' out ∨ ∃ slot hlc, (slot, hlc) ∈ poolItems pool ∧
      (plumParts pool).Passes nbr P.card i none 9 slot hlc n n' out := by
  have hsame : (plumParts pool).Asks n n (n.sentSince n) :=
    asks_of_stays (stays_of (fun _ _ => Iff.rfl) rfl) (sentSince_eq_nil rfl)
  have hpublish : ∀ {rd : Reading} {r : Record}, ownRecord (env i) n rd r ∈ pool →
      (n.publishOwn (env i) rd r).store.rejectedCap = n.store.rejectedCap →
      (plumParts pool).Asks n (n.publishOwn (env i) rd r)
          (n.sentSince (n.publishOwn (env i) rd r)) ∨
        ∃ slot hlc, (slot, hlc) ∈ poolItems pool ∧ (plumParts pool).Passes nbr P.card i none 9
          slot hlc n (n.publishOwn (env i) rd r) (n.sentSince (n.publishOwn (env i) rd r)) := by
    intro rd r hr hcap
    rcases h.publish hpool hinside rfl hr hcap with ⟨hstay, hout⟩ | hpass
    · exact Or.inl (asks_of_stays hstay hout)
    · exact Or.inr ⟨_, _, ⟨_, hr, rfl⟩, hpass⟩
  cases hact with
  | publish rd topic key body hr =>
    unfold Node.publishKeyed at hcap ⊢
    split_ifs at hcap ⊢
    · exact Or.inl hsame
    · exact Or.inl hsame
    · exact Or.inl hsame
    · exact hpublish hr hcap
  | tombstone rd topic key hr =>
    unfold Node.publishKeyedTombstone at hcap ⊢
    split_ifs at hcap ⊢
    · exact Or.inl hsame
    · exact Or.inl hsame
    · exact hpublish hr hcap
  | tick now htimely => exact Or.inl (h.tick hpool htimely).2

theorem PlumAct.rejectedCap_le {out : List (NodeID × Frame)} (hact : PlumAct env pool i n n' out) :
    n.store.rejectedCap ≤ n'.store.rejectedCap := by
  cases hact with
  | publish rd topic key body hr =>
    exact rejectedCap_le_op (env i) n (.publishKeyed rd topic key body)
  | tombstone rd topic key hr =>
    exact rejectedCap_le_op (env i) n (.publishKeyedTombstone rd topic key)
  | tick now htimely => rw [(Calm.store (env i) n.store).processGrafts now rfl]

/-- The Plumtree engine floods the records of a pool. -/
noncomputable def plumFlood (hpool : GroupPool env T P pool) (hnbr : Neighbours P nbr) :
    LazyFlood.Protocol (syncHandler env T) (PlumAct env pool) P nbr (poolItems pool) 8 P.card where
  toParts := plumParts pool
  Good := Ready pool nbr
  refused n := n.store.rejectedCap
  hops_pos := by decide
  inside := hnbr.inside
  symm := hnbr.symm
  has_le hhas hle := hhas.le hle
  item_of_waits := by
    rintro i n slot hlc a - h ⟨e, he, -⟩
    obtain ⟨r, hr, hk⟩ := h.tracked _ e he
    obtain ⟨rfl, rfl⟩ := ihaveKeyAt_inj (show ihaveKeyAt (slotOf r) r.hlc = _ from hk)
    exact ⟨r, hr, rfl⟩
  refused_handle i n src f rd := rejectedCap_le_op (env i) n (.receive rd src f)
  refused_act := PlumAct.rejectedCap_le
  act_keeps _ h hact := hact.ready h hpool
  act_does hi h hact hcap := hact.does h hpool (fun p hp => hnbr.inside hi hp) hcap
  push_keeps := by
    rintro i n src f slot hlc hops ⟨rd, hrd⟩ hi h hsrc hk -
    obtain ⟨r, hr, ttl, rfl, rfl, rfl, rfl⟩ := plumKind_push hk
    rw [(hpool.floods r hr).handler_push h.running]
    exact h.push hpool hr hi hsrc hrd ttl
  push_does := by
    rintro i n src f slot hlc hops ⟨rd, hrd⟩ hi h hsrc hk - hcap
    obtain ⟨r, hr, ttl, rfl, rfl, rfl, rfl⟩ := plumKind_push hk
    rw [(hpool.floods r hr).handler_push h.running] at hcap ⊢
    by_cases hheld : HoldsFrom n (slotOf r) r.hlc
    · obtain ⟨hstay, hout⟩ := h.push_held hpool hr hi hrd src ttl hcap hheld
      refine Or.inr ⟨hheld, hstay, ?_⟩
      dsimp only
      rcases hout with hout | hout
      · rw [hout]
        exact ⟨fun e he => absurd he List.not_mem_nil, Nat.zero_le _⟩
      · rw [hout]
        refine ⟨fun e he => ?_, le_rfl⟩
        rw [List.mem_singleton.mp he]
        exact ⟨rfl, rfl⟩
    · exact Or.inl (h.push_taken hpool hr hi (fun p hp => hnbr.inside hi hp) hsrc hrd hcap hheld)
  announce_does := by
    rintro i n src f slot hlc rd hi h hsrc hk ⟨r, hr, heq⟩
    obtain ⟨b, rfl⟩ := plumKind_announce hk
    cases heq
    obtain ⟨hready, hnote⟩ := h.announce hpool hi hr rd src
    have heq := (hpool.floods r hr).handler_ihave h.running i src b rd
    exact ⟨heq ▸ hready, heq ▸ hnote, congrArg Prod.snd heq⟩
  request_does := by
    rintro i n src f slot hlc rd hi h hsrc hk ⟨r, hr, heq⟩ hheld
    rw [plumKind_request hk]
    cases heq
    obtain ⟨hready, hstay, cur, hcur, hout, hslot, hle, hheld'⟩ := h.request hpool hsrc hheld
    have heq := (hpool.floods r hr).handler_graft h.running i src rd
    refine ⟨heq ▸ hready, heq ▸ hstay, frameEagerPush cur eagerTTL, cur.hlc,
      (congrArg Prod.snd heq).trans hout, ?_, hle, ⟨cur, hcur, by rw [hslot]⟩, hheld'⟩
    exact (if_pos hcur).trans (by rw [hslot]; rfl)
  idle_does := by
    rintro i n src f rd hi h hsrc hk
    obtain ⟨topic, rfl⟩ := plumKind_idle hk
    have heq : syncHandler env T i n src (framePrune topic) rd = (n, []) ∨
        syncHandler env T i n src (framePrune topic) rd = (n.handlePrune src, []) := by
      unfold syncHandler frameHandler Node.onReceive Node.receiveFrame
      split_ifs
      · exact Or.inl (Prod.ext rfl (sentSince_eq_nil rfl))
      · exact Or.inl (Prod.ext rfl (sentSince_eq_nil rfl))
      · exact Or.inr (Prod.ext rfl (sentSince_eq_nil rfl))
    have hstay : ∀ pt, (plumParts pool).Stays n (n.setPeers pt) := fun pt =>
      stays_of (fun _ _ => Iff.rfl) rfl
    rcases heq with heq | heq
    · rw [heq]
      exact ⟨h, hstay n.peers, rfl⟩
    · rw [heq]
      exact ⟨h.prune hsrc, hstay _, rfl⟩

/-- Before anything is published or sent, in a group whose nodes hold the same. -/
theorem plumFlood_start (hpool : GroupPool env T P pool) (hnbr : Neighbours P nbr)
    {node : NodeID → Node} (hready : ∀ i ∈ P, Ready pool nbr i (node i))
    (hsame : ∀ i ∈ P, ∀ j ∈ P, (node i).store.slotView = (node j).store.slotView)
    (hnone : ∀ i ∈ P, (node i).missingIHaves = ∅) :
    LazyFlood.Inv (plumFlood hpool hnbr) ⟨node, 0⟩ := by
  have hlook : ∀ i ∈ P, ∀ k e, (node i).missingIHaves.lookup k ≠ some e := by
    intro i hi k e he
    rw [hnone i hi] at he
    cases he
  refine ⟨hready, fun p hp => absurd hp (Multiset.notMem_zero p), fun i hi slot hlc a hw => ?_,
    fun i hi slot hlc ha => ?_, fun i hi j hij slot hlc hhas => Or.inl (.has ?_)⟩
  · obtain ⟨e, he, -⟩ := hw
    exact absurd he (hlook i hi _ e)
  · obtain ⟨e, he, -⟩ := ha
    exact absurd he (hlook i hi _ e)
  · exact (holdsFrom_congr (hsame i hi j (hnbr.inside hi hij)) slot hlc).mp hhas

/-- Nodes with records of the pool hold the same when they hold the same clocks. -/
theorem slotView_eq_of_holds (hpool : GroupPool env T P pool) {j : NodeID} (h : Ready pool nbr i n)
    (h' : Ready pool nbr j n')
    (hiff : ∀ slot hlc, HoldsFrom n slot hlc ↔ HoldsFrom n' slot hlc) :
    n.store.slotView = n'.store.slotView := by
  funext slot
  cases hcur : n.store.slotView slot with
  | none =>
    cases hcur' : n'.store.slotView slot with
    | none => rfl
    | some cur' =>
      obtain ⟨cur, hsome, -⟩ := (hiff slot cur'.hlc).mpr ⟨cur', hcur', le_rfl⟩
      rw [hcur] at hsome
      cases hsome
  | some cur =>
    obtain ⟨cur', hcur', hle⟩ := (hiff slot cur.hlc).mp ⟨cur, hcur, le_rfl⟩
    obtain ⟨x, hx, hle'⟩ := (hiff slot cur'.hlc).mpr ⟨cur', hcur', le_rfl⟩
    rw [hcur] at hx
    cases hx
    obtain ⟨hmem, hslot⟩ := h.stored slot cur hcur
    obtain ⟨hmem', hslot'⟩ := h'.stored slot cur' hcur'
    rw [hcur', hpool.clock cur hmem cur' hmem' (hslot.trans hslot'.symm) (le_antisymm hle hle')]

/-- What the deliveries may cost at the start. -/
theorem price_start (hpool : GroupPool env T P pool) (hnbr : Neighbours P nbr)
    {node : NodeID → Node} (hnone : ∀ i ∈ P, (node i).missingIHaves = ∅) :
    LazyFlood.price (plumFlood hpool hnbr).toParts P.card P ⟨node, 0⟩ ≤
      5 * P.card ^ 2 * pool.card := by
  have hcredit : ∀ i ∈ P, LazyFlood.credit (plumParts pool) P.card (node i) ≤
      5 * P.card * pool.card := by
    intro i hi
    have hpending : (plumParts pool).pending (node i) = 0 := by
      rw [pending_eq, hnone i hi]
      rfl
    classical
    unfold LazyFlood.credit
    rw [hpending]
    exact Nat.mul_le_mul_left _ (Finset.card_filter_le _ _)
  have hsum := Finset.sum_le_card_nsmul P _ _ hcredit
  unfold LazyFlood.price
  rw [Multiset.map_zero, Multiset.sum_zero, Nat.add_zero]
  refine hsum.trans (le_of_eq ?_)
  rw [smul_eq_mul]
  ring

end Flood

/-- **Plumtree converges on its own.** Up to nine running nodes that hold the same publish and
retire records of a pool, push, announce, graft and prune, their frames delivered in any order and
their engines ticking at any time before an announcement expires. However the tree edges lie, this
takes a bounded number of deliveries, and whenever nothing is in flight and no announcement waits to
be grafted, nodes that neighbours join hold the same, as long as no cap turned a record away. -/
theorem plumtree_converges (env : NodeID → Env) (T : Set Reading) (P : Finset NodeID)
    (hcard : P.card ≤ 9) (pool : Finset Record) (hpool : GroupPool env T P pool)
    (nbr : NodeID → NodeID → Prop) (hnbr : Neighbours P nbr) (node : NodeID → Node)
    (hready : ∀ i ∈ P, Ready pool nbr i (node i))
    (hsame : ∀ i ∈ P, ∀ j ∈ P, (node i).store.slotView = (node j).store.slotView)
    (hnone : ∀ i ∈ P, (node i).missingIHaves = ∅) (k : ℕ) (net : Network.Net NodeID Node Frame)
    (hrun : LazyFlood.Run (syncHandler env T) (PlumAct env pool) P k ⟨node, 0⟩ net)
    (hcap : ∀ i ∈ P, (net.node i).store.rejectedCap = (node i).store.rejectedCap) :
    k ≤ 5 * P.card ^ 2 * pool.card ∧
    (net.flight = 0 →
      (∀ i ∈ P, ∀ key e, (net.node i).missingIHaves.lookup key = some e → e.grafted = true) →
      ∀ i ∈ P, ∀ j, Relation.ReflTransGen nbr i j →
        (net.node i).store.slotView = (net.node j).store.slotView) := by
  have hstart := plumFlood_start hpool hnbr hready hsame hnone
  refine ⟨?_, fun hquiet hgrafted i hi j hij => ?_⟩
  · have hpaid := hstart.deliveries_le hcard hrun hcap
    exact (Nat.le_of_add_right_le hpaid).trans (price_start hpool hnbr hnone)
  · have hinv := hstart.run hcard hrun hcap
    have hidle : ∀ i ∈ P, ∀ slot hlc a,
        ¬ (plumFlood hpool hnbr).Waits (net.node i) slot hlc a := by
      rintro i hi slot hlc a ⟨e, he, hnot, -⟩
      rw [hgrafted i hi _ e he] at hnot
      cases hnot
    have hj : j ∈ P := by
      induction hij with
      | refl => exact hi
      | tail _ hnext ih => exact hnbr.inside ih hnext
    exact slotView_eq_of_holds hpool (hinv.good i hi) (hinv.good j hj)
      (hinv.agree hquiet hidle hi hij)

/-- Three nodes in a line, without tree edges. -/
def lineNodes (i : NodeID) : Node :=
  (newNode ⟨0, 0⟩ fun _ => {}).setPeers
    ([([1], [2]), ([2], [1]), ([2], [3]), ([3], [2])].foldl
      (fun pt e => if e.1 = i then pt.ensure e.2 else pt) {})

/-- Node 1 publishes and pushes to node 2, which announces to node 3. -/
def lineTold : (NodeID → Node) × List (Network.Packet NodeID Frame) :=
  let n := ((lineNodes [1]).publishKeyed plainEnv secondOne [116] [107] [1, 2]).2
  Network.deliverAll (syncHandler (fun _ => plainEnv) {secondOne})
    (Function.update lineNodes [1] n)
    (((lineNodes [1]).sentSince n).map fun e => ⟨[1], e.1, e.2⟩)
    (List.replicate 2 ⟨secondOne, rfl⟩)

/-- After the delay node 3 grafts, and node 2 pushes. -/
def lineRun : (NodeID → Node) × List (Network.Packet NodeID Frame) :=
  let n := (lineTold.1 [3]).processGrafts plainEnv 1200000000
  Network.deliverAll (syncHandler (fun _ => plainEnv) {secondOne})
    (Function.update lineTold.1 [3] n)
    (lineTold.2 ++ ((lineTold.1 [3]).sentSince n).map fun e => ⟨[3], e.1, e.2⟩)
    (List.replicate 2 ⟨secondOne, rfl⟩)

def lineNbr (i j : NodeID) : Prop := j ∈ (lineNodes i).peers.ctxBy.keys

theorem line_pool : GroupPool (fun _ => plainEnv) {secondOne} trio {trioRecord} where
  floods := by
    intro r hr
    rw [Finset.mem_singleton.mp hr]
    exact trio_floods
  signed := by decide +kernel
  clock := by
    intro r hr r' hr' _ _
    rw [Finset.mem_singleton.mp hr, Finset.mem_singleton.mp hr']
  room _ _ := by decide

theorem line_neighbours : Neighbours trio lineNbr where
  inside {i j} := by
    have h : ∀ i ∈ trio, ∀ j ∈ (lineNodes i).peers.ctxBy.keys, j ∈ trio := by decide
    exact fun hi hj => h i hi j hj
  symm {i j} := by
    have h : ∀ i ∈ trio, ∀ j ∈ (lineNodes i).peers.ctxBy.keys,
        i ∈ (lineNodes j).peers.ctxBy.keys := by decide
    exact fun hi hj => h i hi j hj

theorem line_ready (i : NodeID) : Ready {trioRecord} lineNbr i (lineNodes i) := by
  have hctx : ∀ p, (lineNodes i).peers.ctx p = { cfg := {} } := by
    intro p
    refine List.foldlRecOn (motive := fun pt : PeerTable => pt.ctx p = { cfg := {} }) _ _ rfl
      fun pt hpt e _ => ?_
    split_ifs
    · rw [ctx_ensure, hpt]
    · exact hpt
  refine ⟨⟨rfl, rfl, fun p => by rw [hctx]⟩, fun p => Iff.rfl, fun slot r hr => ?_,
    fun k e he => ?_, fun p => Or.inr ?_⟩
  · cases hr
  · cases he
  have hle : lacking {trioRecord} (lineNodes i) ≤ 1 := by
    classical
    exact Finset.card_filter_le _ _
  rw [hctx]
  show (0 + (lacking {trioRecord} (lineNodes i) : ℤ)) ≤ 256
  omega

theorem line_timely : Timely (lineTold.1 [3]) 1200000000 := by
  have hall : ∀ e ∈ (lineTold.1 [3]).missingIHaves.entries,
      Node.ihaveExpired 1200000000 e.2 = false := by decide +kernel
  exact fun k e he _ => hall ⟨k, e⟩ (FMap.lookup_eq_some_iff.mp he)

theorem line_told : ∃ k, LazyFlood.Run (syncHandler (fun _ => plainEnv) {secondOne})
    (PlumAct (fun _ => plainEnv) {trioRecord}) trio k ⟨lineNodes, 0⟩ ⟨lineTold.1, lineTold.2⟩ := by
  have hpublish : PlumAct (fun _ => plainEnv) {trioRecord} [1] (lineNodes [1]) _ _ :=
    .publish secondOne [116] [107] [1, 2] (Finset.mem_singleton_self trioRecord)
  exact LazyFlood.Run.steps
    (.act (.nil ⟨lineNodes, 0⟩) (.intro lineNodes 0 (show [1] ∈ trio by decide) hpublish))
    (Network.deliverAll_run (syncHandler (fun _ => plainEnv) {secondOne}) _ _
      (List.replicate 2 ⟨secondOne, rfl⟩))

theorem line_run : ∃ k, LazyFlood.Run (syncHandler (fun _ => plainEnv) {secondOne})
    (PlumAct (fun _ => plainEnv) {trioRecord}) trio k ⟨lineNodes, 0⟩ ⟨lineRun.1, lineRun.2⟩ := by
  have htick : PlumAct (fun _ => plainEnv) {trioRecord} [3] (lineTold.1 [3]) _ _ :=
    .tick 1200000000 line_timely
  obtain ⟨k, htold⟩ := line_told
  exact LazyFlood.Run.steps
    (.act htold (.intro lineTold.1 lineTold.2 (show [3] ∈ trio by decide) htick))
    (Network.deliverAll_run (syncHandler (fun _ => plainEnv) {secondOne}) _ _
      (List.replicate 2 ⟨secondOne, rfl⟩))

theorem line_converges : lineRun.2 = [] ∧
    (lineRun.1 [3]).store.getKeyed [116] plainEnv.id [107] = some trioRecord ∧
    (lineRun.1 [1]).store.slotView = (lineRun.1 [3]).store.slotView := by
  have hquiet : lineRun.2 = [] := List.length_eq_zero_iff.mp (by decide +kernel)
  have hflight : (lineRun.2 : Multiset (Network.Packet NodeID Frame)) = 0 := by
    rw [hquiet]
    rfl
  have hcap : ∀ i ∈ trio, (lineRun.1 i).store.rejectedCap = (lineNodes i).store.rejectedCap := by
    decide +kernel
  have hasked : ∀ i ∈ trio, ∀ e ∈ (lineRun.1 i).missingIHaves.entries, e.2.grafted = true := by
    decide +kernel
  have hjoined : Relation.ReflTransGen lineNbr [1] [3] := by
    have hone : lineNbr [1] [2] := by unfold lineNbr; decide
    have htwo : lineNbr [2] [3] := by unfold lineNbr; decide
    exact .tail (.single hone) htwo
  obtain ⟨k, hrun⟩ := line_run
  refine ⟨hquiet, by decide +kernel, ?_⟩
  have hagree := plumtree_converges (fun _ => plainEnv) {secondOne} trio (by decide) {trioRecord}
    line_pool lineNbr line_neighbours lineNodes (fun i _ => line_ready i) (fun _ _ _ _ => rfl)
    (fun _ _ => rfl) k ⟨lineRun.1, lineRun.2⟩ hrun
  dsimp only at hagree
  exact (hagree hcap).2 hflight (fun i hi key e he => hasked i hi ⟨key, e⟩
      (FMap.lookup_eq_some_iff.mp he)) [1] (by decide) [3] hjoined

end Swarm
