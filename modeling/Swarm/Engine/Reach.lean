import Swarm.Engine.Departed
import Swarm.Engine.Forwarding
import Swarm.Engine.Grafts
import Swarm.Engine.OwnWrites
import Swarm.Lib.TreeFlood
import Swarm.Sync

/-!
# A published record reaches everyone

Eager push floods a record along the tree edges in the sense of `TreeFlood`. A node that takes the
record pushes it on, one that has it answers with a prune, and announcements are idle. So whatever
the order of delivery, a record reaches every node the tree edges lead to, if there are at most
nine of them, and the tree edges that are left lead to them again (`broadcast_rounds`).
-/

namespace Swarm

open TreeFlood (Kind Taken)

/-! ## What a push changes -/

/-- Sending changes the trace only. -/
theorem sendAll_eq (n : Node) (dsts : List NodeID) (f : Frame) :
    n.sendAll dsts f = { n with trace := n.trace ++ dsts.map fun dst => .send dst f } := by
  unfold Node.sendAll
  induction dsts generalizing n with
  | nil => rw [List.foldl_nil, List.map_nil, List.append_nil]
  | cons dst dsts ih =>
    rw [List.foldl_cons, ih, Node.send]
    dsimp only
    rw [List.append_assoc, List.singleton_append, List.map_cons]

theorem sentSince_eq_nil {n n' : Node} (h : n'.trace = n.trace) : n.sentSince n' = [] :=
  List.eq_nil_iff_forall_not_mem.mpr fun e => not_mem_sentSince h e

/-- The frame announces a record. -/
def Announces (f : Frame) : Prop := ∃ topic node key hlc h, f = frameIHave topic node key hlc h

/-- The node has the same store and tree edges, and sent announcements to peers of its table. -/
structure LazyOnly (n n' : Node) : Prop where
  store : n'.store = n.store
  stopped : n'.stopped = n.stopped
  edges : ∀ p, p ∈ n'.peers.treeEdges ↔ p ∈ n.peers.treeEdges
  keys : ∀ p, p ∈ n'.peers.ctxBy.keys ↔ p ∈ n.peers.ctxBy.keys
  trace : ∃ evs, n'.trace = n.trace ++ evs ∧
    ∀ e ∈ sends evs, Announces e.2 ∧ e.1 ∈ n.peers.ctxBy.keys

namespace LazyOnly

variable {n n' : Node}

theorem refl (n : Node) : LazyOnly n n where
  store := rfl
  stopped := rfl
  edges _ := Iff.rfl
  keys _ := Iff.rfl
  trace := ⟨[], (List.append_nil _).symm, fun _ he => absurd he List.not_mem_nil⟩

theorem enqueue (h : LazyOnly n n') {p : NodeID} (hp : p ∈ n.peers.ctxBy.keys) (e : LazyEntry)
    (maxAge : Duration) (now : Time) :
    LazyOnly n (n'.setPeers (n'.peers.enqueueLazy p e maxAge now).2) where
  store := h.store
  stopped := h.stopped
  edges q := by
    refine Iff.trans ?_ (h.edges q)
    show q ∈ (n'.peers.enqueueLazy p e maxAge now).2.treeEdges ↔ _
    rw [PeerTable.mem_treeEdges, PeerTable.isTreeEdge_enqueueLazy, ← PeerTable.mem_treeEdges]
  keys q := (PeerTable.mem_keys_enqueueLazy ((h.keys p).mpr hp) q e maxAge now).trans (h.keys q)
  trace := h.trace

theorem consume (h : LazyOnly n n') {p : NodeID} (hp : p ∈ n.peers.ctxBy.keys) (cost : Int64)
    (now : Time) : LazyOnly n (n'.setPeers (n'.peers.consumeTokens p cost now).2) where
  store := h.store
  stopped := h.stopped
  edges q := by
    refine Iff.trans ?_ (h.edges q)
    show q ∈ (n'.peers.consumeTokens p cost now).2.treeEdges ↔ _
    rw [PeerTable.mem_treeEdges, PeerTable.isTreeEdge_consumeTokens, ← PeerTable.mem_treeEdges]
  keys q := (PeerTable.mem_keys_consumeTokens ((h.keys p).mpr hp) q cost now).trans (h.keys q)
  trace := h.trace

theorem send (h : LazyOnly n n') {p : NodeID} (hp : p ∈ n.peers.ctxBy.keys) {f : Frame}
    (hf : Announces f) : LazyOnly n (n'.send p f) where
  store := h.store
  stopped := h.stopped
  edges := h.edges
  keys := h.keys
  trace := by
    obtain ⟨evs, htrace, hevs⟩ := h.trace
    refine ⟨evs ++ [.send p f], ?_, fun e he => ?_⟩
    · show n'.trace ++ _ = _
      rw [htrace, List.append_assoc]
    · rw [sends_append, List.mem_append] at he
      rcases he with hold | hnew
      · exact hevs e hold
      · rw [List.mem_singleton.mp hnew]
        exact ⟨hf, hp⟩

theorem lazyPushTo (h : LazyOnly n n') (env : Env) (rd : Reading) (r : Record) {f : Frame}
    (hf : Announces f) {p : NodeID} (hp : p ∈ n.peers.ctxBy.keys) :
    LazyOnly n (Node.lazyPushTo env rd r f n' p) := by
  unfold Node.lazyPushTo
  dsimp only
  split_ifs
  · exact h.enqueue hp ..
  · exact (h.enqueue hp ..).consume hp ..
  · exact ((h.enqueue hp ..).consume hp ..).send hp hf

/-- Lazy push announces the record to peers of the table. -/
theorem lazyPush (n : Node) (env : Env) (rd : Reading) (r : Record) :
    LazyOnly n (n.lazyPushToNonTreeEdges env rd r) := by
  unfold Node.lazyPushToNonTreeEdges
  dsimp only
  split_ifs
  · exact .refl n
  · exact .refl n
  · refine List.foldlRecOn _ _ (.refl n) fun m hm p hp => ?_
    exact hm.lazyPushTo env rd r ⟨_, _, _, _, _, rfl⟩ (PeerTable.mem_nonTreeEdges.mp hp).1

end LazyOnly

/-- Since then the node sent one frame to peers and after it only announced to others. -/
def PushedTo (dsts : List NodeID) (f : Frame) (n n' : Node) : Prop :=
  ∃ lazy, n.sentSince n' = dsts.map (fun dst => (dst, f)) ++ lazy ∧
    ∀ e ∈ lazy, Announces e.2 ∧ e.1 ∈ n'.peers.ctxBy.keys

/-- Pushing and then announcing, after steps that sent nothing. -/
theorem pushedTo_lazyPush {n m : Node} {evs : List Event} (env : Env) (rd : Reading) (r : Record)
    (dsts : List NodeID) (f : Frame) (htrace : m.trace = n.trace ++ evs) (hevs : sends evs = []) :
    PushedTo dsts f n ((m.sendAll dsts f).lazyPushToNonTreeEdges env rd r) := by
  have hlazy := LazyOnly.lazyPush (m.sendAll dsts f) env rd r
  rw [sendAll_eq] at hlazy ⊢
  obtain ⟨lazy, hlt, hsent⟩ := hlazy.trace
  have hpushed : sends (dsts.map fun dst => Event.send dst f) = dsts.map fun dst => (dst, f) := by
    rw [← sends_map (dsts.map fun dst => (dst, f)), List.map_map]
    rfl
  refine ⟨sends lazy, ?_, fun e he => ⟨(hsent e he).1, (hlazy.keys _).mpr (hsent e he).2⟩⟩
  unfold Node.sentSince
  rw [hlt, htrace, List.append_assoc, List.append_assoc, List.drop_left, sends_append, sends_append,
    hevs, hpushed, List.nil_append]

theorem PushedTo.accept {dsts : List NodeID} {f : Frame} {n n' : Node} (h : PushedTo dsts f n n')
    (hlen : n.trace.length ≤ n'.trace.length) (r : Record) : PushedTo dsts f n (n'.accept r) := by
  obtain ⟨lazy, hsent, hlazy⟩ := h
  refine ⟨lazy, ?_, hlazy⟩
  rw [← hsent]
  show sends ((n'.trace ++ [Event.accept r]).drop n.trace.length) = _
  rw [List.drop_append_of_le_length hlen, sends_append]
  exact List.append_nil _

/-! ## A push that is taken -/

section Eager

variable {n : Node} {env : Env} {rd : Reading} {sender : NodeID} {r : Record} {ttl : UInt32}

theorem mem_treeEdges_promote (n : Node) (env : Env) (peer p : NodeID) :
    (p ∈ n.peers.treeEdges → p ∈ (n.promoteTreeEdgeBounded env peer).peers.treeEdges) ∧
      (p ∈ (n.promoteTreeEdgeBounded env peer).peers.treeEdges →
        p ∈ n.peers.treeEdges ∨ p = peer) := by
  unfold Node.promoteTreeEdgeBounded
  split_ifs
  · exact ⟨id, Or.inl⟩
  · exact ⟨id, Or.inl⟩
  · show (_ → p ∈ (n.peers.setTreeEdge peer true).treeEdges) ∧
      (p ∈ (n.peers.setTreeEdge peer true).treeEdges → _)
    simp only [PeerTable.mem_treeEdges, PeerTable.isTreeEdge_setTreeEdge]
    split_ifs with hp
    · exact ⟨fun _ => rfl, fun _ => Or.inr hp⟩
    · exact ⟨id, Or.inl⟩

/-- The peers an accepted push is passed to. -/
def forwardTo (n : Node) (env : Env) (sender : NodeID) (ttl : UInt32) : List NodeID :=
  if 1 < ttl then
    (n.promoteTreeEdgeBounded env sender).peers.treeEdges.filter fun e => e != sender
  else []

theorem mem_forwardTo {p : NodeID} :
    p ∈ forwardTo n env sender ttl ↔ 1 < ttl ∧ p ∈ n.peers.treeEdges ∧ p ≠ sender := by
  unfold forwardTo
  obtain ⟨hkeeps, hadds⟩ := mem_treeEdges_promote n env sender p
  split_ifs with httl
  · rw [List.mem_filter, bne_iff_ne]
    refine ⟨fun ⟨hmem, hne⟩ => ⟨httl, (hadds hmem).resolve_right hne, hne⟩, ?_⟩
    exact fun ⟨_, hmem, hne⟩ => ⟨hkeeps hmem, hne⟩
  · simp [httl]

theorem nodup_forwardTo : (forwardTo n env sender ttl).Nodup := by
  unfold forwardTo
  split_ifs
  · exact (PeerTable.nodup_treeEdges _).filter _
  · exact List.nodup_nil

/-- Strings decide whether a push encodes. -/
theorem encodes_push (ttl ttl' : UInt32) :
    (frameEagerPush r ttl).encodes = (frameEagerPush r ttl').encodes := rfl

/-- Without hops left it is a push to nobody. -/
theorem eagerAccepted_eq (env : Env) (rd : Reading) (sender : NodeID) {m : Node}
    (hpeers : m.peers = n.peers) (henc : (frameEagerPush r ttl).encodes = true) :
    m.eagerAccepted env rd sender r ttl =
      ((((m.setPeers (n.promoteTreeEdgeBounded env sender).peers).clearIHave
        (ihaveKeyOf r)).accept r).sendAll (forwardTo n env sender ttl)
          (frameEagerPush r (ttl - 1))).lazyPushToNonTreeEdges env rd r := by
  have hprom := peers_promoteTreeEdgeBounded hpeers env sender
  obtain ⟨pt, hpt⟩ := m.promoteTreeEdgeBounded_eq env sender
  rw [hpt] at hprom
  change pt = _ at hprom
  unfold Node.eagerAccepted Node.eagerForward forwardTo
  dsimp only
  rw [hpt, encodes_push (ttl - 1) ttl, henc, ← hprom]
  split_ifs with httl hno
  · cases hno
  · rfl
  · rfl

theorem eagerAccepted_pushes (env : Env) (rd : Reading) (sender : NodeID) {m : Node}
    {evs : List Event} (hpeers : m.peers = n.peers)
    (htrace : m.trace = n.trace ++ evs) (hevs : sends evs = [])
    (henc : (frameEagerPush r ttl).encodes = true) :
    (m.eagerAccepted env rd sender r ttl).store = m.store ∧
      (m.eagerAccepted env rd sender r ttl).stopped = m.stopped ∧
      (∀ p, p ∈ (m.eagerAccepted env rd sender r ttl).peers.treeEdges ↔
        p ∈ (n.promoteTreeEdgeBounded env sender).peers.treeEdges) ∧
      PushedTo (forwardTo n env sender ttl) (frameEagerPush r (ttl - 1)) n
        (m.eagerAccepted env rd sender r ttl) := by
  generalize hpt : (n.promoteTreeEdgeBounded env sender).peers = pt
  have heq := eagerAccepted_eq env rd sender hpeers henc
  rw [hpt] at heq
  have hlazy := LazyOnly.lazyPush ((((m.setPeers pt).clearIHave (ihaveKeyOf r)).accept r).sendAll
    (forwardTo n env sender ttl) (frameEagerPush r (ttl - 1))) env rd r
  have hbase : (((m.setPeers pt).clearIHave (ihaveKeyOf r)).accept r).trace =
      n.trace ++ (evs ++ [.accept r]) := by
    rw [← List.append_assoc, ← htrace]
    rfl
  have hpushed := pushedTo_lazyPush env rd r (forwardTo n env sender ttl)
    (frameEagerPush r (ttl - 1)) hbase (by rw [sends_append, hevs]; rfl)
  rw [heq]
  rw [sendAll_eq] at hlazy hpushed ⊢
  exact ⟨hlazy.store, hlazy.stopped, hlazy.edges, hpushed⟩

/-- A push the store takes is passed on. -/
theorem handleEager_taken (sender : NodeID)
    (hok : env.gate.letThrough env.cr rd.wallMs r = true)
    (happ : (applyExt env.storeCfg rd.nowMs n.store r).1.applied = true)
    (henc : (frameEagerPush r ttl).encodes = true) :
    (n.handleEager env rd sender (some r) ttl).store =
        (applyExt env.storeCfg rd.nowMs n.store r).2 ∧
      (n.handleEager env rd sender (some r) ttl).stopped = n.stopped ∧
      (∀ p, p ∈ (n.handleEager env rd sender (some r) ttl).peers.treeEdges ↔
        p ∈ (n.promoteTreeEdgeBounded env sender).peers.treeEdges) ∧
      PushedTo (forwardTo n env sender ttl) (frameEagerPush r (ttl - 1)) n
        (n.handleEager env rd sender (some r) ttl) := by
  obtain ⟨m, hm, hstore, htrace, hstopped⟩ := n.applyExt_inbound env rd r
  have hpeers := (peers_applyInbound n env rd r).1
  rw [hm] at hpeers
  have heq : n.handleEager env rd sender (some r) ttl = m.eagerAccepted env rd sender r ttl := by
    unfold Node.handleEager
    dsimp only
    rw [inbound_eq_true_iff.mpr hok, hm, happ]
    rfl
  obtain ⟨hs, hst, hedges, hpushed⟩ := eagerAccepted_pushes env rd sender hpeers htrace rfl henc
  rw [heq]
  exact ⟨hs.trans hstore, hst.trans hstopped, hedges, hpushed⟩

/-- A push of an owner record the store does not take is at most answered with a prune. -/
theorem handleEager_refused (sender : NodeID) (ttl : UInt32)
    (hok : env.gate.letThrough env.cr rd.wallMs r = true)
    (hown : r.isObserverAttestation = false)
    (happ : ¬ (applyExt env.storeCfg rd.nowMs n.store r).1.applied = true) :
    (n.handleEager env rd sender (some r) ttl).store =
        (applyExt env.storeCfg rd.nowMs n.store r).2 ∧
      (n.handleEager env rd sender (some r) ttl).stopped = n.stopped ∧
      (n.handleEager env rd sender (some r) ttl).peers = n.peers ∧
      (n.sentSince (n.handleEager env rd sender (some r) ttl) = [] ∨
        n.sentSince (n.handleEager env rd sender (some r) ttl) =
          [(sender, framePrune r.topic)]) := by
  obtain ⟨m, hm, hstore, htrace, hstopped⟩ := n.applyExt_inbound env rd r
  have hpeers := (peers_applyInbound n env rd r).1
  rw [hm] at hpeers
  have hacc : (applyExt env.storeCfg rd.nowMs n.store r).1.accumulated = false :=
    not_accumulated_owner hown
  have hquiet : n.sentSince m = [] := by
    unfold Node.sentSince
    rw [htrace, List.drop_left]
    rfl
  have hprune : n.sentSince (m.send sender (framePrune r.topic)) =
      [(sender, framePrune r.topic)] := by
    unfold Node.sentSince Node.send
    dsimp only
    rw [htrace, List.append_assoc, List.drop_left]
    rfl
  unfold Node.handleEager Node.sendPrune
  dsimp only
  rw [inbound_eq_true_iff.mpr hok, hm, Bool.eq_false_iff.mpr happ, hacc]
  dsimp only
  split_ifs with hin hrelay _ _ hnew
  · cases hin
  · cases hrelay
  · exact ⟨hstore, hstopped, hpeers, Or.inr hprune⟩
  · exact ⟨hstore, hstopped, hpeers, Or.inl hquiet⟩
  · exact ⟨hstore, hstopped, hpeers, Or.inl hquiet⟩
  · exact absurd rfl hnew

end Eager

/-! ## A publish -/

theorem bestTreeEdges_congr {n m : Node} (h : m.peers = n.peers) (env : Env) :
    (m.bestTreeEdges env).1 = (n.bestTreeEdges env).1 ∧
      (m.bestTreeEdges env).2 = m.setPeers (n.bestTreeEdges env).2.peers := by
  unfold Node.bestTreeEdges
  rw [h]
  dsimp only
  split_ifs
  · rw [← h]
    exact ⟨rfl, rfl⟩
  · exact ⟨rfl, rfl⟩

theorem mem_bestTreeEdges_of_treeEdge (n : Node) (env : Env) {p : NodeID}
    (h : p ∈ n.peers.treeEdges) : p ∈ (n.bestTreeEdges env).1 := by
  unfold Node.bestTreeEdges
  dsimp only
  split_ifs
  · exact h
  · exact List.mem_append_left _ h

theorem nodup_bestTreeEdges (n : Node) (env : Env) : (n.bestTreeEdges env).1.Nodup := by
  unfold Node.bestTreeEdges
  dsimp only
  split_ifs
  · exact n.peers.nodup_treeEdges
  · refine List.Nodup.append n.peers.nodup_treeEdges ?_ ?_
    · refine List.Nodup.sublist (List.take_sublist _ _) ?_
      exact (SortSlice.perm _ _).nodup_iff.mpr n.peers.nodup_nonTreeEdges
    · intro p hp hp'
      have hnon := PeerTable.mem_nonTreeEdges.mp (SortSlice.mem_iff.mp (List.mem_of_mem_take hp'))
      rw [PeerTable.mem_treeEdges.mp hp] at hnon
      cases hnon.2

/-- What a publish does once the store took the record. -/
theorem publishOwn_taken {n m : Node} {env : Env} {rd : Reading} {r x : Record}
    (hx : ownRecord env n rd r = x) (hm : ((n.stamp rd).applyExt env rd x).2 = m)
    (happ : (applyExt env.storeCfg rd.nowMs n.store x).1.applied = true)
    (henc : (frameEagerPush x eagerTTL).encodes = true) :
    n.publishOwn env rd r =
      (((m.setPeers (n.bestTreeEdges env).2.peers).sendAll (n.bestTreeEdges env).1
        (frameEagerPush x eagerTTL)).lazyPushToNonTreeEdges env rd x).accept x := by
  have hpeers : m.peers = n.peers := by rw [← hm]; rfl
  have hbest := bestTreeEdges_congr hpeers env
  rw [publishOwn_eq, hx]
  unfold Node.plumPublish Node.eagerPushToTreeEdges
  dsimp only
  rw [hm, show ((n.stamp rd).applyExt env rd x).1.applied = true from happ, henc, hbest.1, hbest.2]
  rfl

/-- A publish the store takes is pushed to the best edges. -/
theorem publishOwn_pushes (n : Node) (env : Env) (rd : Reading) (r : Record)
    (happ : (applyExt env.storeCfg rd.nowMs n.store (ownRecord env n rd r)).1.applied = true)
    (henc : (frameEagerPush (ownRecord env n rd r) eagerTTL).encodes = true) :
    (n.publishOwn env rd r).store =
        (applyExt env.storeCfg rd.nowMs n.store (ownRecord env n rd r)).2 ∧
      (n.publishOwn env rd r).stopped = n.stopped ∧
      (∀ p, p ∈ (n.publishOwn env rd r).peers.treeEdges ↔ p ∈ (n.bestTreeEdges env).1) ∧
      PushedTo (n.bestTreeEdges env).1 (frameEagerPush (ownRecord env n rd r) eagerTTL) n
        (n.publishOwn env rd r) := by
  generalize hx : ownRecord env n rd r = x at happ henc
  -- the node once the store took the record
  generalize hm : ((n.stamp rd).applyExt env rd x).2 = m
  have hstore : m.store = (applyExt env.storeCfg rd.nowMs n.store x).2 := by rw [← hm]; rfl
  have hstopped : m.stopped = n.stopped := by rw [← hm]; rfl
  have hpeers : m.peers = n.peers := by rw [← hm]; rfl
  have htrace : m.trace = n.trace ++ [.apply rd.nowMs x
      (applyExt env.storeCfg rd.nowMs n.store x).1] := by rw [← hm]; rfl
  have heq := publishOwn_taken hx hm happ henc
  generalize hpt : (n.bestTreeEdges env).2.peers = pt at heq
  have hedges : ∀ p, p ∈ pt.treeEdges ↔ p ∈ (n.bestTreeEdges env).1 := by
    rw [← hpt]
    exact n.mem_bestTreeEdges env
  have hlazy := LazyOnly.lazyPush ((m.setPeers pt).sendAll (n.bestTreeEdges env).1
    (frameEagerPush x eagerTTL)) env rd x
  have hpushed := pushedTo_lazyPush (m := m.setPeers pt) env rd x (n.bestTreeEdges env).1
    (frameEagerPush x eagerTTL) htrace rfl
  rw [heq]
  rw [sendAll_eq] at hlazy hpushed ⊢
  obtain ⟨lazy, hgrown, -⟩ := hlazy.trace
  refine ⟨hlazy.store.trans hstore, hlazy.stopped.trans hstopped,
    fun p => (hlazy.edges p).trans (hedges p), hpushed.accept ?_ x⟩
  rw [hgrown]
  dsimp only [Node.setPeers]
  rw [htrace]
  simp only [List.length_append]
  omega

/-! ## The flood of a record -/

/-- What a frame is to the flood of a record. -/
def floodKind (r : Record) : Frame → Kind
  | .eager (some x) ttl => if x = r then .push ttl.toNat else .other
  | .ihave _ _ _ _ _ => .idle
  | .prune topic => if topic = r.topic then .cut else .other
  | _ => .other

section Kinds

variable {r : Record} {f : Frame}

theorem floodKind_cases (r : Record) (f : Frame) :
    (∃ ttl : UInt32, f = frameEagerPush r ttl ∧ floodKind r f = .push ttl.toNat) ∨
      (f = framePrune r.topic ∧ floodKind r f = .cut) ∨
      (Announces f ∧ floodKind r f = .idle) ∨ floodKind r f = .other := by
  cases f with
  | eager record ttl =>
    cases record with
    | none => exact Or.inr (Or.inr (Or.inr rfl))
    | some x =>
      by_cases hx : x = r
      · exact Or.inl ⟨ttl, by rw [hx]; rfl, if_pos hx⟩
      · exact Or.inr (Or.inr (Or.inr (if_neg hx)))
  | prune topic =>
    by_cases htopic : topic = r.topic
    · exact Or.inr (Or.inl ⟨by rw [htopic]; rfl, if_pos htopic⟩)
    · exact Or.inr (Or.inr (Or.inr (if_neg htopic)))
  | ihave topic node hlc h key =>
    exact Or.inr (Or.inr (Or.inl ⟨⟨topic, node, key, hlc, h, rfl⟩, rfl⟩))
  | _ => exact Or.inr (Or.inr (Or.inr rfl))

theorem floodKind_push {h : ℕ} (hk : floodKind r f = .push h) :
    ∃ ttl : UInt32, f = frameEagerPush r ttl ∧ ttl.toNat = h := by
  rcases floodKind_cases r f with ⟨ttl, hf, hkind⟩ | ⟨-, hkind⟩ | ⟨-, hkind⟩ | hkind
  · rw [hk] at hkind
    cases hkind
    exact ⟨ttl, hf, rfl⟩
  all_goals
    rw [hk] at hkind
    cases hkind

theorem floodKind_cut (hk : floodKind r f = .cut) : f = framePrune r.topic := by
  rcases floodKind_cases r f with ⟨_, _, hkind⟩ | ⟨hf, -⟩ | ⟨-, hkind⟩ | hkind
  · rw [hk] at hkind
    cases hkind
  · exact hf
  all_goals
    rw [hk] at hkind
    cases hkind

theorem floodKind_idle (hk : floodKind r f = .idle) : Announces f := by
  rcases floodKind_cases r f with ⟨_, _, hkind⟩ | ⟨-, hkind⟩ | ⟨hf, -⟩ | hkind
  · rw [hk] at hkind
    cases hkind
  · rw [hk] at hkind
    cases hkind
  · exact hf
  · rw [hk] at hkind
    cases hkind

theorem floodKind_frameEagerPush (r : Record) (ttl : UInt32) :
    floodKind r (frameEagerPush r ttl) = .push ttl.toNat :=
  if_pos rfl

theorem Announces.floodKind (h : Announces f) (r : Record) : floodKind r f = .idle := by
  obtain ⟨_, _, _, _, _, rfl⟩ := h
  rfl

/-- A frame pushed to distinct peers, and announcements after it, are a push that is passed on. -/
theorem taken_of_pushedTo {n n' : Node} {src : NodeID} {dsts : List NodeID} {h : ℕ} {ttl : UInt32}
    (hsent : PushedTo dsts (frameEagerPush r ttl) n n') (httl : 1 < h → ttl.toNat = h - 1)
    (hnodup : dsts.Nodup) {s : Node}
    (hkeeps : ∀ j ∈ s.peers.treeEdges, j ∈ n'.peers.treeEdges)
    (hadds : ∀ j ∈ n'.peers.treeEdges, j ∈ s.peers.treeEdges ∨ j = src)
    (hdsts : ∀ j ∈ dsts, 1 < h ∧ j ∈ s.peers.treeEdges)
    (hall : 1 < h → ∀ j ∈ s.peers.treeEdges, j ≠ src → j ∈ dsts) :
    Taken (Swarm.floodKind r) (fun n : Node => n.peers.treeEdges) src h s n'
      (n.sentSince n') := by
  obtain ⟨lazy, hsent, hlazy⟩ := hsent
  rw [hsent]
  refine ⟨hkeeps, hadds, fun e he => ?_, fun hlt j hj hne => ?_, fun j => ?_⟩
  · rcases List.mem_append.mp he with hpush | hidle
    · obtain ⟨dst, hdst, rfl⟩ := List.mem_map.mp hpush
      obtain ⟨hlt, hmem⟩ := hdsts dst hdst
      exact Or.inr ⟨by rw [floodKind_frameEagerPush, httl hlt], hlt, hmem⟩
    · exact Or.inl ((hlazy e hidle).1.floodKind r)
  · refine ⟨frameEagerPush r ttl, List.mem_append_left _ ?_, ?_⟩
    · exact List.mem_map.mpr ⟨j, hall hlt j hj hne, rfl⟩
    · rw [floodKind_frameEagerPush, httl hlt]
  · rw [List.countP_append, List.countP_map]
    have hzero : lazy.countP (fun e => decide (e.1 = j) && (Swarm.floodKind r e.2).isPush) = 0 := by
      refine List.countP_eq_zero.mpr fun e he => ?_
      rw [(hlazy e he).1.floodKind r]
      simp [Kind.isPush]
    rw [hzero, Nat.add_zero]
    refine le_trans (List.countP_mono_left fun dst _ hdst => ?_)
      (List.nodup_iff_count_le_one.mp hnodup j)
    simp only [Function.comp, Bool.and_eq_true, decide_eq_true_eq] at hdst
    exact beq_iff_eq.mpr hdst.1

end Kinds

/-- The record passes the gates of the nodes in `P` at the readings in `T`, and encodes. -/
structure Floods (env : NodeID → Env) (T : Set Reading) (P : Finset NodeID) (r : Record) :
    Prop where
  owner : r.isObserverAttestation = false
  topic : utf8Valid r.topic = true
  key : utf8Valid r.key = true
  gate : ∀ rd ∈ T, ∀ i ∈ P, (env i).gate.letThrough (env i).cr rd.wallMs r = true

theorem Floods.encodes {env : NodeID → Env} {T : Set Reading} {P : Finset NodeID} {r : Record}
    (h : Floods env T P r) (ttl : UInt32) : (frameEagerPush r ttl).encodes = true := by
  simp [Frame.encodes, frameEagerPush, Frame.strings, Record.strings, h.topic, h.key]

theorem Floods.handler_push {env : NodeID → Env} {T : Set Reading} {P : Finset NodeID} {r : Record}
    (h : Floods env T P r) {n : Node} (hrun : n.stopped = false) (i src : NodeID) (ttl : UInt32)
    (rd : T) :
    syncHandler env T i n src (frameEagerPush r ttl) rd =
      (n.handleEager (env i) rd src (some r) ttl,
        n.sentSince (n.handleEager (env i) rd src (some r) ttl)) := by
  have henc := h.encodes ttl
  unfold syncHandler frameHandler Node.onReceive Node.receiveFrame
  rw [hrun, henc]
  rfl

/-- A prune cuts the edge to its sender. -/
theorem Floods.handler_prune {env : NodeID → Env} {T : Set Reading} {P : Finset NodeID} {r : Record}
    (h : Floods env T P r) (n : Node) (i src : NodeID) (rd : T) :
    syncHandler env T i n src (framePrune r.topic) rd =
      (if n.stopped then n else n.handlePrune src, []) := by
  have henc : (framePrune r.topic).encodes = true := by
    simp [Frame.encodes, framePrune, Frame.strings, h.topic]
  unfold syncHandler frameHandler Node.onReceive Node.receiveFrame
  rw [henc]
  cases n.stopped with
  | true => exact Prod.ext rfl (sentSince_eq_nil rfl)
  | false => exact Prod.ext rfl (sentSince_eq_nil rfl)

/-- An announcement is noted down, if at all. -/
theorem handler_announce (env : NodeID → Env) (T : Set Reading) {f : Frame} (hf : Announces f)
    (n : Node) (i src : NodeID) (rd : T) :
    ∃ missing, syncHandler env T i n src f rd = ({ n with missingIHaves := missing }, []) := by
  obtain ⟨topic, node, key, hlc, b, rfl⟩ := hf
  obtain ⟨missing, heq⟩ := n.handleIHave_eq (env i) rd src topic node hlc key
  unfold syncHandler frameHandler Node.onReceive Node.receiveFrame
  split_ifs
  · exact ⟨n.missingIHaves, Prod.ext rfl (sentSince_eq_nil rfl)⟩
  · exact ⟨n.missingIHaves, Prod.ext rfl (sentSince_eq_nil rfl)⟩
  · refine ⟨missing, Prod.ext heq ?_⟩
    show n.sentSince (n.handleIHave (env i) rd src topic node hlc key) = []
    rw [heq]
    exact sentSince_eq_nil rfl

/-- An owner record that was applied is what its slot holds. -/
theorem slotView_of_applied {cfg : StoreConfig} {nowMs : Int64} {s : RecordStore} {r : Record}
    (hown : r.isObserverAttestation = false)
    (happ : (applyExt cfg nowMs s r).1.applied = true) :
    (applyExt cfg nowMs s r).2.slotView (slotOf r) = some r := by
  have htakes := (applied_iff_takes cfg nowMs s hown).mp happ
  rcases slotView_applyExt cfg nowMs s hown with ⟨-, -, hview⟩ | ⟨-, hview⟩
  · obtain ⟨k, hk⟩ := (applyExt_reports cfg nowMs s r).applied_iff.mp happ
    exact absurd (congrFun hview k) hk
  · rw [hview, LastWriter.put_self]
    cases hcur : s.slotView (slotOf r) with
    | none => rfl
    | some cur => exact congrArg some (if_pos (htakes.newer cur hcur))

/-- Eager push floods the record among `P`. -/
def eagerFlood {env : NodeID → Env} {T : Set Reading} {P : Finset NodeID} {r : Record}
    (h : Floods env T P r) : TreeFlood.Protocol (syncHandler env T) where
  kind := floodKind r
  edges n := n.peers.treeEdges
  Has i n := i ∈ P ∧ n.stopped = false ∧ n.store.slotView (slotOf r) = some r
  Fresh i n := i ∈ P ∧ n.stopped = false ∧ Takes (env i).storeCfg n.store r
  fresh_not_has hfresh hhas := absurd (hfresh.2.2.newer _ hhas.2.2) (lt_irrefl _)
  push_fresh := by
    rintro i n m k src ⟨rd, hrd⟩ ⟨hi, hrun, htakes⟩ hk
    obtain ⟨ttl, rfl, rfl⟩ := floodKind_push hk
    have hok := h.gate rd hrd i hi
    have happ := (applied_iff_takes (env i).storeCfg rd.nowMs n.store h.owner).mpr htakes
    obtain ⟨hstore, hstopped, hedges, hsent⟩ :=
      handleEager_taken src hok happ (h.encodes ttl)
    rw [h.handler_push hrun]
    refine ⟨⟨hi, hstopped.trans hrun, ?_⟩, taken_of_pushedTo hsent (fun hlt => ?_) nodup_forwardTo
      (fun j hj => (hedges j).mpr ((mem_treeEdges_promote n (env i) src j).1 hj))
      (fun j hj => (mem_treeEdges_promote n (env i) src j).2 ((hedges j).mp hj))
      (fun j hj => ?_) (fun hlt j hj hne => mem_forwardTo.mpr ⟨?_, hj, hne⟩)⟩
    · rw [hstore]
      exact slotView_of_applied h.owner happ
    · exact UInt32.toNat_sub_of_le _ _ (UInt32.le_of_lt (UInt32.lt_iff_toNat_lt.mpr hlt))
    · obtain ⟨hlt, hmem, -⟩ := mem_forwardTo.mp hj
      exact ⟨UInt32.lt_iff_toNat_lt.mp hlt, hmem⟩
    · exact UInt32.lt_iff_toNat_lt.mpr hlt
  push_has := by
    rintro i n m k src ⟨rd, hrd⟩ ⟨hi, hrun, hslot⟩ hk
    obtain ⟨ttl, rfl, rfl⟩ := floodKind_push hk
    have hok := h.gate rd hrd i hi
    have hno := RankHeld.not_applied ⟨r, hslot, le_rfl⟩ h.owner (env i).storeCfg rd.nowMs
    obtain ⟨hstore, hstopped, hpeers, hsent⟩ :=
      handleEager_refused src ttl hok h.owner hno
    rw [h.handler_push hrun, hpeers]
    refine ⟨⟨hi, hstopped.trans hrun, ?_⟩, rfl, fun e he => ?_⟩
    · rw [hstore]
      by_contra hmoved
      refine hno ((applyExt_reports (env i).storeCfg rd.nowMs n.store r).applied_iff.mpr
        ⟨slotOf r, ?_⟩)
      rw [hslot]
      exact hmoved
    · rcases hsent with hnone | hprune
      · rw [hnone] at he
        cases he
      · rw [hprune] at he
        rw [List.mem_singleton.mp he]
        exact ⟨rfl, if_pos rfl⟩
  cut_has := by
    rintro i n m src rd ⟨hi, hrun, hslot⟩ hk
    rw [floodKind_cut hk, h.handler_prune, hrun]
    refine ⟨⟨hi, hrun, hslot⟩, fun j => ?_⟩
    show j ∈ (n.peers.setTreeEdge src false).treeEdges ↔ _
    rw [PeerTable.mem_treeEdges, PeerTable.isTreeEdge_setTreeEdge, PeerTable.mem_treeEdges]
    split_ifs with hj
    · simp [hj]
    · simp [hj]
  cut_sends := by
    rintro i n m src rd hk
    rw [floodKind_cut hk, h.handler_prune]
  idle_keeps := by
    rintro i n m src rd hk
    obtain ⟨missing, heq⟩ := handler_announce env T (floodKind_idle hk) n i src rd
    rw [heq]
    exact ⟨Iff.rfl, id, rfl⟩
  idle_sends := by
    rintro i n m src rd hk
    obtain ⟨missing, heq⟩ := handler_announce env T (floodKind_idle hk) n i src rd
    rw [heq]

/-! ## Broadcasts -/

/-- Running nodes that know only each other, and that the tree edges of the origin lead to. -/
structure Group (P : Finset NodeID) (origin : NodeID) (node : NodeID → Node) : Prop where
  origin_mem : origin ∈ P
  running : ∀ i ∈ P, (node i).stopped = false
  known : ∀ i ∈ P, ∀ p ∈ (node i).peers.ctxBy.keys, p ∈ P
  joined : ∀ j ∈ P,
    Relation.ReflTransGen (fun a b => b ∈ (node a).peers.treeEdges) origin j

/-- The nodes when the origin has published, and what it sent. -/
def publishedNet (env : NodeID → Env) (node : NodeID → Node) (origin : NodeID) (rd : Reading)
    (topic : Topic) (key body : Bytes) : Network.Net NodeID Node Frame :=
  let n := ((node origin).publishKeyed (env origin) rd topic key body).2
  ⟨Function.update node origin n, Network.emitted origin ((node origin).sentSince n)⟩

/-- The record a call of `PublishKeyed` signs. -/
def publishedRecord (env : Env) (n : Node) (rd : Reading) (topic : Topic) (key body : Bytes) :
    Record :=
  ownRecord env n rd { topic := topic, nodeID := [], hlc := 0, key := key, body := body }

section Broadcast

variable {env : NodeID → Env} {T : Set Reading} {P : Finset NodeID} {origin : NodeID}
  {node : NodeID → Node} {rd : Reading} {topic : Topic} {key body : Bytes} {r : Record}

/-- A frame makes at most its sender known. -/
theorem known_of_onReceive {n : Node} {e : Env} {src p : NodeID} {f : Frame}
    (h : p ∈ (n.onReceive e rd src f).peers.ctxBy.keys) : p ∈ n.peers.ctxBy.keys ∨ p = src := by
  have hbooks := ((sameBooks_receive n e rd src f).peers p).mp h
  unfold NodeOp.books at hbooks
  dsimp only at hbooks
  split_ifs at hbooks
  · exact ((mem_keys_frame n e rd src f p).mp hbooks).imp_right And.left
  · exact Or.inl hbooks

/-- The flood makes no node outside known. -/
theorem known_step {hf : Floods env T P r} {hops : ℕ} {start : NodeID → List NodeID}
    {depth : NodeID → ℕ} {parent : NodeID → NodeID} {net net' : Network.Net NodeID Node Frame}
    (hspread : TreeFlood.Spread (eagerFlood hf) P origin hops start depth parent net)
    (hknown : ∀ i ∈ P, ∀ p ∈ (net.node i).peers.ctxBy.keys, p ∈ P)
    (hstep : Network.Step (syncHandler env T) net net') :
    ∀ i ∈ P, ∀ p ∈ (net'.node i).peers.ctxBy.keys, p ∈ P := by
  cases hstep with
  | deliver node rest q rd =>
    have hq := hspread.flies q (Multiset.mem_cons_self q rest)
    intro i hi p hp
    dsimp only at hp
    by_cases hdst : i = q.dst
    · subst hdst
      rw [Function.update_self] at hp
      cases hk : floodKind r q.msg with
      | push k =>
        rcases known_of_onReceive hp with hold | rfl
        · exact hknown _ hi p hold
        · exact (hq.push k hk).1
      | cut =>
        rcases known_of_onReceive hp with hold | rfl
        · exact hknown _ hi p hold
        · exact (hq.cut hk).2.2.1
      | idle =>
        obtain ⟨missing, heq⟩ :=
          handler_announce env T (floodKind_idle hk) (node q.dst) q.dst q.src rd
        rw [heq] at hp
        exact hknown _ hi p hp
      | other => exact absurd hk hq.kind
    · rw [Function.update_of_ne hdst] at hp
      exact hknown i hi p hp

/-- What publishing makes of the origin. -/
theorem publishedNet_eq
    (hok : ((node origin).publishKeyed (env origin) rd topic key body).1 = none)
    (hr : publishedRecord (env origin) (node origin) rd topic key body = r)
    (hf : Floods env T P r) (htakes : Takes (env origin).storeCfg (node origin).store r) :
    ∃ n : Node, publishedNet env node origin rd topic key body =
        ⟨Function.update node origin n, Network.emitted origin ((node origin).sentSince n)⟩ ∧
      n.store.slotView (slotOf r) = some r ∧ n.stopped = (node origin).stopped ∧
      (∀ p, p ∈ n.peers.treeEdges ↔ p ∈ ((node origin).bestTreeEdges (env origin)).1) ∧
      (∀ p, p ∈ n.peers.ctxBy.keys ↔ p ∈ (node origin).peers.ctxBy.keys) ∧
      PushedTo ((node origin).bestTreeEdges (env origin)).1 (frameEagerPush r eagerTTL)
        (node origin) n := by
  have happ := (applied_iff_takes (env origin).storeCfg rd.nowMs (node origin).store hf.owner).mpr
    htakes
  subst hr
  obtain ⟨hstore, hstopped, hedges, hsent⟩ := publishOwn_pushes (node origin) (env origin) rd
    { topic := topic, nodeID := [], hlc := 0, key := key, body := body } happ (hf.encodes eagerTTL)
  have hbooks : SameBooks (node origin) ((node origin).publishOwn (env origin) rd
      { topic := topic, nodeID := [], hlc := 0, key := key, body := body }) :=
    (SameBooks.refl (node origin)).publishOwn rd _
  unfold publishedNet
  rw [publishKeyed_of_ok hok]
  refine ⟨_, rfl, ?_, hstopped, hedges, hbooks.peers, hsent⟩
  rw [hstore]
  exact slotView_of_applied hf.owner happ

theorem publishedNet_spread (hgroup : Group P origin node)
    (hok : ((node origin).publishKeyed (env origin) rd topic key body).1 = none)
    (hr : publishedRecord (env origin) (node origin) rd topic key body = r)
    (hf : Floods env T P r) (htakes : ∀ i ∈ P, Takes (env i).storeCfg (node i).store r) :
    TreeFlood.Spread (eagerFlood hf) P origin 8
      (fun i => ((publishedNet env node origin rd topic key body).node i).peers.treeEdges)
      (fun _ => 0) id (publishedNet env node origin rd topic key body) := by
  have horigin := hgroup.origin_mem
  obtain ⟨n, hnet, hslot, hstopped, hedges, hknown, hsent⟩ :=
    publishedNet_eq hok hr hf (htakes origin horigin)
  rw [hnet]
  refine TreeFlood.Spread.init horigin (by decide) ?_ (fun i hi hne => ?_) (fun i hi j hj => ?_) ?_
  · dsimp only
    rw [Function.update_self]
    exact ⟨horigin, hstopped.trans (hgroup.running _ horigin), hslot⟩
  · dsimp only
    rw [Function.update_of_ne hne]
    exact ⟨hi, hgroup.running i hi, htakes i hi⟩
  · change j ∈ (Function.update node origin n i).peers.treeEdges at hj
    by_cases hi' : i = origin
    · rw [hi', Function.update_self] at hj
      exact hgroup.known origin horigin j ((hknown j).mp (PeerTable.mem_keys_of_treeEdge hj))
    · rw [Function.update_of_ne hi'] at hj
      exact hgroup.known i hi j (PeerTable.mem_keys_of_treeEdge hj)
  · dsimp only
    rw [Function.update_self]
    exact taken_of_pushedTo hsent (fun _ => rfl) (nodup_bestTreeEdges _ _) (fun _ hj => hj)
      (fun _ hj => Or.inl hj) (fun j hj => ⟨by decide, (hedges j).mpr hj⟩)
      (fun _ j hj _ => (hedges j).mp hj)

/-- Publishing keeps the group together. -/
theorem publishedNet_group (hgroup : Group P origin node)
    (hok : ((node origin).publishKeyed (env origin) rd topic key body).1 = none)
    (hr : publishedRecord (env origin) (node origin) rd topic key body = r)
    (hf : Floods env T P r) (htakes : Takes (env origin).storeCfg (node origin).store r) :
    Group P origin (publishedNet env node origin rd topic key body).node := by
  obtain ⟨n, hnet, -, hstopped, hedges, hknown, -⟩ := publishedNet_eq hok hr hf htakes
  have hparty {Q : NodeID → Node → Prop} (ho : Q origin (node origin) → Q origin n)
      (hall : ∀ i ∈ P, Q i (node i)) :
      ∀ i ∈ P, Q i ((publishedNet env node origin rd topic key body).node i) := by
    intro i hi
    rw [hnet]
    dsimp only
    by_cases hi' : i = origin
    · subst hi'
      rw [Function.update_self]
      exact ho (hall i hi)
    · rw [Function.update_of_ne hi']
      exact hall i hi
  refine
    { origin_mem := hgroup.origin_mem
      running := hparty (Q := fun _ n => n.stopped = false) hstopped.trans hgroup.running
      known := hparty (Q := fun _ n => ∀ p ∈ n.peers.ctxBy.keys, p ∈ P)
        (fun ho p hp => ho p ((hknown p).mp hp)) hgroup.known
      joined := fun j hj =>
        Relation.ReflTransGen.mono (fun a b hab => ?_) _ _ (hgroup.joined j hj) }
  rw [hnet]
  dsimp only
  by_cases ha : a = origin
  · subst ha
    rw [Function.update_self, hedges]
    exact mem_bestTreeEdges_of_treeEdge _ _ hab
  · rwa [Function.update_of_ne ha]

/-- At every moment of the flood. -/
theorem flood_run {net : Network.Net NodeID Node Frame} (hgroup : Group P origin node)
    (hok : ((node origin).publishKeyed (env origin) rd topic key body).1 = none)
    (hr : publishedRecord (env origin) (node origin) rd topic key body = r)
    (hf : Floods env T P r) (htakes : ∀ i ∈ P, Takes (env i).storeCfg (node i).store r)
    (hrun : Relation.ReflTransGen (Network.Step (syncHandler env T))
      (publishedNet env node origin rd topic key body) net) :
    (∃ depth parent, TreeFlood.Spread (eagerFlood hf) P origin 8
      (fun i => ((publishedNet env node origin rd topic key body).node i).peers.treeEdges)
      depth parent net) ∧
      ∀ i ∈ P, ∀ p ∈ (net.node i).peers.ctxBy.keys, p ∈ P := by
  have hstart := publishedNet_group hgroup hok hr hf (htakes origin hgroup.origin_mem)
  induction hrun with
  | refl => exact ⟨⟨_, _, publishedNet_spread hgroup hok hr hf htakes⟩, hstart.known⟩
  | tail _ hstep ih =>
    obtain ⟨⟨depth, parent, hspread⟩, hknown⟩ := ih
    exact ⟨hspread.step hstep, known_step hspread hknown hstep⟩

/-- When nothing is in flight any more, everyone has the record and the group is together. -/
theorem flood_quiet {net : Network.Net NodeID Node Frame} (hgroup : Group P origin node)
    (hcard : P.card ≤ 9)
    (hok : ((node origin).publishKeyed (env origin) rd topic key body).1 = none)
    (hr : publishedRecord (env origin) (node origin) rd topic key body = r)
    (hf : Floods env T P r) (htakes : ∀ i ∈ P, Takes (env i).storeCfg (node i).store r)
    (hrun : Relation.ReflTransGen (Network.Step (syncHandler env T))
      (publishedNet env node origin rd topic key body) net) (hquiet : net.flight = 0) :
    (∀ i ∈ P, (net.node i).store.getRawKeyed r.topic r.nodeID r.key = some r) ∧
      Group P origin net.node := by
  have hstart := publishedNet_group hgroup hok hr hf (htakes origin hgroup.origin_mem)
  obtain ⟨⟨depth, parent, hspread⟩, hknown⟩ := flood_run hgroup hok hr hf htakes hrun
  have hhas : ∀ i ∈ P, (eagerFlood hf).Has i (net.node i) := fun i hi =>
    (hspread.reached hquiet
      (fun a ha b hb => hstart.known a ha b (PeerTable.mem_keys_of_treeEdge hb)) hcard
      (hstart.joined i hi)).2
  refine ⟨fun i hi => ?_, hgroup.origin_mem, fun i hi => (hhas i hi).2.1, hknown,
    fun i hi => hspread.joined hi (hhas i hi)⟩
  rw [← slotView_eq_getRawKeyed]
  exact (hhas i hi).2.2

/-- Delivering the frames of a broadcast comes to an end. -/
theorem flood_ends
    (hok : ((node origin).publishKeyed (env origin) rd topic key body).1 = none)
    (hr : publishedRecord (env origin) (node origin) rd topic key body = r)
    (hf : Floods env T P r) (htakes : Takes (env origin).storeCfg (node origin).store r) :
    Acc (fun b a => Network.Step (syncHandler env T) a b)
      (publishedNet env node origin rd topic key body) := by
  have hrank : ∀ i n src f (rd : T), Flooding f →
      ∀ e ∈ (syncHandler env T i n src f rd).2, Flooding e.2 ∧ hops e.2 < hops f :=
    fun i n src f rd => flooding_answer env i n src f rd
  refine Network.acc_of_rank hrank _ fun q hq => ?_
  obtain ⟨n, hnet, -, -, -, -, lazy, hsent, hlazy⟩ := publishedNet_eq hok hr hf htakes
  rw [hnet, hsent] at hq
  obtain ⟨e, he, rfl⟩ := Network.mem_emitted.mp hq
  rcases List.mem_append.mp he with hpush | hidle
  · obtain ⟨dst, -, rfl⟩ := List.mem_map.mp hpush
    trivial
  · obtain ⟨⟨_, _, _, _, _, hf⟩, -⟩ := hlazy e hidle
    rw [hf]
    trivial

end Broadcast

/-- **A broadcast reaches everyone.** Up to nine running nodes know only each other and tree edges
lead from one of them to all. When it publishes a record that every node's gate admits and every
node's store takes, then however the frames are delivered this ends, and when it has ended every
node holds the record. -/
theorem broadcast_reaches_all (env : NodeID → Env) (T : Set Reading) (P : Finset NodeID)
    (hcard : P.card ≤ 9) (origin : NodeID) (node : NodeID → Node) (hgroup : Group P origin node)
    (rd : Reading) (topic : Topic) (key body : Bytes)
    (hok : ((node origin).publishKeyed (env origin) rd topic key body).1 = none)
    (hf : Floods env T P (publishedRecord (env origin) (node origin) rd topic key body))
    (htakes : ∀ i ∈ P, Takes (env i).storeCfg (node i).store
      (publishedRecord (env origin) (node origin) rd topic key body)) :
    (∀ run : ℕ → Network.Net NodeID Node Frame,
      run 0 = publishedNet env node origin rd topic key body →
      (∀ k, (run k).flight ≠ 0 → Network.Step (syncHandler env T) (run k) (run (k + 1))) →
      ∃ k, (run k).flight = 0) ∧
    ∀ net, Relation.ReflTransGen (Network.Step (syncHandler env T))
        (publishedNet env node origin rd topic key body) net →
      net.flight = 0 → ∀ i ∈ P, (net.node i).store.getKeyed topic (env origin).id key =
        some (publishedRecord (env origin) (node origin) rd topic key body) := by
  refine ⟨Network.reaches_quiet (flood_ends hok rfl hf (htakes origin hgroup.origin_mem)), ?_⟩
  intro net hrun hquiet i hi
  have hheld := (flood_quiet hgroup hcard hok rfl hf htakes hrun hquiet).1 i hi
  rw [← slotView_eq_getRawKeyed] at hheld
  exact getKeyed_eq_some_iff.mpr ⟨hheld, rfl⟩

/-- Three nodes, each with the others as tree edges. -/
def trio : Finset NodeID := {[1], [2], [3]}

def trioNodes (i : NodeID) : Node :=
  (newNode ⟨0, 0⟩ fun _ => {}).setPeers
    ([[1], [2], [3]].foldl (fun pt p => if p = i then pt else pt.setTreeEdge p true) {})

/-- One second after the epoch. -/
def secondOne : Reading := ⟨1000000000, 1000000000⟩

/-- What node 1 publishes. -/
def trioRecord : Record := publishedRecord plainEnv (trioNodes [1]) secondOne [116] [107] [1, 2]

theorem trio_group : Group trio [1] trioNodes where
  origin_mem := by decide
  running _ _ := rfl
  known := by decide
  joined := by
    intro j hj
    by_cases hj' : j = [1]
    · rw [hj']
    · have hedge : ∀ j ∈ trio, j ≠ [1] → j ∈ (trioNodes [1]).peers.treeEdges := by decide
      exact .single (hedge j hj hj')

theorem trio_floods : Floods (fun _ => plainEnv) {secondOne} trio trioRecord where
  owner := rfl
  topic := by decide
  key := by decide
  gate := by
    rintro _ rfl i -
    decide +kernel

theorem trio_takes (i : NodeID) : Takes plainEnv.storeCfg (trioNodes i).store trioRecord :=
  (applied_iff_takes plainEnv.storeCfg 0 {} trio_floods.owner).mp (by decide +kernel)

/-- The nodes and what is in flight after the publish and some deliveries in the order of
sending. -/
def trioRun (k : ℕ) : (NodeID → Node) × List (Network.Packet NodeID Frame) :=
  let n := ((trioNodes [1]).publishKeyed plainEnv secondOne [116] [107] [1, 2]).2
  Network.deliverAll (syncHandler (fun _ => plainEnv) {secondOne})
    (Function.update trioNodes [1] n)
    (((trioNodes [1]).sentSince n).map fun e => ⟨[1], e.1, e.2⟩) (List.replicate k ⟨secondOne, rfl⟩)

theorem trio_hears_all : ∃ k, (trioRun k).2 = [] ∧ ∀ i ∈ trio,
    ((trioRun k).1 i).store.getKeyed [116] plainEnv.id [107] = some trioRecord := by
  have hall := broadcast_reaches_all (fun _ => plainEnv) {secondOne} trio (by decide) [1] trioNodes
    trio_group secondOne [116] [107] [1, 2] (by decide) trio_floods fun i _ => trio_takes i
  obtain ⟨k, hk⟩ := hall.1 (fun k => ⟨(trioRun k).1, (trioRun k).2⟩) rfl fun k hk =>
    Network.step_deliverAll _ (⟨secondOne, rfl⟩ : ({secondOne} : Set Reading)) k _ _ fun hnil =>
      hk (congrArg _ hnil)
  refine ⟨k, (Multiset.coe_eq_zero _).mp hk, ?_⟩
  exact hall.2 _ (Network.deliverAll_run _ _ _ _) hk

/-! ## One broadcast after the other -/

/-- The origin publishes a record, every node takes it, and what is sent is delivered until nothing
is in flight. -/
def Round (env : NodeID → Env) (T : Set Reading) (P : Finset NodeID) (origin : NodeID)
    (node : NodeID → Node) (r : Record) (node' : NodeID → Node) : Prop :=
  ∃ rd topic key body, ((node origin).publishKeyed (env origin) rd topic key body).1 = none ∧
    publishedRecord (env origin) (node origin) rd topic key body = r ∧ Floods env T P r ∧
    (∀ i ∈ P, Takes (env i).storeCfg (node i).store r) ∧
    Relation.ReflTransGen (Network.Step (syncHandler env T))
      (publishedNet env node origin rd topic key body) ⟨node', 0⟩

/-- The records published in rounds, the first one first. -/
inductive Rounds (env : NodeID → Env) (T : Set Reading) (P : Finset NodeID) (origin : NodeID) :
    (NodeID → Node) → List Record → (NodeID → Node) → Prop where
  | nil (node : NodeID → Node) : Rounds env T P origin node [] node
  | snoc {node node' node'' : NodeID → Node} {rs : List Record} {r : Record} :
    Rounds env T P origin node rs node' → Round env T P origin node' r node'' →
    Rounds env T P origin node (rs ++ [r]) node''

/-- **The tree outlives the broadcasts.** The prunes of a broadcast never cut a node off. Take up to
nine running nodes that know only each other and any number of broadcasts of records that encode,
that every gate admits and every store takes. If tree edges lead from the origin to all nodes before
the first broadcast, they do after each, whatever the order of delivery, and every node holds the
record of the last. -/
theorem broadcast_rounds (env : NodeID → Env) (T : Set Reading) (P : Finset NodeID)
    (hcard : P.card ≤ 9) (origin : NodeID) (node node' : NodeID → Node) (rs : List Record)
    (hgroup : Group P origin node) (hrounds : Rounds env T P origin node rs node') :
    (∀ j ∈ P, Relation.ReflTransGen (fun a b => b ∈ (node' a).peers.treeEdges) origin j) ∧
    ∀ r, rs.getLast? = some r →
      ∀ i ∈ P, (node' i).store.getRawKeyed r.topic r.nodeID r.key = some r := by
  have hall : Group P origin node' ∧ ∀ r, rs.getLast? = some r →
      ∀ i ∈ P, (node' i).store.getRawKeyed r.topic r.nodeID r.key = some r := by
    induction hrounds with
    | nil => exact ⟨hgroup, fun r hr => absurd hr (by simp)⟩
    | snoc _ hround ih =>
      obtain ⟨rd, topic, key, body, hok, hr, hf, htakes, hrun⟩ := hround
      obtain ⟨hheld, hgroup'⟩ := flood_quiet ih.1 hcard hok hr hf htakes hrun rfl
      refine ⟨hgroup', fun r' hr' => ?_⟩
      rw [List.getLast?_concat] at hr'
      cases hr'
      exact hheld
  exact ⟨hall.1.joined, hall.2⟩

/-- Six deliveries, the last two of them prunes between nodes 2 and 3. -/
theorem trio_stays_joined :
    Rounds (fun _ => plainEnv) {secondOne} trio [1] trioNodes [trioRecord] (trioRun 6).1 ∧
    ((trioRun 6).1 [2]).peers.treeEdges = [[1]] ∧ ∀ j ∈ trio, Relation.ReflTransGen
      (fun a b => b ∈ ((trioRun 6).1 a).peers.treeEdges) [1] j := by
  have hquiet : (trioRun 6).2 = [] := List.length_eq_zero_iff.mp (by decide +kernel)
  have hrun : Relation.ReflTransGen (Network.Step (syncHandler (fun _ => plainEnv) {secondOne}))
      (publishedNet (fun _ => plainEnv) trioNodes [1] secondOne [116] [107] [1, 2])
      ⟨(trioRun 6).1, (trioRun 6).2⟩ := Network.deliverAll_run _ _ _ _
  rw [hquiet] at hrun
  have hrounds : Rounds (fun _ => plainEnv) {secondOne} trio [1] trioNodes [trioRecord]
      (trioRun 6).1 :=
    .snoc (.nil trioNodes) ⟨secondOne, [116], [107], [1, 2], by decide, rfl, trio_floods,
      fun i _ => trio_takes i, hrun⟩
  exact ⟨hrounds, by decide +kernel, (broadcast_rounds (fun _ => plainEnv) {secondOne} trio
    (by decide) [1] trioNodes (trioRun 6).1 [trioRecord] trio_group hrounds).1⟩

end Swarm
