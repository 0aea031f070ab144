import Swarm.Engine.Announce
import Swarm.Engine.Reach
import Swarm.Lib.LazyFlood

/-!
# Plumtree frames at a node of a group

What a node of a group does with a push, an announcement, a graft and a prune, in the terms of
`LazyFlood`: it takes a record it has nothing as new as and tells its neighbours, or nothing that
matters changes; it notes an announcement; it answers a graft with what it holds.
-/

namespace Swarm

/-! ## What the nodes hold -/

open LazyFlood (Kind Parts)

/-- The slot holds a record with this clock or a newer one. -/
def HoldsFrom (n : Node) (slot : Topic × RecordKey) (hlc : UInt64) : Prop :=
  ∃ cur, n.store.slotView slot = some cur ∧ hlc ≤ cur.hlc

/-- The announcement of a clock in a slot. -/
def ihaveKeyAt (slot : Topic × RecordKey) (hlc : UInt64) : IHaveKey :=
  { topic := slot.1, nodeID := slot.2.nodeID, key := slot.2.key, hlc := hlc }

/-- What a frame is to the flood of the records of a pool. -/
def plumKind (pool : Finset Record) : Frame → Kind (Topic × RecordKey) UInt64
  | .eager (some r) ttl => if r ∈ pool then .push (slotOf r) r.hlc ttl.toNat else .other
  | .ihave topic nodeID hlc _ key => .announce (topic, { nodeID := nodeID, key := key }) hlc
  | .graft topic nodeID hlc key => .request (topic, { nodeID := nodeID, key := key }) hlc
  | .prune _ => .idle
  | _ => .other

open Classical in
/-- How many records of the pool the node has nothing as new as. -/
noncomputable def lacking (pool : Finset Record) (n : Node) : ℕ :=
  (pool.filter fun r => ¬ HoldsFrom n (slotOf r) r.hlc).card

/-- How frames and nodes are read. -/
noncomputable def plumParts (pool : Finset Record) :
    Parts NodeID Node Frame (Topic × RecordKey) UInt64 where
  kind := plumKind pool
  Has := HoldsFrom
  Waits n slot hlc a := ∃ e, n.missingIHaves.lookup (ihaveKeyAt slot hlc) = some e ∧
    e.grafted = false ∧ e.announcer = a
  Asked n slot hlc := ∃ e, n.missingIHaves.lookup (ihaveKeyAt slot hlc) = some e ∧
    e.grafted = true
  left := lacking pool
  pending n := n.missingIHaves.entries.countP fun e => !e.2.grafted

/-- The slots and clocks of a pool. -/
def poolItems (pool : Finset Record) : Set ((Topic × RecordKey) × UInt64) :=
  {x | ∃ r ∈ pool, x = (slotOf r, r.hlc)}

/-- The records a group of nodes publishes: they encode, pass every gate and are signed, no clock
stands for two records of a slot, and announcements of all of them fit into the tracker. -/
structure GroupPool (env : NodeID → Env) (T : Set Reading) (P : Finset NodeID)
    (pool : Finset Record) : Prop where
  floods : ∀ r ∈ pool, Floods env T P r
  signed : ∀ r ∈ pool, r.sig.length ≠ 0
  clock : ∀ r ∈ pool, ∀ r' ∈ pool, slotOf r = slotOf r' → r.hlc = r'.hlc → r = r'
  room : ∀ i ∈ P, pool.card ≤ (env i).maxIHaves

/-- A node of the group: its peers are its neighbours, and their queues have room for what it has
yet to take. -/
structure Ready (pool : Finset Record) (nbr : NodeID → NodeID → Prop) (i : NodeID) (n : Node) : Prop
    extends Open n where
  peers : ∀ p, p ∈ n.peers.ctxBy.keys ↔ nbr i p
  stored : ∀ slot r, n.store.slotView slot = some r → r ∈ pool ∧ slotOf r = slot
  tracked : ∀ k e, n.missingIHaves.lookup k = some e → ∃ r ∈ pool, ihaveKeyOf r = k
  queues : ∀ p, RoomAt n.peers p (lacking pool n)

section Store

variable {env : NodeID → Env} {T : Set Reading} {P : Finset NodeID} {pool : Finset Record}
  {nbr : NodeID → NodeID → Prop} {i : NodeID} {n n' : Node} {r : Record} {cfg : StoreConfig}
  {nowMs : Int64}

theorem HoldsFrom.le {slot : Topic × RecordKey} {h h' : UInt64} (hh : HoldsFrom n slot h')
    (hle : h ≤ h') : HoldsFrom n slot h := by
  obtain ⟨cur, hcur, hle'⟩ := hh
  exact ⟨cur, hcur, hle.trans hle'⟩

theorem holdsFrom_congr (h : n'.store.slotView = n.store.slotView) (slot : Topic × RecordKey)
    (hlc : UInt64) : HoldsFrom n' slot hlc ↔ HoldsFrom n slot hlc := by
  unfold HoldsFrom
  rw [h]

/-- A merge that no cap stops adds the clocks up to that of the record. -/
theorem holdsFrom_applyExt (hown : r.isObserverAttestation = false)
    (hstore : n'.store = (applyExt cfg nowMs n.store r).2)
    (hcap : n'.store.rejectedCap = n.store.rejectedCap) (slot : Topic × RecordKey) (hlc : UInt64) :
    HoldsFrom n' slot hlc ↔ HoldsFrom n slot hlc ∨ slot = slotOf r ∧ hlc ≤ r.hlc := by
  rw [hstore] at hcap
  unfold HoldsFrom
  rw [hstore]
  rcases slotView_applyExt cfg nowMs n.store hown with ⟨-, hfull, -⟩ | ⟨-, hview⟩
  · omega
  rw [hview]
  by_cases hslot : slot = slotOf r
  · subst hslot
    rw [LastWriter.put_self]
    cases hcur : n.store.slotView (slotOf r) with
    | none => simp [LastWriter.winner]
    | some cur =>
      have hmax : hlc ≤ (LastWriter.winner rankOf (some cur) r).hlc ↔
          hlc ≤ cur.hlc ∨ hlc ≤ r.hlc := by
        show hlc ≤ (if rankOf cur < rankOf r then r else cur).hlc ↔ _
        split_ifs with hlt
        · have hle : cur.hlc ≤ r.hlc := by
            rcases (rankOf_lt_iff cur r).mp hlt with hlt | ⟨heq, -⟩
            · exact hlt.le
            · exact heq.ge
          exact ⟨Or.inr, fun h => h.elim (fun h => h.trans hle) id⟩
        · have hle : r.hlc ≤ cur.hlc := by
            rcases (rankOf_le_iff r cur).mp (not_lt.mp hlt) with hlt | ⟨heq, -⟩
            · exact hlt.le
            · exact heq.le
          exact ⟨Or.inl, fun h => h.elim id fun h => h.trans hle⟩
      simpa using hmax
  · rw [LastWriter.put_of_ne _ _ hslot]
    simp [hslot]

/-- Within the pool the clock decides what the store takes. -/
theorem Ready.applied_iff (h : Ready pool nbr i n) (hpool : GroupPool env T P pool) (hr : r ∈ pool)
    (hcap : (applyExt cfg nowMs n.store r).2.rejectedCap = n.store.rejectedCap) :
    (applyExt cfg nowMs n.store r).1.applied = true ↔ ¬ HoldsFrom n (slotOf r) r.hlc := by
  have hown := (hpool.floods r hr).owner
  constructor
  · rintro happ ⟨cur, hcur, hle⟩
    obtain ⟨hmem, hslot⟩ := h.stored _ cur hcur
    refine RankHeld.not_applied ⟨cur, hcur, ?_⟩ hown cfg nowMs happ
    rcases hle.lt_or_eq with hlt | heq
    · exact ((rankOf_lt_iff r cur).mpr (Or.inl hlt)).le
    · rw [hpool.clock r hr cur hmem hslot.symm heq]
  · intro hno
    refine (applyExt_reports cfg nowMs n.store r).applied_iff.mpr ⟨slotOf r, fun hsame => hno ?_⟩
    have hnew : HoldsFrom { n with store := (applyExt cfg nowMs n.store r).2 } (slotOf r) r.hlc :=
      (holdsFrom_applyExt hown rfl hcap _ _).mpr (Or.inr ⟨rfl, le_rfl⟩)
    unfold HoldsFrom at hnew ⊢
    rwa [hsame] at hnew

theorem lacking_le (hhas : ∀ slot hlc, HoldsFrom n slot hlc → HoldsFrom n' slot hlc) :
    lacking pool n' ≤ lacking pool n := by
  classical
  refine Finset.card_le_card fun x hx => ?_
  obtain ⟨hmem, hno⟩ := Finset.mem_filter.mp hx
  exact Finset.mem_filter.mpr ⟨hmem, fun hold => hno (hhas _ _ hold)⟩

/-- A node that newly holds a record lacks fewer. -/
theorem lacking_lt (hr : r ∈ pool) (hnew : ¬ HoldsFrom n (slotOf r) r.hlc)
    (hhas : ∀ slot hlc, HoldsFrom n' slot hlc ↔
      HoldsFrom n slot hlc ∨ slot = slotOf r ∧ hlc ≤ r.hlc) : lacking pool n' < lacking pool n := by
  classical
  refine Finset.card_lt_card ⟨fun x hx => ?_, fun hsub => ?_⟩
  · obtain ⟨hmem, hno⟩ := Finset.mem_filter.mp hx
    exact Finset.mem_filter.mpr ⟨hmem, fun hold => hno ((hhas _ _).mpr (Or.inl hold))⟩
  · have hgone := hsub (Finset.mem_filter.mpr ⟨hr, hnew⟩)
    exact (Finset.mem_filter.mp hgone).2 ((hhas _ _).mpr (Or.inr ⟨rfl, le_rfl⟩))

/-- What the store takes is lacking no more. -/
theorem Ready.lacking_applyExt (h : Ready pool nbr i n) (hpool : GroupPool env T P pool)
    (hr : r ∈ pool) (hstore : n'.store = (applyExt cfg nowMs n.store r).2) :
    lacking pool n' ≤ lacking pool n ∧
      ((applyExt cfg nowMs n.store r).1.applied = true → lacking pool n' < lacking pool n) := by
  have hown := (hpool.floods r hr).owner
  have hreports := applyExt_reports cfg nowMs n.store r
  by_cases happ : (applyExt cfg nowMs n.store r).1.applied = true
  · have hcap : (applyExt cfg nowMs n.store r).2.rejectedCap = n.store.rejectedCap := by
      rcases slotView_applyExt cfg nowMs n.store hown with ⟨-, -, hview⟩ | ⟨hcap, -⟩
      · obtain ⟨slot, hmoved⟩ := hreports.applied_iff.mp happ
        exact absurd (congrFun hview slot) hmoved
      · exact hcap
    have hlt : lacking pool n' < lacking pool n :=
      lacking_lt hr ((h.applied_iff hpool hr hcap).mp happ)
        (holdsFrom_applyExt hown hstore (hstore ▸ hcap))
    exact ⟨hlt.le, fun _ => hlt⟩
  · refine ⟨lacking_le fun slot hlc => (holdsFrom_congr ?_ slot hlc).mpr, fun h => absurd h happ⟩
    funext slot
    rw [hstore]
    by_contra hmoved
    exact happ (hreports.applied_iff.mpr ⟨slot, hmoved⟩)

/-- What the store holds stays in the pool. -/
theorem Ready.stored_applyExt (h : Ready pool nbr i n) (hpool : GroupPool env T P pool)
    (hr : r ∈ pool) (slot : Topic × RecordKey) (x : Record)
    (hx : (applyExt cfg nowMs n.store r).2.slotView slot = some x) :
    x ∈ pool ∧ slotOf x = slot := by
  rcases slotView_applyExt cfg nowMs n.store (hpool.floods r hr).owner with
    ⟨-, -, hview⟩ | ⟨-, hview⟩
  · rw [hview] at hx
    exact h.stored slot x hx
  · rw [hview] at hx
    by_cases hslot : slot = slotOf r
    · subst hslot
      rw [LastWriter.put_self] at hx
      rcases LastWriter.winner_eq_or rankOf (n.store.slotView (slotOf r)) r with heq | heq
      · rw [heq] at hx
        cases hx
        exact ⟨hr, rfl⟩
      · exact h.stored _ x (heq.trans hx)
    · rw [LastWriter.put_of_ne _ _ hslot] at hx
      exact h.stored slot x hx

end Store

/-! ## Frames -/

section Handlers

variable {env : NodeID → Env} {T : Set Reading} {P : Finset NodeID} {pool : Finset Record}
  {nbr : NodeID → NodeID → Prop} {i src : NodeID} {n n' : Node} {r : Record} {rd : Reading}
  {ttl : UInt32}

theorem Open.applyInbound (h : Open n) (e : Env) (rd : Reading) (r : Record) :
    Open (((n.inbound e rd r).2.observe rd r.hlc).applyExt e rd r).2 := by
  have hin : Open (n.inbound e rd r).2 := by
    unfold Node.inbound
    split_ifs
    · exact h
    · exact ⟨h.running, h.unpaused, h.uncapped⟩
  exact ⟨hin.running, hin.unpaused, hin.uncapped⟩

theorem Open.handleEager (h : Open n) (e : Env) (rd : Reading) (src : NodeID)
    (record : Option Record) (ttl : UInt32) : Open (n.handleEager e rd src record ttl) := by
  cases record with
  | none => exact h
  | some r =>
    have hin : Open (n.inbound e rd r).2 := by
      unfold Node.inbound
      split_ifs
      · exact h
      · exact ⟨h.running, h.unpaused, h.uncapped⟩
    have happ := h.applyInbound e rd r
    unfold Node.handleEager
    dsimp only
    split_ifs
    · exact hin
    · exact (Open.quiet e).relayAttestation src (fun _ _ => trivial) happ
    · exact (Open.quiet e).sendPrune src r.topic happ
    · exact happ
    · exact (Open.quiet e).eagerAccepted rd src (fun _ _ => trivial) happ

/-- A frame from a neighbour leaves the table as it is. -/
theorem Ready.keys_receive (h : Ready pool nbr i n) (hsrc : nbr i src) (e : Env) (rd : Reading)
    (f : Frame) (p : NodeID) : p ∈ (n.onReceive e rd src f).peers.ctxBy.keys ↔ nbr i p := by
  rw [(sameBooks_receive n e rd src f).peers p, ← h.peers p]
  unfold NodeOp.books
  dsimp only
  split_ifs
  · rw [mem_keys_frame]
    refine or_iff_left_of_imp fun hp => ?_
    rw [hp.1]
    exact (h.peers src).mpr hsrc
  · rfl

theorem onReceive_eager (hrun : n.stopped = false)
    (henc : (frameEagerPush r ttl).encodes = true) (e : Env) (rd : Reading) (src : NodeID) :
    n.onReceive e rd src (frameEagerPush r ttl) = n.handleEager e rd src (some r) ttl := by
  unfold Node.onReceive Node.receiveFrame
  rw [hrun, henc]
  rfl

theorem pending_handleEager (n : Node) (e : Env) (rd : Reading) (src : NodeID) (r : Record)
    (ttl : UInt32) : (n.handleEager e rd src (some r) ttl).missingIHaves =
      if Accepts e n rd r then n.missingIHaves.erase (ihaveKeyOf r) else n.missingIHaves := by
  rw [(sameBooks_handleEager n e rd src (some r) ttl).pending]
  unfold Frame.books
  dsimp only
  split_ifs
  · show AList.erase _ _ = _
    rw [pending_promote]
  · rfl

theorem store_handleEager {e : Env} (hown : r.isObserverAttestation = false)
    (hok : e.gate.letThrough e.cr rd.wallMs r = true)
    (henc : (frameEagerPush r ttl).encodes = true) (n : Node) (src : NodeID) :
    (n.handleEager e rd src (some r) ttl).store = (applyExt e.storeCfg rd.nowMs n.store r).2 := by
  by_cases happ : (applyExt e.storeCfg rd.nowMs n.store r).1.applied = true
  · exact (handleEager_taken src hok happ henc).1
  · exact (handleEager_refused src ttl hok hown happ).1

theorem sends_map_send (l : List NodeID) (f : Frame) :
    sends (l.map fun p => Event.send p f) = l.map fun p => (p, f) := by
  rw [← sends_map (l.map fun p => (p, f)), List.map_map]
  rfl

/-- One frame to some peers and then one to others, after steps that sent nothing. -/
theorem sentSince_sendAll {n b : Node} (evs evs' : List Event) (l l' : List NodeID) (f f' : Frame)
    (htrace : b.trace = n.trace ++ evs ++ l.map (fun p => .send p f) ++
      l'.map (fun p => .send p f') ++ evs') (hevs : sends evs = []) (hevs' : sends evs' = []) :
    n.sentSince b = l.map (fun p => (p, f)) ++ l'.map fun p => (p, f') := by
  unfold Node.sentSince
  rw [htrace]
  simp only [List.append_assoc, List.drop_left]
  rw [sends_append, sends_append, sends_append, hevs, hevs', sends_map_send, sends_map_send,
    List.nil_append, List.append_nil]

/-- The frames of a node that takes a record: a push along the tree edges and an announcement to
every other peer, for which each queue has a place. -/
theorem Ready.taken_sends (h : Ready pool nbr i n) (hpool : GroupPool env T P pool) (hr : r ∈ pool)
    (hi : i ∈ P) (hrd : rd ∈ T) (src : NodeID) (ttl : UInt32)
    (happ : (applyExt (env i).storeCfg rd.nowMs n.store r).1.applied = true) :
    n.sentSince (n.handleEager (env i) rd src (some r) ttl) =
      (forwardTo n (env i) src ttl).map (fun p => (p, frameEagerPush r (ttl - 1))) ++
        (n.promoteTreeEdgeBounded (env i) src).peers.nonTreeEdges.map (fun p =>
          (p, frameIHave r.topic r.nodeID r.key r.hlc (bodyHash (env i).cr r))) ∧
      ∀ p, RoomAt (n.handleEager (env i) rd src (some r) ttl).peers p
        (lacking pool (n.handleEager (env i) rd src (some r) ttl)) := by
  have hf := hpool.floods r hr
  have hlt := (h.lacking_applyExt hpool hr (store_handleEager hf.owner (hf.gate rd hrd i hi)
    (hf.encodes ttl) n src)).2 happ
  generalize lacking pool (n.handleEager (env i) rd src (some r) ttl) = c at hlt ⊢
  have henc : (frameIHave r.topic r.nodeID r.key r.hlc (bodyHash (env i).cr r)).encodes = true := by
    simp [Frame.encodes, frameIHave, Frame.strings, hf.topic, hf.key]
  obtain ⟨m, hm, -, htrace, -⟩ := n.applyExt_inbound (env i) rd r
  have hpeers := (peers_applyInbound n (env i) rd r).1
  have hopen := h.toOpen.applyInbound (env i) rd r
  rw [hm] at hpeers hopen
  have heq : n.handleEager (env i) rd src (some r) ttl =
      m.eagerAccepted (env i) rd src r ttl := by
    unfold Node.handleEager
    dsimp only
    rw [inbound_eq_true_iff.mpr (hf.gate rd hrd i hi), hm, happ]
    rfl
  rw [heq, eagerAccepted_eq (env i) rd src hpeers (hf.encodes ttl)]
  generalize hpt : (n.promoteTreeEdgeBounded (env i) src).peers = pt
  generalize hb : ((((m.setPeers pt).clearIHave (ihaveKeyOf r)).accept r).sendAll
    (forwardTo n (env i) src ttl) (frameEagerPush r (ttl - 1))) = b
  rw [sendAll_eq] at hb
  have hbopen : Open b := by
    have hpromoted := (Open.quiet (env i)).promote src h.toOpen
    rw [← hb]
    exact ⟨hopen.running, hopen.unpaused, hpt ▸ hpromoted.uncapped⟩
  have hbpeers : b.peers = pt := by rw [← hb]; rfl
  have hplace : ∀ p, RoomAt b.peers p (c + 1) := by
    intro p
    rw [hbpeers, ← hpt]
    exact ((h.queues p).le hlt).promote (env i) src
  obtain ⟨pt', hlazy, hroom⟩ := hbopen.lazyPush hplace (env i) rd r henc
  rw [hlazy, sendAll_eq, hbpeers]
  refine ⟨sentSince_sendAll
    [.apply rd.nowMs r (applyExt (env i).storeCfg rd.nowMs n.store r).1, .accept r] []
    _ _ _ _ ?_ rfl rfl, hroom⟩
  rw [List.append_nil, ← hb]
  show ((m.trace ++ [Event.accept r]) ++ _) ++ _ = _
  rw [htrace]
  simp only [List.append_assoc]
  rfl

/-- A push keeps the node in order. -/
theorem Ready.push (h : Ready pool nbr i n) (hpool : GroupPool env T P pool) (hr : r ∈ pool)
    (hi : i ∈ P) (hsrc : nbr i src) (hrd : rd ∈ T) (ttl : UInt32) :
    Ready pool nbr i (n.handleEager (env i) rd src (some r) ttl) := by
  have hf := hpool.floods r hr
  have hgate := hf.gate rd hrd i hi
  have hstore := store_handleEager hf.owner hgate (hf.encodes ttl) n src
  refine
    { toOpen := h.toOpen.handleEager (env i) rd src (some r) ttl
      peers := fun p => ?_
      stored := fun slot x hx => ?_
      tracked := fun k e he => ?_
      queues := ?_ }
  · rw [← onReceive_eager h.running (hf.encodes ttl)]
    exact h.keys_receive hsrc (env i) rd _ p
  · rw [hstore] at hx
    exact h.stored_applyExt hpool hr slot x hx
  · rw [pending_handleEager] at he
    split_ifs at he
    · rw [FMap.lookup_erase_eq] at he
      split_ifs at he
      exact h.tracked k e he
    · exact h.tracked k e he
  · by_cases happ : (applyExt (env i).storeCfg rd.nowMs n.store r).1.applied = true
    · exact (h.taken_sends hpool hr hi hrd src ttl happ).2
    · intro p
      rw [(handleEager_refused src ttl hgate hf.owner happ).2.2.1]
      exact (h.queues p).le (h.lacking_applyExt hpool hr hstore).1

theorem ihaveKeyAt_inj {slot slot' : Topic × RecordKey} {hlc hlc' : UInt64}
    (h : ihaveKeyAt slot hlc = ihaveKeyAt slot' hlc') : slot = slot' ∧ hlc = hlc' := by
  obtain ⟨topic, node, key⟩ := slot
  obtain ⟨topic', node', key'⟩ := slot'
  cases h
  exact ⟨rfl, rfl⟩

theorem pending_eq (pool : Finset Record) (n : Node) : (plumParts pool).pending n =
    n.missingIHaves.entries.countP fun e => !e.2.grafted := rfl

/-- Nothing that matters changes when slots and pending announcements do not. -/
theorem stays_of (hhas : ∀ slot hlc, HoldsFrom n' slot hlc ↔ HoldsFrom n slot hlc)
    (hpending : n'.missingIHaves = n.missingIHaves) : (plumParts pool).Stays n n' where
  has := hhas
  waits slot hlc a := by
    show (∃ e, n'.missingIHaves.lookup _ = some e ∧ _) ↔ _
    rw [hpending]
    rfl
  asked slot hlc := by
    show (∃ e, n'.missingIHaves.lookup _ = some e ∧ _) ↔ _
    rw [hpending]
    rfl
  left := lacking_le fun slot hlc => (hhas slot hlc).mpr
  pending := by rw [pending_eq, pending_eq, hpending]

/-- A record that is taken, pushed to some peers and announced to others. -/
theorem passes_of_sent {src : Option NodeID} {hops : ℕ} (hr : r ∈ pool)
    (hinside : ∀ p, nbr i p → p ∈ P) (hnew : ¬ HoldsFrom n (slotOf r) r.hlc)
    (hhas : ∀ slot hlc, HoldsFrom n' slot hlc ↔
      HoldsFrom n slot hlc ∨ slot = slotOf r ∧ hlc ≤ r.hlc)
    (hpending : n'.missingIHaves = n.missingIHaves.erase (ihaveKeyOf r) ∨
      n'.missingIHaves = n.missingIHaves)
    {dsts rest : List NodeID} {b : Bytes}
    (hsent : n.sentSince n' = dsts.map (fun p => (p, frameEagerPush r ttl)) ++
      rest.map fun p => (p, frameIHave r.topic r.nodeID r.key r.hlc b))
    (httl : 1 < hops → ttl.toNat = hops - 1) (hnodup : (dsts ++ rest).Nodup)
    (hknown : ∀ p ∈ dsts ++ rest, nbr i p) (hdsts : ∀ p ∈ dsts, 1 < hops)
    (hall : 1 < hops → ∀ p, nbr i p → some p ≠ src → p ∈ dsts ++ rest) :
    (plumParts pool).Passes nbr P.card i src hops (slotOf r) r.hlc n n' (n.sentSince n') := by
  have hpush : plumKind pool (frameEagerPush r ttl) = .push (slotOf r) r.hlc ttl.toNat := if_pos hr
  have hlookup : ∀ k e, n'.missingIHaves.lookup k = some e → n.missingIHaves.lookup k = some e := by
    intro k e he
    rcases hpending with heq | heq
    · rw [heq, FMap.lookup_erase_eq] at he
      split_ifs at he
      exact he
    · rwa [heq] at he
  refine
    { new := hnew
      has := hhas
      waits := fun slot hlc a hw => ?_
      waits_of := fun slot hlc a ⟨e, he, hwait⟩ => ⟨e, hlookup _ e he, hwait⟩
      asked_of := fun slot hlc ⟨e, he, hasked⟩ => ⟨e, hlookup _ e he, hasked⟩
      sends := fun e he => ?_
      tells := fun hlt p hp hne => ?_
      left := lacking_lt hr hnew hhas
      pending := ?_
      fanout := ?_ }
  · obtain ⟨e, he, hwait⟩ := hw
    rcases hpending with heq | heq
    · by_cases hkey : ihaveKeyAt slot hlc = ihaveKeyOf r
      · exact Or.inr (ihaveKeyAt_inj hkey)
      · refine Or.inl ⟨e, ?_, hwait⟩
        rw [heq, FMap.lookup_erase_eq, if_neg hkey]
        exact he
    · exact Or.inl ⟨e, by rw [heq]; exact he, hwait⟩
  · rw [hsent] at he
    rcases List.mem_append.mp he with he | he
    · obtain ⟨p, hp, rfl⟩ := List.mem_map.mp he
      have hlt := hdsts p hp
      exact ⟨hknown p (List.mem_append_left _ hp), Or.inr ⟨hlt, hpush.trans (by rw [httl hlt])⟩⟩
    · obtain ⟨p, hp, rfl⟩ := List.mem_map.mp he
      exact ⟨hknown p (List.mem_append_right _ hp), Or.inl rfl⟩
  · rw [hsent]
    rcases List.mem_append.mp (hall hlt p hp hne) with hp | hp
    · refine ⟨_, List.mem_append_left _ (List.mem_map.mpr ⟨p, hp, rfl⟩), Or.inr ?_⟩
      exact hpush.trans (by rw [httl hlt])
    · exact ⟨_, List.mem_append_right _ (List.mem_map.mpr ⟨p, hp, rfl⟩), Or.inl rfl⟩
  · rw [pending_eq, pending_eq]
    rcases hpending with heq | heq
    · rw [heq]
      exact (List.kerase_sublist _ _).countP_le
    · rw [heq]
  · rw [hsent, List.length_append, List.length_map, List.length_map, ← List.length_append,
      ← List.toFinset_card_of_nodup hnodup]
    exact Finset.card_le_card fun p hp => hinside p (hknown p (List.mem_toFinset.mp hp))

/-- Tree edges and the other peers are all peers, and no peer is both. -/
theorem edges_partition (pt : PeerTable) :
    (pt.treeEdges ++ pt.nonTreeEdges).Nodup ∧
      ∀ p, p ∈ pt.treeEdges ++ pt.nonTreeEdges ↔ p ∈ pt.ctxBy.keys := by
  refine ⟨pt.nodup_treeEdges.append pt.nodup_nonTreeEdges fun p hp hp' => ?_, fun p => ?_⟩
  · have htree := PeerTable.mem_treeEdges.mp hp
    rw [(PeerTable.mem_nonTreeEdges.mp hp').2] at htree
    cases htree
  · rw [List.mem_append, PeerTable.mem_nonTreeEdges, PeerTable.mem_treeEdges]
    refine ⟨?_, fun hp => ?_⟩
    · rintro (hp | hp)
      · exact PeerTable.mem_keys_of_treeEdge (PeerTable.mem_treeEdges.mpr hp)
      · exact hp.1
    · cases hedge : (pt.ctx p).isTreeEdge with
      | true => exact Or.inl rfl
      | false => exact Or.inr ⟨hp, rfl⟩

/-- A push that is taken. -/
theorem Ready.push_taken (h : Ready pool nbr i n) (hpool : GroupPool env T P pool) (hr : r ∈ pool)
    (hi : i ∈ P) (hinside : ∀ p, nbr i p → p ∈ P) (hsrc : nbr i src) (hrd : rd ∈ T)
    (hcap : (n.handleEager (env i) rd src (some r) ttl).store.rejectedCap = n.store.rejectedCap)
    (hnew : ¬ HoldsFrom n (slotOf r) r.hlc) :
    (plumParts pool).Passes nbr P.card i (some src) ttl.toNat (slotOf r) r.hlc n
      (n.handleEager (env i) rd src (some r) ttl)
      (n.sentSince (n.handleEager (env i) rd src (some r) ttl)) := by
  have hf := hpool.floods r hr
  have hgate := hf.gate rd hrd i hi
  have hstore := store_handleEager hf.owner hgate (hf.encodes ttl) n src
  have happ : (applyExt (env i).storeCfg rd.nowMs n.store r).1.applied = true :=
    (h.applied_iff hpool hr (hstore ▸ hcap)).mpr hnew
  obtain ⟨hnodup, hmem⟩ := edges_partition (n.promoteTreeEdgeBounded (env i) src).peers
  have hkeys : ∀ p, p ∈ (n.promoteTreeEdgeBounded (env i) src).peers.ctxBy.keys ↔ nbr i p := by
    intro p
    rw [mem_keys_promote, h.peers]
    exact or_iff_left_of_imp fun hp => hp.1 ▸ hsrc
  have hsub : (forwardTo n (env i) src ttl ++
      (n.promoteTreeEdgeBounded (env i) src).peers.nonTreeEdges).Sublist
        ((n.promoteTreeEdgeBounded (env i) src).peers.treeEdges ++
          (n.promoteTreeEdgeBounded (env i) src).peers.nonTreeEdges) := by
    refine List.Sublist.append_right ?_ _
    unfold forwardTo
    split_ifs
    · exact List.filter_sublist
    · exact List.nil_sublist _
  refine passes_of_sent hr hinside hnew
    (fun slot hlc => holdsFrom_applyExt hf.owner hstore hcap slot hlc) (Or.inl ?_)
    (h.taken_sends hpool hr hi hrd src ttl happ).1 (fun hlt => ?_) (hsub.nodup hnodup)
    (fun p hp => (hkeys p).mp ((hmem p).mp (hsub.subset hp))) (fun p hp => ?_)
    (fun hlt p hp hne => ?_)
  · rw [pending_handleEager, if_pos ⟨hgate, happ⟩]
  · exact UInt32.toNat_sub_of_le _ _ (UInt32.le_of_lt (UInt32.lt_iff_toNat_lt.mpr hlt))
  · exact UInt32.lt_iff_toNat_lt.mp (mem_forwardTo.mp hp).1
  · have hin := (hmem p).mpr ((hkeys p).mpr hp)
    have hne' : p ≠ src := fun heq => hne (congrArg some heq)
    rcases List.mem_append.mp hin with hedge | hother
    · refine List.mem_append_left _ (mem_forwardTo.mpr ⟨UInt32.lt_iff_toNat_lt.mpr hlt, ?_, hne'⟩)
      exact ((mem_treeEdges_promote n (env i) src p).2 hedge).resolve_right hne'
    · exact List.mem_append_right _ hother

/-- A push of something the node holds. -/
theorem Ready.push_held (h : Ready pool nbr i n) (hpool : GroupPool env T P pool) (hr : r ∈ pool)
    (hi : i ∈ P) (hrd : rd ∈ T) (src : NodeID) (ttl : UInt32)
    (hcap : (n.handleEager (env i) rd src (some r) ttl).store.rejectedCap = n.store.rejectedCap)
    (hheld : HoldsFrom n (slotOf r) r.hlc) :
    (plumParts pool).Stays n (n.handleEager (env i) rd src (some r) ttl) ∧
      (n.sentSince (n.handleEager (env i) rd src (some r) ttl) = [] ∨
        n.sentSince (n.handleEager (env i) rd src (some r) ttl) =
          [(src, framePrune r.topic)]) := by
  have hf := hpool.floods r hr
  have hgate := hf.gate rd hrd i hi
  have hstore := store_handleEager hf.owner hgate (hf.encodes ttl) n src
  have happ : ¬ (applyExt (env i).storeCfg rd.nowMs n.store r).1.applied = true := fun happ =>
    (h.applied_iff hpool hr (hstore ▸ hcap)).mp happ hheld
  have hpending : (n.handleEager (env i) rd src (some r) ttl).missingIHaves = n.missingIHaves := by
    rw [pending_handleEager, if_neg fun hacc : Accepts (env i) n rd r => happ hacc.2]
  refine ⟨stays_of ?_ hpending, (handleEager_refused src ttl hgate hf.owner happ).2.2.2⟩
  intro slot hlc
  rw [holdsFrom_applyExt hf.owner hstore hcap]
  refine or_iff_left_of_imp ?_
  rintro ⟨rfl, hle⟩
  exact hheld.le hle

/-- The node with other announcements pending. -/
theorem Ready.track (h : Ready pool nbr i n) {missing : FMap IHaveKey IHaveEntry}
    (htracked : ∀ k e, missing.lookup k = some e → ∃ r ∈ pool, ihaveKeyOf r = k) :
    Ready pool nbr i { n with missingIHaves := missing } where
  toOpen := ⟨h.running, h.unpaused, h.uncapped⟩
  peers := h.peers
  stored := h.stored
  tracked := htracked
  queues := h.queues

/-- The tracker has room for whatever is announced. -/
theorem Ready.room (h : Ready pool nbr i n) (hpool : GroupPool env T P pool) (hi : i ∈ P)
    (hr : r ∈ pool) (hnew : n.missingIHaves.lookup (ihaveKeyOf r) = none) :
    ¬ (env i).maxIHaves ≤ n.missingIHaves.len := by
  have hsub : n.missingIHaves.keys.toFinset ⊂ pool.image ihaveKeyOf := by
    refine ⟨fun k hk => ?_, fun hsub => ?_⟩
    · obtain ⟨e, he⟩ := FMap.mem_keys.mp (List.mem_toFinset.mp hk)
      obtain ⟨r', hr', rfl⟩ := h.tracked k e he
      exact Finset.mem_image_of_mem _ hr'
    · have hk := List.mem_toFinset.mp (hsub (Finset.mem_image_of_mem _ hr))
      exact FMap.not_mem_keys.mpr hnew hk
  have hlt := Finset.card_lt_card hsub
  rw [← FMap.len_eq_card_keys] at hlt
  have hle := Finset.card_image_le (s := pool) (f := ihaveKeyOf)
  have hroom := hpool.room i hi
  omega

/-- An announcement is noted down unless the node holds as much or has noted it. -/
theorem Ready.handleIHave (h : Ready pool nbr i n) (hpool : GroupPool env T P pool) (hi : i ∈ P)
    (hr : r ∈ pool) (rd : Reading) (src : NodeID) :
    n.handleIHave (env i) rd src r.topic r.nodeID r.hlc r.key = n ∧
        (HoldsFrom n (slotOf r) r.hlc ∨ ∃ e, n.missingIHaves.lookup (ihaveKeyOf r) = some e) ∨
      n.handleIHave (env i) rd src r.topic r.nodeID r.hlc r.key =
          { n with
            missingIHaves :=
              n.missingIHaves.insert (ihaveKeyOf r) { announcer := src, seenAt := rd.now } } ∧
        n.missingIHaves.lookup (ihaveKeyOf r) = none := by
  have hkey : (⟨r.topic, r.nodeID, r.key, r.hlc⟩ : IHaveKey) = ihaveKeyOf r := rfl
  unfold Node.handleIHave
  dsimp only
  rw [← slotView_eq_getRawKeyed, hkey]
  cases hlook : n.missingIHaves.lookup (ihaveKeyOf r) with
  | some e =>
    refine Or.inl ⟨?_, Or.inr ⟨e, rfl⟩⟩
    dsimp only
    split_ifs
    · rfl
    · rfl
  | none =>
    dsimp only
    rw [if_neg (h.room hpool hi hr hlook)]
    split_ifs with hhave
    · refine Or.inl ⟨rfl, Or.inl ?_⟩
      split at hhave
      · rename_i cur hcur
        exact ⟨cur, hcur, of_decide_eq_true hhave⟩
      · cases hhave
    · exact Or.inr ⟨rfl, rfl⟩

/-- An announcement. -/
theorem Ready.announce (h : Ready pool nbr i n) (hpool : GroupPool env T P pool) (hi : i ∈ P)
    (hr : r ∈ pool) (rd : Reading) (src : NodeID) :
    Ready pool nbr i (n.handleIHave (env i) rd src r.topic r.nodeID r.hlc r.key) ∧
      (plumParts pool).Notes src (slotOf r) r.hlc n
        (n.handleIHave (env i) rd src r.topic r.nodeID r.hlc r.key) := by
  rcases h.handleIHave hpool hi hr rd src with ⟨heq, hknown⟩ | ⟨heq, hnew⟩
  · rw [heq]
    refine ⟨h, fun _ _ => Iff.rfl, fun _ _ _ hw => hw, fun _ _ _ hw => Or.inl hw,
      fun _ _ => Iff.rfl, ?_, le_rfl, Nat.le_succ _⟩
    rcases hknown with hheld | ⟨e, he⟩
    · exact Or.inl hheld
    · cases hgrafted : e.grafted with
      | true => exact Or.inr (Or.inl ⟨e, he, hgrafted⟩)
      | false => exact Or.inr (Or.inr ⟨e.announcer, e, he, hgrafted, rfl⟩)
  · rw [heq]
    have hlook : ∀ k, (n.missingIHaves.insert (ihaveKeyOf r)
        { announcer := src, seenAt := rd.now }).lookup k =
          if k = ihaveKeyOf r then some { announcer := src, seenAt := rd.now }
          else n.missingIHaves.lookup k :=
      fun k => FMap.lookup_insert_eq n.missingIHaves (ihaveKeyOf r) k _
    have hold : ∀ k e, n.missingIHaves.lookup k = some e → k ≠ ihaveKeyOf r := by
      rintro _ e he rfl
      rw [hnew] at he
      cases he
    refine ⟨h.track fun k e he => ?_, ?_⟩
    · rw [hlook] at he
      split_ifs at he with hk
      · exact ⟨r, hr, hk.symm⟩
      · exact h.tracked k e he
    refine
      { has := fun _ _ => Iff.rfl
        waits := fun slot hlc a ⟨e, he, hwait⟩ => ⟨e, ?_, hwait⟩
        waits_of := fun slot hlc a ⟨e, he, hwait⟩ => ?_
        asked := fun slot hlc => ⟨fun ⟨e, he, hasked⟩ => ⟨e, ?_, hasked⟩,
          fun ⟨e, he, hasked⟩ => ⟨e, ?_, hasked⟩⟩
        noted := Or.inr (Or.inr ⟨src, { announcer := src, seenAt := rd.now }, ?_, rfl, rfl⟩)
        left := le_rfl
        pending := ?_ }
    · exact (hlook _).trans ((if_neg (hold _ e he)).trans he)
    · dsimp only at he
      rw [hlook] at he
      split_ifs at he with hk
      · cases he
        change _ = ihaveKeyAt (slotOf r) r.hlc at hk
        obtain ⟨rfl, rfl⟩ := ihaveKeyAt_inj hk
        exact Or.inr ⟨rfl, rfl, hwait.2.symm⟩
      · exact Or.inl ⟨e, he, hwait⟩
    · dsimp only at he
      rw [hlook] at he
      split_ifs at he
      · cases he
        cases hasked
      · exact he
    · exact (hlook _).trans ((if_neg (hold _ e he)).trans he)
    · exact (hlook _).trans (if_pos rfl)
    · rw [pending_eq, pending_eq]
      dsimp only
      rw [AList.entries_insert, List.countP_cons]
      exact Nat.add_le_add (List.kerase_sublist _ _).countP_le (by simp)

/-- The node with another table of the same peers. -/
theorem Ready.setPeers (h : Ready pool nbr i n) {pt : PeerTable}
    (hkeys : ∀ p, p ∈ pt.ctxBy.keys ↔ nbr i p) (hun : Uncapped pt)
    (hroom : ∀ p, RoomAt pt p (lacking pool n)) : Ready pool nbr i (n.setPeers pt) where
  toOpen := ⟨h.running, h.unpaused, hun⟩
  peers := hkeys
  stored := h.stored
  tracked := h.tracked
  queues := hroom

/-- A graft for a record the node holds is answered with the record it has there. -/
theorem Ready.request (h : Ready pool nbr i n) (hpool : GroupPool env T P pool) (hsrc : nbr i src)
    (hheld : HoldsFrom n (slotOf r) r.hlc) :
    Ready pool nbr i (n.handleGraft (env i) src r.topic r.nodeID r.key) ∧
      (plumParts pool).Stays n (n.handleGraft (env i) src r.topic r.nodeID r.key) ∧
      ∃ cur ∈ pool, n.sentSince (n.handleGraft (env i) src r.topic r.nodeID r.key) =
          [(src, frameEagerPush cur eagerTTL)] ∧
        slotOf cur = slotOf r ∧ r.hlc ≤ cur.hlc ∧ HoldsFrom n (slotOf r) cur.hlc := by
  obtain ⟨cur, hcur, hle⟩ := hheld
  obtain ⟨hmem, hslot⟩ := h.stored _ cur hcur
  obtain ⟨pt, hpt⟩ := n.promoteTreeEdgeBounded_eq (env i) src
  have hraw : (n.setPeers pt).store.getRawKeyed r.topic r.nodeID r.key = some cur := by
    rw [← slotView_eq_getRawKeyed]
    exact hcur
  have heq : n.handleGraft (env i) src r.topic r.nodeID r.key =
      (n.setPeers pt).send src (frameEagerPush cur eagerTTL) := by
    unfold Node.handleGraft
    dsimp only
    rw [hpt, hraw]
    dsimp only
    rw [if_neg (hpool.signed cur hmem), if_pos ((hpool.floods cur hmem).encodes eagerTTL)]
  have hkeys : ∀ p, p ∈ pt.ctxBy.keys ↔ nbr i p := by
    intro p
    have hp := mem_keys_promote n (env i) src p
    rw [hpt, h.peers] at hp
    exact hp.trans (or_iff_left_of_imp fun heq => heq.1 ▸ hsrc)
  have hopen := (Open.quiet (env i)).promote src h.toOpen
  rw [hpt] at hopen
  have hready := h.setPeers hkeys hopen.uncapped fun p => by
    have hroom := (h.queues p).promote (env i) src
    rwa [hpt] at hroom
  rw [heq]
  refine ⟨⟨⟨hready.running, hready.unpaused, hready.uncapped⟩, hready.peers, hready.stored,
    hready.tracked, hready.queues⟩, stays_of (fun _ _ => Iff.rfl) rfl, cur, hmem, ?_, hslot, hle,
    ⟨cur, hcur, le_rfl⟩⟩
  unfold Node.sentSince
  show sends ((n.trace ++ [Event.send src _]).drop n.trace.length) = _
  rw [List.drop_left]
  rfl

/-- A prune of a neighbour. -/
theorem Ready.prune (h : Ready pool nbr i n) (hsrc : nbr i src) :
    Ready pool nbr i (n.handlePrune src) := by
  refine h.setPeers (fun p => ?_) (h.uncapped.setTreeEdge false)
    fun p => (h.queues p).setTreeEdge false
  rw [PeerTable.setTreeEdge, PeerTable.mem_keys_setCtx, h.peers]
  exact or_iff_right_of_imp fun hp => hp ▸ hsrc

end Handlers

end Swarm
