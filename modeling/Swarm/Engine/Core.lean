import Swarm.Engine.Kept
import Swarm.Engine.Stream

/-!
# The core of a node

A node keeps much that only steers who is told what and when: the peer table with its tree edges,
queues and buckets, pending announcements, probe times, the paused flag. `Core` is the rest. It is
the clock, the store, the tenant, whether the node stopped, and what it handed to `recordAccepted`.

`NodeOp.core` is the machine that works on the core alone, and every run of a node refines it
(`coreOf_runNode`). So what a node holds is decided by the records its gate let through and the
calls made on it (`core_noninterference`).
-/

namespace Swarm

/-- What a node holds, without what steers its sends. -/
structure Core where
  hlc : UInt64
  store : RecordStore
  tenant : Bytes
  stopped : Bool
  lastReap : Option Time
  accepted : List Record

def coreOf (n : Node) : Core where
  hlc := n.hlc
  store := n.store
  tenant := n.tenant
  stopped := n.stopped
  lastReap := n.lastReap
  accepted := acceptedIn n.trace

/-! ## The machine -/

namespace Core

variable (env : Env) (rd : Reading)

def stamp (c : Core) : Core := { c with hlc := nowNext rd.wallMs.toUInt64 c.hlc }

/-- Merge a record; it is accepted if the store changed, or always for a publish. -/
def merge (always : Bool) (c : Core) (r : Record) : Core :=
  let out := applyExt env.storeCfg rd.nowMs c.store r
  { c with
    store := out.2
    accepted := if always || out.1.applied then c.accepted ++ [r] else c.accepted }

/-- A record off the wire. -/
def receive (c : Core) (r : Record) : Core :=
  if env.gate.letThrough env.cr rd.wallMs r then
    ({ c with hlc := observeNext r.hlc rd.wallMs c.hlc } : Core).merge env rd false r
  else c

/-- Stamp, sign and merge a record of this node. -/
def write (always : Bool) (c : Core) (r : Record) : Core :=
  let c := c.stamp rd
  c.merge env rd always (signRecord env.cr { r with hlc := c.hlc } env.cfg.privKey)

def publish (c : Core) (topic : Topic) (key body : Bytes) (tombstone : Bool) : Core :=
  c.write env rd true
    { topic := topic, nodeID := env.id, hlc := 0, key := key, body := body, tombstone := tombstone }

def attest (c : Core) (topic : Topic) (target : NodeID) : Core :=
  c.write env rd false
    { topic := topic, nodeID := target, hlc := 0, tombstone := true, observerNodeID := env.id
      observedAtUnixMs := rd.nowMs }

/-- Tombstone one record of this node. -/
def retire (c : Core) (r : Record) : Core :=
  c.write env rd false
    { topic := r.topic, nodeID := env.id, key := r.key, hlc := 0, tombstone := true }

def setTenant (c : Core) (tenantID : Bytes) : Core :=
  if c.tenant = tenantID then c
  else (Node.ownRecords env c.store).foldl (retire env rd) { c with tenant := tenantID }

def reap (c : Core) (nowMs : Int64) (ttlFor : Option (Topic → Duration)) : Core :=
  { c with store := (reapExpired nowMs ttlFor c.store).2 }

/-- Whether the tick loop reaps. -/
def reapDue (c : Core) (t : Time) : Bool :=
  match c.lastReap with
  | none => true
  | some last => !decide (t.sub last < 30 * second)

end Core

/-- An operation on the core. -/
def NodeOp.core (env : Env) (c : Core) : NodeOp → Core
  | .receive rd _ f =>
    if c.stopped then c else if !f.encodes then c else f.records.foldl (Core.receive env rd) c
  | .publishKeyed rd topic key body =>
    if c.stopped then c
    else if env.cfg.maxRecordBytes < body.length then c
    else if maxKeyBytes < key.length then c
    else c.publish env rd topic key body false
  | .publishKeyedTombstone rd topic key =>
    if c.stopped then c
    else if maxKeyBytes < key.length then c
    else c.publish env rd topic key [] true
  | .publishObserverTombstone rd topic target =>
    if c.stopped then c
    else if target = [] ∨ target = env.id then c
    else c.attest env rd topic target
  | .setTenant rd tenantID => c.setTenant env rd tenantID
  | .tickLoop rd =>
    if env.cfg.topicTTL.isSome && c.reapDue rd.wall then
      ({ c with lastReap := some rd.wall } : Core).reap rd.wallMs env.cfg.topicTTL
    else c
  | .reap nowMs ttlFor => c.reap nowMs ttlFor
  | .stop => { c with stopped := true }
  | .tick _ _ => c
  | .probePeer _ => c
  | .join _ => c
  | .leave _ => c
  | .setPaused _ => c

/-! ## What leaves the core alone -/

theorem acceptedIn_send (l : List Event) (dst : NodeID) (f : Frame) :
    acceptedIn (l ++ [.send dst f]) = acceptedIn l := by
  rw [acceptedIn_append]
  exact List.append_nil _

/-- The actions around a push leave the core as it is. -/
theorem pushes_core (env : Env) (c : Core) :
    Pushes env (fun _ _ => True) fun m => coreOf m = c where
  announce _ _ _ _ _ _ := trivial
  prune _ _ := trivial
  send {n} dst f _ h := by
    rw [← h]
    unfold coreOf Node.send
    dsimp only
    rw [acceptedIn_send]
  promote {n} peer h := by
    obtain ⟨peers, heq⟩ := n.promoteTreeEdgeBounded_eq env peer
    rw [heq]
    exact h
  best {n} h := by
    obtain ⟨peers, heq⟩ := n.bestTreeEdges_eq env
    rw [heq]
    exact h
  enqueue _ _ _ _ h := h
  consume _ _ _ h := h
  clear _ h := h

theorem coreOf_accept (n : Node) (r : Record) :
    coreOf (n.accept r) = { coreOf n with accepted := (coreOf n).accepted ++ [r] } := by
  unfold coreOf Node.accept
  dsimp only
  rw [acceptedIn_append]
  rfl

theorem coreOf_applyExt (n : Node) (env : Env) (rd : Reading) (r : Record) :
    coreOf (n.applyExt env rd r).2 =
      { coreOf n with store := (applyExt env.storeCfg rd.nowMs n.store r).2 } := by
  unfold coreOf Node.applyExt
  dsimp only
  rw [acceptedIn_append]
  simp [acceptedIn]

section Steering

variable {env : Env} {c : Core} {n : Node}

theorem coreOf_sendProbe (dst : NodeID) (topic : Topic) (rangeStart rangeEnd : Option Bytes)
    (h : coreOf n = c) : coreOf (n.sendProbe env dst topic rangeStart rangeEnd) = c := by
  unfold Node.sendProbe
  dsimp only
  split_ifs
  · exact (pushes_core env c).send dst trivial h
  · exact h

theorem coreOf_handleGraft (sender : NodeID) (topic : Topic) (node : NodeID) (key : Bytes)
    (h : coreOf n = c) : coreOf (n.handleGraft env sender topic node key) = c := by
  have hprom := (pushes_core env c).promote sender h
  unfold Node.handleGraft
  dsimp only
  split
  · exact hprom
  · split_ifs
    · exact hprom
    · exact (pushes_core env c).send sender trivial hprom
    · exact (pushes_core env c).send sender trivial hprom

theorem coreOf_handleIHave (rd : Reading) (sender : NodeID) (topic : Topic) (node : NodeID)
    (hlc : UInt64) (key : Bytes) (h : coreOf n = c) :
    coreOf (n.handleIHave env rd sender topic node hlc key) = c := by
  obtain ⟨missing, heq⟩ := n.handleIHave_eq env rd sender topic node hlc key
  rw [heq]
  exact h

theorem coreOf_handleProbe (rd : Reading) (sender : NodeID) (topic : Topic)
    (rangeStart rangeEnd : Option Bytes) (rootHash : Bytes) (h : coreOf n = c) :
    coreOf (n.handleProbe env rd sender topic rangeStart rangeEnd rootHash) = c := by
  have hrec : coreOf (n.reciprocate env rd sender topic rangeStart rangeEnd) = c := by
    unfold Node.reciprocate
    split_ifs
    · exact coreOf_sendProbe sender topic rangeStart rangeEnd h
    · exact h
  unfold Node.handleProbe Node.sendRange
  dsimp only
  split_ifs
  · exact h
  · exact (pushes_core env c).send sender trivial hrec
  · exact hrec

theorem coreOf_processGrafts (now : Time) (h : coreOf n = c) :
    coreOf (n.processGrafts env now) = c := by
  have hsent : coreOf (n.missingIHaves.entries.foldl (Node.graftDue env now) n) = c := by
    refine List.foldlRecOn (motive := fun m => coreOf m = c) _ _ h fun m hm e _ => ?_
    unfold Node.graftDue
    split_ifs
    · exact (pushes_core env c).send _ trivial hm
    · exact hm
  exact hsent

theorem coreOf_merkleTick (rd : Reading) (h : coreOf n = c) :
    coreOf (n.merkleTick env rd) = c := by
  unfold Node.merkleTick
  split_ifs
  · exact h
  · refine List.foldlRecOn (motive := fun m => coreOf m = c) _ _ h fun m hm topic _ => ?_
    unfold Node.probeTopic
    dsimp only
    split_ifs
    · exact hm
    · exact hm
    · exact coreOf_sendProbe _ _ _ _ hm

theorem coreOf_probePeer (peer : NodeID) (h : coreOf n = c) :
    coreOf (n.probePeer env peer) = c := by
  unfold Node.probePeer Node.merkleProbePeer
  split_ifs
  · exact h
  · exact h
  · exact List.foldlRecOn (motive := fun m => coreOf m = c) _ _ h fun _ hm _ _ =>
      coreOf_sendProbe _ _ _ _ hm

end Steering

/-! ## Records -/

section Records

variable (env : Env) (rd : Reading) (n : Node)

theorem coreOf_inbound (r : Record) : coreOf (n.inbound env rd r).2 = coreOf n := by
  unfold Node.inbound
  split_ifs
  · rfl
  · rfl

/-- The core once the store merged a record that passed the gate. -/
theorem coreOf_merged (r : Record) :
    coreOf (((n.inbound env rd r).2.observe rd r.hlc).applyExt env rd r).2 =
      { coreOf n with
        hlc := observeNext r.hlc rd.wallMs n.hlc
        store := (applyExt env.storeCfg rd.nowMs n.store r).2 } := by
  have hin := coreOf_inbound env rd n r
  obtain ⟨hstore, -, -⟩ := n.inbound_frame env rd r
  rw [coreOf_applyExt]
  unfold Node.observe
  dsimp only
  rw [hstore]
  unfold coreOf at hin ⊢
  simp only [Core.mk.injEq] at hin ⊢
  simp [hin]

theorem coreOf_eagerAccepted (sender : NodeID) (r : Record) (ttl : UInt32) :
    coreOf (n.eagerAccepted env rd sender r ttl) =
      { coreOf n with accepted := (coreOf n).accepted ++ [r] } := by
  have hpushes := pushes_core env { coreOf n with accepted := (coreOf n).accepted ++ [r] }
  obtain ⟨peers, heq⟩ := n.promoteTreeEdgeBounded_eq env sender
  have hacc : coreOf (((n.promoteTreeEdgeBounded env sender).clearIHave
      { topic := r.topic, nodeID := r.nodeID, key := r.key, hlc := r.hlc }).accept r) =
        { coreOf n with accepted := (coreOf n).accepted ++ [r] } := by
    rw [coreOf_accept, heq]
    rfl
  unfold Node.eagerAccepted
  dsimp only
  split_ifs
  · exact hpushes.lazyPush rd r (hpushes.eagerForward sender (fun _ => trivial) hacc)
  · exact hpushes.lazyPush rd r hacc

/-- A record that passed the gate, and what the store said of it. -/
theorem receive_of_ok {r : Record} (hok : env.gate.letThrough env.cr rd.wallMs r = true) :
    (coreOf n).receive env rd r =
      { coreOf n with
        hlc := observeNext r.hlc rd.wallMs n.hlc
        store := (applyExt env.storeCfg rd.nowMs n.store r).2
        accepted :=
          if (applyExt env.storeCfg rd.nowMs n.store r).1.applied then (coreOf n).accepted ++ [r]
          else (coreOf n).accepted } := by
  unfold Core.receive Core.merge
  rw [if_pos hok]
  rfl

theorem receive_of_not_ok {c : Core} {r : Record}
    (hno : ¬ env.gate.letThrough env.cr rd.wallMs r = true) : c.receive env rd r = c :=
  if_neg hno

theorem coreOf_handleEager (sender : NodeID) (r : Record) (ttl : UInt32) :
    coreOf (n.handleEager env rd sender (some r) ttl) = (coreOf n).receive env rd r := by
  obtain ⟨m, hm, -⟩ := n.applyExt_inbound env rd r
  have hcore := coreOf_merged env rd n r
  rw [hm] at hcore
  dsimp only at hcore
  have hpushes := pushes_core env (coreOf m)
  unfold Node.handleEager
  dsimp only
  by_cases hok : env.gate.letThrough env.cr rd.wallMs r = true
  · rw [receive_of_ok env rd n hok, inbound_eq_true_iff.mpr hok, hm]
    dsimp only
    cases happ : (applyExt env.storeCfg rd.nowMs n.store r).1.applied with
    | true =>
      simp only [Bool.not_true, Bool.false_and, Bool.false_eq_true, if_false, if_true]
      rw [coreOf_eagerAccepted, hcore]
    | false =>
      simp only [Bool.not_true, Bool.not_false, Bool.true_and, Bool.false_eq_true, if_false,
        if_true]
      split_ifs
      · exact (hpushes.relayAttestation sender (fun _ _ => trivial) rfl).trans hcore
      · exact (hpushes.sendPrune sender r.topic rfl).trans hcore
      · exact hcore
  · have hno : (n.inbound env rd r).1 = false :=
      Bool.eq_false_iff.mpr fun h => hok (inbound_eq_true_iff.mp h)
    rw [receive_of_not_ok env rd hok, hno]
    exact coreOf_inbound env rd n r

theorem coreOf_receiveRecord (r : Record) :
    coreOf (Node.receiveRecord env rd n r) = (coreOf n).receive env rd r := by
  obtain ⟨m, hm, -⟩ := n.applyExt_inbound env rd r
  have hcore := coreOf_merged env rd n r
  rw [hm] at hcore
  dsimp only at hcore
  unfold Node.receiveRecord
  dsimp only
  by_cases hok : env.gate.letThrough env.cr rd.wallMs r = true
  · rw [receive_of_ok env rd n hok, inbound_eq_true_iff.mpr hok, hm]
    dsimp only
    rw [if_neg (by decide)]
    split_ifs
    · rw [coreOf_accept, hcore]
    · exact hcore
  · have hno : (n.inbound env rd r).1 = false :=
      Bool.eq_false_iff.mpr fun h => hok (inbound_eq_true_iff.mp h)
    rw [receive_of_not_ok env rd hok, hno]
    exact coreOf_inbound env rd n r

theorem coreOf_handleRange (sender : NodeID) (topic : Topic) (records : List Record)
    (truncated : Bool) :
    coreOf (n.handleRange env rd sender topic records truncated) =
      records.foldl (Core.receive env rd) (coreOf n) := by
  have hfold : coreOf (records.foldl (Node.receiveRecord env rd) n) =
      records.foldl (Core.receive env rd) (coreOf n) :=
    (List.foldl_hom coreOf fun m r => (coreOf_receiveRecord env rd m r).symm).symm
  unfold Node.handleRange
  dsimp only
  split
  · exact hfold
  · split_ifs
    · exact coreOf_sendProbe _ _ _ _ hfold
    · exact hfold

/-! ## Calls -/

theorem coreOf_publishOwn (r : Record) :
    coreOf (n.publishOwn env rd r) = (coreOf n).write env rd true { r with nodeID := env.id } := by
  have hpushed : coreOf ((n.stamp rd).plumPublish env rd (ownRecord env n rd r)) =
      { (coreOf n).stamp rd with
        store := (applyExt env.storeCfg rd.nowMs n.store (ownRecord env n rd r)).2 } := by
    have hcore := coreOf_applyExt (n.stamp rd) env rd (ownRecord env n rd r)
    unfold Node.plumPublish
    dsimp only
    split_ifs
    · exact hcore
    · exact (pushes_core env _).broadcast rd (fun _ => trivial) hcore
  rw [publishOwn_eq, coreOf_accept, hpushed]
  rfl

theorem coreOf_applyAndBroadcast (r : Record) :
    coreOf (n.applyAndBroadcast env rd r) = (coreOf n).merge env rd false r := by
  have hcore := coreOf_applyExt n env rd r
  have hmerged : coreOf (if (n.applyExt env rd r).1.applied then (n.applyExt env rd r).2.accept r
      else (n.applyExt env rd r).2) = (coreOf n).merge env rd false r := by
    unfold Core.merge
    rw [show (n.applyExt env rd r).1 = (applyExt env.storeCfg rd.nowMs n.store r).1 from rfl]
    dsimp only
    rw [Bool.false_or, show (coreOf n).store = n.store from rfl]
    split_ifs
    · rw [coreOf_accept, hcore]
    · exact hcore
  exact (pushes_core env _).broadcast rd (fun _ => trivial) hmerged

theorem coreOf_retire (r : Record) :
    coreOf (Node.retire env rd n r) = (coreOf n).retire env rd r :=
  coreOf_applyAndBroadcast env rd (n.stamp rd) _

theorem coreOf_setTenant (tenantID : Bytes) :
    coreOf (n.setTenant env rd tenantID) = (coreOf n).setTenant env rd tenantID := by
  unfold Node.setTenant Core.setTenant
  rw [show (coreOf n).tenant = n.tenant from rfl]
  split_ifs
  · rfl
  · exact (List.foldl_hom coreOf fun m r => (coreOf_retire env rd m r).symm).symm

end Records

/-! ## Runs -/

/-- A frame does to the core what the records in it do. -/
theorem coreOf_receiveFrame (env : Env) (rd : Reading) (n : Node) (sender : NodeID) (f : Frame) :
    coreOf (n.receiveFrame env rd sender f) =
      if !f.encodes then coreOf n else f.records.foldl (Core.receive env rd) (coreOf n) := by
  unfold Node.receiveFrame
  split_ifs
  · rfl
  · cases f with
    | eager record ttl =>
      cases record with
      | none => rfl
      | some r => exact coreOf_handleEager env rd n sender r ttl
    | ihave topic node hlc _ key => exact coreOf_handleIHave rd sender topic node hlc key rfl
    | graft topic node _ key => exact coreOf_handleGraft sender topic node key rfl
    | prune _ => rfl
    | merkle topic rangeStart rangeEnd rootHash =>
      exact coreOf_handleProbe rd sender topic rangeStart rangeEnd rootHash rfl
    | merkleRange topic records truncated =>
      exact coreOf_handleRange env rd n sender topic records truncated
    | keepalive => rfl
    | fetchReq _ _ => rfl
    | fetchResp _ _ _ => rfl
    | empty => rfl

theorem coreOf_reapExpired (n : Node) (nowMs : Int64) (ttlFor : Option (Topic → Duration)) :
    coreOf (n.reapExpired nowMs ttlFor) = (coreOf n).reap nowMs ttlFor := by
  unfold coreOf Node.reapExpired Core.reap
  dsimp only
  rw [acceptedIn_append]
  simp [acceptedIn]

theorem coreOf_tickLoop (env : Env) (rd : Reading) (n : Node) :
    coreOf (n.tickLoop env rd) = (NodeOp.tickLoop rd).core env (coreOf n) := by
  have hticks : coreOf ((n.processGrafts env rd.wall).merkleTick env rd) = coreOf n :=
    coreOf_merkleTick rd (coreOf_processGrafts rd.wall rfl)
  unfold Node.tickLoop NodeOp.core
  dsimp only
  rw [← hticks]
  generalize (n.processGrafts env rd.wall).merkleTick env rd = m
  rw [show (coreOf m).reapDue rd.wall = m.reapDue rd.wall from rfl]
  split_ifs
  · exact coreOf_reapExpired { m with lastReap := some rd.wall } rd.wallMs env.cfg.topicTTL
  · rfl

/-- One operation of a node is one of its core. -/
theorem coreOf_exec (env : Env) (n : Node) (op : NodeOp) :
    coreOf (op.exec env n) = op.core env (coreOf n) := by
  cases op with
  | receive rd sender f =>
    show coreOf (n.onReceive env rd sender f) = _
    unfold Node.onReceive NodeOp.core
    dsimp only
    rw [show (coreOf n).stopped = n.stopped from rfl]
    split_ifs with hstop henc
    · rfl
    · rw [coreOf_receiveFrame, if_pos henc]
    · rw [coreOf_receiveFrame, if_neg henc]
  | publishKeyed rd topic key body =>
    show coreOf (n.publishKeyed env rd topic key body).2 = _
    unfold Node.publishKeyed NodeOp.core
    dsimp only
    rw [show (coreOf n).stopped = n.stopped from rfl]
    split_ifs
    · rfl
    · rfl
    · rfl
    · exact coreOf_publishOwn env rd n _
  | publishKeyedTombstone rd topic key =>
    show coreOf (n.publishKeyedTombstone env rd topic key).2 = _
    unfold Node.publishKeyedTombstone NodeOp.core
    dsimp only
    rw [show (coreOf n).stopped = n.stopped from rfl]
    split_ifs
    · rfl
    · rfl
    · exact coreOf_publishOwn env rd n _
  | publishObserverTombstone rd topic target =>
    show coreOf (n.publishObserverTombstone env rd topic target).2 = _
    unfold Node.publishObserverTombstone NodeOp.core
    dsimp only
    rw [show (coreOf n).stopped = n.stopped from rfl]
    split_ifs
    · rfl
    · rfl
    · exact coreOf_applyAndBroadcast env rd (n.stamp rd) _
  | setTenant rd tenantID => exact coreOf_setTenant env rd n tenantID
  | tick rd now => exact coreOf_merkleTick rd (coreOf_processGrafts now rfl)
  | tickLoop rd => exact coreOf_tickLoop env rd n
  | reap nowMs ttlFor => exact coreOf_reapExpired n nowMs ttlFor
  | probePeer peer => exact coreOf_probePeer peer rfl
  | join peer => rfl
  | leave peer => rfl
  | setPaused paused => rfl
  | stop => rfl

/-- **Every run of a node is a run of its core.** -/
theorem coreOf_runNode (env : Env) (n : Node) (ops : List NodeOp) :
    coreOf (runNode env n ops) = ops.foldl (NodeOp.core env) (coreOf n) :=
  (List.foldl_hom coreOf fun m op => (coreOf_exec env m op).symm).symm

/-! ## The calls on the store -/

/-- The tombstones of `SetTenant` over a list of records, from the clock before the first. -/
def retirements (env : Env) (rd : Reading) : UInt64 → List Record → List Record
  | _, [] => []
  | hlc, r :: l =>
    let hlc := nowNext rd.wallMs.toUInt64 hlc
    signRecord env.cr
        { topic := r.topic, nodeID := env.id, key := r.key, hlc := hlc, tombstone := true }
        env.cfg.privKey ::
      retirements env rd hlc l

/-- The records an operation passes to the store, in order, read off the state before it. -/
def NodeOp.passes (env : Env) (n : Node) : NodeOp → List (Int64 × Record)
  | .receive rd _ f =>
    if n.stopped then []
    else if !f.encodes then []
    else
      (f.records.filter fun r => env.gate.letThrough env.cr rd.wallMs r).map fun r => (rd.nowMs, r)
  | .publishKeyed rd topic key body =>
    if n.stopped then []
    else if env.cfg.maxRecordBytes < body.length then []
    else if maxKeyBytes < key.length then []
    else
      [(rd.nowMs, ownRecord env n rd
        { topic := topic, nodeID := [], hlc := 0, key := key, body := body })]
  | .publishKeyedTombstone rd topic key =>
    if n.stopped then []
    else if maxKeyBytes < key.length then []
    else
      [(rd.nowMs, ownRecord env n rd
        { topic := topic, nodeID := [], hlc := 0, key := key, tombstone := true })]
  | .publishObserverTombstone rd topic target =>
    if n.stopped then []
    else if target = [] ∨ target = env.id then []
    else
      [(rd.nowMs, signRecord env.cr
        { topic := topic, nodeID := target, hlc := (n.stamp rd).hlc, tombstone := true
          observerNodeID := env.id, observedAtUnixMs := rd.nowMs } env.cfg.privKey)]
  | .setTenant rd tenantID =>
    if n.tenant = tenantID then []
    else (retirements env rd n.hlc (Node.ownRecords env n.store)).map fun r => (rd.nowMs, r)
  | _ => []

/-- The operation drops records by age. -/
def NodeOp.reaps : NodeOp → Bool
  | .tickLoop _ => true
  | .reap _ _ => true
  | _ => false

theorem store_foldl_receive (env : Env) (rd : Reading) (c : Core) (l : List Record) :
    (l.foldl (Core.receive env rd) c).store =
      ((l.filter fun r => env.gate.letThrough env.cr rd.wallMs r).map
        fun r => (rd.nowMs, r)).foldl (applyCall env.storeCfg) c.store := by
  induction l generalizing c with
  | nil => rfl
  | cons r l ih =>
    rw [List.foldl_cons, ih, List.filter_cons]
    split_ifs with hok
    · rw [List.map_cons, List.foldl_cons]
      unfold Core.receive
      rw [if_pos hok]
      rfl
    · rw [receive_of_not_ok env rd hok]

theorem store_foldl_retire (env : Env) (rd : Reading) (c : Core) (l : List Record) :
    (l.foldl (Core.retire env rd) c).store =
      ((retirements env rd c.hlc l).map fun r => (rd.nowMs, r)).foldl (applyCall env.storeCfg)
        c.store := by
  induction l generalizing c with
  | nil => rfl
  | cons r l ih =>
    rw [List.foldl_cons, ih]
    rfl

/-- **The store after an operation** that does not reap is the store before it with the records the
operation passes merged in. -/
theorem store_exec_passes (env : Env) (n : Node) {op : NodeOp} (hop : op.reaps = false) :
    (op.exec env n).store = (op.passes env n).foldl (applyCall env.storeCfg) n.store := by
  have hcore : (op.exec env n).store = (op.core env (coreOf n)).store :=
    congrArg Core.store (coreOf_exec env n op)
  rw [hcore]
  cases op with
  | receive rd sender f =>
    unfold NodeOp.core NodeOp.passes
    dsimp only
    rw [show (coreOf n).stopped = n.stopped from rfl]
    split_ifs
    · rfl
    · rfl
    · exact store_foldl_receive env rd (coreOf n) f.records
  | publishKeyed rd topic key body =>
    unfold NodeOp.core NodeOp.passes
    dsimp only
    rw [show (coreOf n).stopped = n.stopped from rfl]
    split_ifs
    · rfl
    · rfl
    · rfl
    · rfl
  | publishKeyedTombstone rd topic key =>
    unfold NodeOp.core NodeOp.passes
    dsimp only
    rw [show (coreOf n).stopped = n.stopped from rfl]
    split_ifs
    · rfl
    · rfl
    · rfl
  | publishObserverTombstone rd topic target =>
    unfold NodeOp.core NodeOp.passes
    dsimp only
    rw [show (coreOf n).stopped = n.stopped from rfl]
    split_ifs
    · rfl
    · rfl
    · rfl
  | setTenant rd tenantID =>
    unfold NodeOp.core NodeOp.passes Core.setTenant
    dsimp only
    rw [show (coreOf n).tenant = n.tenant from rfl]
    split_ifs
    · rfl
    · exact store_foldl_retire env rd { coreOf n with tenant := tenantID } _
  | tickLoop rd => cases hop
  | reap nowMs ttlFor => cases hop
  | _ => rfl

/-! ## What decides the core -/

/-- What reaches the core: a record the gate let through, or a call. -/
inductive Input where
  | letIn (rd : Reading) (r : Record)
  | call (op : NodeOp)

/-- What an operation brings to the core. -/
def NodeOp.inputs (env : Env) : NodeOp → List Input
  | .receive rd _ f =>
    if f.encodes then
      (f.records.filter fun r => env.gate.letThrough env.cr rd.wallMs r).map (.letIn rd)
    else []
  | .tick _ _ => []
  | .probePeer _ => []
  | .join _ => []
  | .leave _ => []
  | .setPaused _ => []
  | op => [.call op]

def Input.core (env : Env) (c : Core) : Input → Core
  | .letIn rd r => if c.stopped then c else c.receive env rd r
  | .call op => op.core env c

theorem inputs_receive {env : Env} (rd : Reading) (sender : NodeID) (f : Frame)
    (h : f.encodes = true) :
    NodeOp.inputs env (.receive rd sender f) =
      (f.records.filter fun r => env.gate.letThrough env.cr rd.wallMs r).map (.letIn rd) :=
  if_pos h

theorem stopped_receive (env : Env) (rd : Reading) (c : Core) (r : Record) :
    (c.receive env rd r).stopped = c.stopped := by
  unfold Core.receive
  split_ifs
  · rfl
  · rfl

theorem foldl_letIn (env : Env) (rd : Reading) (c : Core) (l : List Record) :
    ((l.filter fun r => env.gate.letThrough env.cr rd.wallMs r).map (Input.letIn rd)).foldl
        (Input.core env) c =
      if c.stopped then c else l.foldl (Core.receive env rd) c := by
  induction l generalizing c with
  | nil => simp
  | cons r l ih =>
    have hadmit : Input.core env c (.letIn rd r) =
        if c.stopped then c else c.receive env rd r := rfl
    rw [List.filter_cons, List.foldl_cons]
    split_ifs with hok hstop hstop
    · rw [List.map_cons, List.foldl_cons, hadmit, if_pos hstop, ih, if_pos hstop]
    · rw [List.map_cons, List.foldl_cons, hadmit, if_neg hstop, ih, stopped_receive, if_neg hstop]
    · rw [ih, if_pos hstop]
    · rw [ih, if_neg hstop, receive_of_not_ok env rd hok]

theorem core_eq_inputs (env : Env) (c : Core) (op : NodeOp) :
    op.core env c = (op.inputs env).foldl (Input.core env) c := by
  cases op with
  | receive rd sender f =>
    unfold NodeOp.core NodeOp.inputs
    dsimp only
    cases f.encodes with
    | true => exact (foldl_letIn env rd c f.records).symm
    | false => simp
  | _ => rfl

/-- The core after a run is decided by what the run brought to it. -/
theorem coreOf_runNode_inputs (env : Env) (n : Node) (ops : List NodeOp) :
    coreOf (runNode env n ops) =
      (ops.flatMap (NodeOp.inputs env)).foldl (Input.core env) (coreOf n) := by
  rw [coreOf_runNode, List.foldl_flatMap]
  congr 1
  funext c op
  exact core_eq_inputs env c op

/-- **What a node holds depends on what its gate lets through and what is called.** Two nodes that
agree on clock, store, tenant and stream, and whose runs bring the same admitted records and local
calls in the same order, agree on all of it afterwards. They may differ in peers and tree edges, in
who sent a record and in which kind of frame, in announcements, grafts, prunes, probes and pauses,
and in any number of records the gate refuses. -/
theorem core_noninterference (env : Env) (n n' : Node) (hstart : coreOf n = coreOf n')
    (ops ops' : List NodeOp)
    (hinputs : ops.flatMap (NodeOp.inputs env) = ops'.flatMap (NodeOp.inputs env)) :
    coreOf (runNode env n ops) = coreOf (runNode env n' ops') := by
  rw [coreOf_runNode_inputs, coreOf_runNode_inputs, hstart, hinputs]

/-- A record of node 9, signed in the clear. -/
def ninthRecord : Record :=
  signRecord .inClear { topic := [116], nodeID := [9], hlc := 65536, body := [1] }
    (List.replicate 64 9)

/-- The same with another body. -/
def alteredRecord : Record := { ninthRecord with body := [2] }

/-- The record is pushed to a node that has peers, which is then paused and pruned. -/
def pushedOps : List NodeOp :=
  [.join [2], .receive ⟨0, 0⟩ [2] (.eager (some ninthRecord) 8), .setPaused true,
    .receive ⟨0, 0⟩ [3] (.prune [116])]

/-- A stranger sends it on a page, after the forgery. -/
def pagedOps : List NodeOp :=
  [.receive ⟨0, 0⟩ [4] (.merkleRange [116] [alteredRecord, ninthRecord] false)]

/-- A new node without peers that is paused. -/
def plainPaused : Node := { newNode ⟨0, 0⟩ fun _ => {} with paused := true }

theorem pushed_and_paged_agree :
    coreOf (runNode plainEnv (newNode ⟨0, 0⟩ fun _ => {}) pushedOps) =
        coreOf (runNode plainEnv plainPaused pagedOps) ∧
      (runNode plainEnv plainPaused pagedOps).store.getKeyed [116] [9] [] = some ninthRecord := by
  have hok : plainEnv.gate.letThrough plainEnv.cr (Reading.wallMs ⟨0, 0⟩) ninthRecord = true := by
    decide +kernel
  have hno :
      plainEnv.gate.letThrough plainEnv.cr (Reading.wallMs ⟨0, 0⟩) alteredRecord = false := by
    decide +kernel
  have hpush : NodeOp.inputs plainEnv (.receive ⟨0, 0⟩ [2] (.eager (some ninthRecord) 8)) =
      [.letIn ⟨0, 0⟩ ninthRecord] := by
    rw [inputs_receive _ _ _ (by decide +kernel), Frame.records, List.filter_singleton, hok]
    rfl
  have hpage : NodeOp.inputs plainEnv (.receive ⟨0, 0⟩ [4]
      (.merkleRange [116] [alteredRecord, ninthRecord] false)) =
        [.letIn ⟨0, 0⟩ ninthRecord] := by
    rw [inputs_receive _ _ _ (by decide +kernel), Frame.records, List.filter_cons,
      List.filter_singleton, hok, hno]
    rfl
  have hinputs : pushedOps.flatMap (NodeOp.inputs plainEnv) =
      pagedOps.flatMap (NodeOp.inputs plainEnv) := by
    unfold pushedOps pagedOps
    simp only [List.flatMap_cons, List.flatMap_nil, hpush, hpage]
    rfl
  have hstart : coreOf (newNode ⟨0, 0⟩ fun _ => {}) = coreOf plainPaused := rfl
  exact ⟨core_noninterference plainEnv _ _ hstart pushedOps pagedOps hinputs, by decide +kernel⟩

end Swarm
