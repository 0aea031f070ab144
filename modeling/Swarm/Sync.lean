import Swarm.Lib.PullSync
import Swarm.Convergence
import Swarm.Engine.Pages
import Swarm.Node

/-!
# Anti-entropy between two nodes

`HandleProbe` and `HandleRange` pull by pages in the sense of `PullSync`: a root stands for the
store it was computed from, a page leaves nothing between its last node and its cursor. So after
one full-range probe two nodes converge, whatever the order of delivery.

A page only leaves the node if it encodes. One key that is not valid UTF-8 makes the whole page it
is on unsendable, without an error anywhere (`unservable_key_stranded`).
-/

namespace Swarm

open LastWriter (View)

/-! ## Stores that sync -/

/-- What a store holds on a topic. -/
def topicView (topic : Topic) (s : RecordStore) : View RecordKey Record :=
  fun k => s.slotView (topic, k)

/-- The records two nodes may hold on a topic: signed owner records with ids of 64 characters,
with no collision of SHA-256 among what roots over them hash. -/
structure SyncPool (cr : Crypto) (topic : Topic) (S : Set Record) : Prop where
  topic_eq : ∀ r ∈ S, r.topic = topic
  signed : ∀ r ∈ S, signed r = true
  owner : ∀ r ∈ S, r.isObserverAttestation = false
  id_length : ∀ r ∈ S, r.nodeID.length = 64
  hash : cr.CollisionFreeOn (rootMessages cr S)

/-- The topic and every key can be put into a frame. -/
structure Servable (topic : Topic) (S : Set Record) : Prop where
  topic : utf8Valid topic = true
  key : ∀ r ∈ S, utf8Valid r.key = true

/-- The slots of the topic hold records of the set, in their own slots. -/
def StoredIn (topic : Topic) (S : Set Record) (s : RecordStore) : Prop :=
  ∀ k r, topicView topic s k = some r → r ∈ S ∧ keyOf r = k

/-- A running node that holds only records of the set on the topic, and no attestations. -/
structure SyncNode (topic : Topic) (S : Set Record) (n : Node) : Prop where
  running : n.stopped = false
  stored : StoredIn topic S n.store
  unattested : (n.store.topic topic).attestations = ∅

section Stored

variable {cr : Crypto} {topic : Topic} {S : Set Record} {s : RecordStore}

theorem StoredIn.placed (hS : SyncPool cr topic S) (h : StoredIn topic S s) :
    Placed topic (s.topic topic) := by
  intro k r hr
  obtain ⟨hmem, hkey⟩ := h k r hr
  exact Prod.ext (hS.topic_eq r hmem) hkey

theorem StoredIn.mem_of_rangeRecords (h : StoredIn topic S s) {a b : Option Bytes} {r : Record}
    (hr : r ∈ rangeRecords s topic a b) : r ∈ S ∧ topicView topic s (keyOf r) = some r := by
  obtain ⟨⟨k, hk⟩, -⟩ := mem_rangeRecords.mp hr
  obtain ⟨hmem, rfl⟩ := h k r hk
  exact ⟨hmem, hk⟩

/-- Where every record is signed, nothing is missing from the signed view. -/
theorem StoredIn.signedView_eq (hS : SyncPool cr topic S) (h : StoredIn topic S s) (k : RecordKey) :
    s.signedView (topic, k) = topicView topic s k := by
  show (topicView topic s k).filter Swarm.signed = topicView topic s k
  cases hr : topicView topic s k with
  | none => rfl
  | some r => exact Option.filter_some_pos (hS.signed r (h k r hr).1)

/-- Equal ranges are equal views of the range. -/
theorem view_eq_of_rangeRecords_eq (hS : SyncPool cr topic S) {s' : RecordStore}
    (h : StoredIn topic S s) (h' : StoredIn topic S s') {a b : Option Bytes}
    (heq : rangeRecords s topic a b = rangeRecords s' topic a b) {k : RecordKey}
    (hk : inRange a b k.nodeID = true) : topicView topic s k = topicView topic s' k := by
  have hview := (rangeRecords_eq_iff (h.placed hS) (h'.placed hS)).mp heq k hk
  rwa [h.signedView_eq hS, h'.signedView_eq hS] at hview

theorem topicAttestations_eq_nil (h : (s.topic topic).attestations = ∅) :
    s.topicAttestations topic = [] := by
  unfold RecordStore.topicAttestations
  unfold RecordStore.topic at h
  cases hts : s.byTopic.lookup topic with
  | none => rfl
  | some ts =>
    rw [hts] at h
    change ts.attestations = ∅ at h
    dsimp only
    rw [h]
    rfl

end Stored

/-! ## Probes -/

section Probe

variable {cr : Crypto} {env : Env} {topic : Topic} {S : Set Record} {n : Node}

theorem encodes_merkle (htopic : utf8Valid topic = true) (a b : Option Bytes) (root : Bytes) :
    (Frame.merkle topic a b root).encodes = true := by
  simp [Frame.encodes, Frame.strings, htopic]

theorem encodes_merkleRange (hS : SyncPool cr topic S) (htext : Servable topic S)
    {recs : List Record} (hrecs : ∀ r ∈ recs, r ∈ S) (truncated : Bool) :
    (Frame.merkleRange topic recs truncated).encodes = true := by
  unfold Frame.encodes Frame.strings
  rw [List.all_eq_true]
  intro x hx
  rcases List.mem_cons.mp hx with rfl | hx
  · exact htext.topic
  · obtain ⟨r, hr, hxr⟩ := List.mem_flatMap.mp hx
    have hmem := hrecs r hr
    rcases List.mem_cons.mp hxr with rfl | hxr
    · rw [hS.topic_eq r hmem]
      exact htext.topic
    · rw [List.mem_singleton.mp hxr]
      exact htext.key r hmem

theorem sendProbe_eq (n : Node) (env : Env) (dst : NodeID) (htopic : utf8Valid topic = true)
    (a b : Option Bytes) :
    n.sendProbe env dst topic a b =
      n.send dst (.merkle topic a b (topicMerkleRoot env.cr n.store topic a b)) :=
  if_pos (encodes_merkle htopic a b _)

/-- The records of a page are among those of the store. -/
theorem SyncNode.mem_page (h : SyncNode topic S n) {a b : Option Bytes} {r : Record}
    (hr : r ∈ (Node.rangeReply n.store topic a b).1) : r ∈ S := by
  rcases mem_rangeReply hr with hin | hatt
  · exact (h.stored.mem_of_rangeRecords hin).1
  · rw [topicAttestations_eq_nil h.unattested] at hatt
    cases hatt

/-- A probe whose root differs is answered by a page, after a probe back when one is due. -/
theorem handleProbe_eq (hS : SyncPool cr topic S) (htext : Servable topic S)
    (h : SyncNode topic S n) (rd : Reading) (sender : NodeID) (a b : Option Bytes) (root : Bytes)
    (hne : topicMerkleRoot env.cr n.store topic a b ≠ root) :
    n.handleProbe env rd sender topic a b root =
      (if n.reciprocalDue rd sender topic then
        (n.markReciprocal rd sender topic).send sender
          (.merkle topic a b (topicMerkleRoot env.cr n.store topic a b))
      else n).send sender
        (.merkleRange topic (Node.rangeReply n.store topic a b).1
          (Node.rangeReply n.store topic a b).2) := by
  have hrec : n.reciprocate env rd sender topic a b =
      if n.reciprocalDue rd sender topic then
        (n.markReciprocal rd sender topic).send sender
          (.merkle topic a b (topicMerkleRoot env.cr n.store topic a b))
      else n := by
    unfold Node.reciprocate
    rw [sendProbe_eq _ env sender htext.topic a b]
    rfl
  rw [handleProbe_of_ne n env rd sender topic a b hne, Node.sendRange,
    if_pos (encodes_merkleRange hS htext (fun _ => h.mem_page) _), hrec]

/-- What a probe leaves of the node, and what it makes the node send. -/
theorem handleProbe_step (env : Env) (hS : SyncPool cr topic S) (htext : Servable topic S)
    (h : SyncNode topic S n) (rd : Reading) (sender : NodeID) (a b : Option Bytes) (root : Bytes) :
    (n.handleProbe env rd sender topic a b root).store = n.store ∧
      (n.handleProbe env rd sender topic a b root).stopped = n.stopped ∧
      n.sentSince (n.handleProbe env rd sender topic a b root) =
        if topicMerkleRoot env.cr n.store topic a b = root then []
        else
          (if n.reciprocalDue rd sender topic then
            [(sender, .merkle topic a b (topicMerkleRoot env.cr n.store topic a b))]
          else []) ++
            [(sender, .merkleRange topic (Node.rangeReply n.store topic a b).1
              (Node.rangeReply n.store topic a b).2)] := by
  by_cases hroot : topicMerkleRoot env.cr n.store topic a b = root
  · rw [if_pos hroot]
    unfold Node.handleProbe Node.sentSince
    rw [if_pos hroot, List.drop_length]
    exact ⟨rfl, rfl, rfl⟩
  · rw [if_neg hroot, handleProbe_eq hS htext h rd sender a b root hroot]
    unfold Node.sentSince
    split_ifs
    · refine ⟨rfl, rfl, ?_⟩
      show sends (((n.trace ++ [_]) ++ [_]).drop n.trace.length) = _
      rw [List.append_assoc, List.drop_left]
      rfl
    · refine ⟨rfl, rfl, ?_⟩
      show sends ((n.trace ++ [_]).drop n.trace.length) = _
      rw [List.drop_left]
      rfl

end Probe

/-! ## Pages -/

/-- Nothing was sent, and the node still runs if it did. -/
def Silent (n n' : Node) : Prop :=
  n'.stopped = n.stopped ∧ ∃ evs, n'.trace = n.trace ++ evs ∧ sends evs = []

theorem Silent.refl (n : Node) : Silent n n := ⟨rfl, [], (List.append_nil _).symm, rfl⟩

theorem Silent.trans {n n' n'' : Node} (h : Silent n n') (h' : Silent n' n'') : Silent n n'' := by
  obtain ⟨hs, evs, htrace, hsends⟩ := h
  obtain ⟨hs', evs', htrace', hsends'⟩ := h'
  exact ⟨hs'.trans hs, evs ++ evs', by rw [htrace', htrace, List.append_assoc],
    by rw [sends_append, hsends, hsends', List.append_nil]⟩

section Page

variable {cr : Crypto} {env : Env} {rd : Reading} {topic : Topic} {S : Set Record} {n : Node}
  {s : RecordStore} {r : Record} {recs : List Record}

/-- A record that passes the gate is one call on the store. -/
theorem receiveRecord_eq (hok : env.gate.letThrough env.cr rd.wallMs r = true) :
    (Node.receiveRecord env rd n r).store = applyCall env.storeCfg n.store (rd.nowMs, r) ∧
      Silent n (Node.receiveRecord env rd n r) := by
  obtain ⟨n', happ, hstore, htrace, hstopped⟩ := n.applyExt_inbound env rd r
  unfold Node.receiveRecord
  dsimp only
  rw [inbound_eq_true_iff.mpr hok, happ]
  dsimp only
  split_ifs with hno
  · cases hno
  · exact ⟨hstore, hstopped, _, (congrArg (· ++ _) htrace).trans (List.append_assoc ..), rfl⟩
  · exact ⟨hstore, hstopped, _, htrace, rfl⟩

/-- The records of a page are calls on the store, one after the other. -/
theorem foldl_receiveRecord (hok : ∀ r ∈ recs, env.gate.letThrough env.cr rd.wallMs r = true) :
    (recs.foldl (Node.receiveRecord env rd) n).store =
        runStore env.storeCfg n.store (applyOps (recs.map fun r => (rd.nowMs, r))) ∧
      Silent n (recs.foldl (Node.receiveRecord env rd) n) := by
  induction recs generalizing n with
  | nil => exact ⟨rfl, Silent.refl n⟩
  | cons r recs ih =>
    obtain ⟨hstore, hsilent⟩ := receiveRecord_eq (n := n) (hok r List.mem_cons_self)
    obtain ⟨hrest, hsilent'⟩ := ih (n := Node.receiveRecord env rd n r) fun x hx =>
      hok x (List.mem_cons_of_mem _ hx)
    refine ⟨?_, hsilent.trans hsilent'⟩
    rw [List.foldl_cons, hrest, hstore]
    rfl

/-- On the slots of a topic, a write of one of its records is a write by slot. -/
theorem topicView_put (f : View (Topic × RecordKey) Record) (hr : r.topic = topic) :
    (fun k => LastWriter.put slotOf rankOf f r (topic, k)) =
      LastWriter.put keyOf rankOf (fun k => f (topic, k)) r := by
  subst hr
  funext k
  by_cases hk : k = keyOf r
  · subst hk
    exact (LastWriter.put_self f r).trans (LastWriter.put_self (fun k => f (r.topic, k)) r).symm
  · rw [LastWriter.put_of_ne _ _ hk, LastWriter.put_of_ne _ _ fun h => hk (congrArg Prod.snd h)]

theorem topicView_putAll (f : View (Topic × RecordKey) Record)
    (hrecs : ∀ r ∈ recs, r.topic = topic) :
    (fun k => LastWriter.putAll slotOf rankOf f recs (topic, k)) =
      LastWriter.putAll keyOf rankOf (fun k => f (topic, k)) recs := by
  induction recs generalizing f with
  | nil => rfl
  | cons r recs ih =>
    have hput := topicView_put f (hrecs r List.mem_cons_self)
    show (fun k => LastWriter.putAll slotOf rankOf (LastWriter.put slotOf rankOf f r) recs
      (topic, k)) = _
    rw [ih _ fun x hx => hrecs x (List.mem_cons_of_mem _ hx), hput]
    rfl

/-- One record of the set keeps a store within the set, whether or not a cap turns it away. -/
theorem StoredIn.applyExt (hS : SyncPool cr topic S) (h : StoredIn topic S s) (hr : r ∈ S)
    (cfg : StoreConfig) (nowMs : Int64) : StoredIn topic S (applyExt cfg nowMs s r).2 := by
  intro k x hx
  unfold topicView at hx
  rcases slotView_applyExt cfg nowMs s (hS.owner r hr) with ⟨-, -, hview⟩ | ⟨-, hview⟩
  · rw [hview] at hx
    exact h k x hx
  · rw [hview] at hx
    have hx' : LastWriter.put keyOf rankOf (topicView topic s) r k = some x :=
      (congrFun (topicView_put s.slotView (hS.topic_eq r hr)) k).symm.trans hx
    by_cases hk : k = keyOf r
    · subst hk
      rw [LastWriter.put_self] at hx'
      cases hx'
      rcases LastWriter.winner_eq_or rankOf (topicView topic s (keyOf r)) r with he | he
      · rw [he]
        exact ⟨hr, rfl⟩
      · exact h _ _ he
    · rw [LastWriter.put_of_ne _ _ hk] at hx'
      exact h k x hx'

/-- Owner records leave a topic without attestations as it is. -/
theorem unattested_applyExt (h : (s.topic topic).attestations = ∅)
    (hown : r.isObserverAttestation = false) (cfg : StoreConfig) (nowMs : Int64) :
    ((applyExt cfg nowMs s r).2.topic topic).attestations = ∅ := by
  rcases topic_applyExt cfg nowMs s r topic with heq | ⟨rfl, heq⟩
  · rw [heq]
    exact h
  · rw [heq, applyTopic, if_neg (by rw [hown]; exact Bool.false_ne_true)]
    have hstep := applyOwner_step cfg nowMs (s.topic r.topic) r
    generalize applyOwner cfg nowMs (s.topic r.topic) r = o at hstep
    cases hstep with
    | full => exact h
    | opened => exact h
    | newer =>
      show (s.topic r.topic).attestations.erase r.nodeID = ∅
      rw [h]
      rfl
    | stale => exact h

/-- Records of the set keep a store within the set. -/
theorem runStore_pool (hS : SyncPool cr topic S) (hs : StoredIn topic S s)
    (hun : (s.topic topic).attestations = ∅) (hrecs : ∀ r ∈ recs, r ∈ S) (cfg : StoreConfig)
    (nowMs : Int64) :
    StoredIn topic S (runStore cfg s (applyOps (recs.map fun r => (nowMs, r)))) ∧
      ((runStore cfg s (applyOps (recs.map fun r => (nowMs, r)))).topic topic).attestations =
        ∅ := by
  induction recs generalizing s with
  | nil => exact ⟨hs, hun⟩
  | cons r recs ih =>
    have hr := hrecs r List.mem_cons_self
    exact ih (hs.applyExt hS hr cfg nowMs) (unattested_applyExt hun (hS.owner r hr) cfg nowMs)
      fun x hx => hrecs x (List.mem_cons_of_mem _ hx)

theorem handleRange_eq (n : Node) (env : Env) (rd : Reading) (sender : NodeID)
    (htopic : utf8Valid topic = true) (recs : List Record) (truncated : Bool) :
    n.handleRange env rd sender topic recs truncated =
      match pageCursor recs truncated with
      | none => recs.foldl (Node.receiveRecord env rd) n
      | some c =>
        (recs.foldl (Node.receiveRecord env rd) n).send sender
          (.merkle topic c none (topicMerkleRoot env.cr
            (recs.foldl (Node.receiveRecord env rd) n).store topic c none)) := by
  unfold Node.handleRange pageCursor
  dsimp only
  cases recs.getLast? with
  | none => cases truncated <;> rfl
  | some last =>
    cases truncated with
    | false => rfl
    | true => exact sendProbe_eq _ env sender htopic _ none

/-- What a page of records of the set leaves of the node, and what it makes the node send. -/
theorem handleRange_step (hS : SyncPool cr topic S) (htext : Servable topic S)
    (h : SyncNode topic S n) (hrecs : ∀ r ∈ recs, r ∈ S)
    (hok : ∀ r ∈ S, env.gate.letThrough env.cr rd.wallMs r = true) (sender : NodeID)
    (truncated : Bool) :
    SyncNode topic S (n.handleRange env rd sender topic recs truncated) ∧
      n.store.rejectedCap ≤ (n.handleRange env rd sender topic recs truncated).store.rejectedCap ∧
      ((n.handleRange env rd sender topic recs truncated).store.rejectedCap =
          n.store.rejectedCap →
        topicView topic (n.handleRange env rd sender topic recs truncated).store =
          LastWriter.putAll keyOf rankOf (topicView topic n.store) recs) ∧
      n.sentSince (n.handleRange env rd sender topic recs truncated) =
        ((pageCursor recs truncated).map fun c =>
          (sender, Frame.merkle topic c none (topicMerkleRoot env.cr
            (n.handleRange env rd sender topic recs truncated).store topic c none))).toList := by
  obtain ⟨hstore, hstopped, evs, htrace, hsends⟩ :=
    foldl_receiveRecord (n := n) fun r hr => hok r (hrecs r hr)
  obtain ⟨hstored, hun⟩ := runStore_pool hS h.stored h.unattested hrecs env.storeCfg rd.nowMs
  have hcap := rejectedCap_le_runStore env.storeCfg n.store
    (applyOps (recs.map fun r => (rd.nowMs, r)))
  have hview : (runStore env.storeCfg n.store
        (applyOps (recs.map fun r => (rd.nowMs, r)))).rejectedCap = n.store.rejectedCap →
      topicView topic (runStore env.storeCfg n.store
        (applyOps (recs.map fun r => (rd.nowMs, r)))) =
        LastWriter.putAll keyOf rankOf (topicView topic n.store) recs := by
    intro hdrop
    unfold topicView
    rw [slotView_runStore n.store (fun c hc => ?_) hdrop, List.map_map]
    · rw [show (Prod.snd ∘ fun r => (rd.nowMs, r)) = (id : Record → Record) from rfl, List.map_id]
      exact topicView_putAll _ fun r hr => hS.topic_eq r (hrecs r hr)
    · obtain ⟨r, hr, rfl⟩ := List.mem_map.mp hc
      exact hS.owner r (hrecs r hr)
  rw [← hstore] at hstored hun hcap hview
  rw [handleRange_eq n env rd sender htext.topic]
  unfold Node.sentSince
  cases pageCursor recs truncated with
  | none =>
    refine ⟨⟨hstopped.trans h.running, hstored, hun⟩, hcap, hview, ?_⟩
    dsimp only
    rw [htrace, List.drop_left, hsends]
    rfl
  | some c =>
    refine ⟨⟨hstopped.trans h.running, hstored, hun⟩, hcap, hview, ?_⟩
    show sends (((recs.foldl (Node.receiveRecord env rd) n).trace ++ [_]).drop n.trace.length) = _
    rw [htrace, List.append_assoc, List.drop_left, sends_append, hsends]
    rfl

end Page

/-! ## The protocol -/

/-- Frames handled at clock readings of a set. -/
def syncHandler (env : NodeID → Env) (T : Set Reading) : Network.Handler NodeID Node Frame T :=
  fun i n src f rd => frameHandler env i n src f rd

/-- The frame probes the topic from the cursor on, with the root of a store that had the view. -/
def SyncProbe (cr : Crypto) (topic : Topic) (S : Set Record) (f : Frame) (c : Option Bytes)
    (snap : View RecordKey Record) : Prop :=
  ∃ s, StoredIn topic S s ∧ snap = topicView topic s ∧
    f = .merkle topic c none (topicMerkleRoot cr s topic c none)

/-- The frame is a page of records of the set, to be continued from the cursor. -/
def SyncPage (topic : Topic) (S : Set Record) (f : Frame) (recs : List Record)
    (next : Option (Option Bytes)) : Prop :=
  ∃ truncated, (∀ r ∈ recs, r ∈ S) ∧ next = pageCursor recs truncated ∧
    f = .merkleRange topic recs truncated

section Protocol

variable {cr : Crypto} {env : NodeID → Env} {T : Set Reading} {topic : Topic} {S : Set Record}

theorem frameHandler_probe (htext : Servable topic S) {n : Node} (h : SyncNode topic S n)
    (i src : NodeID) (rd : Reading) (c : Option Bytes) (root : Bytes) :
    frameHandler env i n src (.merkle topic c none root) rd =
      (n.handleProbe (env i) rd src topic c none root,
        n.sentSince (n.handleProbe (env i) rd src topic c none root)) := by
  unfold frameHandler Node.onReceive Node.receiveFrame
  rw [h.running, encodes_merkle htext.topic]
  rfl

theorem frameHandler_page (hS : SyncPool cr topic S) (htext : Servable topic S) {n : Node}
    (h : SyncNode topic S n) (i src : NodeID) (rd : Reading) {recs : List Record}
    (hrecs : ∀ r ∈ recs, r ∈ S) (truncated : Bool) :
    frameHandler env i n src (.merkleRange topic recs truncated) rd =
      (n.handleRange (env i) rd src topic recs truncated,
        n.sentSince (n.handleRange (env i) rd src topic recs truncated)) := by
  unfold frameHandler Node.onReceive Node.receiveFrame
  rw [h.running, encodes_merkleRange hS htext hrecs]
  rfl

/-- Anti-entropy pulls by pages. -/
def antiEntropy (hcr : ∀ i, (env i).cr = cr)
    (hgate : ∀ rd ∈ T, ∀ i, ∀ r ∈ S, (env i).gate.letThrough (env i).cr rd.wallMs r = true)
    (hS : SyncPool cr topic S) (htext : Servable topic S) (hpin : EntryPinned S) :
    PullSync.Protocol (syncHandler env T) keyOf rankOf S (Option Bytes) where
  view n := topicView topic n.store
  dropped n := n.store.rejectedCap
  covers c k := inRange c none k.nodeID = true
  Good := SyncNode topic S
  Probe := SyncProbe cr topic S
  Page := SyncPage topic S
  sound h hv := h.stored _ _ hv
  probe_keeps i src rd n f c snap h hprobe := by
    obtain ⟨s, -, -, rfl⟩ := hprobe
    unfold syncHandler
    rw [frameHandler_probe htext h]
    obtain ⟨hstore, hstopped, -⟩ := handleProbe_step (env i) hS htext h rd.1 src c none _
    exact ⟨⟨hstopped.trans h.running, hstore ▸ h.stored, hstore ▸ h.unattested⟩,
      congrArg (topicView topic) hstore, congrArg RecordStore.rejectedCap hstore⟩
  probe_sends i src rd n f c snap h hprobe e he := by
    obtain ⟨s, -, -, rfl⟩ := hprobe
    unfold syncHandler at he
    rw [frameHandler_probe htext h] at he
    dsimp only at he
    rw [(handleProbe_step (env i) hS htext h rd.1 src c none _).2.2, hcr] at he
    split_ifs at he
    · cases he
    · rcases List.mem_append.mp he with hback | hpage
      · cases List.mem_singleton.mp hback
        exact ⟨rfl, Or.inl ⟨c, n.store, h.stored, rfl, rfl⟩⟩
      · cases List.mem_singleton.mp hpage
        exact ⟨rfl, Or.inr ⟨_, _, _, fun _ => h.mem_page, rfl, rfl⟩⟩
    · cases List.mem_singleton.mp he
      exact ⟨rfl, Or.inr ⟨_, _, _, fun _ => h.mem_page, rfl, rfl⟩⟩
  probe_answers i src rd n f c snap h hprobe := by
    obtain ⟨s, hs, rfl, rfl⟩ := hprobe
    unfold syncHandler
    rw [frameHandler_probe htext h]
    dsimp only
    rw [(handleProbe_step (env i) hS htext h rd.1 src c none _).2.2, hcr]
    by_cases hroot : topicMerkleRoot cr n.store topic c none = topicMerkleRoot cr s topic c none
    · left
      intro k hk
      have heq := rangeRecords_eq_of_root_eq hS.hash hpin (h.stored.placed hS) (hs.placed hS)
        (fun _ hr => (h.stored.mem_of_rangeRecords hr).1)
        (fun _ hr => (hs.mem_of_rangeRecords hr).1) hroot
      exact (view_eq_of_rangeRecords_eq hS h.stored hs heq hk).symm
    · right
      rw [if_neg hroot]
      refine ⟨_, _, _, List.mem_append_right _ (List.mem_singleton_self _),
        ⟨_, fun _ => h.mem_page, rfl, rfl⟩, fun k r hr hk => ?_⟩
      obtain ⟨hmem, rfl⟩ := h.stored k r hr
      rcases page_or_behind (h.stored.placed hS)
        (mem_rangeRecords.mpr ⟨⟨_, hr⟩, hS.signed r hmem, hk⟩) with hin | ⟨htrunc, last, hlast, hlt⟩
      · exact Or.inl hin
      · refine Or.inr ⟨some (last.nodeID ++ [1]), ?_, ?_⟩
        · unfold pageCursor
          rw [htrunc, if_pos rfl, Option.mem_def.mp hlast]
          rfl
        · refine cursor_covers ?_ hlt
          have hlastS : last ∈ S := h.mem_page (List.mem_of_getLast? hlast)
          exact (hS.id_length last hlastS).trans (hS.id_length r hmem).symm
  page_keeps i src rd n f recs next h hpage := by
    obtain ⟨truncated, hrecs, -, rfl⟩ := hpage
    unfold syncHandler
    rw [frameHandler_page hS htext h i src rd.1 hrecs]
    have hstep := handleRange_step hS htext h hrecs (hgate rd rd.2 i) src truncated
    exact ⟨hstep.1, hstep.2.1⟩
  page_writes i src rd n f recs next h hpage hdrop := by
    obtain ⟨truncated, hrecs, -, rfl⟩ := hpage
    unfold syncHandler at hdrop ⊢
    rw [frameHandler_page hS htext h i src rd.1 hrecs] at hdrop ⊢
    exact (handleRange_step hS htext h hrecs (hgate rd rd.2 i) src truncated).2.2.1 hdrop
  page_sends i src rd n f recs next h hpage e he := by
    obtain ⟨truncated, hrecs, -, rfl⟩ := hpage
    unfold syncHandler at he ⊢
    rw [frameHandler_page hS htext h i src rd.1 hrecs] at he ⊢
    obtain ⟨hnode, -, -, hsent⟩ := handleRange_step hS htext h hrecs (hgate rd rd.2 i) src truncated
    dsimp only at he ⊢
    rw [hsent, hcr, Option.mem_toList, Option.map_eq_some_iff] at he
    obtain ⟨c, -, rfl⟩ := he
    exact ⟨rfl, c, _, hnode.stored, rfl, rfl⟩
  page_resumes i src rd n f recs c h hpage := by
    obtain ⟨truncated, hrecs, hc, rfl⟩ := hpage
    unfold syncHandler
    rw [frameHandler_page hS htext h i src rd.1 hrecs]
    obtain ⟨hnode, -, -, hsent⟩ := handleRange_step hS htext h hrecs (hgate rd rd.2 i) src truncated
    dsimp only
    rw [hsent, ← hc, hcr]
    exact ⟨_, List.mem_singleton_self _, _, hnode.stored, rfl, rfl⟩

/-- A full-range probe finds the other store equal, or is answered by one. -/
theorem probed_back (hcr : ∀ i, (env i).cr = cr) (hS : SyncPool cr topic S)
    (htext : Servable topic S) (hpin : EntryPinned S) {m n : Node} (hm : SyncNode topic S m)
    (hn : SyncNode topic S n) (a b : NodeID) (rd : T)
    (hdue : n.reciprocalDue rd a topic = true) :
    topicView topic m.store = topicView topic n.store ∨
      ∃ f c, (a, f) ∈ (syncHandler env T b n a
          (.merkle topic none none (topicMerkleRoot cr m.store topic none none)) rd).2 ∧
        SyncProbe cr topic S f c (topicView topic n.store) ∧
        ∀ k : RecordKey, inRange c none k.nodeID = true := by
  unfold syncHandler
  rw [frameHandler_probe htext hn]
  dsimp only
  rw [(handleProbe_step (env b) hS htext hn rd a none none _).2.2, hcr, hdue]
  by_cases hroot : topicMerkleRoot cr n.store topic none none =
      topicMerkleRoot cr m.store topic none none
  · left
    funext k
    have heq := rangeRecords_eq_of_root_eq hS.hash hpin (hn.stored.placed hS)
      (hm.stored.placed hS) (fun _ hr => (hn.stored.mem_of_rangeRecords hr).1)
      (fun _ hr => (hm.stored.mem_of_rangeRecords hr).1) hroot
    exact (view_eq_of_rangeRecords_eq hS hn.stored hm.stored heq rfl).symm
  · right
    rw [if_neg hroot]
    exact ⟨_, none, List.mem_append_left _ (List.mem_singleton_self _),
      ⟨n.store, hn.stored, rfl, rfl⟩, fun _ => rfl⟩

end Protocol

/-- The records two nodes hold on a topic. -/
def heldRecords (topic : Topic) (m n : Node) : Set Record :=
  {r | (∃ k, topicView topic m.store k = some r) ∨ ∃ k, topicView topic n.store k = some r}

/-- **Convergence of two nodes.** Node `a` sends one full-range probe to `b`, and the frames that
follow are delivered in any order, at readings at which the gates admit every record and `b` has
not probed `a` back in the last five seconds when it starts. If every key encodes, a node id, clock
and signature stand for one record, and no cap turns a record away, then once no frame is in flight
both nodes hold the same signed view of the topic, the slot-wise maximum of what they held. -/
theorem antiEntropy_converges (cr : Crypto) (env : NodeID → Env) (hcr : ∀ i, (env i).cr = cr)
    (topic : Topic) (a b : NodeID) (hab : a ≠ b) (node : NodeID → Node)
    (hS : SyncPool cr topic (heldRecords topic (node a) (node b)))
    (ha : SyncNode topic (heldRecords topic (node a) (node b)) (node a))
    (hb : SyncNode topic (heldRecords topic (node a) (node b)) (node b))
    (htext : Servable topic (heldRecords topic (node a) (node b)))
    (hpin : EntryPinned (heldRecords topic (node a) (node b))) (T : Set Reading)
    (hgate : ∀ rd ∈ T, ∀ i, ∀ r ∈ heldRecords topic (node a) (node b),
      (env i).gate.letThrough (env i).cr rd.wallMs r = true)
    (hdue : ∀ rd ∈ T, (node b).reciprocalDue rd a topic = true)
    (net : Network.Net NodeID Node Frame)
    (hrun : Relation.ReflTransGen (Network.Step (syncHandler env T))
      ⟨node, {⟨a, b, .merkle topic none none (topicMerkleRoot cr (node a).store topic none none)⟩}⟩
      net)
    (hquiet : net.flight = 0)
    (hcap : ∀ i, i = a ∨ i = b →
      (net.node i).store.rejectedCap = (node i).store.rejectedCap) :
    (∀ k, (net.node a).store.signedView (topic, k) = (net.node b).store.signedView (topic, k)) ∧
    ∀ i, i = a ∨ i = b → ∀ k r, (net.node i).store.signedView (topic, k) = some r ↔
      r ∈ heldRecords topic (node a) (node b) ∧ keyOf r = k ∧
        ∀ r' ∈ heldRecords topic (node a) (node b), keyOf r' = k →
          r'.hlc < r.hlc ∨ (r'.hlc = r.hlc ∧ (r'.sig < r.sig ∨ r'.sig = r.sig)) := by
  generalize hpool : heldRecords topic (node a) (node b) = S at *
  have hheld : S ⊆ {r | topicView topic (node a).store (keyOf r) = some r} ∪
      {r | topicView topic (node b).store (keyOf r) = some r} := by
    intro r hr
    rw [← hpool] at hr
    rcases hr with ⟨k, hk⟩ | ⟨k, hk⟩
    · obtain ⟨-, rfl⟩ := ha.stored k r hk
      exact Or.inl hk
    · obtain ⟨-, rfl⟩ := hb.stored k r hk
      exact Or.inr hk
  obtain ⟨holdsa, holdsb⟩ := (antiEntropy hcr hgate hS htext hpin).converges hab ha hb hheld
    (c := none) ⟨_, ha.stored, rfl, rfl⟩ (fun _ => rfl)
    (fun rd => probed_back hcr hS htext hpin ha hb a b rd (hdue rd rd.2)) hrun hquiet hcap
  have hpinned : LastWriter.Pinned keyOf rankOf S := fun r hr r' hr' hkey hrank =>
    hpin r hr r' hr' (congrArg RecordKey.nodeID hkey) ((rankOf_eq_iff r r').mp hrank).1
      ((rankOf_eq_iff r r').mp hrank).2
  refine ⟨fun k => ?_, fun i hi k r => ?_⟩
  · rw [StoredIn.signedView_eq hS holdsa.sound, StoredIn.signedView_eq hS holdsb.sound]
    exact congrFun (holdsa.unique holdsb hpinned) k
  · have holds : LastWriter.Holds keyOf rankOf S (topicView topic (net.node i).store) := by
      rcases hi with rfl | rfl
      · exact holdsa
      · exact holdsb
    rw [StoredIn.signedView_eq hS holds.sound, holds.eq_some_iff hpinned]
    simp only [rankOf_le_iff]

/-! ### Two runs -/

/-- A record of a node bound to its key, under the given key. -/
def clearRecord (key : Bytes) : Record :=
  signRecord .inClear
    { topic := [116], nodeID := nodeIDFromPub (List.replicate 32 7), key := key, hlc := 65536
      body := [1] }
    (List.replicate 64 7)

/-- Node 1 holds nothing, node 2 the record. -/
def clearNodes (key : Bytes) : NodeID → Node := fun i =>
  { newNode ⟨0, 0⟩ (fun _ => {}) with
    store :=
      if i = [2] then runStore plainEnv.storeCfg {} (applyOps [(0, clearRecord key)]) else {} }

/-- The full-range probe of node 1. -/
def clearProbe (key : Bytes) : Network.Packet NodeID Frame :=
  ⟨[1], [2], .merkle [116] none none
    (topicMerkleRoot .inClear (clearNodes key [1]).store [116] none none)⟩

/-- The nodes and what is in flight after nine deliveries in the order of sending. -/
def clearRun (key : Bytes) : (NodeID → Node) × List (Network.Packet NodeID Frame) :=
  Network.deliverAll (syncHandler (fun _ => plainEnv) {⟨0, 0⟩}) (clearNodes key) [clearProbe key]
    (List.replicate 9 ⟨⟨0, 0⟩, rfl⟩)

section Clear

variable {key : Bytes}

theorem clearRun_run (key : Bytes) :
    Relation.ReflTransGen (Network.Step (syncHandler (fun _ => plainEnv) {⟨0, 0⟩}))
      ⟨clearNodes key, {clearProbe key}⟩ ⟨(clearRun key).1, (clearRun key).2⟩ :=
  Network.deliverAll_run _ _ _ _

/-- What the two nodes hold, once the listing of node 2 is known. -/
theorem heldRecords_clear
    (hlist : (clearNodes key [2]).store.topicRecordsWhere [116] (fun _ => true) =
      [clearRecord key]) :
    heldRecords [116] (clearNodes key [1]) (clearNodes key [2]) = {clearRecord key} := by
  ext r
  have hmem : r ∈ (clearNodes key [2]).store.topicRecordsWhere [116] (fun _ => true) ↔ _ :=
    mem_topicRecordsWhere
  rw [hlist, List.mem_singleton] at hmem
  constructor
  · rintro (⟨k, hk⟩ | ⟨k, hk⟩)
    · cases hk
    · exact hmem.mpr ⟨⟨k, hk⟩, rfl⟩
  · exact fun hr => Or.inr (hmem.mp hr).1

theorem syncPool_clear
    (hinj : ∀ m ∈ [(clearRecord key).nodeID, (clearRecord key).sig, [],
        rootEntry .inClear (clearRecord key)],
      ∀ m' ∈ [(clearRecord key).nodeID, (clearRecord key).sig, [],
        rootEntry .inClear (clearRecord key)], checksum m = checksum m' → m = m') :
    SyncPool .inClear [116] {clearRecord key} where
  topic_eq := by rintro _ rfl; rfl
  signed := by
    rintro _ rfl
    exact decide_eq_true (by rw [show (clearRecord key).sig.length = 64 from
      Crypto.inClear.ed25519Sign_length _ _]; decide)
  owner := by rintro _ rfl; rfl
  id_length := by rintro _ rfl; exact (length_nodeIDFromPub _).trans (by decide)
  hash := fun _ hm _ hm' h => hinj _ (rootMessages_singleton hm) _ (rootMessages_singleton hm') h

theorem entryPinned_singleton (r : Record) : EntryPinned {r} := by
  rintro _ rfl _ rfl _ _ _
  rfl

end Clear

/-- Under a key that encodes, node 1 ends up with the record. -/
theorem clearRun_converges :
    (clearRun [107]).2.length = 0 ∧
    ((clearRun [107]).1 [1]).store.signedView ([116], keyOf (clearRecord [107])) =
      some (clearRecord [107]) := by
  have hheld : heldRecords [116] (clearNodes [107] [1]) (clearNodes [107] [2]) = _ :=
    heldRecords_clear (by decide +kernel)
  have hend : (clearRun [107]).2 = [] := List.length_eq_zero_iff.mp (by decide +kernel)
  have hcap : ∀ i, i = [1] ∨ i = [2] →
      ((clearRun [107]).1 i).store.rejectedCap = (clearNodes [107] i).store.rejectedCap := by
    rintro _ (rfl | rfl) <;> decide +kernel
  have hrun := clearRun_run [107]
  -- from here on only what was computed about the run matters
  generalize clearRun [107] = run at hend hcap hrun ⊢
  have hsync := (antiEntropy_converges .inClear (fun _ => plainEnv) (fun _ => rfl) [116] [1] [2]
    (by decide) (clearNodes [107]) (by rw [hheld]; exact syncPool_clear (by decide +kernel))
    ⟨rfl, fun k r hr => (nomatch hr), rfl⟩
    ⟨rfl, fun k r hr => ⟨Or.inr ⟨k, hr⟩, congrArg Prod.snd (run_placed _ _ _ k r hr)⟩, rfl⟩
    (by rw [hheld]; exact ⟨rfl, by rintro _ rfl; rfl⟩)
    (by rw [hheld]; exact entryPinned_singleton _) {⟨0, 0⟩}
    (by rw [hheld]; rintro _ rfl _ _ rfl; decide +kernel) (by rintro _ rfl; rfl) ⟨run.1, run.2⟩ hrun
    (by rw [hend]; rfl) hcap).2
  refine ⟨by rw [hend]; rfl, (hsync [1] (Or.inl rfl) _ _).mpr ?_⟩
  rw [hheld]
  refine ⟨rfl, rfl, ?_⟩
  rintro _ rfl -
  exact Or.inr ⟨rfl, Or.inr rfl⟩

/-- Under a key that is not UTF-8, every frame is delivered and node 1 still lacks the record. -/
theorem unservable_key_stranded :
    SyncPool .inClear [116]
      (heldRecords [116] (clearNodes [0xff] [1]) (clearNodes [0xff] [2])) ∧
    EntryPinned (heldRecords [116] (clearNodes [0xff] [1]) (clearNodes [0xff] [2])) ∧
    plainEnv.gate.letThrough plainEnv.cr 0 (clearRecord [0xff]) = true ∧
    Relation.ReflTransGen (Network.Step (syncHandler (fun _ => plainEnv) {⟨0, 0⟩}))
      ⟨clearNodes [0xff], {clearProbe [0xff]}⟩ ⟨(clearRun [0xff]).1, 0⟩ ∧
    (∀ i ∈ [[1], [2]], ((clearRun [0xff]).1 i).store.rejectedCap = 0) ∧
    ((clearRun [0xff]).1 [2]).store.getRawKeyed [116] (clearRecord [0xff]).nodeID [0xff] =
      some (clearRecord [0xff]) ∧
    ((clearRun [0xff]).1 [1]).store.getRawKeyed [116] (clearRecord [0xff]).nodeID [0xff] =
      none := by
  have hheld : heldRecords [116] (clearNodes [0xff] [1]) (clearNodes [0xff] [2]) = _ :=
    heldRecords_clear (by decide +kernel)
  have hend : (clearRun [0xff]).2 = [] := List.length_eq_zero_iff.mp (by decide +kernel)
  have hrun := clearRun_run [0xff]
  rw [hend] at hrun
  rw [hheld]
  exact ⟨syncPool_clear (by decide +kernel), entryPinned_singleton _, by decide +kernel, hrun,
    by decide +kernel, by decide +kernel, by decide +kernel⟩

end Swarm
