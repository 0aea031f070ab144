import Swarm.Engine.Outbound

/-!
# A matching root means no drift

A root hashes the node id, the clock and the signature of each signed record, not the key, the body
or the tombstone flag. These are reached through the signature: every signed record of a store came
through the gate or was signed here, so it verifies, its embedded key has 32 bytes and its slot key
fits the length field of the signing bytes (`history_fitting`). With node ids of 64 bytes the
signing bytes then leave one reading (`signed_fields_of_fits`), and a signature that verifies for
one message pins the record down.
-/

namespace Swarm

/-- A verifiable record with a key that fits its length field. -/
structure Fitting (cr : Crypto) (r : Record) : Prop where
  verifiable : Verifiable cr r
  key : r.key.length ≤ maxKeyBytes

/-- The node id has 64 bytes, and the observer id is one that its length field can carry, such as
none or one of 64 bytes. -/
structure WideIDs (r : Record) : Prop where
  node : r.nodeID.length = 64
  observer : r.observerNodeID.length ≤ 65535

/-- The signed records two stores hold on a topic. -/
def signedRecords (topic : Topic) (s s' : RecordStore) : Set Record :=
  {r | r ∈ s.topicRecordsSigned topic ∨ r ∈ s'.topicRecordsSigned topic}

/-- The keys and messages the signatures of a set of records are checked for. -/
def signedMessages (S : Set Record) : Set (Bytes × Bytes) :=
  {p | ∃ r ∈ S, p = (r.pubKey, signableBytes r)}

/-! ## What a signature pins down -/

section Pinned

variable {cr : Crypto} {S : Set Record}

theorem Verifiable.verifies {r : Record} (h : Verifiable cr r) :
    cr.ed25519Verify r.pubKey (signableBytes r) r.sig = true := by
  have hsig := h.2
  unfold verifyRecord at hsig
  split_ifs at hsig
  exact hsig

/-- Records of one topic with the same signature are the same record. -/
theorem eq_of_sig_eq (huniq : cr.SignatureUniqueOn (signedMessages S)) {r r' : Record}
    (hr : r ∈ S) (hr' : r' ∈ S) (hfit : Fitting cr r) (hfit' : Fitting cr r') (hid : WideIDs r)
    (hid' : WideIDs r') (htopic : r.topic = r'.topic) (hsig : r.sig = r'.sig) : r = r' := by
  have hver' := hfit'.verifiable.verifies
  rw [← hsig] at hver'
  have hmsg := huniq _ ⟨r, hr, rfl⟩ _ ⟨r', hr', rfl⟩ r.sig hfit.verifiable.verifies hver'
  have hsame := signed_fields_of_fits (congrArg List.length htopic)
    (hid.node.trans hid'.node.symm) (hfit.verifiable.1.trans hfit'.verifiable.1.symm)
    hid.observer hid'.observer hfit.key hfit'.key (congrArg Prod.snd hmsg)
  cases r
  cases r'
  obtain ⟨rfl, rfl, rfl, rfl, rfl, rfl, rfl, rfl, rfl⟩ := hsame
  cases hsig
  rfl

end Pinned

/-! ## Runs -/

/-- After every run, the store is a run of calls with fitting records. -/
theorem history_fitting {env : Env} (hcr : env.cr.SignVerifies) (rd : Reading)
    (configFn : NodeID → PerPeerConfig) (ops : List NodeOp) :
    History env (Fitting env.cr) (runNode env (newNode rd configFn) ops) := by
  have hkept : KeptKeyed env (fun key => key.length ≤ maxKeyBytes) (Fitting env.cr)
      (History env (Fitting env.cr)) := by
    refine History.keptKeyed (fun _ h => h) (fun _ h => h.key) (fun rd r h => ?_) fun r hkey _ => ?_
    · obtain ⟨hpub, hsig, hadmit⟩ := letThrough_iff.mp h
      exact ⟨⟨hpub, hsig⟩, (gateAdmit_eq_none_iff.mp hadmit).key⟩
    · exact ⟨⟨env.cr.ed25519Public_length _, verifyRecord_signRecord hcr r _⟩, hkey⟩
  exact hkept.run ops ⟨rfl, fun _ _ h => (nomatch h)⟩

/-- The signed records of a store are fitting and carry its topic. -/
theorem History.fitting {env : Env} {n : Node} (h : History env (Fitting env.cr) n) {topic : Topic}
    {r : Record} (hr : r ∈ n.store.topicRecordsSigned topic) :
    Fitting env.cr r ∧ r.topic = topic := by
  obtain ⟨⟨k, hk⟩, hsigned⟩ := mem_topicRecordsWhere.mp hr
  refine ⟨h.slot hk fun hnil => ?_, ?_⟩
  · rw [hnil] at hsigned
    cases hsigned
  · rw [h.store] at hk
    exact congrArg Prod.fst (run_placed _ _ topic k r hk)

theorem History.placed {env : Env} {V : Record → Prop} {n : Node} (h : History env V n)
    (topic : Topic) : Placed topic (n.store.topic topic) := by
  rw [h.store]
  exact run_placed _ _ topic

/-- **A matching root means no drift.** Take two nodes after any runs of frames with any contents,
local calls, ticks and reaps, a topic and a range. Assume that SHA-256 has no collision among what
roots over their signed records hash, that a signature verifies for at most one public key and
message of these records, and that the ids in them have 64 bytes. Then the two roots are equal
exactly when every slot with a node id in the range holds the same signed record in both stores. So
a probe that finds a slot missing or different is never answered by the early return. -/
theorem root_eq_iff_no_drift (env env' : Env) (hcr : env.cr.SignVerifies)
    (hsame : env'.cr = env.cr) (rd rd' : Reading) (configFn configFn' : NodeID → PerPeerConfig)
    (ops ops' : List NodeOp) (n n' : Node) (hn : n = runNode env (newNode rd configFn) ops)
    (hn' : n' = runNode env' (newNode rd' configFn') ops') (topic : Topic)
    (rangeStart rangeEnd : Option Bytes)
    (hhash : env.cr.CollisionFreeOn (rootMessages env.cr (signedRecords topic n.store n'.store)))
    (huniq : env.cr.SignatureUniqueOn (signedMessages (signedRecords topic n.store n'.store)))
    (hid : ∀ r ∈ signedRecords topic n.store n'.store, WideIDs r) :
    (topicMerkleRoot env.cr n.store topic rangeStart rangeEnd =
        topicMerkleRoot env.cr n'.store topic rangeStart rangeEnd ↔
      ∀ k : RecordKey, inRange rangeStart rangeEnd k.nodeID = true →
        n.store.signedView (topic, k) = n'.store.signedView (topic, k)) ∧
    ∀ (now : Reading) (sender : NodeID) (k : RecordKey),
      inRange rangeStart rangeEnd k.nodeID = true →
      n.store.signedView (topic, k) ≠ n'.store.signedView (topic, k) →
      n.handleProbe env now sender topic rangeStart rangeEnd
          (topicMerkleRoot env.cr n'.store topic rangeStart rangeEnd) =
        (n.reciprocate env now sender topic rangeStart rangeEnd).sendRange sender topic
          (Node.rangeReply n.store topic rangeStart rangeEnd).1
          (Node.rangeReply n.store topic rangeStart rangeEnd).2 := by
  have hhist : History env (Fitting env.cr) n := hn ▸ history_fitting hcr rd configFn ops
  have hhist' : History env' (Fitting env'.cr) n' :=
    hn' ▸ history_fitting (hsame ▸ hcr) rd' configFn' ops'
  generalize hS : signedRecords topic n.store n'.store = S at hhash huniq hid
  have hmem : ∀ r ∈ S, Fitting env.cr r ∧ r.topic = topic := by
    rw [← hS]
    rintro r (hr | hr)
    · exact hhist.fitting hr
    · exact hsame ▸ hhist'.fitting hr
  have hpin : EntryPinned S := fun r hr r' hr' _ _ hsig =>
    eq_of_sig_eq huniq hr hr' (hmem r hr).1 (hmem r' hr').1 (hid r hr) (hid r' hr')
      ((hmem r hr).2.trans (hmem r' hr').2.symm) hsig
  have hp := hhist.placed topic
  have hp' := hhist'.placed topic
  have hroot : topicMerkleRoot env.cr n.store topic rangeStart rangeEnd =
        topicMerkleRoot env.cr n'.store topic rangeStart rangeEnd ↔
      ∀ k : RecordKey, inRange rangeStart rangeEnd k.nodeID = true →
        n.store.signedView (topic, k) = n'.store.signedView (topic, k) := by
    rw [← rangeRecords_eq_iff hp hp']
    constructor
    · refine rangeRecords_eq_of_root_eq hhash hpin hp hp' (fun r hr => ?_) fun r hr => ?_
      · exact hS ▸ Or.inl (List.mem_filter.mp hr).1
      · exact hS ▸ Or.inr (List.mem_filter.mp hr).1
    · intro heq
      unfold topicMerkleRoot rootPreimage
      rw [heq]
  refine ⟨hroot, fun now sender k hk hne => ?_⟩
  exact handleProbe_of_ne n env now sender topic _ _ fun heq => hne (hroot.mp heq k hk)

/-- A node that published one record, and a node that holds nothing. -/
def publishedNode : Node :=
  runNode plainEnv (newNode ⟨0, 0⟩ fun _ => {})
    [.publishKeyed ⟨1000000000, 1000000000⟩ [116] [107] [1, 2]]

theorem published_drift_seen :
    topicMerkleRoot .inClear publishedNode.store [116] none (some [0xff]) ≠
      topicMerkleRoot .inClear (newNode ⟨0, 0⟩ fun _ => {}).store [116] none (some [0xff]) := by
  have hlist : publishedNode.store.topicRecordsSigned [116] = [firstRecord] := by decide +kernel
  have hheld : signedRecords [116] publishedNode.store (newNode ⟨0, 0⟩ fun _ => {}).store =
      {firstRecord} := by
    ext r
    show r ∈ publishedNode.store.topicRecordsSigned [116] ∨ r ∈ [] ↔ r = firstRecord
    rw [hlist, List.mem_singleton]
    exact or_iff_left List.not_mem_nil
  have hmessages : ∀ m ∈ [firstRecord.nodeID, firstRecord.sig, [], rootEntry .inClear firstRecord],
      ∀ m' ∈ [firstRecord.nodeID, firstRecord.sig, [], rootEntry .inClear firstRecord],
        checksum m = checksum m' → m = m' := by decide +kernel
  have hdrift := (root_eq_iff_no_drift plainEnv plainEnv Crypto.inClear_signVerifies rfl ⟨0, 0⟩
    ⟨0, 0⟩ (fun _ => {}) (fun _ => {}) _ [] publishedNode (newNode ⟨0, 0⟩ fun _ => {}) rfl rfl [116]
    none (some [0xff])
    (by
      rw [hheld]
      exact fun _ hm _ hm' h =>
        hmessages _ (rootMessages_singleton hm) _ (rootMessages_singleton hm') h)
    (by
      rw [hheld]
      rintro _ ⟨_, rfl, rfl⟩ _ ⟨_, rfl, rfl⟩ _ _ _
      rfl)
    (by
      rw [hheld]
      rintro _ rfl
      exact ⟨by decide +kernel, by decide +kernel⟩)).1
  intro heq
  have hview := hdrift.mp heq (keyOf firstRecord) (by decide +kernel)
  have hslot : publishedNode.store.signedView ([116], keyOf firstRecord) = some firstRecord := by
    decide +kernel
  rw [hslot] at hview
  cases hview

end Swarm
