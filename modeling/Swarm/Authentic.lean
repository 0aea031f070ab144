import Swarm.Engine.History
import Swarm.Store.Quorum

/-!
# Authenticity of the store under key binding

With `RequireNodeKeyBinding` and an id derived from the key, the gate ties the author of an owner
record to its embedded key by encoding the key, while the exported `VerifyRecord` decodes the id.
Both agree (`pubFromNodeID_nodeIDFromPub`), so every owner record that reaches the store, off the
wire or from a local call, passes `VerifyRecord`. What else is found in a slot was put there by the
observer quorum.
-/

namespace Swarm

/-- What may be passed to the store: attestations, and owner records anyone can verify. -/
def Authentic (cr : Crypto) (r : Record) : Prop :=
  r.isObserverAttestation = true ∨ (r.sig ≠ [] ∧ VerifyRecord cr r = true)

section Bound

variable {env : Env}

/-- A record bound to its key is authentic. -/
theorem authentic_of_bound {cr : Crypto} {r : Record} (hpub : r.pubKey.length = 32)
    (hid : r.bindID = nodeIDFromPub r.pubKey) (hsig : verifyRecord cr r r.pubKey = true) :
    Authentic cr r := by
  unfold Record.bindID at hid
  split_ifs at hid with hatt
  · exact Or.inl hatt
  · exact Or.inr ⟨sig_ne_nil_of_verify hsig, VerifyRecord_of_bound hpub hid hsig⟩

theorem authentic_of_letThrough (hbind : env.cfg.requireNodeKeyBinding = true) {nowMs : Int64}
    {r : Record} (h : env.gate.letThrough env.cr nowMs r = true) : Authentic env.cr r := by
  obtain ⟨hpub, hsig, hadmit⟩ := letThrough_iff.mp h
  exact authentic_of_bound hpub ((gateAdmit_eq_none_iff.mp hadmit).binding hbind).2 hsig

/-- What the node signs for itself is bound to its key. -/
theorem authentic_signRecord (hcr : env.cr.SignVerifies)
    (hid : env.id = nodeIDFromPub (env.cr.ed25519Public env.cfg.privKey)) {r : Record}
    (hr : r.nodeID = env.id ∨ (r.tombstone = true ∧ r.observerNodeID = env.id)) :
    Authentic env.cr (signRecord env.cr r env.cfg.privKey) := by
  have hpub := env.cr.ed25519Public_length env.cfg.privKey
  have hsig := verifyRecord_signRecord hcr r env.cfg.privKey
  rcases hr with hown | ⟨htomb, hobs⟩
  · by_cases hatt : r.isObserverAttestation = true
    · exact Or.inl hatt
    · exact Or.inr ⟨sig_ne_nil_of_verify hsig, VerifyRecord_of_bound hpub (hown.trans hid) hsig⟩
  · have hne : env.id ≠ [] := fun hnil => by
      have hlen := length_nodeIDFromPub (env.cr.ed25519Public env.cfg.privKey)
      rw [← hid, hnil, hpub] at hlen
      cases hlen
    refine Or.inl ?_
    show (r.tombstone && r.observerNodeID != []) = true
    rw [htomb, hobs]
    simpa using hne

/-- After every run, the store is a run of calls with authentic records. -/
theorem history_authentic (hcr : env.cr.SignVerifies)
    (hid : env.id = nodeIDFromPub (env.cr.ed25519Public env.cfg.privKey))
    (hbind : env.cfg.requireNodeKeyBinding = true) (rd : Reading)
    (configFn : NodeID → PerPeerConfig) (ops : List NodeOp) :
    History env (Authentic env.cr) (runNode env (newNode rd configFn) ops) :=
  (History.kept (fun _ _ => authentic_of_letThrough hbind)
    fun _ => authentic_signRecord hcr hid).run ops ⟨rfl, fun _ _ h => (nomatch h)⟩

end Bound

/-- **Authenticity.** For a node with an id derived from its key and key binding on, after every
run of frames with any contents, local calls, ticks and reaps, the record of a slot is signed and
passes `VerifyRecord`, or is an unsigned tombstone backed by a quorum of distinct observers. -/
theorem slot_authentic (cr : Crypto) (encodedLen : Frame → ℕ) (storeCfg : StoreConfig)
    (localID : NodeID) (cfg : Config) (env : Env) (hcr : cr.SignVerifies)
    (hnew : newEnv cr encodedLen storeCfg localID cfg = some env) (hid : cfg.nodeID = [])
    (hbind : cfg.requireNodeKeyBinding = true) (rd : Reading) (configFn : NodeID → PerPeerConfig)
    (ops : List NodeOp) (topic : Topic) (node : NodeID) (key : Bytes) (r : Record)
    (hr : (runNode env (newNode rd configFn) ops).store.getRawKeyed topic node key = some r) :
    (r.sig ≠ [] ∧ VerifyRecord cr r = true) ∨
      (r.sig = [] ∧ r.tombstone = true ∧
        Backed env.storeCfg (storeOps (runNode env (newNode rd configFn) ops).trace) topic node
          r.hlc) := by
  obtain ⟨rfl, hcfg⟩ := newEnv_eq_some hnew
  have hself : env.id = nodeIDFromPub (env.cr.ed25519Public env.cfg.privKey) := by
    unfold Env.id
    rw [hcfg]
    exact if_pos hid
  have hhist := history_authentic hcr hself (by rw [hcfg]; exact hbind) rd configFn ops
  rw [hhist.store, ← slotView_eq_getRawKeyed] at hr
  rcases (run_quorumInv _ _ topic).slots _ r hr with ⟨nowMs, hmem, hown⟩ | hback
  · rcases hhist.calls nowMs r hmem with hatt | hver
    · rw [hown] at hatt
      cases hatt
    · exact Or.inl hver
  · exact Or.inr hback

/-- A node bound to the key of sixty-four sevens, with signatures in the clear. -/
def boundConfig : Config := { privKey := List.replicate 64 7, requireNodeKeyBinding := true }

def boundEnv : Env where
  cr := .inClear
  encodedLen _ := 0
  cfg := boundConfig.withDefaults .inClear
  storeCfg := plainEnv.storeCfg.setCaps 0 0 0 0
  localID := [7]

/-- It publishes a record, then receives one that claims its id under another key. -/
def boundOps : List NodeOp :=
  [.publishKeyed ⟨1000000000, 1000000000⟩ [116] [107] [1, 2],
    .receive ⟨2000000000, 2000000000⟩ [1]
      (frameEagerPush
        (signRecord .inClear
          { topic := [116], nodeID := boundEnv.id, key := [107], hlc := 70000000, body := [6] }
          (List.replicate 64 9))
        8)]

/-- The record it published. -/
def boundOwn : Record :=
  signRecord .inClear
    { topic := [116], nodeID := boundEnv.id, key := [107], hlc := 65536000, body := [1, 2] }
    boundConfig.privKey

theorem boundOps_authentic :
    newEnv .inClear (fun _ => 0) {} [7] boundConfig = some boundEnv ∧
    (runNode boundEnv (newNode ⟨0, 0⟩ fun _ => {}) boundOps).store.getRawKeyed [116] boundEnv.id
      [107] = some boundOwn ∧
    boundOwn.sig ≠ [] ∧ VerifyRecord .inClear boundOwn = true := by
  have hslot : (runNode boundEnv (newNode ⟨0, 0⟩ fun _ => {}) boundOps).store.getRawKeyed [116]
      boundEnv.id [107] = some boundOwn := by decide +kernel
  refine ⟨rfl, hslot, ?_⟩
  exact (slot_authentic .inClear (fun _ => 0) {} [7] boundConfig boundEnv
    Crypto.inClear_signVerifies rfl rfl rfl ⟨0, 0⟩ (fun _ => {}) boundOps [116] boundEnv.id [107]
    boundOwn hslot).resolve_right fun h => absurd h.1 (by decide)

end Swarm
