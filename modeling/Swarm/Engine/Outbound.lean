import Swarm.Engine.History
import Swarm.Engine.Pages
import Swarm.Store.Quorum

/-!
# What a node sends can be verified

A node pushes records it just signed or just let through the gate, answers grafts and probes from
the signed slots of its store, and appends kept attestations to a reply. Slots and witnesses come
from the calls in the trace (`run_quorumInv`), and the records of these calls were verified on the
way in or signed here (`History`). What else is in a slot, a synthesised tombstone, carries no
signature, and every path out of the store asks for one.
-/

namespace Swarm

/-- A 32-byte key is embedded and the signature verifies under it. -/
def Verifiable (cr : Crypto) (r : Record) : Prop :=
  r.pubKey.length = 32 ∧ verifyRecord cr r r.pubKey = true

theorem Verifiable.sig_ne_nil {cr : Crypto} {r : Record} (h : Verifiable cr r) : r.sig ≠ [] :=
  sig_ne_nil_of_verify h.2

/-! ## Out of the store -/

theorem mem_topicAttestations {s : RecordStore} {t : Topic} {r : Record} :
    r ∈ s.topicAttestations t ↔ ∃ target o, ((s.topic t).witnesses target).lookup o = some r := by
  unfold RecordStore.topicAttestations RecordStore.topic TopicStore.witnesses
  cases s.byTopic.lookup t with
  | none =>
    simp only [List.not_mem_nil, false_iff, Option.getD_none]
    rintro ⟨target, o, h⟩
    cases h
  | some ts =>
    rw [SortSlice.mem_iff, List.mem_flatMap, Option.getD_some]
    constructor
    · rintro ⟨set, hset, hr⟩
      obtain ⟨target, htarget⟩ := FMap.mem_values.mp hset
      obtain ⟨o, ho⟩ := FMap.mem_values.mp hr
      exact ⟨target, o, by rw [htarget]; exact ho⟩
    · rintro ⟨target, o, ho⟩
      cases hset : ts.attestations.lookup target with
      | none =>
        rw [hset] at ho
        cases ho
      | some set =>
        rw [hset] at ho
        exact ⟨set, FMap.mem_values.mpr ⟨target, hset⟩, FMap.mem_values.mpr ⟨o, ho⟩⟩

section History

variable {env : Env} {V : Record → Prop} {n : Node}

/-- The record of a signed slot was passed to the store. -/
theorem History.slot (h : History env V n) {t : Topic} {k : RecordKey} {r : Record}
    (hr : n.store.slotView (t, k) = some r) (hsig : r.sig ≠ []) : V r := by
  rw [h.store] at hr
  rcases (run_quorumInv _ _ t).slots k r hr with ⟨nowMs, hmem, -⟩ | ⟨hnil, -⟩
  · exact h.calls nowMs r hmem
  · exact absurd hnil hsig

/-- A kept attestation was passed to the store. -/
theorem History.attestation (h : History env V n) {t : Topic} {r : Record}
    (hr : r ∈ n.store.topicAttestations t) : V r := by
  obtain ⟨target, o, ho⟩ := mem_topicAttestations.mp hr
  rw [h.store] at ho
  obtain ⟨nowMs, hmem, -⟩ := ((run_quorumInv _ _ t).kept target o r ho).2.passed
  exact h.calls nowMs r hmem

/-- The records of a frame a node may send were passed to its store or are pushed as such. -/
theorem History.sendable (h : History env V n) {f : Frame} (hf : Sendable V n.store f) :
    ∀ r ∈ f.records, V r := by
  intro r hr
  cases hf with
  | push hV =>
    cases List.mem_singleton.mp hr
    exact hV
  | slot hslot hsig =>
    cases List.mem_singleton.mp hr
    rw [← slotView_eq_getRawKeyed] at hslot
    exact h.slot hslot fun hnil => hsig (by rw [hnil]; rfl)
  | reply =>
    rcases mem_rangeReply hr with hrange | hatt
    · obtain ⟨⟨k, hk⟩, hsigned, -⟩ := mem_rangeRecords.mp hrange
      refine h.slot hk fun hnil => ?_
      unfold signed at hsigned
      rw [hnil] at hsigned
      cases hsigned
    · exact h.attestation hatt
  | plain hnone =>
    rw [hnone] at hr
    cases hr

end History

/-! ## Runs -/

/-- Every record sent so far is in `V`. -/
def SentOnly (V : Record → Prop) (n : Node) : Prop := ∀ e ∈ sends n.trace, ∀ r ∈ e.2.records, V r

theorem SentOnly.frame {V : Record → Prop} {n n' : Node} (h : SentOnly V n)
    (htrace : sends n'.trace = sends n.trace) : SentOnly V n' := by
  unfold SentOnly
  rw [htrace]
  exact h

/-- A node whose calls pass only records in `V` sends only records in `V`. -/
theorem sentOnly_kept {env : Env} {V : Record → Prop}
    (hin : ∀ rd r, env.gate.letThrough env.cr (Reading.wallMs rd) r = true → V r)
    (hsigned : ∀ r : Record, r.nodeID = env.id ∨ (r.tombstone = true ∧ r.observerNodeID = env.id) →
      V (signRecord env.cr r env.cfg.privKey)) :
    Kept env V fun n => History env V n ∧ SentOnly V n where
  toCalm := .of_core
    (fun dst f hf h => by
      refine ⟨(History.kept hin hsigned).send dst hf h.1, ?_⟩
      intro e he r hr
      rw [Node.send, sends_append, List.mem_append] at he
      rcases he with hold | hnew
      · exact h.2 e hold r hr
      · cases List.mem_singleton.mp hnew
        exact h.1.sendable hf r hr)
    (fun h hcore => ⟨h.1.frame hcore.store (congrArg storeOps hcore.trace),
      h.2.frame (congrArg sends hcore.trace)⟩)
  inbound := hin
  signed := hsigned
  apply rd r hr h := ⟨(History.kept hin hsigned).apply rd r hr h.1,
    h.2.frame (by simp [Node.applyExt, sends_append, sends])⟩
  reap nowMs ttlFor h := ⟨(History.kept hin hsigned).reap nowMs ttlFor h.1,
    h.2.frame (by simp [Node.reapExpired, sends_append, sends])⟩
  accept r h := ⟨(History.kept hin hsigned).accept r h.1,
    h.2.frame (by simp [Node.accept, sends_append, sends])⟩
  clock w h := ⟨(History.kept hin hsigned).clock w h.1, h.2⟩

/-- **Only verifiable records travel.** After every run of frames with any contents, local calls,
ticks and reaps, every record in every frame the node sent embeds a 32-byte key and carries a
signature that verifies under it. No synthesised tombstone, which has no signature, was sent. -/
theorem sent_records_verify (env : Env) (hcr : env.cr.SignVerifies) (rd : Reading)
    (configFn : NodeID → PerPeerConfig) (ops : List NodeOp) (dst : NodeID) (f : Frame)
    (hsent : (dst, f) ∈ sends (runNode env (newNode rd configFn) ops).trace) :
    ∀ r ∈ f.records, r.pubKey.length = 32 ∧ verifyRecord env.cr r r.pubKey = true ∧ r.sig ≠ [] := by
  have hkept : Kept env (Verifiable env.cr) fun n =>
      History env (Verifiable env.cr) n ∧ SentOnly (Verifiable env.cr) n :=
    sentOnly_kept (fun rd r h => ⟨(letThrough_iff.mp h).1, (letThrough_iff.mp h).2.1⟩)
      (fun r _ => ⟨env.cr.ed25519Public_length _, verifyRecord_signRecord hcr r _⟩)
  have hrun := hkept.run (n := newNode rd configFn) ops
    ⟨⟨rfl, fun _ _ h => (nomatch h)⟩, fun _ h => (nomatch h)⟩
  intro r hr
  have hV : Verifiable env.cr r := hrun.2 (dst, f) hsent r hr
  exact ⟨hV.1, hV.2, hV.sig_ne_nil⟩

/-- The record a node signs when it publishes at one second. -/
def firstRecord : Record :=
  signRecord .inClear
    { topic := [116], nodeID := plainEnv.id, key := [107], hlc := packHLC 1000 0, body := [1, 2] }
    plainEnv.cfg.privKey

/-- A node with one peer pushes the record it published, and the record verifies. -/
theorem pushed_record_verifies :
    ([1], frameEagerPush firstRecord 8) ∈ sends (runNode plainEnv (newNode ⟨0, 0⟩ fun _ => {})
      [.join [1], .publishKeyed ⟨1000000000, 1000000000⟩ [116] [107] [1, 2]]).trace ∧
    verifyRecord .inClear firstRecord firstRecord.pubKey = true := by
  have hsent : ([1], frameEagerPush firstRecord 8) ∈
      sends (runNode plainEnv (newNode ⟨0, 0⟩ fun _ => {})
        [.join [1], .publishKeyed ⟨1000000000, 1000000000⟩ [116] [107] [1, 2]]).trace := by
    decide +kernel
  exact ⟨hsent, (sent_records_verify plainEnv Crypto.inClear_signVerifies ⟨0, 0⟩ (fun _ => {}) _ [1]
    (frameEagerPush firstRecord 8) hsent firstRecord List.mem_cons_self).2.1⟩

end Swarm
