import Swarm.Authentic
import Swarm.Engine.Calls

/-!
# Honest nodes among adversaries

Any number of honest nodes with key binding on, and an adversary that is the network: it holds
back, repeats and reorders frames, alters them, and makes up frames in the name of any sender, with
records under keys of its own. What it cannot do is sign for an honest node: a record that verifies
under the key of one carries the signing bytes of a record that node did sign.

The bytes determine the record as long as ids have 64 bytes and records stay below 64 KiB
(`same_of_signableBytes`). So whatever runs, the slots of an honest node hold what it signed, in
every honest store, or the tombstone of a quorum (`honest_slots`).

`PublishObserverTombstone` takes any target. For one that is too long the bytes of the attestation
are also those of an owner record of the observer, with a clock and a body that the target spells
out (`attestation_signs_owner_record`).
-/

namespace Swarm

open Codec (beBytes)

/-! ## Reading signed bytes -/

theorem length_signableBytes (r : Record) :
    (signableBytes r).length = 15 + r.topic.length + r.nodeID.length + r.body.length +
      r.pubKey.length + (observerPart r).length := by
  unfold signableBytes ownerPart
  simp only [List.length_append, Codec.length_beBytes, List.length_singleton]
  omega

/-- Short records with ids of 64 bytes are determined by their signing bytes. -/
theorem same_of_signableBytes {r a : Record} (hr : r.nodeID.length = 64)
    (ha : a.nodeID.length = 64) (hpub : r.pubKey.length = a.pubKey.length)
    (hshort : (signableBytes a).length < 2 ^ 16) (h : signableBytes a = signableBytes r) :
    SameSigned r a := by
  have hlena := length_signableBytes a
  have hlenr := length_signableBytes r
  rw [← h] at hlenr
  have hoa := length_observerPart a
  have hor := length_observerPart r
  have htopic : r.topic.length = a.topic.length := by
    have h' := h
    unfold signableBytes ownerPart at h'
    simp only [List.append_assoc] at h'
    exact (Codec.eq_of_beBytes_eq (by omega) (by omega) (List.append_inj h' (by simp)).1).symm
  obtain ⟨-, -, -, -, -, -, hrest⟩ :=
    ownerPart_inj htopic (hr.trans ha.symm) hpub (by omega) (by omega) h.symm
  have hobs := observer_length_of_observerPart (by omega) (by omega) hrest
  exact signed_fields_of_lengths htopic (hr.trans ha.symm) hpub hobs (by omega) (by omega) h.symm

/-! ## The world -/

/-- The public key of a node. -/
def Env.pub (env : Env) : Bytes := env.cr.ed25519Public env.cfg.privKey

/-- The honest nodes, and the records each of them has signed. -/
structure World (I : Type) where
  node : I → Node
  signed : I → List Record

/-- The records passed to the store between two states of a node. -/
def Node.passedSince (n n' : Node) : List Record :=
  ((storeOps n'.trace).drop (storeOps n.trace).length).filterMap fun op =>
    match op with
    | .apply _ r => some r
    | .reap _ _ => none

/-- What verifies under the key of an honest node has the bytes of a record it signed. -/
def Unforged {I : Type} (env : I → Env) (signed : I → List Record) (r : Record) : Prop :=
  ∀ k, r.pubKey = (env k).pub → verifyRecord (env k).cr r r.pubKey = true →
    ∃ a ∈ signed k, signableBytes a = signableBytes r

/-- An honest node acts, or the adversary hands it a frame. -/
inductive WorldStep {I : Type} [DecidableEq I] (env : I → Env) : World I → World I → Prop where
  | act (w : World I) (i : I) (op : NodeOp) (hop : op.remote = false) :
    WorldStep env w
      ⟨Function.update w.node i (op.exec (env i) (w.node i)),
        Function.update w.signed i
          (w.signed i ++ (w.node i).passedSince (op.exec (env i) (w.node i)))⟩
  | deliver (w : World I) (i : I) (rd : Reading) (sender : NodeID) (f : Frame)
    (hf : ∀ r ∈ f.records, Unforged env w.signed r) :
    WorldStep env w
      ⟨Function.update w.node i ((w.node i).onReceive (env i) rd sender f), w.signed⟩

/-- Wired nodes that have signed nothing yet. -/
def World.fresh {I : Type} (rd : I → Reading) (configFn : I → NodeID → PerPeerConfig) :
    World I where
  node i := newNode (rd i) (configFn i)
  signed _ := []

/-! ## Where records come from -/

section Traced

variable {I : Type} {env : I → Env} {w : World I}

/-- A record passed to the store of a node was signed there or let through unforged. -/
def Sourced (env : I → Env) (signed : I → List Record) (i : I) (r : Record) : Prop :=
  r ∈ signed i ∨
    ((∃ nowMs, (env i).gate.letThrough (env i).cr nowMs r = true) ∧ Unforged env signed r)

/-- Every store is a run of calls with sourced records, and what a node signed carries its key. -/
structure Traced (env : I → Env) (w : World I) : Prop where
  store : ∀ i, (w.node i).store = runStore (env i).storeCfg {} (storeOps (w.node i).trace)
  passed : ∀ i nowMs r, StoreOp.apply nowMs r ∈ storeOps (w.node i).trace →
    Sourced env w.signed i r
  own : ∀ i, ∀ a ∈ w.signed i, SignedBy (env i) a

theorem traced_fresh (env : I → Env) (rd : I → Reading) (configFn : I → NodeID → PerPeerConfig) :
    Traced env (World.fresh rd configFn) where
  store _ := rfl
  passed _ _ _ h := (nomatch h)
  own _ _ h := (nomatch h)

theorem Sourced.mono {signed signed' : I → List Record} (hle : ∀ k, signed k ⊆ signed' k) {i : I}
    {r : Record} (h : Sourced env signed i r) : Sourced env signed' i r := by
  refine h.imp (fun hr => hle i hr) fun hin => ⟨hin.1, fun k hpub hver => ?_⟩
  obtain ⟨a, ha, heq⟩ := hin.2 k hpub hver
  exact ⟨a, hle k ha, heq⟩

/-- The calls of a store stay the history of the store. -/
theorem store_exec {e : Env} {n : Node} (h : n.store = runStore e.storeCfg {} (storeOps n.trace))
    (op : NodeOp) :
    (op.exec e n).store = runStore e.storeCfg {} (storeOps (op.exec e n).trace) := by
  have hkept : Kept e (fun _ => True) (History e fun _ => True) :=
    History.kept (fun _ _ _ => trivial) fun _ _ => trivial
  exact (hkept.run [op] ⟨h, fun _ _ _ => trivial⟩).store

theorem mem_passedSince {n n' : Node} {F : Record → Prop} (h : Calls F n n') {r : Record}
    (hr : r ∈ n.passedSince n') : F r := by
  obtain ⟨ops, hops, hF⟩ := h
  unfold Node.passedSince at hr
  rw [hops, List.drop_left] at hr
  obtain ⟨op, hop, heq⟩ := List.mem_filterMap.mp hr
  cases op with
  | apply nowMs x =>
    cases heq
    exact hF nowMs r hop
  | reap => cases heq

theorem passed_or_since {n n' : Node} {F : Record → Prop} (h : Calls F n n') {nowMs : Int64}
    {r : Record} (hr : StoreOp.apply nowMs r ∈ storeOps n'.trace) :
    StoreOp.apply nowMs r ∈ storeOps n.trace ∨ (r ∈ n.passedSince n' ∧ F r) := by
  obtain ⟨ops, hops, hF⟩ := h
  rw [hops] at hr
  refine (List.mem_append.mp hr).imp_right fun hmem => ⟨?_, hF nowMs r hmem⟩
  unfold Node.passedSince
  rw [hops, List.drop_left]
  exact List.mem_filterMap.mpr ⟨_, hmem, rfl⟩

variable [DecidableEq I]

/-- One node moves on, and what was signed before stays signed. -/
theorem Traced.moved (h : Traced env w) (i : I) {n' : Node} {signed' : I → List Record}
    (hle : ∀ k, w.signed k ⊆ signed' k)
    (hstore : n'.store = runStore (env i).storeCfg {} (storeOps n'.trace))
    (hpassed : ∀ nowMs r, StoreOp.apply nowMs r ∈ storeOps n'.trace → Sourced env signed' i r)
    (hown : ∀ j, ∀ a ∈ signed' j, SignedBy (env j) a) :
    Traced env ⟨Function.update w.node i n', signed'⟩ := by
  refine ⟨fun j => ?_, fun j nowMs r hr => ?_, hown⟩
  · by_cases hj : j = i
    · subst hj
      dsimp only
      rwa [Function.update_self]
    · dsimp only
      rw [Function.update_of_ne hj]
      exact h.store j
  · by_cases hj : j = i
    · subst hj
      dsimp only at hr
      rw [Function.update_self] at hr
      exact hpassed nowMs r hr
    · dsimp only at hr
      rw [Function.update_of_ne hj] at hr
      exact (h.passed j nowMs r hr).mono hle

theorem Traced.step {w' : World I} (hid : ∀ i, (env i).id ≠ []) (h : Traced env w)
    (hstep : WorldStep env w w') : Traced env w' := by
  cases hstep with
  | act i op hop =>
    have hcalls := calls_local (hid i) (w.node i) hop
    have hle : ∀ k, w.signed k ⊆ Function.update w.signed i
        (w.signed i ++ (w.node i).passedSince (op.exec (env i) (w.node i))) k := by
      intro k r hr
      by_cases hk : k = i
      · subst hk
        rw [Function.update_self]
        exact List.mem_append_left _ hr
      · rwa [Function.update_of_ne hk]
    refine h.moved i hle (store_exec (h.store i) op) (fun nowMs r hr => ?_) fun j a ha => ?_
    · rcases passed_or_since hcalls hr with hold | ⟨hnew, -⟩
      · exact (h.passed i nowMs r hold).mono hle
      · refine Or.inl ?_
        rw [Function.update_self]
        exact List.mem_append_right _ hnew
    · by_cases hj : j = i
      · subst hj
        rw [Function.update_self, List.mem_append] at ha
        exact ha.elim (h.own j a) (mem_passedSince hcalls)
      · rw [Function.update_of_ne hj] at ha
        exact h.own j a ha
  | deliver i rd sender f hf =>
    have hcalls := calls_onReceive (w.node i) (env i) rd sender f
    refine h.moved i (fun k => List.Subset.refl _) (store_exec (h.store i) (.receive rd sender f))
      (fun nowMs r hr => ?_) h.own
    rcases passed_or_since hcalls hr with hold | ⟨-, hmem, hok⟩
    · exact h.passed i nowMs r hold
    · exact Or.inr ⟨⟨_, hok⟩, hf r hmem⟩

theorem Traced.run {w' : World I} (hid : ∀ i, (env i).id ≠ []) (h : Traced env w)
    (hrun : Relation.ReflTransGen (WorldStep env) w w') : Traced env w' := by
  induction hrun with
  | refl => exact h
  | tail _ hstep ih => exact ih.step hid hstep

end Traced

/-! ## What honest stores hold -/

/-- The nodes share their cryptography, and their ids are bound to keys of their own. -/
structure Bound {I : Type} (cr : Crypto) (env : I → Env) : Prop where
  crypto : ∀ i, (env i).cr = cr
  binding : ∀ i, (env i).cfg.requireNodeKeyBinding = true
  id_eq : ∀ i, (env i).id = nodeIDFromPub (env i).pub
  distinct : ∀ i j, (env i).pub = (env j).pub → i = j

section Bound

variable {I : Type} {cr : Crypto} {env : I → Env} {w : World I} {i j : I} {r : Record}

theorem nodeIDFromPub_inj {p q : Bytes} (h : nodeIDFromPub p = nodeIDFromPub q) : p = q := by
  have hdec := congrArg hexDecode h
  rw [hexDecode_nodeIDFromPub, hexDecode_nodeIDFromPub] at hdec
  exact Option.some.inj hdec

theorem Bound.length_id (hb : Bound cr env) (i : I) : (env i).id.length = 64 := by
  have hpub : (env i).pub.length = 32 := (env i).cr.ed25519Public_length _
  rw [hb.id_eq, length_nodeIDFromPub, hpub]

theorem Bound.id_ne_nil (hb : Bound cr env) (i : I) : (env i).id ≠ [] := by
  intro hnil
  have hlen := hb.length_id i
  rw [hnil] at hlen
  cases hlen

theorem Bound.eq_of_id (hb : Bound cr env) (h : (env i).id = (env j).id) : i = j := by
  rw [hb.id_eq, hb.id_eq] at h
  exact hb.distinct i j (nodeIDFromPub_inj h)

/-- A record let through in the name of an honest node was signed by it. -/
theorem Bound.signed_of_letThrough (hb : Bound cr env) (hw : Traced env w)
    (hplain : ∀ k, ∀ a ∈ w.signed k, a.nodeID.length = 64 ∧ (signableBytes a).length < 2 ^ 16)
    {nowMs : Int64} (hok : (env j).gate.letThrough (env j).cr nowMs r = true)
    (hunf : Unforged env w.signed r) (hname : r.bindID = (env i).id) (hlen : r.nodeID.length = 64) :
    ∃ a ∈ w.signed i, SameSigned r a := by
  obtain ⟨hpub, hsig, hadmit⟩ := letThrough_iff.mp hok
  have hbind := ((gateAdmit_eq_none_iff.mp hadmit).binding (hb.binding j)).2
  have hkey : r.pubKey = (env i).pub := by
    rw [hname, hb.id_eq] at hbind
    exact (nodeIDFromPub_inj hbind).symm
  rw [hb.crypto j, ← hb.crypto i] at hsig
  obtain ⟨a, ha, hbytes⟩ := hunf i hkey hsig
  obtain ⟨halen, hshort⟩ := hplain i a ha
  refine ⟨a, ha, same_of_signableBytes hlen halen ?_ hshort hbytes⟩
  rw [hkey, (hw.own i a ha).pubKey]
  rfl

/-- An owner record of an honest node was signed by it. -/
theorem Bound.owner_signed (hb : Bound cr env) (hw : Traced env w)
    (hplain : ∀ k, ∀ a ∈ w.signed k, a.nodeID.length = 64 ∧ (signableBytes a).length < 2 ^ 16)
    (hsrc : Sourced env w.signed j r) (hown : r.isObserverAttestation = false)
    (hname : r.nodeID = (env i).id) : ∃ a ∈ w.signed i, SameSigned r a := by
  rcases hsrc with hsigned | ⟨⟨nowMs, hok⟩, hunf⟩
  · rcases (hw.own j r hsigned).role with ⟨-, hid⟩ | ⟨hatt, -⟩
    · obtain rfl : i = j := hb.eq_of_id (hname.symm.trans hid)
      exact ⟨r, hsigned, ⟨rfl, rfl, rfl, rfl, rfl, rfl, rfl, rfl, rfl⟩⟩
    · rw [hown] at hatt
      cases hatt
  · refine hb.signed_of_letThrough hw hplain hok hunf ?_ (hname ▸ hb.length_id i)
    unfold Record.bindID
    rwa [if_neg (by rw [hown]; exact Bool.false_ne_true)]

/-- An attestation in the name of an honest node, about an id of 64 bytes, was signed by it. -/
theorem Bound.attestation_signed (hb : Bound cr env) (hw : Traced env w)
    (hplain : ∀ k, ∀ a ∈ w.signed k, a.nodeID.length = 64 ∧ (signableBytes a).length < 2 ^ 16)
    (hsrc : Sourced env w.signed j r) (hatt : r.isObserverAttestation = true)
    (hlen : r.nodeID.length = 64) (hname : r.observerNodeID = (env i).id) :
    ∃ a ∈ w.signed i, SameSigned r a := by
  rcases hsrc with hsigned | ⟨⟨nowMs, hok⟩, hunf⟩
  · rcases (hw.own j r hsigned).role with ⟨hown, -⟩ | ⟨-, hid⟩
    · rw [hatt] at hown
      cases hown
    · obtain rfl : i = j := hb.eq_of_id (hname.symm.trans hid)
      exact ⟨r, hsigned, ⟨rfl, rfl, rfl, rfl, rfl, rfl, rfl, rfl, rfl⟩⟩
  · refine hb.signed_of_letThrough hw hplain hok hunf ?_ hlen
    unfold Record.bindID
    rwa [if_pos hatt]

end Bound

/-- **No forged record, no forged death.** Honest nodes with ids bound to their keys publish,
tombstone, attest, change tenants, tick and reap, in any order and with any frames of the adversary
in between. Provided honest nodes attest ids of 64 bytes and sign less than 64 KiB, a slot of an
honest node in an honest store agrees in every signed field with a record that node signed, or it
holds an unsigned tombstone. In the second case a quorum of distinct observers stands behind it,
each an honest node that signed an attestation of this death on this topic, or an identity of the
adversary that the role check accepts. -/
theorem honest_slots {I : Type} [DecidableEq I] (cr : Crypto) (env : I → Env)
    (hb : Bound cr env) (rd : I → Reading) (configFn : I → NodeID → PerPeerConfig) (w : World I)
    (hrun : Relation.ReflTransGen (WorldStep env) (World.fresh rd configFn) w)
    (hplain : ∀ k, ∀ a ∈ w.signed k, a.nodeID.length = 64 ∧ (signableBytes a).length < 2 ^ 16)
    (i j : I) (topic : Topic) (key : Bytes) (r : Record)
    (hr : (w.node j).store.getRawKeyed topic (env i).id key = some r) :
    (∃ a ∈ w.signed i, SameSigned r a) ∨
      (r.sig = [] ∧ r.tombstone = true ∧ ∃ O : Finset NodeID,
        (env j).storeCfg.observerQuorum ≤ O.card ∧ ∀ o ∈ O,
          (∃ k, o = (env k).id ∧ ∃ a ∈ w.signed k, a.isObserverAttestation = true ∧
            a.topic = topic ∧ a.nodeID = (env i).id) ∨
          ((∀ k, o ≠ (env k).id) ∧ ∃ pub, (env j).storeCfg.roleOk o pub = true)) := by
  have hw := (traced_fresh env rd configFn).run hb.id_ne_nil hrun
  rw [← slotView_eq_getRawKeyed, hw.store j] at hr
  have hname : r.nodeID = (env i).id :=
    congrArg (fun slot : Topic × RecordKey => slot.2.nodeID) (run_placed _ _ topic _ r hr)
  rcases (run_quorumInv _ _ topic).slots _ r hr with ⟨nowMs, hmem, hown⟩ | ⟨hnil, htomb, hback⟩
  · exact Or.inl (hb.owner_signed hw hplain (hw.passed j nowMs r hmem) hown hname)
  · refine Or.inr ⟨hnil, htomb, ?_⟩
    obtain ⟨W, hlen, hnodup, hwit, -⟩ := hback
    refine ⟨(W.map Record.observerNodeID).toFinset, ?_, fun o ho => ?_⟩
    · rwa [List.toFinset_card_of_nodup hnodup, List.length_map]
    · obtain ⟨a, ha, rfl⟩ := List.mem_map.mp (List.mem_toFinset.mp ho)
      obtain ⟨⟨⟨ms, hmem, -⟩, hatt, htopic, htarget, hrole⟩, -⟩ := hwit a ha
      by_cases hhonest : ∃ k, a.observerNodeID = (env k).id
      · obtain ⟨k, hk⟩ := hhonest
        obtain ⟨b, hbk, hsame⟩ := hb.attestation_signed hw hplain (hw.passed j ms a hmem) hatt
          (htarget ▸ hb.length_id i) hk
        refine Or.inl ⟨k, hk, b, hbk, ?_, hsame.topic.symm.trans htopic,
          hsame.nodeID.symm.trans htarget⟩
        unfold Record.isObserverAttestation at hatt ⊢
        rwa [← hsame.tombstone, ← hsame.observerNodeID]
      · exact Or.inr ⟨fun k hk => hhonest ⟨k, hk⟩, _, hrole⟩

/-! ### Two nodes and a copied push -/

/-- Two bound nodes, with the keys of sixty-four sevens and of sixty-four nines. -/
def pairEnv (b : Bool) : Env :=
  if b then boundEnv
  else
    { boundEnv with
      cfg := { boundConfig with privKey := List.replicate 64 9 }.withDefaults .inClear }

theorem pair_bound : Bound .inClear pairEnv where
  crypto i := by cases i <;> rfl
  binding i := by cases i <;> rfl
  id_eq i := by cases i <;> rfl
  distinct := by decide

/-- The second node publishes a record. -/
def pairTold : World Bool where
  node := Function.update (World.fresh (fun _ => ⟨0, 0⟩) fun _ _ => {}).node false
    ((NodeOp.publishKeyed ⟨1000000000, 1000000000⟩ [116] [107] [1, 2]).exec (pairEnv false)
      (newNode ⟨0, 0⟩ fun _ => {}))
  signed := Function.update (fun _ => []) false
    ([] ++ (newNode ⟨0, 0⟩ fun _ => {}).passedSince
      ((NodeOp.publishKeyed ⟨1000000000, 1000000000⟩ [116] [107] [1, 2]).exec (pairEnv false)
        (newNode ⟨0, 0⟩ fun _ => {})))

/-- The record it published. -/
def pairRecord : Record :=
  signRecord .inClear
    { topic := [116], nodeID := (pairEnv false).id, key := [107], hlc := 65536000, body := [1, 2] }
    (List.replicate 64 9)

/-- A copy of the push reaches the first node. -/
def pairHeard : World Bool where
  node := Function.update pairTold.node true
    ((pairTold.node true).onReceive (pairEnv true) ⟨2000000000, 2000000000⟩ [1]
      (frameEagerPush pairRecord 8))
  signed := pairTold.signed

theorem pair_signed : pairHeard.signed false = [pairRecord] ∧ pairHeard.signed true = [] := by
  decide +kernel

theorem pair_run : Relation.ReflTransGen (WorldStep pairEnv)
    (World.fresh (fun _ => ⟨0, 0⟩) fun _ _ => {}) pairHeard := by
  have htold : WorldStep pairEnv (World.fresh (fun _ => ⟨0, 0⟩) fun _ _ => {}) pairTold :=
    .act _ false (.publishKeyed ⟨1000000000, 1000000000⟩ [116] [107] [1, 2]) rfl
  refine .tail (.single htold) (.deliver pairTold true ⟨2000000000, 2000000000⟩ [1] _ ?_)
  intro r hr k hpub hver
  cases List.mem_singleton.mp hr
  cases k with
  | true => exact absurd hpub (by decide)
  | false =>
    refine ⟨pairRecord, ?_, rfl⟩
    rw [show pairTold.signed false = [pairRecord] from pair_signed.1]
    exact List.mem_singleton_self _

/-- The first node holds a record of the second one, which that one signed. -/
theorem pair_slot_signed :
    (pairHeard.node true).store.getRawKeyed [116] (pairEnv false).id [107] = some pairRecord ∧
    ∃ a ∈ pairHeard.signed false, SameSigned pairRecord a := by
  have hslot : (pairHeard.node true).store.getRawKeyed [116] (pairEnv false).id [107] =
      some pairRecord := by decide +kernel
  have hplain : ∀ k, ∀ a ∈ pairHeard.signed k,
      a.nodeID.length = 64 ∧ (signableBytes a).length < 2 ^ 16 := by
    intro k a ha
    cases k with
    | true =>
      rw [pair_signed.2] at ha
      cases ha
    | false =>
      rw [pair_signed.1] at ha
      cases List.mem_singleton.mp ha
      decide +kernel
  refine ⟨hslot, ?_⟩
  exact (honest_slots .inClear pairEnv pair_bound (fun _ => ⟨0, 0⟩) (fun _ _ => {}) pairHeard
    pair_run hplain false true [116] [107] pairRecord hslot).resolve_right
    fun h => absurd h.1 (by decide +kernel)

/-! ## A target that is too long -/

/-- A target that spells out an owner record: the id of the observer, a clock, no tombstone, and a
body that goes on into the clock of the attestation. -/
def spelledTarget (id : NodeID) (hlc : UInt64) (body : Bytes) : NodeID :=
  id ++ (beBytes 8 hlc.toNat ++ ([0] ++ (beBytes 4 (body.length + 13) ++ body)))

/-- The owner record it spells out, under the clock and the reading of the attestation. -/
def spelledRecord (topic : Topic) (id : NodeID) (hlc : UInt64) (body pubKey sig : Bytes)
    (stamp : UInt64) (observedAtUnixMs : Int64) : Record :=
  { topic := topic, nodeID := id, hlc := hlc
    body := body ++ (beBytes 8 stamp.toNat ++ ([1] ++ beBytes 4 0)), pubKey := pubKey, sig := sig
    observerNodeID := id, observedAtUnixMs := observedAtUnixMs }

/-- Attestation and owner record have the same signing bytes. -/
theorem signableBytes_spelled (topic : Topic) (id : NodeID) (hlc stamp : UInt64)
    (body pubKey sig : Bytes) (observedAtUnixMs : Int64) :
    signableBytes (spelledRecord topic id hlc body pubKey sig stamp observedAtUnixMs) =
      signableBytes
        { topic := topic, nodeID := spelledTarget id hlc body, hlc := stamp, tombstone := true
          pubKey := pubKey, observerNodeID := id, observedAtUnixMs := observedAtUnixMs } := by
  have hlen : (body ++ (beBytes 8 stamp.toNat ++ ([1] ++ beBytes 4 0))).length =
      body.length + 13 := by
    simp only [List.length_append, Codec.length_beBytes, List.length_singleton]
  unfold signableBytes ownerPart observerPart spelledRecord spelledTarget
  dsimp only
  rw [hlen]
  simp only [List.append_assoc, Bool.false_eq_true, if_false, if_true, List.length_nil,
    List.nil_append]

/-- The attestation of a target that is not empty and not the node itself is passed to its store. -/
theorem attestation_passed {env : Env} {n : Node} (hopen : n.stopped = false) (rd : Reading)
    (topic : Topic) {target : NodeID} (hnil : target ≠ []) (hself : target ≠ env.id) :
    StoreOp.apply rd.nowMs
        (signRecord env.cr
          { topic := topic, nodeID := target, hlc := (n.stamp rd).hlc, tombstone := true
            observerNodeID := env.id, observedAtUnixMs := rd.nowMs } env.cfg.privKey) ∈
      storeOps (n.publishObserverTombstone env rd topic target).2.trace := by
  unfold Node.publishObserverTombstone
  rw [hopen, if_neg Bool.false_ne_true, if_neg (not_or.mpr ⟨hnil, hself⟩)]
  dsimp only
  generalize signRecord env.cr _ env.cfg.privKey = a
  have hcalm : Calm env (fun _ => True) fun m : Node =>
      StoreOp.apply rd.nowMs a ∈ storeOps m.trace :=
    .of_core
      (fun dst f _ h => by
        rw [Node.send, storeOps_append]
        exact List.mem_append_left _ h)
      fun h hcore => by rwa [hcore.trace]
  have happ : StoreOp.apply rd.nowMs a ∈ storeOps ((n.stamp rd).applyExt env rd a).2.trace := by
    unfold Node.applyExt
    dsimp only
    rw [storeOps_append]
    exact List.mem_append_right _ List.mem_cons_self
  unfold Node.applyAndBroadcast
  dsimp only
  split_ifs
  · refine hcalm.broadcast rd (fun _ => .push trivial) ?_
    rw [Node.accept, storeOps_append]
    exact List.mem_append_left _ happ
  · exact hcalm.broadcast rd (fun _ => .push trivial) happ

/-- **An attestation of a long target signs an owner record.** For every clock value and body there
is a target for which `PublishObserverTombstone` makes the node sign bytes that are also those of an
owner record of the node, with that clock and with a body that starts with that body and goes on for
13 bytes. Under the signature of the attestation the record passes `VerifyRecord`, and every gate
without a trust check whose size and clock limits it meets lets it through, key binding or not. -/
theorem attestation_signs_owner_record (env : Env) (hcr : env.cr.SignVerifies)
    (hid : env.id = nodeIDFromPub env.pub) (n : Node) (hopen : n.stopped = false) (rd : Reading)
    (topic : Topic) (hlc : UInt64) (body : Bytes) :
    ∃ target a r, StoreOp.apply rd.nowMs a ∈
        storeOps (n.publishObserverTombstone env rd topic target).2.trace ∧
      a.isObserverAttestation = true ∧ signableBytes r = signableBytes a ∧ r.sig = a.sig ∧
      r.isObserverAttestation = false ∧ r.topic = topic ∧ r.nodeID = env.id ∧ r.hlc = hlc ∧
      (∃ rest, r.body = body ++ rest ∧ rest.length = 13) ∧ VerifyRecord env.cr r = true ∧
      ∀ (g : InboundGate) (nowMs : Int64), g.trustCheck = none →
        (0 < g.maxBytes → (body.length : ℤ) + 13 ≤ g.maxBytes) →
        (decompose hlc).1 ≤ nowMs.toUInt64 + g.maxSkew.milliseconds.toUInt64 →
        g.letThrough env.cr nowMs r = true := by
  have hlen : env.id.length = 64 := by
    rw [hid, length_nodeIDFromPub, show env.pub.length = 32 from env.cr.ed25519Public_length _]
  have htarget : (spelledTarget env.id hlc body).length = 77 + body.length := by
    unfold spelledTarget
    simp only [List.length_append, Codec.length_beBytes, List.length_singleton, hlen]
    omega
  obtain ⟨a, ha⟩ : ∃ a, a = signRecord env.cr
      { topic := topic, nodeID := spelledTarget env.id hlc body, hlc := (n.stamp rd).hlc
        tombstone := true, observerNodeID := env.id, observedAtUnixMs := rd.nowMs }
      env.cfg.privKey := ⟨_, rfl⟩
  obtain ⟨r, hr⟩ : ∃ r, r = spelledRecord topic env.id hlc body env.pub a.sig (n.stamp rd).hlc
      rd.nowMs := ⟨_, rfl⟩
  have hpub : r.pubKey.length = 32 := by
    rw [hr]
    exact env.cr.ed25519Public_length _
  have hbytes : signableBytes r = signableBytes a := by
    rw [hr, signableBytes_spelled, ha]
    rfl
  have hsig : r.sig = a.sig := by
    rw [hr]
    rfl
  have hver : verifyRecord env.cr r r.pubKey = true := by
    have hsigned : verifyRecord env.cr a r.pubKey = true := by
      rw [ha, hr]
      exact verifyRecord_signRecord hcr _ env.cfg.privKey
    unfold verifyRecord at hsigned ⊢
    rw [hbytes, hsig]
    exact hsigned
  have hown : r.isObserverAttestation = false := by
    rw [hr]
    rfl
  have hnode : r.nodeID = nodeIDFromPub r.pubKey := by
    rw [hr]
    exact hid
  have hbind : r.bindID = nodeIDFromPub r.pubKey := by
    unfold Record.bindID
    rwa [if_neg (by rw [hown]; exact Bool.false_ne_true)]
  have hbody : r.body = body ++ (beBytes 8 (n.stamp rd).hlc.toNat ++ ([1] ++ beBytes 4 0)) := by
    rw [hr]
    rfl
  refine ⟨spelledTarget env.id hlc body, a, r, ?_, ?_, hbytes, hsig, hown, by rw [hr]; rfl,
    by rw [hr]; rfl, by rw [hr]; rfl, ⟨_, hbody, ?_⟩, VerifyRecord_of_bound hpub hnode hver,
    fun g nowMs htrust hfits hskew => ?_⟩
  · rw [ha]
    refine attestation_passed hopen rd topic (fun hnil => ?_) fun hself => ?_
    · rw [hnil] at htarget
      simp at htarget
      omega
    · rw [hself, hlen] at htarget
      omega
  · have hobs : env.id ≠ [] := fun hnil => by
      rw [hnil] at hlen
      cases hlen
    rw [ha]
    show (true && (env.id != [])) = true
    simpa using hobs
  · simp only [List.length_append, Codec.length_beBytes, List.length_singleton]
  · refine letThrough_iff.mpr ⟨hpub, hver, gateAdmit_eq_none_iff.mpr ⟨?_, fun hpos => ?_, ?_,
      fun _ => ⟨hpub, hbind⟩, fun check hcheck => ?_⟩⟩
    · rw [hr]
      exact Nat.zero_le _
    · have hfit := hfits hpos
      rw [hbody]
      simp only [List.length_append, Codec.length_beBytes, List.length_singleton]
      push_cast
      omega
    · rw [hr]
      exact hskew
    · rw [htrust] at hcheck
      cases hcheck

/-- The bound node of sixty-four sevens attests such a target before anything else. -/
theorem bound_attestation_signs_owner_record :
    ∃ target a r,
      StoreOp.apply 0 a ∈ storeOps ((newNode ⟨0, 0⟩ fun _ => {}).publishObserverTombstone
        boundEnv ⟨0, 0⟩ [116] target).2.trace ∧
      signableBytes r = signableBytes a ∧ r.sig = a.sig ∧ r.isObserverAttestation = false ∧
      r.nodeID = boundEnv.id ∧
      (∃ rest, r.body = [1, 2] ++ rest) ∧ VerifyRecord .inClear r = true ∧
      boundEnv.gate.letThrough .inClear 0 r = true := by
  obtain ⟨target, a, r, hpassed, -, hbytes, hsig, hown, -, hid, -, ⟨rest, hbody, -⟩, hver, hgate⟩ :=
    attestation_signs_owner_record boundEnv Crypto.inClear_signVerifies rfl
      (newNode ⟨0, 0⟩ fun _ => {}) rfl ⟨0, 0⟩ [116] 65536 [1, 2]
  exact ⟨target, a, r, hpassed, hbytes, hsig, hown, hid, ⟨rest, hbody⟩, hver,
    hgate boundEnv.gate 0 rfl (by decide) (by decide)⟩

end Swarm
