import Swarm.Engine.OwnWrites
import Swarm.Lib.Marshal

/-!
# The holder index

`Announce`, `Withdraw`, `onAdvertRecord` and `Holders` of `content_impl.go`. Every advert of a node
is published under the empty key of the advert topic, so the store keeps one advert of a node: that
of its last call (`run_advertises`). A peer that subscribes later replays what its store keeps and
learns that one only, and the adverts for other hashes are lost to it. `holders_follow` says when
the index of such a peer is nevertheless what the calls say.
-/

namespace Swarm

/-- A `[32]byte`. -/
abbrev Digest : Type := { b : Bytes // b.length = 32 }

/-- The message `ContentAdvert`; its manifest flag and inner signature are never set or read. -/
structure ContentAdvert where
  hash : Bytes
  holder : Bytes
  expiresAt : Int64
  size : UInt32
  deriving DecidableEq

/-- `topicContentAdvert`, which is `fleet.content.advert`. -/
def topicContentAdvert : Topic :=
  [102, 108, 101, 101, 116, 46, 99, 111, 110, 116, 101, 110, 116, 46, 97, 100, 118, 101, 114, 116]

/-- `advertTTL`. -/
def advertTTL : Duration := 6 * (60 * minute)

/-! ## The calls -/

/-- What `Announce` and `Withdraw` may return. -/
inductive AdvertError where
  | marshal
  | publish (err : PublishError)
  deriving DecidableEq

/-- `provider.Size`, where a provider is set. -/
abbrev SizeFn : Type := Option (Digest → Option UInt32)

/-- A call of `Announce` or `Withdraw` at a reading of the clocks. -/
structure AdvertCall where
  announces : Bool
  rd : Reading
  hash : Digest

/-- The advert a call publishes: it expires after the time to live, or is expired already. -/
def AdvertCall.advert (env : Env) (size : SizeFn) (c : AdvertCall) : ContentAdvert :=
  if c.announces then
    { hash := c.hash.1, holder := env.id
      expiresAt := Time.unixNano (Time.add c.rd.wall advertTTL)
      size := (size.bind fun f => f c.hash).getD 0 }
  else
    { hash := c.hash.1, holder := env.id, expiresAt := Time.unixNano c.rd.wall - 1, size := 0 }

/-- `Announce` and `Withdraw`: marshal the advert and publish it under the empty key. -/
def AdvertCall.exec (env : Env) (pb : Marshaller ContentAdvert) (size : SizeFn) (n : Node)
    (c : AdvertCall) : Option AdvertError × Node :=
  match pb.marshal (c.advert env size) with
  | none => (some .marshal, n)
  | some body =>
    let (err, n) := n.publishKeyed env c.rd topicContentAdvert [] body
    (err.map .publish, n)

/-- The node after a call. -/
def AdvertCall.step (env : Env) (pb : Marshaller ContentAdvert) (size : SizeFn) (n : Node)
    (c : AdvertCall) : Node := (c.exec env pb size n).2

/-! ## The index -/

/-- `holders[hash][id]`, the time of expiry. -/
abbrev HolderIndex : Type := FMap Digest (FMap NodeID Int64)

/-- What `onAdvertRecord` takes from a record. -/
structure ReadAdvert where
  hash : Digest
  holder : NodeID
  expiresAt : Int64

/-- The first half of `onAdvertRecord`: tombstones, bodies that do not decode and hashes of another
length are passed over, and an advert without a holder is one of its publisher. -/
def readAdvert (pb : Marshaller ContentAdvert) (r : Record) : Option ReadAdvert :=
  if r.tombstone then none
  else
    match pb.unmarshal r.body with
    | none => none
    | some advert =>
      if h : advert.hash.length = 32 then
        some
          { hash := ⟨advert.hash, h⟩
            holder := if advert.holder = [] then r.nodeID else advert.holder
            expiresAt := advert.expiresAt }
      else none

/-- Delete a holder of a hash, and the hash with its last holder. -/
def HolderIndex.delete (holders : HolderIndex) (hash : Digest) (holder : NodeID) : HolderIndex :=
  match holders.lookup hash with
  | none => holders
  | some m =>
    let m : FMap NodeID Int64 := m.erase holder
    if m.len = 0 then holders.erase hash else holders.insert hash m

/-- Enter a holder of a hash. -/
def HolderIndex.put (holders : HolderIndex) (hash : Digest) (holder : NodeID) (expiresAt : Int64) :
    HolderIndex :=
  holders.insert hash (((holders.lookup hash).getD ∅).insert holder expiresAt)

/-- `onAdvertRecord` at a reading of `UnixNano`. -/
def onAdvertRecord (pb : Marshaller ContentAdvert) (now : Int64) (holders : HolderIndex)
    (r : Record) : HolderIndex :=
  match readAdvert pb r with
  | none => holders
  | some advert =>
    if advert.expiresAt ≤ now then holders.delete advert.hash advert.holder
    else holders.put advert.hash advert.holder advert.expiresAt

/-- `Holders`: the ids that have not expired, and the index without the others. -/
def holdersOf (now : Int64) (holders : HolderIndex) (hash : Digest) : List NodeID × HolderIndex :=
  match holders.lookup hash with
  | none => ([], holders)
  | some m =>
    let m := m.rangeUpdate fun _ exp => if exp ≤ now then none else some exp
    (m.keys, if m.len = 0 then holders.erase hash else holders.insert hash m)

/-- The index after records were delivered, each at its own time. -/
def indexAfter (pb : Marshaller ContentAdvert) (holders : HolderIndex)
    (deliveries : List (Int64 × Record)) : HolderIndex :=
  deliveries.foldl (fun holders d => onAdvertRecord pb d.1 holders d.2) holders

/-- The holders of a hash with their times of expiry. -/
def HolderIndex.of (holders : HolderIndex) (hash : Digest) : FMap NodeID Int64 :=
  (holders.lookup hash).getD ∅

section Index

variable {pb : Marshaller ContentAdvert} {now : Int64} {holders : HolderIndex} {hash : Digest}
  {id : NodeID}

theorem mem_holdersOf :
    id ∈ (holdersOf now holders hash).1 ↔
      ∃ exp, (holders.of hash).lookup id = some exp ∧ now < exp := by
  unfold holdersOf HolderIndex.of
  cases holders.lookup hash with
  | none => simp
  | some m =>
    dsimp only
    rw [FMap.mem_keys, Option.getD_some]
    simp only [FMap.lookup_rangeUpdate, Option.bind_eq_some_iff]
    constructor
    · rintro ⟨exp, exp', hexp, hkeep⟩
      split_ifs at hkeep with hle
      exact ⟨exp', hexp, not_le.mp hle⟩
    · rintro ⟨exp, hexp, hlt⟩
      exact ⟨exp, exp, hexp, if_neg (not_le.mpr hlt)⟩

theorem of_insert (m : FMap NodeID Int64) (hash' : Digest) :
    HolderIndex.of (holders.insert hash m) hash' =
      if hash' = hash then m else holders.of hash' := by
  unfold HolderIndex.of
  rw [FMap.lookup_insert_eq]
  split_ifs <;> rfl

theorem of_erase (hash' : Digest) :
    HolderIndex.of (holders.erase hash) hash' = if hash' = hash then ∅ else holders.of hash' := by
  unfold HolderIndex.of
  rw [FMap.lookup_erase_eq]
  split_ifs <;> rfl

theorem lookup_delete (hash' : Digest) (id' : NodeID) :
    ((holders.delete hash id).of hash').lookup id' =
      if hash' = hash ∧ id' = id then none else (holders.of hash').lookup id' := by
  unfold HolderIndex.delete
  cases hm : holders.lookup hash with
  | none =>
    dsimp only
    split_ifs with heq
    · rw [heq.1, HolderIndex.of, hm]
      rfl
    · rfl
  | some m =>
    have hof : holders.of hash = m := by rw [HolderIndex.of, hm]; rfl
    have herase : AList.lookup id' (m.erase id) = if id' = id then none else m.lookup id' :=
      FMap.lookup_erase_eq m id id'
    dsimp only
    by_cases hhash : hash' = hash
    · subst hhash
      simp only [true_and, hof, ← herase]
      split_ifs with hlen
      · rw [of_erase, if_pos rfl, FMap.len_eq_zero.mp hlen]
      · rw [of_insert, if_pos rfl]
    · have hno : ¬ (hash' = hash ∧ id' = id) := fun h => hhash h.1
      rw [if_neg hno]
      split_ifs
      · rw [of_erase, if_neg hhash]
      · rw [of_insert, if_neg hhash]

theorem lookup_put (exp : Int64) (hash' : Digest) (id' : NodeID) :
    ((holders.put hash id exp).of hash').lookup id' =
      if hash' = hash ∧ id' = id then some exp else (holders.of hash').lookup id' := by
  unfold HolderIndex.put
  rw [of_insert]
  by_cases hhash : hash' = hash
  · subst hhash
    rw [if_pos rfl, FMap.lookup_insert_eq]
    simp only [true_and]
    rfl
  · rw [if_neg hhash, if_neg fun h => hhash h.1]

/-- The index shows the holder at `now`. -/
def HolderIndex.Shows (holders : HolderIndex) (now : Int64) (hash : Digest) (id : NodeID) : Prop :=
  ∃ exp, (holders.of hash).lookup id = some exp ∧ now < exp

/-- What is shown of the entry an advert names depends on the advert alone, if the advert is not
delivered later than `now`. -/
theorem shows_onAdvertRecord {τ : Int64} (hτ : τ ≤ now) {r : Record} {a : ReadAdvert}
    (ha : readAdvert pb r = some a) :
    (onAdvertRecord pb τ holders r).Shows now hash id ↔
      if hash = a.hash ∧ id = a.holder then now < a.expiresAt else holders.Shows now hash id := by
  unfold onAdvertRecord HolderIndex.Shows
  rw [ha]
  dsimp only
  by_cases hexp : a.expiresAt ≤ τ
  · simp only [if_pos hexp, lookup_delete]
    split_ifs with heq
    · exact iff_of_false (fun ⟨_, h, _⟩ => (nomatch h)) (not_lt.mpr (hexp.trans hτ))
    · rfl
  · simp only [if_neg hexp, lookup_put]
    split_ifs with heq
    · simp
    · rfl

/-- Records that do not name the holder leave it as it is. -/
theorem shows_indexAfter_of_unnamed (deliveries : List (Int64 × Record))
    (hτ : ∀ d ∈ deliveries, d.1 ≤ now)
    (hname : ∀ d ∈ deliveries, ∀ a, readAdvert pb d.2 = some a → a.holder ≠ id) :
    (indexAfter pb holders deliveries).Shows now hash id ↔ holders.Shows now hash id := by
  induction deliveries generalizing holders with
  | nil => rfl
  | cons d deliveries ih =>
    refine (ih (fun e he => hτ e (List.mem_cons_of_mem _ he))
      fun e he => hname e (List.mem_cons_of_mem _ he)).trans ?_
    show (onAdvertRecord pb d.1 holders d.2).Shows now hash id ↔ _
    cases ha : readAdvert pb d.2 with
    | none =>
      unfold onAdvertRecord
      rw [ha]
    | some a =>
      rw [shows_onAdvertRecord (hτ d List.mem_cons_self) ha, if_neg]
      exact fun h => hname d List.mem_cons_self a ha h.2.symm

/-- When one record names the holder, what is shown is what it says, however often and in whatever
order it is delivered. -/
theorem shows_indexAfter_of_named {deliveries : List (Int64 × Record)} {r : Record} {a : ReadAdvert}
    (ha : readAdvert pb r = some a) (hid : a.holder = id) (hr : ∃ d ∈ deliveries, d.2 = r)
    (hτ : ∀ d ∈ deliveries, d.1 ≤ now)
    (hname : ∀ d ∈ deliveries, d.2 = r ∨ ∀ a, readAdvert pb d.2 = some a → a.holder ≠ id) :
    (indexAfter pb holders deliveries).Shows now hash id ↔
      if hash = a.hash then now < a.expiresAt else holders.Shows now hash id := by
  induction deliveries generalizing holders with
  | nil =>
    obtain ⟨d, hd, -⟩ := hr
    cases hd
  | cons d deliveries ih =>
    have hτ' : ∀ e ∈ deliveries, e.1 ≤ now := fun e he => hτ e (List.mem_cons_of_mem _ he)
    have hself : d.2 = r → ((onAdvertRecord pb d.1 holders d.2).Shows now hash id ↔
        if hash = a.hash then now < a.expiresAt else holders.Shows now hash id) := by
      intro hd
      rw [hd, shows_onAdvertRecord (hτ d List.mem_cons_self) ha]
      simp only [hid, and_true]
    by_cases hlater : ∃ e ∈ deliveries, e.2 = r
    · refine (ih hlater hτ' fun e he => hname e (List.mem_cons_of_mem _ he)).trans ?_
      split_ifs with hhash
      · exact Iff.rfl
      rcases hname d List.mem_cons_self with hd | hd
      · rw [hself hd, if_neg hhash]
      · exact shows_indexAfter_of_unnamed [d]
          (fun e he => by cases List.mem_singleton.mp he; exact hτ d List.mem_cons_self)
          fun e he => by cases List.mem_singleton.mp he; exact hd
    · push Not at hlater
      obtain ⟨e, he, hre⟩ := hr
      have hd : d.2 = r := by
        rcases List.mem_cons.mp he with rfl | he'
        · exact hre
        · exact absurd hre (hlater e he')
      refine (shows_indexAfter_of_unnamed _ hτ' fun e he => ?_).trans (hself hd)
      exact (hname e (List.mem_cons_of_mem _ he)).resolve_left (hlater e he)

end Index

/-! ## The publisher -/

/-- The slot of the node's adverts. -/
def advertSlot (env : Env) : Topic × RecordKey := (topicContentAdvert, { nodeID := env.id })

/-- The call returns nil and no cap turns its record away. -/
structure AdvertTaken (env : Env) (pb : Marshaller ContentAdvert) (size : SizeFn) (n : Node)
    (c : AdvertCall) : Prop where
  ok : (c.exec env pb size n).1 = none
  cap : (c.step env pb size n).store.rejectedCap = n.store.rejectedCap

/-- The wall reading of the call fits and its stamp does not wrap the counter. -/
structure AdvertStamped (n : Node) (c : AdvertCall) : Prop where
  wall : WallFits c.rd
  moves : StampMoves c.rd n

/-- The record publishes the advert of the call. -/
structure Carries (env : Env) (pb : Marshaller ContentAdvert) (size : SizeFn) (c : AdvertCall)
    (r : Record) : Prop where
  slot : slotOf r = advertSlot env
  live : r.tombstone = false
  body : pb.marshal (c.advert env size) = some r.body

/-- The clock of the node is ahead, and its store holds the advert of the last call and nothing
else. -/
structure Advertises (env : Env) (pb : Marshaller ContentAdvert) (size : SizeFn)
    (last : Option AdvertCall) (n : Node) : Prop where
  ahead : Ahead env n
  empty : last = none → n.store.slotView = fun _ => none
  holds : ∀ c, last = some c → ∃ r, Carries env pb size c r ∧
    n.store.slotView = Function.update (fun _ => none) (advertSlot env) (some r)

section Publisher

variable {env : Env} {pb : Marshaller ContentAdvert} {size : SizeFn}

theorem Advertises.step {last : Option AdvertCall} {n : Node} (h : Advertises env pb size last n)
    {c : AdvertCall} (hc : AdvertTaken env pb size n c) (hstamp : AdvertStamped n c) :
    Advertises env pb size (some c) (c.step env pb size n) := by
  obtain ⟨hok, hcap⟩ := hc
  obtain ⟨hwall, hmoves⟩ := hstamp
  unfold AdvertCall.step AdvertCall.exec at *
  cases hbody : pb.marshal (c.advert env size) with
  | none =>
    rw [hbody] at hok
    cases hok
  | some body =>
    rw [hbody] at hok hcap
    dsimp only at hok hcap ⊢
    rw [publishKeyed_of_ok (Option.map_eq_none_iff.mp hok)] at hcap ⊢
    have hview := h.ahead.slotView_publishOwn hwall hmoves rfl hcap
    refine ⟨h.ahead.publishOwn hwall hmoves _, fun hnone => (nomatch hnone), fun c' hc' => ?_⟩
    cases hc'
    refine ⟨ownRecord env n c.rd
        { topic := topicContentAdvert, nodeID := [], hlc := 0, body := body },
      ⟨rfl, rfl, hbody⟩, hview.trans ?_⟩
    cases hlast : last with
    | none =>
      rw [h.empty hlast]
      rfl
    | some c₀ =>
      obtain ⟨r₀, -, hview₀⟩ := h.holds c₀ hlast
      rw [hview₀]
      exact Function.update_idem _ _ _

theorem run_advertises {calls : List AdvertCall} (rd₀ : Reading)
    (configFn : NodeID → PerPeerConfig)
    (hsteps : Runs.StepsMeet (AdvertCall.step env pb size) (AdvertTaken env pb size)
      (newNode rd₀ configFn) calls)
    (hstamps : Runs.StepsMeet (AdvertCall.step env pb size) AdvertStamped
      (newNode rd₀ configFn) calls) :
    Advertises env pb size calls.getLast?
      (calls.foldl (AdvertCall.step env pb size) (newNode rd₀ configFn)) := by
  induction calls using List.reverseRecOn with
  | nil =>
    refine ⟨fun t => ⟨fun k r hr => (nomatch hr), fun o a ha => (nomatch ha)⟩, fun _ => rfl,
      fun c hc => (nomatch hc)⟩
  | append_singleton calls c ih =>
    obtain ⟨hpre, hlast, -⟩ := Runs.stepsMeet_append.mp hsteps
    obtain ⟨hstamped, hstamp, -⟩ := Runs.stepsMeet_append.mp hstamps
    rw [List.getLast?_concat, List.foldl_append]
    exact (ih hpre hstamped).step hlast hstamp

theorem Advertises.placed {last : Option AdvertCall} {n : Node}
    (h : Advertises env pb size last n) :
    Placed topicContentAdvert (n.store.topic topicContentAdvert) := by
  intro k r hr
  have hview : n.store.slotView (topicContentAdvert, k) = some r := hr
  cases hlast : last with
  | none =>
    rw [h.empty hlast] at hview
    cases hview
  | some c =>
    obtain ⟨r₀, hr₀, hview₀⟩ := h.holds c hlast
    rw [hview₀, Function.update_apply] at hview
    split_ifs at hview with hk
    cases hview
    rw [hr₀.slot, hk]

/-- What a peer reads in the record of a call. -/
theorem Carries.readAdvert (hpb : pb.RoundTrips) {c : AdvertCall} {r : Record}
    (h : Carries env pb size c r) :
    readAdvert pb r = some
      { hash := c.hash, holder := env.id, expiresAt := (c.advert env size).expiresAt } := by
  have hhash : (c.advert env size).hash = c.hash.1 := by
    unfold AdvertCall.advert
    split_ifs <;> rfl
  have hholder : (c.advert env size).holder = env.id := by
    unfold AdvertCall.advert
    split_ifs <;> rfl
  have hlen : (c.advert env size).hash.length = 32 := hhash ▸ c.hash.2
  unfold Swarm.readAdvert
  rw [h.live, if_neg Bool.false_ne_true, hpb _ _ h.body]
  dsimp only
  rw [dif_pos hlen, hholder, show r.nodeID = env.id from congrArg (fun k => k.2.nodeID) h.slot,
    ite_self]
  simp only [hhash]

end Publisher

/-! ## A peer that subscribes later -/

/-- The peer replays the advert topic of a store whose slots of the node are those of the node's own
store, at times up to `now`. -/
structure Replayed (env : Env) (own peer : RecordStore) (now : Int64)
    (deliveries : List (Int64 × Record)) : Prop where
  converged : ∀ key, peer.getRawKeyed topicContentAdvert env.id key =
    own.getRawKeyed topicContentAdvert env.id key
  replay : deliveries.map Prod.snd = peer.topicRecordsAll topicContentAdvert
  times : ∀ d ∈ deliveries, d.1 ≤ now

/-- No other node's advert names the node as the holder. -/
def SpeaksForItself (env : Env) (pb : Marshaller ContentAdvert) (peer : RecordStore) : Prop :=
  ∀ r ∈ peer.topicRecordsAll topicContentAdvert, r.nodeID ≠ env.id →
    ∀ a, readAdvert pb r = some a → a.holder ≠ env.id

section Replay

variable {env : Env} {pb : Marshaller ContentAdvert} {own : RecordStore} {cfg : StoreConfig}
  {ops : List StoreOp} {now : Int64} {deliveries : List (Int64 × Record)}

theorem Replayed.listed (h : Replayed env own (runStore cfg {} ops) now deliveries)
    {d : Int64 × Record} (hd : d ∈ deliveries) :
    d.2 ∈ (runStore cfg {} ops).topicRecordsAll topicContentAdvert :=
  h.replay ▸ List.mem_map_of_mem hd

/-- A delivered record of the node is the one the node has in that slot. -/
theorem Replayed.slotView_of_delivered
    (h : Replayed env own (runStore cfg {} ops) now deliveries) {d : Int64 × Record}
    (hd : d ∈ deliveries) (hnode : d.2.nodeID = env.id) :
    own.slotView (topicContentAdvert, keyOf d.2) = some d.2 := by
  obtain ⟨k, hk⟩ := (mem_topicRecordsWhere.mp (h.listed hd)).1
  have hkey : keyOf d.2 = k := congrArg Prod.snd (run_placed cfg ops _ k d.2 hk)
  rw [← hkey] at hk
  have hconv := h.converged d.2.key
  rw [← slotView_eq_getRawKeyed, ← slotView_eq_getRawKeyed, ← hnode] at hconv
  exact hconv.symm.trans hk

/-- What the node has in its advert slot is delivered. -/
theorem Replayed.delivered_of_slotView
    (h : Replayed env own (runStore cfg {} ops) now deliveries) {r : Record}
    (hr : own.slotView (advertSlot env) = some r) : ∃ d ∈ deliveries, d.2 = r := by
  have hin : r ∈ deliveries.map Prod.snd := by
    rw [h.replay]
    refine mem_topicRecordsWhere.mpr ⟨⟨{ nodeID := env.id }, ?_⟩, rfl⟩
    rw [slotView_eq_getRawKeyed, h.converged, ← slotView_eq_getRawKeyed]
    exact hr
  exact List.mem_map.mp hin

/-- The peer learns the advert of the last call. -/
theorem Replayed.shows_iff {size : SizeFn} (hpb : pb.RoundTrips) {last : Option AdvertCall}
    {n : Node} (hn : Advertises env pb size last n)
    (h : Replayed env n.store (runStore cfg {} ops) now deliveries)
    (hothers : SpeaksForItself env pb (runStore cfg {} ops)) (hash : Digest) :
    (indexAfter pb ∅ deliveries).Shows now hash env.id ↔
      ∃ c, last = some c ∧ c.hash = hash ∧ now < (c.advert env size).expiresAt := by
  have hempty : ¬ HolderIndex.Shows ∅ now hash env.id := fun ⟨_, hexp, _⟩ => (nomatch hexp)
  have hother : ∀ d ∈ deliveries, d.2.nodeID ≠ env.id → ∀ a, readAdvert pb d.2 = some a →
      a.holder ≠ env.id := fun d hd => hothers d.2 (h.listed hd)
  cases hlast : last with
  | none =>
    refine iff_of_false (fun hshow => hempty ?_) fun ⟨c, hc, _⟩ => (nomatch hc)
    refine (shows_indexAfter_of_unnamed _ h.times fun d hd => ?_).mp hshow
    refine hother d hd fun hnode => ?_
    have hslot := h.slotView_of_delivered hd hnode
    rw [hn.empty hlast] at hslot
    cases hslot
  | some c =>
    obtain ⟨r, hr, hview⟩ := hn.holds c hlast
    have hone : ∀ d ∈ deliveries, d.2.nodeID = env.id → d.2 = r := by
      intro d hd hnode
      have hslot := h.slotView_of_delivered hd hnode
      rw [hview, Function.update_apply] at hslot
      split_ifs at hslot
      exact (Option.some.inj hslot).symm
    have hdelivered : ∃ d ∈ deliveries, d.2 = r :=
      h.delivered_of_slotView (by rw [hview, Function.update_self])
    rw [shows_indexAfter_of_named (hr.readAdvert hpb) rfl hdelivered h.times fun d hd => ?_]
    · dsimp only
      split_ifs with hhash
      · simp [hhash]
      · refine iff_of_false hempty fun ⟨c', hc', hhash', _⟩ => ?_
        cases hc'
        exact hhash hhash'.symm
    · by_cases hnode : d.2.nodeID = env.id
      · exact Or.inl (hone d hd hnode)
      · exact Or.inr (hother d hd hnode)

end Replay

/-- The last call for the hash is an `Announce` that has not expired. -/
def Announced (env : Env) (size : SizeFn) (calls : List AdvertCall) (now : Int64) (hash : Digest) :
    Prop :=
  ∃ c, (calls.filter fun c => c.hash = hash).getLast? = some c ∧ c.announces = true ∧
    now < (c.advert env size).expiresAt

theorem getLast?_filter_hash {calls : List AdvertCall} {c : AdvertCall}
    (h : calls.getLast? = some c) :
    (calls.filter fun c' => c'.hash = c.hash).getLast? = some c := by
  obtain ⟨front, rfl⟩ := List.getLast?_eq_some_iff.mp h
  rw [List.filter_append, List.filter_cons_of_pos (by simp), List.filter_nil]
  exact List.getLast?_concat

/-- What a later subscriber can learn is all there is to learn: every hash that is announced is the
one of the last call, and a last call that is a `Withdraw` has expired on the peer's clock. -/
structure LastCallTells (env : Env) (size : SizeFn) (calls : List AdvertCall) (now : Int64) :
    Prop where
  last : ∀ hash, Announced env size calls now hash → ∃ c, calls.getLast? = some c ∧ c.hash = hash
  expired : ∀ c, calls.getLast? = some c → c.announces = false →
    (c.advert env size).expiresAt ≤ now

/-- The index that knows the last call says what the calls say exactly if the last call tells. -/
theorem lastCallTells_iff {env : Env} {size : SizeFn} {calls : List AdvertCall} {now : Int64} :
    (∀ hash, (∃ c, calls.getLast? = some c ∧ c.hash = hash ∧ now < (c.advert env size).expiresAt) ↔
      Announced env size calls now hash) ↔ LastCallTells env size calls now := by
  constructor
  · intro h
    refine ⟨fun hash hann => ?_, fun c hc hwithdraw => ?_⟩
    · obtain ⟨c, hc, hhash, -⟩ := (h hash).mpr hann
      exact ⟨c, hc, hhash⟩
    · by_contra hlt
      obtain ⟨c', hc', hann, -⟩ := (h c.hash).mp ⟨c, hc, rfl, not_le.mp hlt⟩
      rw [getLast?_filter_hash hc] at hc'
      cases hc'
      rw [hwithdraw] at hann
      cases hann
  · rintro ⟨hlast, hexpired⟩ hash
    constructor
    · rintro ⟨c, hc, rfl, hlt⟩
      refine ⟨c, getLast?_filter_hash hc, ?_, hlt⟩
      by_contra hno
      exact absurd hlt (not_lt.mpr (hexpired c hc (Bool.not_eq_true _ ▸ hno)))
    · intro hann
      obtain ⟨c, hc, rfl⟩ := hlast hash hann
      obtain ⟨c', hc', -, hlt⟩ := hann
      rw [getLast?_filter_hash hc] at hc'
      cases hc'
      exact ⟨c, hc, rfl, hlt⟩

/-- **The holder index of a later subscriber.** Let a fresh node make any `Announce` and `Withdraw`
calls that return nil and meet no cap, and let a peer whose store has the node's slots replay the
advert topic into its index. If the wall reading of every call fits and no stamp wraps the counter,
no other node's advert names the node, and the last call tells, then `Holders` of the peer names the
node for exactly the hashes whose last call is an unexpired `Announce`. Where the stamps hold and
the node speaks for itself, that the last call tells is necessary too. -/
theorem holders_follow (env : Env) (pb : Marshaller ContentAdvert) (hpb : pb.RoundTrips)
    (size : SizeFn) (rd₀ : Reading) (configFn : NodeID → PerPeerConfig) (calls : List AdvertCall)
    (hcalls : Runs.StepsMeet (AdvertCall.step env pb size) (AdvertTaken env pb size)
      (newNode rd₀ configFn) calls)
    (cfg : StoreConfig) (ops : List StoreOp) (now : Int64) (deliveries : List (Int64 × Record))
    (hpeer : Replayed env
      (calls.foldl (AdvertCall.step env pb size) (newNode rd₀ configFn)).store
      (runStore cfg {} ops) now deliveries) :
    (Runs.StepsMeet (AdvertCall.step env pb size) AdvertStamped (newNode rd₀ configFn) calls ∧
        SpeaksForItself env pb (runStore cfg {} ops) ∧ LastCallTells env size calls now →
      ∀ hash, env.id ∈ (holdersOf now (indexAfter pb ∅ deliveries) hash).1 ↔
        Announced env size calls now hash) ∧
    (Runs.StepsMeet (AdvertCall.step env pb size) AdvertStamped (newNode rd₀ configFn) calls ∧
        SpeaksForItself env pb (runStore cfg {} ops) →
      (∀ hash, env.id ∈ (holdersOf now (indexAfter pb ∅ deliveries) hash).1 ↔
        Announced env size calls now hash) → LastCallTells env size calls now) := by
  have hshow : Runs.StepsMeet (AdvertCall.step env pb size) AdvertStamped
        (newNode rd₀ configFn) calls →
      SpeaksForItself env pb (runStore cfg {} ops) →
      ∀ hash, env.id ∈ (holdersOf now (indexAfter pb ∅ deliveries) hash).1 ↔
        ∃ c, calls.getLast? = some c ∧ c.hash = hash ∧ now < (c.advert env size).expiresAt :=
    fun hstamps hothers hash => mem_holdersOf.trans
      (hpeer.shows_iff hpb (run_advertises rd₀ configFn hcalls hstamps) hothers hash)
  constructor
  · rintro ⟨hstamps, hothers, htells⟩ hash
    exact (hshow hstamps hothers hash).trans (lastCallTells_iff.mpr htells hash)
  · rintro ⟨hstamps, hothers⟩ h
    exact lastCallTells_iff.mp fun hash => (hshow hstamps hothers hash).symm.trans (h hash)

/-- The digest of thirty-two equal bytes. -/
def digestOf (b : UInt8) : Digest := ⟨List.replicate 32 b, List.length_replicate⟩

/-- A call at a number of seconds. -/
def advertAt (announces : Bool) (s : ℤ) (b : UInt8) : AdvertCall :=
  { announces := announces, rd := ⟨s * 1000000000, s * 1000000000⟩, hash := digestOf b }

/-- A wire format for the adverts of some calls. -/
def advertTable (calls : List AdvertCall) : Marshaller ContentAdvert :=
  .ofTable ((calls.map (AdvertCall.advert plainEnv none)).zip (calls.mapIdx fun i _ => [i.toUInt8]))

/-- The node after the calls. -/
def advertNode (calls : List AdvertCall) : Node :=
  calls.foldl (AdvertCall.step plainEnv (advertTable calls) none) (newNode ⟨0, 0⟩ fun _ => {})

/-- A peer that received what the node keeps, and replays it at three seconds. -/
def advertPeer (calls : List AdvertCall) : List StoreOp :=
  ((advertNode calls).store.topicRecordsAll topicContentAdvert).map (.apply 3000)

def advertReplay (calls : List AdvertCall) : List (Int64 × Record) :=
  ((runStore plainEnv.storeCfg {} (advertPeer calls)).topicRecordsAll topicContentAdvert).map
    fun r => (3000000000, r)

/-- Two announcements, of two hashes. -/
def lostCalls : List AdvertCall := [advertAt true 1 1, advertAt true 2 2]

/-- The peer has the slots of the node and knows it as a holder of the second hash only. -/
theorem first_advert_lost :
    (runStore {} {} (advertPeer lostCalls)).topicRecordsAll topicContentAdvert =
      (advertNode lostCalls).store.topicRecordsAll topicContentAdvert ∧
    Announced plainEnv none lostCalls 3000000000 (digestOf 1) ∧
    plainEnv.id ∉ (holdersOf 3000000000
      (indexAfter (advertTable lostCalls) ∅ (advertReplay lostCalls)) (digestOf 1)).1 ∧
    plainEnv.id ∈ (holdersOf 3000000000
      (indexAfter (advertTable lostCalls) ∅ (advertReplay lostCalls)) (digestOf 2)).1 := by
  refine ⟨by decide +kernel, ⟨advertAt true 1 1, rfl, rfl, by decide +kernel⟩, by decide +kernel,
    by decide +kernel⟩

/-- An announcement, its withdrawal and the announcement of another hash. -/
def keptCalls : List AdvertCall := [advertAt true 1 1, advertAt false 2 1, advertAt true 2 2]

theorem last_advert_kept :
    plainEnv.id ∈ (holdersOf 3000000000
      (indexAfter (advertTable keptCalls) ∅ (advertReplay keptCalls)) (digestOf 2)).1 := by
  have hsteps : Runs.StepsMeet (AdvertCall.step plainEnv (advertTable keptCalls) none)
      (AdvertTaken plainEnv (advertTable keptCalls) none) (newNode ⟨0, 0⟩ fun _ => {})
      keptCalls := by
    refine ⟨⟨?_, ?_⟩, ⟨?_, ?_⟩, ⟨?_, ?_⟩, trivial⟩
    all_goals decide +kernel
  have hstamps : Runs.StepsMeet (AdvertCall.step plainEnv (advertTable keptCalls) none)
      AdvertStamped (newNode ⟨0, 0⟩ fun _ => {}) keptCalls := by
    refine ⟨⟨?_, ?_⟩, ⟨?_, ?_⟩, ⟨?_, ?_⟩, trivial⟩
    all_goals first
      | (unfold WallFits; decide +kernel)
      | (unfold StampMoves; decide +kernel)
  have hlisting : (runStore {} {} (advertPeer keptCalls)).topicRecordsAll topicContentAdvert =
      (advertNode keptCalls).store.topicRecordsAll topicContentAdvert := by decide +kernel
  have hpeer : Replayed plainEnv (advertNode keptCalls).store
      (runStore {} {} (advertPeer keptCalls)) 3000000000 (advertReplay keptCalls) := by
    refine ⟨fun key => ?_, ?_, by decide +kernel⟩
    · rw [← slotView_eq_getRawKeyed, ← slotView_eq_getRawKeyed]
      exact slotView_congr_of_listing (run_placed _ _ _)
        (run_advertises ⟨0, 0⟩ _ hsteps hstamps).placed hlisting _
    · unfold advertReplay
      rw [List.map_map]
      exact List.map_id _
  have hothers : SpeaksForItself plainEnv (advertTable keptCalls)
      (runStore {} {} (advertPeer keptCalls)) := by
    have hown : ∀ r ∈ (runStore {} {} (advertPeer keptCalls)).topicRecordsAll topicContentAdvert,
        r.nodeID = plainEnv.id := by decide +kernel
    exact fun r hr hnode => absurd (hown r hr) hnode
  refine ((holders_follow plainEnv (advertTable keptCalls)
    (Marshaller.ofTable_roundTrips (by decide +kernel)) none ⟨0, 0⟩ (fun _ => {}) keptCalls hsteps
    {} (advertPeer keptCalls) 3000000000 (advertReplay keptCalls) hpeer).1
    ⟨hstamps, hothers, ?_, ?_⟩ (digestOf 2)).mpr ⟨advertAt true 2 2, rfl, rfl, by decide +kernel⟩
  · rintro hash ⟨c, hc, hann, -⟩
    obtain ⟨hmem, hhash⟩ := List.mem_filter.mp (List.mem_of_getLast? hc)
    obtain rfl : c.hash = hash := of_decide_eq_true hhash
    simp only [keptCalls, List.mem_cons, List.not_mem_nil, or_false] at hmem
    rcases hmem with rfl | rfl | rfl
    · -- the last call for the first hash is the withdrawal
      have hlast : some (advertAt false 2 1) = some (advertAt true 1 1) := hc
      have := congrArg AdvertCall.announces (Option.some.inj hlast)
      cases this
    · cases hann
    · exact ⟨_, rfl, rfl⟩
  · rintro c hc hwithdraw
    cases hc
    cases hwithdraw

end Swarm
