import Swarm.Store.View

/-!
# The verdict of a set of attestations

What attestations say about a node can be read off the set of them. Only words that lie in a window
with a quorum of observers are ever counted (`Weighs`); the quorum is reached if there are such
words (`Reached`), and the tombstone stands one above the greatest clock among them (`topClock`).

`ApplyExt` hears the words one at a time, and what it makes of one depends on those before it in
three ways. The window is anchored at the newest observation so far; an attestation may replace one
of its observer that is newer in the other field; and a tombstone written on the way turns away an
attestation of its own clock. `Orderly` excludes the first two, for words that weigh. Then a run in
any order buries the slots of the node once, one above a clock that weighs, and only a quorum that
was reached before the greatest clock was heard can keep it below that clock (`Tracks`,
`tracks_run`).
-/

namespace Swarm

/-! ## Words -/

/-- Who said what: the kept witnesses under the observer they are kept for, and a list of
attestations under their own observer. -/
def spoken (kept : FMap NodeID Record) (l : List Record) : List (NodeID × Record) :=
  (kept.entries.map fun e => (e.1, e.2)) ++ l.map fun a => (a.observerNodeID, a)

/-- The word lies in the window that ends at `n`. -/
def InWindow (cfg : StoreConfig) (n : Int64) (x : NodeID × Record) : Prop :=
  x.2.observedAtUnixMs ≤ n ∧ ¬ cfg.winMs < n - x.2.observedAtUnixMs

instance (cfg : StoreConfig) (n : Int64) (x : NodeID × Record) : Decidable (InWindow cfg n x) :=
  inferInstanceAs (Decidable (_ ∧ _))

/-- Where windows end: at the epoch, where the search for the newest observation starts, or at an
observation that is not before it. -/
def windowEnds (sp : List (NodeID × Record)) : List Int64 :=
  0 :: (sp.map fun x => x.2.observedAtUnixMs).filter fun n => 0 ≤ n

/-- The word lies in a window with words of a quorum of observers. -/
def Weighs (cfg : StoreConfig) (sp : List (NodeID × Record)) (x : NodeID × Record) : Prop :=
  ∃ n ∈ windowEnds sp, InWindow cfg n x ∧
    cfg.observerQuorum ≤ ((sp.filter fun y => InWindow cfg n y).map Prod.fst).toFinset.card

instance (cfg : StoreConfig) (sp : List (NodeID × Record)) (x : NodeID × Record) :
    Decidable (Weighs cfg sp x) :=
  inferInstanceAs (Decidable (∃ n ∈ windowEnds sp, _))

/-- Of what was spoken, the words that weigh among all words `sp`. -/
def weighty (cfg : StoreConfig) (sp : List (NodeID × Record)) (kept : FMap NodeID Record)
    (l : List Record) : List (NodeID × Record) :=
  (spoken kept l).filter fun x => Weighs cfg sp x

/-- The greatest clock that weighs. -/
def topClock (cfg : StoreConfig) (sp : List (NodeID × Record)) (kept : FMap NodeID Record)
    (l : List Record) : UInt64 :=
  maxLoop (fun x => x.2.hlc) 0 (weighty cfg sp kept l)

/-- The observers whose words weigh. -/
def speakers (cfg : StoreConfig) (sp : List (NodeID × Record)) (kept : FMap NodeID Record)
    (l : List Record) : Finset NodeID :=
  ((weighty cfg sp kept l).map Prod.fst).toFinset

/-- Enough observers spoke, and somebody said something new. -/
def Reached (cfg : StoreConfig) (sp : List (NodeID × Record)) (kept : FMap NodeID Record)
    (l : List Record) : Prop :=
  cfg.observerQuorum ≤ (speakers cfg sp kept l).card ∧ ∃ a ∈ l, superseded kept a = false

instance (cfg : StoreConfig) (sp : List (NodeID × Record)) (kept : FMap NodeID Record)
    (l : List Record) : Decidable (Reached cfg sp kept l) :=
  inferInstanceAs (Decidable (_ ∧ _))

/-- The attestation passes the gates, and the slots of its target do not answer it already. -/
def counts (cfg : StoreConfig) (nowMs : Int64) (ts : TopicStore) (a : Record) : Bool :=
  cfg.roleOk a.observerNodeID a.pubKey &&
    decide (a.observedAtUnixMs ≤ nowMs + observerForwardSkewBudget.milliseconds) &&
    !ts.fenced a && !(ts.nodeDeadAtOrAbove a.nodeID a.hlc).2

/-- The attestations of a list that count for a node. -/
def counted (cfg : StoreConfig) (nowMs : Int64) (ts : TopicStore) (node : NodeID)
    (l : List Record) : List Record :=
  l.filter fun a => decide (a.nodeID = node) && counts cfg nowMs ts a

/-- What a word that weighs is worth does not depend on when it is heard: nothing spoken is more
than a window newer, and its observer moves forward in both fields, to words that weigh. -/
structure Orderly (cfg : StoreConfig) (sp : List (NodeID × Record)) : Prop where
  window : ∀ x ∈ sp, Weighs cfg sp x → ∀ n ∈ windowEnds sp, x.2.observedAtUnixMs ≤ n →
    InWindow cfg n x
  forward : ∀ x ∈ sp, Weighs cfg sp x → ∀ y ∈ sp, y.1 = x.1 →
    (x.2.observedAtUnixMs ≤ y.2.observedAtUnixMs ∧ x.2.hlc ≤ y.2.hlc ∧ Weighs cfg sp y) ∨
    (y.2.observedAtUnixMs ≤ x.2.observedAtUnixMs ∧ y.2.hlc ≤ x.2.hlc)

-- `List.all`, since the search for an instance may also find that there are finitely many times
instance (cfg : StoreConfig) (sp : List (NodeID × Record)) : Decidable (Orderly cfg sp) :=
  decidable_of_iff
    ((∀ x ∈ sp, Weighs cfg sp x →
      (windowEnds sp).all (fun n => x.2.observedAtUnixMs ≤ n → InWindow cfg n x) = true) ∧
    ∀ x ∈ sp, Weighs cfg sp x → ∀ y ∈ sp, y.1 = x.1 →
      (x.2.observedAtUnixMs ≤ y.2.observedAtUnixMs ∧ x.2.hlc ≤ y.2.hlc ∧ Weighs cfg sp y) ∨
      (y.2.observedAtUnixMs ≤ x.2.observedAtUnixMs ∧ y.2.hlc ≤ x.2.hlc))
    ⟨fun h => ⟨fun x hx hw n hn => of_decide_eq_true (List.all_eq_true.mp (h.1 x hx hw) n hn),
        h.2⟩,
      fun h => ⟨fun x hx hw => List.all_eq_true.mpr fun n hn =>
        decide_eq_true (h.window x hx hw n hn), h.forward⟩⟩

/-! ### Small facts about what was spoken -/

section Spoken

variable {cfg : StoreConfig} {sp : List (NodeID × Record)} {kept : FMap NodeID Record}
  {l l' : List Record} {o : NodeID} {a b : Record} {x y : NodeID × Record}

theorem mem_spoken : (o, b) ∈ spoken kept l ↔
    kept.lookup o = some b ∨ (b ∈ l ∧ b.observerNodeID = o) := by
  unfold spoken
  rw [List.mem_append, List.mem_map, List.mem_map, FMap.lookup_eq_some_iff]
  constructor
  · rintro (⟨e, he, heq⟩ | ⟨c, hc, heq⟩)
    · cases heq
      exact Or.inl he
    · cases heq
      exact Or.inr ⟨hc, rfl⟩
  · rintro (he | ⟨hb, rfl⟩)
    · exact Or.inl ⟨_, he, rfl⟩
    · exact Or.inr ⟨b, hb, rfl⟩

theorem self_mem_spoken (h : a ∈ l) : (a.observerNodeID, a) ∈ spoken kept l :=
  mem_spoken.mpr (Or.inr ⟨h, rfl⟩)

theorem mem_spoken_concat :
    x ∈ spoken kept (l ++ [a]) ↔ x ∈ spoken kept l ∨ x = (a.observerNodeID, a) := by
  unfold spoken
  rw [List.map_append, ← List.append_assoc, List.mem_append, List.map_singleton,
    List.mem_singleton]

theorem spoken_mono (h : l ⊆ l') : spoken kept l ⊆ spoken kept l' := by
  rintro ⟨o, b⟩ hb
  rcases mem_spoken.mp hb with hkept | ⟨hmem, hobs⟩
  · exact mem_spoken.mpr (Or.inl hkept)
  · exact mem_spoken.mpr (Or.inr ⟨h hmem, hobs⟩)

theorem mem_weighty : x ∈ weighty cfg sp kept l ↔ x ∈ spoken kept l ∧ Weighs cfg sp x := by
  unfold weighty
  rw [List.mem_filter, decide_eq_true_iff]

theorem mem_speakers :
    o ∈ speakers cfg sp kept l ↔ ∃ b, (o, b) ∈ spoken kept l ∧ Weighs cfg sp (o, b) := by
  unfold speakers
  rw [List.mem_toFinset, List.mem_map]
  constructor
  · rintro ⟨⟨o', b⟩, hb, rfl⟩
    exact ⟨b, mem_weighty.mp hb⟩
  · rintro ⟨b, hb⟩
    exact ⟨(o, b), mem_weighty.mpr hb, rfl⟩

theorem hlc_le_topClock (h : x ∈ spoken kept l) (hw : Weighs cfg sp x) :
    x.2.hlc ≤ topClock cfg sp kept l :=
  MaxLoop.le_of_mem (fun x : NodeID × Record => x.2.hlc) 0 (mem_weighty.mpr ⟨h, hw⟩)

/-- Unless no word weighs, the greatest clock was spoken. -/
theorem exists_topClock (h : x ∈ spoken kept l) (hw : Weighs cfg sp x) :
    ∃ y ∈ spoken kept l, Weighs cfg sp y ∧ y.2.hlc = topClock cfg sp kept l := by
  rcases MaxLoop.eq_start_or_mem (fun x : NodeID × Record => x.2.hlc) 0
      (weighty cfg sp kept l) with hstart | ⟨y, hy, htop⟩
  · refine ⟨x, h, hw, le_antisymm (hlc_le_topClock h hw) ?_⟩
    unfold topClock
    rw [hstart]
    exact UInt64.zero_le
  · exact ⟨y, (mem_weighty.mp hy).1, (mem_weighty.mp hy).2, htop⟩

/-- Whether a word weighs is a matter of when it was observed. -/
theorem weighs_congr (h : x.2.observedAtUnixMs = y.2.observedAtUnixMs)
    (hw : Weighs cfg sp x) : Weighs cfg sp y := by
  obtain ⟨n, hn, hin, hcard⟩ := hw
  refine ⟨n, hn, ?_, hcard⟩
  unfold InWindow at hin ⊢
  rwa [← h]

theorem Reached.mono (h : Reached cfg sp kept l) (hsub : l ⊆ l') : Reached cfg sp kept l' := by
  obtain ⟨hcard, a, ha, hnew⟩ := h
  refine ⟨hcard.trans (Finset.card_le_card fun o ho => ?_), a, hsub ha, hnew⟩
  obtain ⟨b, hb, hw⟩ := mem_speakers.mp ho
  exact mem_speakers.mpr ⟨b, spoken_mono hsub hb, hw⟩

/-- A quorum is not empty. -/
theorem Reached.exists_weighs (h : Reached cfg sp kept l) :
    ∃ x ∈ spoken kept l, Weighs cfg sp x := by
  have hpos : 0 < (speakers cfg sp kept l).card := lt_of_lt_of_le cfg.quorum_pos h.1
  obtain ⟨o, ho⟩ := Finset.card_pos.mp hpos
  obtain ⟨b, hb, hw⟩ := mem_speakers.mp ho
  exact ⟨(o, b), hb, hw⟩

/-- A later word of an observer weighs where an earlier one does. -/
theorem Orderly.weighs_later (h : Orderly cfg sp) (hx : x ∈ sp) (hw : Weighs cfg sp x)
    (hy : y ∈ sp) (hobs : y.1 = x.1) (hat : x.2.observedAtUnixMs ≤ y.2.observedAtUnixMs) :
    Weighs cfg sp y := by
  rcases h.forward x hx hw y hy hobs with ⟨-, -, hwy⟩ | ⟨hat', -⟩
  · exact hwy
  · exact weighs_congr (le_antisymm hat hat') hw

end Spoken

theorem superseded_iff {set : FMap NodeID Record} {a : Record} :
    superseded set a = true ↔ ∃ cur, set.lookup a.observerNodeID = some cur ∧
      a.observedAtUnixMs ≤ cur.observedAtUnixMs ∧ a.hlc ≤ cur.hlc := by
  unfold superseded
  cases set.lookup a.observerNodeID <;> simp

/-! ### The window, on words -/

section Window

variable {cfg : StoreConfig} {sp : List (NodeID × Record)} {set : FMap NodeID Record} {o : NodeID}
  {b : Record}

theorem newestOf_mem_windowEnds (h : ∀ o b, set.lookup o = some b → (o, b) ∈ sp) :
    newestOf set ∈ windowEnds sp := by
  unfold newestOf windowEnds
  rcases MaxLoop.eq_start_or_mem Record.observedAtUnixMs 0 set.values with hstart | ⟨a, ha, hnew⟩
  · rw [hstart]
    exact List.mem_cons_self
  · obtain ⟨o, ho⟩ := FMap.mem_values.mp ha
    have hpos := MaxLoop.start_le Record.observedAtUnixMs 0 set.values
    rw [← hnew] at hpos ⊢
    refine List.mem_cons_of_mem _ (List.mem_filter.mpr ⟨?_, decide_eq_true hpos⟩)
    exact List.mem_map.mpr ⟨(o, a), h o a ho, rfl⟩

theorem le_newestOf (h : set.lookup o = some b) : b.observedAtUnixMs ≤ newestOf set :=
  MaxLoop.le_of_mem Record.observedAtUnixMs 0 (FMap.mem_values.mpr ⟨o, h⟩)

/-- The window does not drop what weighs. -/
theorem lookup_pruneWindow_of_weighs (hord : Orderly cfg sp)
    (hset : ∀ o b, set.lookup o = some b → (o, b) ∈ sp) (hb : set.lookup o = some b)
    (hw : Weighs cfg sp (o, b)) : (pruneWindow cfg.winMs set).lookup o = some b := by
  have hin := hord.window _ (hset o b hb) hw _ (newestOf_mem_windowEnds hset) (le_newestOf hb)
  rw [lookup_pruneWindow, hb, Option.bind_some, if_neg hin.2]

/-- A quorum that the window leaves weighs. -/
theorem weighs_of_quorum (hset : ∀ o b, set.lookup o = some b → (o, b) ∈ sp)
    (hlen : cfg.observerQuorum ≤ (pruneWindow cfg.winMs set).len)
    (hb : (pruneWindow cfg.winMs set).lookup o = some b) : Weighs cfg sp (o, b) := by
  have hin : ∀ o b, (pruneWindow cfg.winMs set).lookup o = some b →
      (o, b) ∈ sp ∧ InWindow cfg (newestOf set) (o, b) := by
    intro o b hb
    rw [lookup_pruneWindow, Option.bind_eq_some_iff] at hb
    obtain ⟨a, ha, hkeep⟩ := hb
    split_ifs at hkeep with hold
    cases hkeep
    exact ⟨hset o _ ha, le_newestOf ha, hold⟩
  refine ⟨newestOf set, newestOf_mem_windowEnds hset, (hin o b hb).2, hlen.trans ?_⟩
  rw [FMap.len_eq_card_keys]
  refine Finset.card_le_card fun o' ho' => ?_
  rw [List.mem_toFinset, FMap.mem_keys] at ho'
  obtain ⟨b', hb'⟩ := ho'
  rw [List.mem_toFinset, List.mem_map]
  exact ⟨(o', b'), List.mem_filter.mpr ⟨(hin o' b' hb').1, decide_eq_true (hin o' b' hb').2⟩, rfl⟩

end Window

/-! ## Burying a node -/

/-- The unsigned tombstone of a node at a clock. -/
def tombstoneAt (t : Topic) (node : NodeID) (hlc : UInt64) : Record :=
  { topic := t, nodeID := node, hlc := hlc, tombstone := true }

/-- What becomes of a slot of the node when the tombstone is written: an older record gives way,
and the keyless slot is filled when the node held none. -/
def buriedSlot (t : Topic) (hlc : UInt64) (present : Bool) (k : RecordKey) :
    Option Record → Option Record
  | some cur =>
    if cur.hlc < hlc then some { tombstoneAt t k.nodeID hlc with key := k.key } else some cur
  | none => if k.key = [] ∧ present = false then some (tombstoneAt t k.nodeID hlc) else none

/-- The slots of the node are those of `ts₀`, buried at a clock. -/
def BuriedAt (t : Topic) (ts₀ : TopicStore) (node : NodeID) (hlc : UInt64) (ts : TopicStore) :
    Prop :=
  ∀ k, k.nodeID = node →
    ts.records.lookup k = buriedSlot t hlc (ts₀.nodePresent node) k (ts₀.records.lookup k)

/-- Burying at one clock and then at another is burying at the later one. -/
theorem buriedSlot_buriedSlot (t : Topic) (h h' : UInt64) (present : Bool) (k : RecordKey)
    (cur : Option Record) :
    buriedSlot t h' true k (buriedSlot t h present k cur) =
      buriedSlot t (max h h') present k cur := by
  cases cur with
  | some cur =>
    unfold buriedSlot
    by_cases hcur : cur.hlc < h
    · simp only [if_pos hcur, if_pos (lt_max_of_lt_left hcur), tombstoneAt]
      rcases lt_or_ge h h' with hlt | hge
      · rw [if_pos hlt, max_eq_right hlt.le]
      · rw [if_neg (not_lt.mpr hge), max_eq_left hge]
    · simp only [if_neg hcur]
      by_cases hcur' : cur.hlc < h'
      · rw [if_pos hcur', if_pos (lt_max_of_lt_right hcur'),
          max_eq_right ((not_lt.mp hcur).trans hcur'.le)]
      · rw [if_neg hcur', if_neg fun hmax => (lt_max_iff.mp hmax).elim hcur hcur']
  | none =>
    unfold buriedSlot
    by_cases hk : k.key = [] ∧ present = false
    · simp only [if_pos hk, tombstoneAt]
      rcases lt_or_ge h h' with hlt | hge
      · rw [if_pos hlt, hk.1, max_eq_right hlt.le]
      · rw [if_neg (not_lt.mpr hge), max_eq_left hge]
    · simp [hk]

theorem exists_buriedSlot (t : Topic) (hlc : UInt64) (present : Bool) (k : RecordKey)
    (cur : Record) : ∃ r, buriedSlot t hlc present k (some cur) = some r := by
  unfold buriedSlot
  dsimp only
  split_ifs
  · exact ⟨_, rfl⟩
  · exact ⟨_, rfl⟩

/-- A buried slot shows what it held or the new clock. -/
theorem eq_or_hlc_of_buriedSlot {t : Topic} {hlc : UInt64} {present : Bool} {k : RecordKey}
    {cur : Option Record} {r : Record} (h : buriedSlot t hlc present k cur = some r) :
    cur = some r ∨ r.hlc = hlc := by
  unfold buriedSlot at h
  cases cur with
  | some cur =>
    dsimp only at h
    split_ifs at h
    · cases h
      exact Or.inr rfl
    · exact Or.inl h
  | none =>
    dsimp only at h
    split_ifs at h
    cases h
    exact Or.inr rfl

/-- The slots of the target after a quorum. -/
theorem lookup_synthesise_eq_buriedSlot (ts : TopicStore) (set : FMap NodeID Record) (att : Record)
    {k : RecordKey} (hk : k.nodeID = att.nodeID) :
    (synthesise ts set att).ts.records.lookup k =
      buriedSlot att.topic (maxHLCOf set + 1) (ts.nodePresent att.nodeID) k
        (ts.records.lookup k) := by
  obtain ⟨node, key⟩ := k
  cases hk
  rw [lookup_synthesise]
  unfold buriedSlot synthOf tombstoneAt
  cases ts.records.lookup { nodeID := att.nodeID, key := key } <;> simp

/-- The slots of other nodes stay. -/
theorem lookup_synthesise_of_ne (ts : TopicStore) (set : FMap NodeID Record) (att : Record)
    {k : RecordKey} (hk : k.nodeID ≠ att.nodeID) :
    (synthesise ts set att).ts.records.lookup k = ts.records.lookup k := by
  rw [lookup_synthesise]
  have hne : k ≠ { nodeID := att.nodeID } := fun h => hk (by rw [h])
  cases ts.records.lookup k <;> simp [hk, hne]

theorem nodePresent_congr {ts ts' : TopicStore} {node : NodeID}
    (h : ∀ k, k.nodeID = node → ts.records.lookup k = ts'.records.lookup k) :
    ts.nodePresent node = ts'.nodePresent node := by
  rw [Bool.eq_iff_iff, nodePresent_iff, nodePresent_iff]
  constructor
  · rintro ⟨k, r, hr, hk⟩
    exact ⟨k, r, (h k hk) ▸ hr, hk⟩
  · rintro ⟨k, r, hr, hk⟩
    exact ⟨k, r, (h k hk).symm ▸ hr, hk⟩

theorem nodeDead_congr {ts ts' : TopicStore} {node : NodeID} {hlc : UInt64}
    (h : ∀ k, k.nodeID = node → ts.records.lookup k = ts'.records.lookup k) :
    (ts.nodeDeadAtOrAbove node hlc).2 = (ts'.nodeDeadAtOrAbove node hlc).2 := by
  rw [Bool.eq_iff_iff, nodeDead_iff, nodeDead_iff, nodePresent_congr h]
  refine and_congr_right fun _ => forall_congr' fun k => forall_congr' fun r => ?_
  constructor
  · intro hall hr hk
    exact hall ((h k hk).symm ▸ hr) hk
  · intro hall hr hk
    exact hall ((h k hk) ▸ hr) hk

theorem fenced_congr {ts ts' : TopicStore} (h : ts.restoredAtUnixMs = ts'.restoredAtUnixMs)
    (a : Record) : ts.fenced a = ts'.fenced a := by
  unfold TopicStore.fenced
  rw [h]

section Buried

variable {t : Topic} {ts₀ ts : TopicStore} {node : NodeID} {h x : UInt64}

theorem not_present {k : RecordKey} (hp : ts₀.nodePresent node = false) (hk : k.nodeID = node) :
    ts₀.records.lookup k = none := by
  by_contra hne
  obtain ⟨r, hr⟩ := Option.ne_none_iff_exists'.mp hne
  rw [nodePresent_iff.mpr ⟨k, r, hr, hk⟩] at hp
  cases hp

/-- A buried node holds a slot. -/
theorem BuriedAt.present (hb : BuriedAt t ts₀ node h ts) : ts.nodePresent node = true := by
  rw [nodePresent_iff]
  cases hp : ts₀.nodePresent node with
  | true =>
    obtain ⟨k, r, hr, hk⟩ := nodePresent_iff.mp hp
    obtain ⟨r', hr'⟩ := exists_buriedSlot t h (ts₀.nodePresent node) k r
    rw [← hr, ← hb k hk] at hr'
    exact ⟨k, r', hr', hk⟩
  | false =>
    have hslot := hb { nodeID := node } rfl
    rw [not_present hp rfl, hp] at hslot
    exact ⟨{ nodeID := node }, _, hslot, rfl⟩

/-- Burying a buried node once more. -/
theorem BuriedAt.synthesise {att : Record} (hb : BuriedAt att.topic ts₀ att.nodeID h ts)
    (set : FMap NodeID Record) :
    BuriedAt att.topic ts₀ att.nodeID (max h (maxHLCOf set + 1))
      (synthesise ts set att).ts := by
  intro k hk
  rw [lookup_synthesise_eq_buriedSlot ts set att hk, hb.present, hb k hk, buriedSlot_buriedSlot]

/-- A clock the slots answered to begin with they answer when they are buried. -/
theorem BuriedAt.dead_of_dead (hb : BuriedAt t ts₀ node h ts)
    (hdead : (ts₀.nodeDeadAtOrAbove node x).2 = true) :
    (ts.nodeDeadAtOrAbove node x).2 = true := by
  obtain ⟨hp, hall⟩ := nodeDead_iff.mp hdead
  refine nodeDead_iff.mpr ⟨hb.present, ?_⟩
  intro k r hr hk
  rw [hb k hk, hp] at hr
  unfold buriedSlot at hr
  cases hcur : ts₀.records.lookup k with
  | none =>
    rw [hcur] at hr
    simp at hr
  | some cur =>
    have hold := hall k cur hcur hk
    rw [hcur] at hr
    dsimp only at hr
    split_ifs at hr with hlt
    · cases hr
      exact ⟨rfl, hold.2.trans hlt.le⟩
    · cases hr
      exact hold

/-- A clock that the slots answer only since they were buried is at most the one they were buried
at. -/
theorem BuriedAt.le_of_dead (hb : BuriedAt t ts₀ node h ts)
    (halive : (ts₀.nodeDeadAtOrAbove node x).2 = false)
    (hdead : (ts.nodeDeadAtOrAbove node x).2 = true) : x ≤ h := by
  obtain ⟨hp, hall⟩ := nodeDead_iff.mp hdead
  by_contra hgt
  rw [← Bool.not_eq_true, nodeDead_iff] at halive
  apply halive
  obtain ⟨k₁, r₁, hr₁, hk₁⟩ := nodePresent_iff.mp hp
  -- no slot shows the new clock, so all of them are as they were
  have hkeeps : ∀ k r, ts.records.lookup k = some r → k.nodeID = node →
      ts₀.records.lookup k = some r := by
    intro k r hr hk
    have hold := (hall k r hr hk).2
    rw [hb k hk] at hr
    rcases eq_or_hlc_of_buriedSlot hr with hcur | hclock
    · exact hcur
    · exact absurd (hclock ▸ hold) hgt
  have hback : ∀ k r, ts₀.records.lookup k = some r → k.nodeID = node →
      ts.records.lookup k = some r := by
    intro k r hr hk
    obtain ⟨r', hr'⟩ := exists_buriedSlot t h (ts₀.nodePresent node) k r
    rw [← hr, ← hb k hk] at hr'
    rw [hr', ← hkeeps k r' hr' hk, hr]
  refine ⟨nodePresent_iff.mpr ⟨k₁, r₁, hkeeps k₁ r₁ hr₁ hk₁, hk₁⟩, ?_⟩
  intro k r hr hk
  exact hall k r (hback k r hr hk) hk

/-- A node buried at a clock answers it unless a live record at or above it is left. -/
theorem BuriedAt.dead_iff (hb : BuriedAt t ts₀ node h ts) :
    (ts.nodeDeadAtOrAbove node h).2 = true ↔
      ∀ k r, ts₀.records.lookup k = some r → k.nodeID = node → r.tombstone = true ∨ r.hlc < h := by
  rw [nodeDead_iff, and_iff_right hb.present]
  constructor
  · intro hall k r hr hk
    by_cases hlt : r.hlc < h
    · exact Or.inr hlt
    · refine Or.inl (hall k r ?_ hk).1
      rw [hb k hk, hr]
      exact if_neg hlt
  · intro hall k r hr hk
    rw [hb k hk] at hr
    unfold buriedSlot at hr
    cases hcur : ts₀.records.lookup k with
    | none =>
      rw [hcur] at hr
      dsimp only at hr
      split_ifs at hr
      cases hr
      exact ⟨rfl, le_rfl⟩
    | some cur =>
      rw [hcur] at hr
      dsimp only at hr
      split_ifs at hr with hlt
      · cases hr
        exact ⟨rfl, le_rfl⟩
      · cases hr
        exact ⟨(hall k _ hcur hk).resolve_right hlt, not_lt.mp hlt⟩

/-- Burying at a clock no slot is below changes nothing. -/
theorem buriedSlot_eq_self {k : RecordKey} {cur : Option Record}
    (hcur : ∀ r, cur = some r → h ≤ r.hlc) : buriedSlot t h true k cur = cur := by
  unfold buriedSlot
  cases cur with
  | none => simp
  | some cur => exact if_neg (not_lt.mpr (hcur cur rfl))

end Buried

/-! ## What a run has computed -/

/-- The quorum was reached before the clock `c` was heard: the witnesses of the beginning do not
have it, and neither has a part of the run that reached the quorum. -/
def Early (cfg : StoreConfig) (sp : List (NodeID × Record)) (kept : FMap NodeID Record)
    (c : UInt64) (l : List Record) : Prop :=
  (∀ o b, kept.lookup o = some b → Weighs cfg sp (o, b) → b.hlc ≠ c) ∧
    ∃ front, front <+: l ∧ Reached cfg sp kept front ∧
      ∀ a ∈ front, Weighs cfg sp (a.observerNodeID, a) → a.hlc ≠ c

/-- What is known of a topic after the attestations `l` that count for the node were applied to
`ts₀`, where `sp` is all that is ever spoken and no clock that weighs is above `c`. Until the quorum
is reached the slots are those of the beginning and the witness set has every word that weighs, or a
later one. From then on it has the quorum, and the slots are buried one above its greatest clock;
unless the quorum was reached early, that clock is `c`. -/
structure Tracks (cfg : StoreConfig) (t : Topic) (sp : List (NodeID × Record)) (c : UInt64)
    (ts₀ : TopicStore) (node : NodeID) (l : List Record) (ts : TopicStore) : Prop where
  marks : ts.restoredAtUnixMs = ts₀.restoredAtUnixMs
  origin : ∀ o b, (ts.witnesses node).lookup o = some b → (o, b) ∈ spoken (ts₀.witnesses node) l
  quiet : (∀ a ∈ l, superseded (ts₀.witnesses node) a = true) →
    ts.witnesses node = ts₀.witnesses node
  before : ¬ Reached cfg sp (ts₀.witnesses node) l → ∀ k, k.nodeID = node →
    ts.records.lookup k = ts₀.records.lookup k
  short : ¬ Reached cfg sp (ts₀.witnesses node) l →
    (∃ a ∈ l, superseded (ts₀.witnesses node) a = false) →
    (ts.witnesses node).len < cfg.observerQuorum
  pending : ¬ Reached cfg sp (ts₀.witnesses node) l →
    ∀ o a, (o, a) ∈ spoken (ts₀.witnesses node) l → Weighs cfg sp (o, a) →
      ∃ b, (ts.witnesses node).lookup o = some b ∧ Weighs cfg sp (o, b) ∧
        a.observedAtUnixMs ≤ b.observedAtUnixMs ∧ a.hlc ≤ b.hlc
  settled : Reached cfg sp (ts₀.witnesses node) l →
    cfg.observerQuorum ≤ (ts.witnesses node).len ∧
      ∀ o b, (ts.witnesses node).lookup o = some b → Weighs cfg sp (o, b)
  covered : Reached cfg sp (ts₀.witnesses node) l →
    ∀ o a, (o, a) ∈ spoken (ts₀.witnesses node) l → Weighs cfg sp (o, a) →
      a.hlc ≤ maxHLCOf (ts.witnesses node) ∨ (ts.nodeDeadAtOrAbove node a.hlc).2 = true
  level : Reached cfg sp (ts₀.witnesses node) l →
    (maxHLCOf (ts.witnesses node) = c ∧ BuriedAt t ts₀ node (c + 1) ts) ∨
    (Early cfg sp (ts₀.witnesses node) c l ∧
      ∃ m < c, (∃ x ∈ spoken (ts₀.witnesses node) l, Weighs cfg sp x ∧ x.2.hlc = m) ∧
        BuriedAt t ts₀ node (m + 1) ts ∧
        (maxHLCOf (ts.witnesses node) = m ∨ (maxHLCOf (ts.witnesses node) = c ∧ c + 1 = 0)))

theorem Early.mono {cfg : StoreConfig} {sp : List (NodeID × Record)} {kept : FMap NodeID Record}
    {c : UInt64} {l : List Record} (h : Early cfg sp kept c l) (back : List Record) :
    Early cfg sp kept c (l ++ back) := by
  obtain ⟨hkept, front, hfront, hreach, hnot⟩ := h
  exact ⟨hkept, front, hfront.trans (List.prefix_append l back), hreach, hnot⟩

theorem not_reached_nil (cfg : StoreConfig) (sp : List (NodeID × Record))
    (kept : FMap NodeID Record) : ¬ Reached cfg sp kept [] := by
  rintro ⟨-, a, ha, -⟩
  cases ha

theorem tracks_nil (cfg : StoreConfig) (t : Topic) (sp : List (NodeID × Record)) (c : UInt64)
    (ts₀ : TopicStore) (node : NodeID) : Tracks cfg t sp c ts₀ node [] ts₀ where
  marks := rfl
  origin o b hb := mem_spoken.mpr (Or.inl hb)
  quiet _ := rfl
  before _ _ _ := rfl
  short := by
    rintro - ⟨a, ha, -⟩
    cases ha
  pending _ o a ha hw := by
    rcases mem_spoken.mp ha with hkept | ⟨hmem, -⟩
    · exact ⟨a, hkept, hw, le_rfl, le_rfl⟩
    · cases hmem
  settled hr := absurd hr (not_reached_nil _ _ _)
  covered hr := absurd hr (not_reached_nil _ _ _)
  level hr := absurd hr (not_reached_nil _ _ _)

section Facts

variable {cfg : StoreConfig} {t : Topic} {sp : List (NodeID × Record)} {c : UInt64}
  {ts₀ ts : TopicStore} {node : NodeID} {l : List Record}

/-- Once the quorum is reached the node is buried. -/
theorem Tracks.buried (h : Tracks cfg t sp c ts₀ node l ts)
    (hreach : Reached cfg sp (ts₀.witnesses node) l) : ∃ x, BuriedAt t ts₀ node x ts := by
  rcases h.level hreach with ⟨-, hb⟩ | ⟨-, m, -, -, hb, -⟩
  · exact ⟨_, hb⟩
  · exact ⟨_, hb⟩

/-- What the slots answered to begin with they answer later. -/
theorem Tracks.dead_of_dead (h : Tracks cfg t sp c ts₀ node l ts) {hlc : UInt64}
    (hdead : (ts₀.nodeDeadAtOrAbove node hlc).2 = true) :
    (ts.nodeDeadAtOrAbove node hlc).2 = true := by
  by_cases hreach : Reached cfg sp (ts₀.witnesses node) l
  · obtain ⟨x, hb⟩ := h.buried hreach
    exact hb.dead_of_dead hdead
  · rwa [nodeDead_congr (h.before hreach)]

/-- Only the marks, the slots of the node and its witnesses matter. -/
theorem Tracks.frame {ts' : TopicStore} (h : Tracks cfg t sp c ts₀ node l ts)
    (hmarks : ts'.restoredAtUnixMs = ts.restoredAtUnixMs)
    (hslots : ∀ k, k.nodeID = node → ts'.records.lookup k = ts.records.lookup k)
    (hset : ts'.witnesses node = ts.witnesses node) : Tracks cfg t sp c ts₀ node l ts' := by
  have hburied : ∀ x, BuriedAt t ts₀ node x ts → BuriedAt t ts₀ node x ts' :=
    fun x hb k hk => (hslots k hk).trans (hb k hk)
  refine ⟨hmarks.trans h.marks, ?_, ?_, fun hno k hk => (hslots k hk).trans (h.before hno k hk),
    ?_, ?_, ?_, ?_, ?_⟩
  · rw [hset]
    exact h.origin
  · rw [hset]
    exact h.quiet
  · rw [hset]
    exact h.short
  · rw [hset]
    exact h.pending
  · rw [hset]
    exact h.settled
  · intro hreach o a ha hw
    rw [hset, nodeDead_congr hslots]
    exact h.covered hreach o a ha hw
  · intro hreach
    rw [hset]
    refine (h.level hreach).imp (fun hl => ⟨hl.1, hburied _ hl.2⟩) ?_
    rintro ⟨hearly, m, hm, hx, hb, hmax⟩
    exact ⟨hearly, m, hm, hx, hburied _ hb, hmax⟩

end Facts

/-! ## One attestation -/

section Step

variable {cfg : StoreConfig} {nowMs : Int64} {sp : List (NodeID × Record)} {c : UInt64}
  {ts₀ ts : TopicStore} {l : List Record} {att : Record}

/-- A superseded attestation adds nobody to the quorum. -/
theorem Tracks.not_reached_of_superseded (h : Tracks cfg att.topic sp c ts₀ att.nodeID l ts)
    (hno : ¬ Reached cfg sp (ts₀.witnesses att.nodeID) l)
    (hsup : superseded (ts.witnesses att.nodeID) att = true) :
    ¬ Reached cfg sp (ts₀.witnesses att.nodeID) (l ++ [att]) ∧
      ((∃ a ∈ l ++ [att], superseded (ts₀.witnesses att.nodeID) a = false) →
        ∃ a ∈ l, superseded (ts₀.witnesses att.nodeID) a = false) := by
  -- if nothing new was said before, the set is that of the beginning and the word is not new
  have hnew : (∃ a ∈ l ++ [att], superseded (ts₀.witnesses att.nodeID) a = false) →
      ∃ a ∈ l, superseded (ts₀.witnesses att.nodeID) a = false := by
    rintro ⟨a, ha, hfresh⟩
    by_contra hold
    push Not at hold
    have hquiet := h.quiet fun b hb => Bool.eq_true_of_not_eq_false (hold b hb)
    rcases List.mem_append.mp ha with hmem | hself
    · exact hold a hmem hfresh
    · rw [List.mem_singleton.mp hself, ← hquiet, hsup] at hfresh
      cases hfresh
  refine ⟨?_, hnew⟩
  rintro ⟨hcard, hnovel⟩
  refine absurd (h.short hno (hnew hnovel)) (not_lt.mpr (hcard.trans ?_))
  rw [FMap.len_eq_card_keys]
  refine Finset.card_le_card fun o ho => ?_
  rw [List.mem_toFinset, FMap.mem_keys]
  obtain ⟨a, ha, hw⟩ := mem_speakers.mp ho
  rcases mem_spoken_concat.mp ha with hmem | hself
  · obtain ⟨b, hb, -⟩ := h.pending hno o a hmem hw
    exact ⟨b, hb⟩
  · obtain ⟨rfl, rfl⟩ := Prod.mk.inj hself
    obtain ⟨cur, hcur, -⟩ := superseded_iff.mp hsup
    exact ⟨cur, hcur⟩

/-- An attestation that changes nothing leaves the run on track. -/
theorem Tracks.refused (h : Tracks cfg att.topic sp c ts₀ att.nodeID l ts) (hord : Orderly cfg sp)
    (hpool : spoken (ts₀.witnesses att.nodeID) (l ++ [att]) ⊆ sp)
    (halive : (ts₀.nodeDeadAtOrAbove att.nodeID att.hlc).2 = false)
    (hold : (ts.nodeDeadAtOrAbove att.nodeID att.hlc).2 = true ∨
      superseded (ts.witnesses att.nodeID) att = true) :
    Tracks cfg att.topic sp c ts₀ att.nodeID (l ++ [att]) ts := by
  have hsub : spoken (ts₀.witnesses att.nodeID) l ⊆
      spoken (ts₀.witnesses att.nodeID) (l ++ [att]) := spoken_mono (List.subset_append_left _ _)
  have hquiet : (∀ a ∈ l ++ [att], superseded (ts₀.witnesses att.nodeID) a = true) →
      ts.witnesses att.nodeID = ts₀.witnesses att.nodeID := fun hall =>
    h.quiet fun a ha => hall a (List.mem_append_left _ ha)
  by_cases hreach : Reached cfg sp (ts₀.witnesses att.nodeID) l
  · -- the quorum stands: the attestation is answered, or its observer has a greater clock
    have hreach' := hreach.mono (List.subset_append_left l [att])
    refine ⟨h.marks, fun o b hb => hsub (h.origin o b hb), hquiet, fun hno => absurd hreach' hno,
      fun hno => absurd hreach' hno, fun hno => absurd hreach' hno, fun _ => h.settled hreach,
      fun _ o a ha hw => ?_, fun _ => ?_⟩
    · rcases mem_spoken_concat.mp ha with hmem | hself
      · exact h.covered hreach o a hmem hw
      · obtain ⟨rfl, rfl⟩ := Prod.mk.inj hself
        refine hold.symm.imp_left fun hsup => ?_
        obtain ⟨cur, hcur, -, hle⟩ := superseded_iff.mp hsup
        exact hle.trans (hlc_le_maxHLCOf (FMap.mem_values.mpr ⟨_, hcur⟩))
    · refine (h.level hreach).imp_right ?_
      rintro ⟨hearly, m, hm, ⟨x, hx, hwx⟩, hlevel⟩
      exact ⟨hearly.mono _, m, hm, ⟨x, hsub hx, hwx⟩, hlevel⟩
  · -- before the quorum the slots are those of the beginning, which do not answer it
    have hsup : superseded (ts.witnesses att.nodeID) att = true := by
      refine hold.resolve_left fun hdead => ?_
      rw [nodeDead_congr (h.before hreach), halive] at hdead
      cases hdead
    obtain ⟨hno', hnew⟩ := h.not_reached_of_superseded hreach hsup
    refine ⟨h.marks, fun o b hb => hsub (h.origin o b hb), hquiet, fun _ => h.before hreach,
      fun _ hnovel => h.short hreach (hnew hnovel), fun _ o a ha hw => ?_,
      fun hr => absurd hr hno', fun hr => absurd hr hno', fun hr => absurd hr hno'⟩
    rcases mem_spoken_concat.mp ha with hmem | hself
    · exact h.pending hreach o a hmem hw
    · obtain ⟨rfl, rfl⟩ := Prod.mk.inj hself
      obtain ⟨cur, hcur, hat, hle⟩ := superseded_iff.mp hsup
      refine ⟨cur, hcur, ?_, hat, hle⟩
      exact hord.weighs_later (hpool ha) hw (hpool (hsub (h.origin _ _ hcur))) rfl hat

/-! ### An admitted attestation -/

/-- The set an admitted attestation joins, before the window is applied, was spoken. -/
theorem Tracks.joined (h : Tracks cfg att.topic sp c ts₀ att.nodeID l ts) {o : NodeID} {b : Record}
    (hb : ((ts.witnesses att.nodeID).insert att.observerNodeID att).lookup o = some b) :
    (o, b) ∈ spoken (ts₀.witnesses att.nodeID) (l ++ [att]) := by
  rw [mem_spoken_concat]
  rw [FMap.lookup_insert_eq] at hb
  split_ifs at hb with ho
  · cases hb
    exact Or.inr (by rw [ho])
  · exact Or.inl (h.origin o b hb)

theorem Tracks.origin_after (h : Tracks cfg att.topic sp c ts₀ att.nodeID l ts) {o : NodeID}
    {b : Record} (hb : (ts.witnessesAfter cfg att).lookup o = some b) :
    (o, b) ∈ spoken (ts₀.witnesses att.nodeID) (l ++ [att]) := by
  apply h.joined
  rw [FMap.lookup_insert_eq]
  rcases lookup_witnessesAfter hb with ⟨rfl, rfl⟩ | hold
  · exact if_pos rfl
  · split_ifs with ho
    · -- the observer's earlier word is gone
      unfold TopicStore.witnessesAfter at hb
      rw [lookup_pruneWindow, FMap.lookup_insert_eq, if_pos ho, Option.bind_some] at hb
      split_ifs at hb
      exact hb
    · exact hold

/-- The attestation itself stays if it weighs. -/
theorem Tracks.lookup_self (h : Tracks cfg att.topic sp c ts₀ att.nodeID l ts)
    (hord : Orderly cfg sp) (hpool : spoken (ts₀.witnesses att.nodeID) (l ++ [att]) ⊆ sp)
    (hw : Weighs cfg sp (att.observerNodeID, att)) :
    (ts.witnessesAfter cfg att).lookup att.observerNodeID = some att :=
  lookup_pruneWindow_of_weighs hord (fun _ _ hb => hpool (h.joined hb))
    (by rw [FMap.lookup_insert_eq, if_pos rfl]) hw

/-- A kept word that weighs stays, or its observer has moved forward. -/
theorem Tracks.lookup_later (h : Tracks cfg att.topic sp c ts₀ att.nodeID l ts)
    (hord : Orderly cfg sp) (hpool : spoken (ts₀.witnesses att.nodeID) (l ++ [att]) ⊆ sp)
    (hfresh : superseded (ts.witnesses att.nodeID) att = false) {o : NodeID} {b : Record}
    (hb : (ts.witnesses att.nodeID).lookup o = some b) (hw : Weighs cfg sp (o, b)) :
    ∃ b', (ts.witnessesAfter cfg att).lookup o = some b' ∧ Weighs cfg sp (o, b') ∧
      b.observedAtUnixMs ≤ b'.observedAtUnixMs ∧ b.hlc ≤ b'.hlc := by
  have hset : ∀ o b, ((ts.witnesses att.nodeID).insert att.observerNodeID att).lookup o = some b →
      (o, b) ∈ sp := fun o b hb => hpool (h.joined hb)
  by_cases ho : o = att.observerNodeID
  · subst ho
    have hself : (att.observerNodeID, att) ∈ sp :=
      hpool (self_mem_spoken (List.mem_append_right l (List.mem_singleton_self att)))
    have hbsp : (att.observerNodeID, b) ∈ sp :=
      hpool (spoken_mono (List.subset_append_left _ _) (h.origin _ b hb))
    rcases hord.forward _ hbsp hw _ hself rfl with ⟨hat, hle, hwatt⟩ | hge
    · exact ⟨att, h.lookup_self hord hpool hwatt, hwatt, hat, hle⟩
    · rw [← Bool.not_eq_true, superseded_iff] at hfresh
      exact absurd ⟨b, hb, hge⟩ hfresh
  · refine ⟨b, lookup_pruneWindow_of_weighs hord hset ?_ hw, hw, le_rfl, le_rfl⟩
    rw [FMap.lookup_insert_eq, if_neg ho]
    exact hb

/-- Before the quorum every word that weighs stays, or its observer has moved forward. -/
theorem Tracks.pending_after (h : Tracks cfg att.topic sp c ts₀ att.nodeID l ts)
    (hord : Orderly cfg sp) (hpool : spoken (ts₀.witnesses att.nodeID) (l ++ [att]) ⊆ sp)
    (hfresh : superseded (ts.witnesses att.nodeID) att = false)
    (hno : ¬ Reached cfg sp (ts₀.witnesses att.nodeID) l) {o : NodeID} {a : Record}
    (ha : (o, a) ∈ spoken (ts₀.witnesses att.nodeID) (l ++ [att])) (hw : Weighs cfg sp (o, a)) :
    ∃ b, (ts.witnessesAfter cfg att).lookup o = some b ∧ Weighs cfg sp (o, b) ∧
      a.observedAtUnixMs ≤ b.observedAtUnixMs ∧ a.hlc ≤ b.hlc := by
  rcases mem_spoken_concat.mp ha with hmem | hself
  · obtain ⟨b, hb, hwb, hat, hle⟩ := h.pending hno o a hmem hw
    obtain ⟨b', hb', hwb', hat', hle'⟩ := h.lookup_later hord hpool hfresh hb hwb
    exact ⟨b', hb', hwb', hat.trans hat', hle.trans hle'⟩
  · obtain ⟨rfl, rfl⟩ := Prod.mk.inj hself
    exact ⟨a, h.lookup_self hord hpool hw, hw, le_rfl, le_rfl⟩

/-- With an admitted attestation something new is said. -/
theorem Tracks.novel (h : Tracks cfg att.topic sp c ts₀ att.nodeID l ts)
    (hfresh : superseded (ts.witnesses att.nodeID) att = false) :
    ∃ a ∈ l ++ [att], superseded (ts₀.witnesses att.nodeID) a = false := by
  by_cases hold : ∃ a ∈ l, superseded (ts₀.witnesses att.nodeID) a = false
  · obtain ⟨a, ha, hnew⟩ := hold
    exact ⟨a, List.mem_append_left _ ha, hnew⟩
  · push Not at hold
    rw [h.quiet fun a ha => Bool.eq_true_of_not_eq_false (hold a ha)] at hfresh
    exact ⟨att, List.mem_append_right l (List.mem_singleton_self att), hfresh⟩

/-- With an admitted attestation the quorum is reached exactly when the set has the quorum. -/
theorem Tracks.reached_iff (h : Tracks cfg att.topic sp c ts₀ att.nodeID l ts)
    (hord : Orderly cfg sp) (hpool : spoken (ts₀.witnesses att.nodeID) (l ++ [att]) ⊆ sp)
    (hfresh : superseded (ts.witnesses att.nodeID) att = false) :
    Reached cfg sp (ts₀.witnesses att.nodeID) (l ++ [att]) ↔
      cfg.observerQuorum ≤ (ts.witnessesAfter cfg att).len := by
  constructor
  · intro hreach'
    by_cases hreach : Reached cfg sp (ts₀.witnesses att.nodeID) l
    · obtain ⟨hlen, hall⟩ := h.settled hreach
      refine hlen.trans (FMap.len_mono fun o ho => ?_)
      obtain ⟨b, hb⟩ := FMap.mem_keys.mp ho
      obtain ⟨b', hb', -⟩ := h.lookup_later hord hpool hfresh hb (hall o b hb)
      exact FMap.mem_keys.mpr ⟨b', hb'⟩
    · refine hreach'.1.trans ?_
      rw [FMap.len_eq_card_keys]
      refine Finset.card_le_card fun o ho => ?_
      obtain ⟨a, ha, hw⟩ := mem_speakers.mp ho
      obtain ⟨b, hb, -⟩ := h.pending_after hord hpool hfresh hreach ha hw
      exact List.mem_toFinset.mpr (FMap.mem_keys.mpr ⟨b, hb⟩)
  · intro hlen
    refine ⟨hlen.trans ?_, h.novel hfresh⟩
    rw [FMap.len_eq_card_keys]
    refine Finset.card_le_card fun o ho => ?_
    obtain ⟨b, hb⟩ := FMap.mem_keys.mp (List.mem_toFinset.mp ho)
    refine mem_speakers.mpr ⟨b, h.origin_after hb, ?_⟩
    exact weighs_of_quorum (fun _ _ hb => hpool (h.joined hb)) hlen hb

theorem Tracks.kept (h : Tracks cfg att.topic sp c ts₀ att.nodeID l ts) (hord : Orderly cfg sp)
    (hpool : spoken (ts₀.witnesses att.nodeID) (l ++ [att]) ⊆ sp)
    (hfresh : superseded (ts.witnesses att.nodeID) att = false)
    (hlen : (ts.witnessesAfter cfg att).len < cfg.observerQuorum) :
    Tracks cfg att.topic sp c ts₀ att.nodeID (l ++ [att]) (ts.accumulate cfg att) := by
  have hno' : ¬ Reached cfg sp (ts₀.witnesses att.nodeID) (l ++ [att]) := by
    rw [h.reached_iff hord hpool hfresh]
    exact not_le.mpr hlen
  have hno : ¬ Reached cfg sp (ts₀.witnesses att.nodeID) l := fun hr =>
    hno' (hr.mono (List.subset_append_left _ _))
  have hset : (ts.accumulate cfg att).witnesses att.nodeID = ts.witnessesAfter cfg att := by
    rw [witnesses_accumulate, if_pos rfl]
  refine ⟨h.marks, ?_, fun hall => ?_, fun _ => h.before hno, ?_, ?_, fun hr => absurd hr hno',
    fun hr => absurd hr hno', fun hr => absurd hr hno'⟩
  · rw [hset]
    exact fun o b hb => h.origin_after hb
  · obtain ⟨a, ha, hnew⟩ := h.novel hfresh
    rw [hall a ha] at hnew
    cases hnew
  · rw [hset]
    exact fun _ _ => hlen
  · rw [hset]
    exact fun _ o a ha hw => h.pending_after hord hpool hfresh hno ha hw

/-! ### Crossing -/

/-- The greatest clock of a set that is not empty is one of its clocks. -/
theorem exists_maxHLCOf {set : FMap NodeID Record} (h : 0 < set.len) :
    ∃ o b, set.lookup o = some b ∧ b.hlc = maxHLCOf set := by
  rcases MaxLoop.eq_start_or_mem Record.hlc 0 set.values with hstart | ⟨b, hb, hmax⟩
  · obtain ⟨b, hb⟩ : ∃ b, b ∈ set.values := by
      refine List.exists_mem_of_length_pos ?_
      rwa [FMap.length_values]
    obtain ⟨o, ho⟩ := FMap.mem_values.mp hb
    refine ⟨o, b, ho, le_antisymm (hlc_le_maxHLCOf hb) ?_⟩
    unfold maxHLCOf
    rw [hstart]
    exact UInt64.zero_le
  · obtain ⟨o, ho⟩ := FMap.mem_values.mp hb
    exact ⟨o, b, ho, hmax⟩

/-- The greatest clock of a set that crosses is one that weighs. -/
theorem Tracks.exists_max (h : Tracks cfg att.topic sp c ts₀ att.nodeID l ts)
    (hpool : spoken (ts₀.witnesses att.nodeID) (l ++ [att]) ⊆ sp)
    (hlen : cfg.observerQuorum ≤ (ts.witnessesAfter cfg att).len) :
    ∃ x ∈ spoken (ts₀.witnesses att.nodeID) (l ++ [att]), Weighs cfg sp x ∧
      x.2.hlc = maxHLCOf (ts.witnessesAfter cfg att) := by
  obtain ⟨o, b, hb, hmax⟩ := exists_maxHLCOf (lt_of_lt_of_le cfg.quorum_pos hlen)
  exact ⟨(o, b), h.origin_after hb, weighs_of_quorum (fun _ _ hb => hpool (h.joined hb)) hlen hb,
    hmax⟩

/-- The level at which a first crossing buries. -/
theorem Tracks.level_first (h : Tracks cfg att.topic sp c ts₀ att.nodeID l ts)
    (hord : Orderly cfg sp) (hpool : spoken (ts₀.witnesses att.nodeID) (l ++ [att]) ⊆ sp)
    (hc : ∀ x ∈ spoken (ts₀.witnesses att.nodeID) (l ++ [att]), Weighs cfg sp x → x.2.hlc ≤ c)
    (hfresh : superseded (ts.witnesses att.nodeID) att = false)
    (hno : ¬ Reached cfg sp (ts₀.witnesses att.nodeID) l)
    (hlen : cfg.observerQuorum ≤ (ts.witnessesAfter cfg att).len)
    {m : UInt64} (hm : maxHLCOf (ts.witnessesAfter cfg att) = m) :
    m = c ∨ (m < c ∧ Early cfg sp (ts₀.witnesses att.nodeID) c (l ++ [att])) := by
  obtain ⟨x, hx, hwx, hxm⟩ := h.exists_max hpool hlen
  have hle : m ≤ c := by
    rw [← hm, ← hxm]
    exact hc x hx hwx
  refine hle.eq_or_lt.imp_right fun hlt => ⟨hlt, ?_⟩
  -- a word with clock `c` would have put it into the set
  have hbelow : ∀ o a, (o, a) ∈ spoken (ts₀.witnesses att.nodeID) (l ++ [att]) →
      Weighs cfg sp (o, a) → a.hlc ≠ c := by
    intro o a ha hw heq
    obtain ⟨b, hb, -, -, hle'⟩ := h.pending_after hord hpool hfresh hno ha hw
    have hbm := hlc_le_maxHLCOf (FMap.mem_values.mpr ⟨o, hb⟩)
    rw [hm] at hbm
    exact absurd (heq ▸ hle'.trans hbm) (not_le.mpr hlt)
  refine ⟨fun o b hb hw => hbelow o b (mem_spoken.mpr (Or.inl hb)) hw, l ++ [att],
    List.prefix_refl _, (h.reached_iff hord hpool hfresh).mpr hlen, fun a ha hw => ?_⟩
  exact hbelow _ a (self_mem_spoken ha) hw

/-- The level at which a later crossing buries: the greatest clock of the set has not gone back. -/
theorem Tracks.level_later (h : Tracks cfg att.topic sp c ts₀ att.nodeID l ts)
    (hreach : Reached cfg sp (ts₀.witnesses att.nodeID) l) {m : UInt64}
    (hm : maxHLCOf (ts.witnessesAfter cfg att) = m) (hgrow : maxHLCOf (ts.witnesses att.nodeID) ≤ m)
    (hle : m ≤ c) (hx : ∃ x ∈ spoken (ts₀.witnesses att.nodeID) (l ++ [att]), Weighs cfg sp x ∧
      x.2.hlc = m) {ts' : TopicStore}
    (hts : ts' = (synthesise (ts.accumulate cfg att) (ts.witnessesAfter cfg att) att).ts) :
    (m = c ∧ BuriedAt att.topic ts₀ att.nodeID (c + 1) ts') ∨
    (Early cfg sp (ts₀.witnesses att.nodeID) c (l ++ [att]) ∧
      ∃ m₁ < c, (∃ x ∈ spoken (ts₀.witnesses att.nodeID) (l ++ [att]), Weighs cfg sp x ∧
          x.2.hlc = m₁) ∧
        BuriedAt att.topic ts₀ att.nodeID (m₁ + 1) ts' ∧ (m = m₁ ∨ (m = c ∧ c + 1 = 0))) := by
  -- the slots are buried once more
  have hbury : ∀ x, BuriedAt att.topic ts₀ att.nodeID x ts →
      BuriedAt att.topic ts₀ att.nodeID (max x (m + 1)) ts' := by
    intro x hb
    have hacc : BuriedAt att.topic ts₀ att.nodeID x (ts.accumulate cfg att) := hb
    rw [hts, ← hm]
    exact hacc.synthesise _
  rcases h.level hreach with ⟨hmax, hb⟩ | ⟨hearly, m₀, hlt, ⟨x₀, hx₀, hw₀⟩, hb, hmax⟩
  · obtain rfl : m = c := le_antisymm hle (hmax ▸ hgrow)
    have hb' := hbury _ hb
    rw [max_self] at hb'
    exact Or.inl ⟨rfl, hb'⟩
  have hx₀' : ∃ x ∈ spoken (ts₀.witnesses att.nodeID) (l ++ [att]), Weighs cfg sp x ∧
      x.2.hlc = m₀ := ⟨x₀, spoken_mono (List.subset_append_left _ _) hx₀, hw₀⟩
  have hb' := hbury _ hb
  rcases hle.eq_or_lt with rfl | hlt'
  · by_cases htop : m + 1 = 0
    · -- one above the top is zero, which buries nothing
      rw [htop, max_eq_left UInt64.zero_le] at hb'
      exact Or.inr ⟨hearly.mono _, m₀, hlt, hx₀', hb', Or.inr ⟨rfl, htop⟩⟩
    · rw [max_eq_right (Words.add_one_le_add_one hlt.le (Words.lt_add_one_of_ne htop))] at hb'
      exact Or.inl ⟨rfl, hb'⟩
  · have hgrow' : m₀ ≤ m := by
      rcases hmax with hmax | ⟨hmax, -⟩
      · exact hmax ▸ hgrow
      · exact absurd (hmax ▸ hgrow) (not_le.mpr hlt')
    rw [max_eq_right (Words.add_one_le_add_one hgrow' (Words.lt_add_one_of_lt hlt'))] at hb'
    exact Or.inr ⟨hearly.mono _, m, hlt', hx, hb', Or.inl rfl⟩

/-- The greatest clock of the witnesses does not go back. -/
theorem Tracks.max_grows (h : Tracks cfg att.topic sp c ts₀ att.nodeID l ts)
    (hord : Orderly cfg sp) (hpool : spoken (ts₀.witnesses att.nodeID) (l ++ [att]) ⊆ sp)
    (hfresh : superseded (ts.witnesses att.nodeID) att = false)
    (hreach : Reached cfg sp (ts₀.witnesses att.nodeID) l) :
    maxHLCOf (ts.witnesses att.nodeID) ≤ maxHLCOf (ts.witnessesAfter cfg att) := by
  obtain ⟨hquorum, hall⟩ := h.settled hreach
  obtain ⟨o, b, hb, hmax⟩ := exists_maxHLCOf (lt_of_lt_of_le cfg.quorum_pos hquorum)
  obtain ⟨b', hb', -, -, hle⟩ := h.lookup_later hord hpool hfresh hb (hall o b hb)
  exact hmax ▸ hle.trans (hlc_le_maxHLCOf (FMap.mem_values.mpr ⟨o, hb'⟩))

/-- A crossing covers what was spoken: the set only moves forward, and what was answered stays
answered. -/
theorem Tracks.covered_crossed (h : Tracks cfg att.topic sp c ts₀ att.nodeID l ts)
    (hord : Orderly cfg sp) (hpool : spoken (ts₀.witnesses att.nodeID) (l ++ [att]) ⊆ sp)
    (hfresh : superseded (ts.witnesses att.nodeID) att = false) {o : NodeID} {a : Record}
    (ha : (o, a) ∈ spoken (ts₀.witnesses att.nodeID) (l ++ [att])) (hw : Weighs cfg sp (o, a)) :
    a.hlc ≤ maxHLCOf (ts.witnessesAfter cfg att) ∨
      ((synthesise (ts.accumulate cfg att) (ts.witnessesAfter cfg att) att).ts.nodeDeadAtOrAbove
        att.nodeID a.hlc).2 = true := by
  by_cases hreach : Reached cfg sp (ts₀.witnesses att.nodeID) l
  · rcases mem_spoken_concat.mp ha with hmem | hself
    · refine (h.covered hreach o a hmem hw).imp (fun hle => ?_) fun hdead => ?_
      · exact hle.trans (h.max_grows hord hpool hfresh hreach)
      · have hburied : BuriedAt att.topic ts att.nodeID (maxHLCOf (ts.witnessesAfter cfg att) + 1)
            (synthesise (ts.accumulate cfg att) (ts.witnessesAfter cfg att) att).ts :=
          fun k hk => lookup_synthesise_eq_buriedSlot _ _ _ hk
        exact hburied.dead_of_dead hdead
    · obtain ⟨rfl, rfl⟩ := Prod.mk.inj hself
      exact Or.inl (hlc_le_maxHLCOf (FMap.mem_values.mpr ⟨_, h.lookup_self hord hpool hw⟩))
  · obtain ⟨b, hb, -, -, hle⟩ := h.pending_after hord hpool hfresh hreach ha hw
    exact Or.inl (hle.trans (hlc_le_maxHLCOf (FMap.mem_values.mpr ⟨o, hb⟩)))

/-- A first crossing buries the slots of the beginning. -/
theorem Tracks.buried_first (h : Tracks cfg att.topic sp c ts₀ att.nodeID l ts)
    (hno : ¬ Reached cfg sp (ts₀.witnesses att.nodeID) l) :
    BuriedAt att.topic ts₀ att.nodeID (maxHLCOf (ts.witnessesAfter cfg att) + 1)
      (synthesise (ts.accumulate cfg att) (ts.witnessesAfter cfg att) att).ts := by
  intro k hk
  rw [lookup_synthesise_eq_buriedSlot _ _ _ hk]
  show buriedSlot _ _ (ts.nodePresent att.nodeID) k (ts.records.lookup k) = _
  rw [h.before hno k hk, nodePresent_congr (h.before hno)]

theorem Tracks.crossed (h : Tracks cfg att.topic sp c ts₀ att.nodeID l ts) (hord : Orderly cfg sp)
    (hpool : spoken (ts₀.witnesses att.nodeID) (l ++ [att]) ⊆ sp)
    (hc : ∀ x ∈ spoken (ts₀.witnesses att.nodeID) (l ++ [att]), Weighs cfg sp x → x.2.hlc ≤ c)
    (hfresh : superseded (ts.witnesses att.nodeID) att = false)
    (hlen : cfg.observerQuorum ≤ (ts.witnessesAfter cfg att).len) :
    Tracks cfg att.topic sp c ts₀ att.nodeID (l ++ [att])
      (synthesise (ts.accumulate cfg att) (ts.witnessesAfter cfg att) att).ts := by
  have hreach' := (h.reached_iff hord hpool hfresh).mpr hlen
  have hset : (synthesise (ts.accumulate cfg att) (ts.witnessesAfter cfg att) att).ts.witnesses
      att.nodeID = ts.witnessesAfter cfg att := by
    rw [witnesses_synthesise, witnesses_accumulate, if_pos rfl]
  have hweigh : ∀ o b, (ts.witnessesAfter cfg att).lookup o = some b → Weighs cfg sp (o, b) :=
    fun o b hb => weighs_of_quorum (fun _ _ hb => hpool (h.joined hb)) hlen hb
  obtain ⟨x, hx, hwx, hxm⟩ := h.exists_max hpool hlen
  generalize hm' : maxHLCOf (ts.witnessesAfter cfg att) = m' at hxm
  refine ⟨(synthesise_restoredAt _ _ _).trans h.marks, ?_, fun hall => ?_,
    fun hno => absurd hreach' hno, fun hno => absurd hreach' hno, fun hno => absurd hreach' hno,
    ?_, ?_, ?_⟩
  · rw [hset]
    exact fun o b hb => h.origin_after hb
  · obtain ⟨a, ha, hnew⟩ := h.novel hfresh
    rw [hall a ha] at hnew
    cases hnew
  · rw [hset]
    exact fun _ => ⟨hlen, hweigh⟩
  · rw [hset]
    exact fun _ o a ha hw => h.covered_crossed hord hpool hfresh ha hw
  · -- the first crossing buries at its own clock, a later one at the later of two
    rw [hset, hm']
    intro _
    by_cases hreach : Reached cfg sp (ts₀.witnesses att.nodeID) l
    · exact h.level_later hreach hm' (hm' ▸ h.max_grows hord hpool hfresh hreach)
        (hxm ▸ hc x hx hwx) ⟨x, hx, hwx, hxm⟩ rfl
    · have hb := hm' ▸ h.buried_first hreach
      rcases h.level_first hord hpool hc hfresh hreach hlen hm' with rfl | ⟨hlt, hearly⟩
      · exact Or.inl ⟨rfl, hb⟩
      · exact Or.inr ⟨hearly, m', hlt, ⟨x, hx, hwx, hxm⟩, hb, Or.inl rfl⟩

/-- The observers fit, so the set has room for one it does not have. -/
theorem Tracks.has_room (h : Tracks cfg att.topic sp c ts₀ att.nodeID l ts)
    (hpool : spoken (ts₀.witnesses att.nodeID) (l ++ [att]) ⊆ sp)
    (hcap : (sp.map Prod.fst).toFinset.card ≤ cfg.maxAttestations)
    (hnone : (ts.witnesses att.nodeID).lookup att.observerNodeID = none) :
    (ts.witnesses att.nodeID).len < cfg.maxAttestations := by
  have hnot : att.observerNodeID ∉ (ts.witnesses att.nodeID).keys.toFinset := by
    rw [List.mem_toFinset, FMap.mem_keys, hnone]
    rintro ⟨v, hv⟩
    cases hv
  have hsub : (insert att.observerNodeID (ts.witnesses att.nodeID).keys.toFinset) ⊆
      (sp.map Prod.fst).toFinset := by
    intro o ho
    rw [List.mem_toFinset, List.mem_map]
    rcases Finset.mem_insert.mp ho with rfl | ho
    · exact ⟨_, hpool (self_mem_spoken (List.mem_append_right l (List.mem_singleton_self att))),
        rfl⟩
    · obtain ⟨b, hb⟩ := FMap.mem_keys.mp (List.mem_toFinset.mp ho)
      exact ⟨(o, b), hpool (spoken_mono (List.subset_append_left _ _) (h.origin o b hb)), rfl⟩
  have hcard := Finset.card_le_card hsub
  rw [Finset.card_insert_of_notMem hnot, ← FMap.len_eq_card_keys] at hcard
  omega

/-- **One step.** An attestation that counts is heard. -/
theorem Tracks.step (h : Tracks cfg att.topic sp c ts₀ att.nodeID l ts) (hord : Orderly cfg sp)
    (hpool : spoken (ts₀.witnesses att.nodeID) (l ++ [att]) ⊆ sp)
    (hc : ∀ x ∈ spoken (ts₀.witnesses att.nodeID) (l ++ [att]), Weighs cfg sp x → x.2.hlc ≤ c)
    (hcount : counts cfg nowMs ts₀ att = true)
    (hcap : (sp.map Prod.fst).toFinset.card ≤ cfg.maxAttestations) :
    Tracks cfg att.topic sp c ts₀ att.nodeID (l ++ [att])
      (applyAttestationLocked cfg nowMs ts att).ts := by
  unfold counts at hcount
  simp only [Bool.and_eq_true, decide_eq_true_eq, Bool.not_eq_true'] at hcount
  obtain ⟨⟨⟨hrole, hskew⟩, hfence⟩, halive⟩ := hcount
  have hstep := applyAttestationLocked_step cfg nowMs ts att
  generalize applyAttestationLocked cfg nowMs ts att = o at hstep
  cases hstep with
  | refused _ _ hno =>
    apply h.refused hord hpool halive
    by_contra hheard
    push Not at hheard
    apply hno
    refine ⟨hrole, hskew, ?_, Bool.eq_false_iff.mpr hheard.1, Bool.eq_false_iff.mpr hheard.2, ?_⟩
    · rw [fenced_congr h.marks]
      exact hfence
    · rw [or_iff_not_imp_left, Option.not_isSome_iff_eq_none]
      exact h.has_room hpool hcap
  | kept hok hlen => exact h.kept hord hpool hok.fresh hlen
  | crossed hok hlen => exact h.crossed hord hpool hc hok.fresh hlen

end Step

/-- An attestation of another node, or one that does not count, changes nothing here. -/
theorem Tracks.skip {cfg : StoreConfig} {nowMs : Int64} {t : Topic} {sp : List (NodeID × Record)}
    {c : UInt64} {ts₀ ts : TopicStore} {node : NodeID} {l : List Record} {att : Record}
    (h : Tracks cfg t sp c ts₀ node l ts)
    (hskip : att.nodeID = node → counts cfg nowMs ts₀ att = false) :
    Tracks cfg t sp c ts₀ node l (applyAttestationLocked cfg nowMs ts att).ts := by
  have hstep := applyAttestationLocked_step cfg nowMs ts att
  generalize applyAttestationLocked cfg nowMs ts att = o at hstep
  by_cases hnode : att.nodeID = node
  · have hno : ¬ Admitted cfg nowMs ts att := by
      intro hok
      have hcount := hskip hnode
      rw [← Bool.not_eq_true] at hcount
      apply hcount
      unfold counts
      simp only [Bool.and_eq_true, decide_eq_true_eq, Bool.not_eq_true']
      refine ⟨⟨⟨hok.role, hok.skew⟩, ?_⟩, ?_⟩
      · rw [← fenced_congr h.marks]
        exact hok.fence
      · subst hnode
        rw [← Bool.not_eq_true]
        intro hdead
        have := hok.alive
        rw [h.dead_of_dead hdead] at this
        cases this
    cases hstep with
    | refused => exact h
    | kept hok => exact absurd hok hno
    | crossed hok => exact absurd hok hno
  · have hset : (ts.accumulate cfg att).witnesses node = ts.witnesses node := by
      rw [witnesses_accumulate, if_neg (Ne.symm hnode)]
    cases hstep with
    | refused => exact h
    | kept => exact h.frame rfl (fun _ _ => rfl) hset
    | crossed =>
      refine h.frame (synthesise_restoredAt _ _ _) ?_ ((witnesses_synthesise _ _ _ _).trans hset)
      intro k hk
      have hne : k.nodeID ≠ att.nodeID := fun h' => hnode (h'.symm.trans hk)
      exact lookup_synthesise_of_ne _ _ _ hne

/-! ## Runs -/

/-- The topic after an attestation. -/
def attest (cfg : StoreConfig) (nowMs : Int64) (ts : TopicStore) (att : Record) : TopicStore :=
  (applyAttestationLocked cfg nowMs ts att).ts

theorem counted_append (cfg : StoreConfig) (nowMs : Int64) (ts : TopicStore) (node : NodeID)
    (l l' : List Record) :
    counted cfg nowMs ts node (l ++ l') =
      counted cfg nowMs ts node l ++ counted cfg nowMs ts node l' :=
  List.filter_append _ _

/-- Attestations that do not count for the node change nothing here. -/
theorem Tracks.run_skip {cfg : StoreConfig} {nowMs : Int64} {t : Topic}
    {sp : List (NodeID × Record)} {c : UInt64} {ts₀ ts : TopicStore} {node : NodeID}
    {l more : List Record} (h : Tracks cfg t sp c ts₀ node l ts)
    (hskip : ∀ a ∈ more, a.nodeID = node → counts cfg nowMs ts₀ a = false) :
    Tracks cfg t sp c ts₀ node l (more.foldl (attest cfg nowMs) ts) := by
  induction more generalizing ts with
  | nil => exact h
  | cons a more ih =>
    obtain ⟨ha, hskip⟩ := List.forall_mem_cons.mp hskip
    exact ih (h.skip ha) hskip

theorem mem_counted {cfg : StoreConfig} {nowMs : Int64} {ts : TopicStore} {node : NodeID}
    {l : List Record} {a : Record} : a ∈ counted cfg nowMs ts node l ↔
      a ∈ l ∧ a.nodeID = node ∧ counts cfg nowMs ts a = true := by
  unfold counted
  rw [List.mem_filter, Bool.and_eq_true, decide_eq_true_iff]

/-- What counts is not answered by the slots of the beginning. -/
theorem fresh_of_counted {cfg : StoreConfig} {nowMs : Int64} {ts : TopicStore} {node : NodeID}
    {l : List Record} {a : Record} (h : a ∈ counted cfg nowMs ts node l) :
    (ts.nodeDeadAtOrAbove node a.hlc).2 = false := by
  obtain ⟨-, rfl, hcount⟩ := mem_counted.mp h
  unfold counts at hcount
  simp only [Bool.and_eq_true, Bool.not_eq_true'] at hcount
  exact hcount.2

/-- **Runs stay on track.** From a topic on which the attestations `l` have been heard, a run over
more of them. -/
theorem Tracks.run {cfg : StoreConfig} {nowMs : Int64} {t : Topic} {sp : List (NodeID × Record)}
    {c : UInt64} {ts₀ ts : TopicStore} {node : NodeID} {l more : List Record}
    (h : Tracks cfg t sp c ts₀ node l ts) (hord : Orderly cfg sp)
    (htopic : ∀ a ∈ more, a.topic = t)
    (hpool : spoken (ts₀.witnesses node) (l ++ counted cfg nowMs ts₀ node more) ⊆ sp)
    (hc : ∀ x ∈ spoken (ts₀.witnesses node) (l ++ counted cfg nowMs ts₀ node more),
      Weighs cfg sp x → x.2.hlc ≤ c)
    (hcap : (sp.map Prod.fst).toFinset.card ≤ cfg.maxAttestations) :
    Tracks cfg t sp c ts₀ node (l ++ counted cfg nowMs ts₀ node more)
      (more.foldl (attest cfg nowMs) ts) := by
  induction more generalizing l ts with
  | nil => rwa [counted, List.filter_nil, List.append_nil]
  | cons a more ih =>
    obtain ⟨ht, htopic⟩ := List.forall_mem_cons.mp htopic
    rw [List.foldl_cons]
    by_cases hcount : a.nodeID = node ∧ counts cfg nowMs ts₀ a = true
    · have hcons : counted cfg nowMs ts₀ node (a :: more) =
          [a] ++ counted cfg nowMs ts₀ node more := by
        unfold counted
        rw [List.filter_cons_of_pos (by simpa using hcount)]
        rfl
      rw [hcons, ← List.append_assoc] at hpool hc ⊢
      have hpre : spoken (ts₀.witnesses node) (l ++ [a]) ⊆
          spoken (ts₀.witnesses node) (l ++ [a] ++ counted cfg nowMs ts₀ node more) :=
        spoken_mono (List.subset_append_left _ _)
      refine ih ?_ htopic hpool hc
      obtain ⟨rfl, hcount⟩ := hcount
      subst ht
      exact h.step hord (fun x hx => hpool (hpre hx)) (fun x hx => hc x (hpre hx)) hcount hcap
    · have hcons : counted cfg nowMs ts₀ node (a :: more) = counted cfg nowMs ts₀ node more := by
        unfold counted
        rw [List.filter_cons_of_neg (by simpa using hcount)]
      rw [hcons] at hpool hc ⊢
      refine ih (h.skip fun hnode => ?_) htopic hpool hc
      exact Bool.eq_false_iff.mpr fun hc => hcount ⟨hnode, hc⟩

/-- A run from the beginning. -/
theorem tracks_run {cfg : StoreConfig} {nowMs : Int64} {t : Topic} {sp : List (NodeID × Record)}
    {c : UInt64} {ts₀ : TopicStore} {node : NodeID} {l : List Record} (hord : Orderly cfg sp)
    (htopic : ∀ a ∈ l, a.topic = t)
    (hpool : spoken (ts₀.witnesses node) (counted cfg nowMs ts₀ node l) ⊆ sp)
    (hc : ∀ x ∈ spoken (ts₀.witnesses node) (counted cfg nowMs ts₀ node l),
      Weighs cfg sp x → x.2.hlc ≤ c)
    (hcap : (sp.map Prod.fst).toFinset.card ≤ cfg.maxAttestations) :
    Tracks cfg t sp c ts₀ node (counted cfg nowMs ts₀ node l) (l.foldl (attest cfg nowMs) ts₀) :=
  (tracks_nil cfg t sp c ts₀ node).run hord htopic hpool hc hcap

end Swarm
