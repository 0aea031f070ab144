import Swarm.Engine.Outbound

/-!
# Exchanges end

A probe whose root differs makes the responder probe back and send a page, a truncated page makes
the prober probe again, and the stores grow meanwhile. Roots need not ever match: attestations and
the tombstones synthesised from them stay on one side. What bounds an exchange is that a node probes
a peer back once in five seconds, so not twice while its clock stands still, and that the cursor of
a truncated page moves past the last node on it. Every record that travels is about one of finitely
many nodes (`Drawn`), so the cursor moves finitely often.
-/

namespace Swarm

open Node (rangeReply)

/-! ## Stores about a set of nodes -/

/-- The signed slots and the kept attestations of a topic are about nodes of the pool. -/
structure Drawn (pool : Finset NodeID) (ts : TopicStore) : Prop where
  slots : ∀ k r, ts.records.lookup k = some r → signed r = true → r.nodeID ∈ pool
  witnesses : ∀ target o a, (ts.witnesses target).lookup o = some a → a.nodeID ∈ pool

namespace Drawn

variable {pool : Finset NodeID} {ts : TopicStore} {r : Record}

/-- Storing a record about a node of the pool; the witness sets at most shrink. -/
theorem write (h : Drawn pool ts) {ts' : TopicStore} (hr : r.nodeID ∈ pool)
    (hrec : ∀ k, ts'.records.lookup k = if k = keyOf r then some r else ts.records.lookup k)
    (hwit : ∀ target o a, (ts'.witnesses target).lookup o = some a →
      (ts.witnesses target).lookup o = some a) : Drawn pool ts' where
  slots k x hx hsigned := by
    rw [hrec] at hx
    split_ifs at hx
    · cases hx
      exact hr
    · exact h.slots k x hx hsigned
  witnesses target o a ha := h.witnesses target o a (hwit target o a ha)

theorem accumulate (h : Drawn pool ts) (cfg : StoreConfig) (hr : r.nodeID ∈ pool) :
    Drawn pool (ts.accumulate cfg r) where
  slots k x hx := by
    rw [records_accumulate] at hx
    exact h.slots k x hx
  witnesses target o a ha := by
    rw [witnesses_accumulate] at ha
    split_ifs at ha
    · rcases lookup_witnessesAfter ha with ⟨-, rfl⟩ | hold
      · exact hr
      · exact h.witnesses _ o a hold
    · exact h.witnesses target o a ha

/-- The tombstones of a quorum are not signed. -/
theorem synthesise (h : Drawn pool ts) (set : FMap NodeID Record) (att : Record) :
    Drawn pool (synthesise ts set att).ts where
  slots k x hx hsigned := by
    rcases eq_or_synth_of_lookup hx with hold | ⟨-, rfl⟩
    · exact h.slots k x hold hsigned
    · cases hsigned
  witnesses target o a ha := by
    rw [witnesses_synthesise] at ha
    exact h.witnesses target o a ha

theorem applyTopic (h : Drawn pool ts) (cfg : StoreConfig) (nowMs : Int64)
    (hr : r.nodeID ∈ pool) : Drawn pool (applyTopic cfg nowMs ts r).ts := by
  apply applyTopic_preserves h
  · intro _ _
    exact h.accumulate cfg hr
  · intro _ _ _ hkept
    exact hkept.synthesise _ _
  · intro _
    exact h.write hr (lookup_openSlot ts nowMs r) fun _ _ _ ha => ha
  · intro _
    exact h.write hr (lookup_replaceSlot ts nowMs r) fun _ _ _ ha =>
      lookup_witnesses_of_replaceSlot ha

theorem applyExt {s : RecordStore} {topic : Topic} (h : Drawn pool (s.topic topic))
    (cfg : StoreConfig) (nowMs : Int64) (hr : r.nodeID ∈ pool) :
    Drawn pool ((applyExt cfg nowMs s r).2.topic topic) := by
  rcases topic_applyExt cfg nowMs s r topic with heq | ⟨rfl, heq⟩
  · rwa [heq]
  · rw [heq]
    exact h.applyTopic cfg nowMs hr

/-- What a reply to a probe carries is about nodes of the pool. -/
theorem reply {s : RecordStore} {topic : Topic} (h : Drawn pool (s.topic topic))
    {a b : Option Bytes} (hr : r ∈ (rangeReply s topic a b).1) : r.nodeID ∈ pool := by
  rcases mem_rangeReply hr with hrange | hatt
  · obtain ⟨⟨k, hk⟩, hsigned, -⟩ := mem_rangeRecords.mp hrange
    exact h.slots k r hk hsigned
  · obtain ⟨target, o, ho⟩ := mem_topicAttestations.mp hatt
    exact h.witnesses target o r ho

end Drawn

/-- The nodes the records of a store are about on a topic. -/
def drawnFrom (topic : Topic) (s : RecordStore) : Finset NodeID :=
  ((s.topicRecordsSigned topic ++ s.topicAttestations topic).map Record.nodeID).toFinset

theorem drawn_drawnFrom {topic : Topic} {s : RecordStore} {pool : Finset NodeID}
    (h : drawnFrom topic s ⊆ pool) : Drawn pool (s.topic topic) where
  slots k r hr hsigned := by
    refine h (List.mem_toFinset.mpr (List.mem_map_of_mem (List.mem_append_left _ ?_)))
    exact mem_topicRecordsWhere.mpr ⟨⟨k, hr⟩, hsigned⟩
  witnesses target o a ha := by
    refine h (List.mem_toFinset.mpr (List.mem_map_of_mem (List.mem_append_right _ ?_)))
    exact mem_topicAttestations.mpr ⟨target, o, ha⟩

/-! ## What the handlers send -/

/-- The node probed nobody back, and sent only what `F` allows since. -/
structure Answered (F : NodeID × Frame → Prop) (n n' : Node) : Prop where
  marks : n'.lastReciprocal = n.lastReciprocal
  trace : ∃ evs, n'.trace = n.trace ++ evs ∧ ∀ e ∈ sends evs, F e

namespace Answered

variable {F : NodeID × Frame → Prop} {n n' n'' : Node}

theorem refl (F : NodeID × Frame → Prop) (n : Node) : Answered F n n :=
  ⟨rfl, [], (List.append_nil _).symm, fun _ h => (nomatch h)⟩

theorem trans (h : Answered F n n') (h' : Answered F n' n'') : Answered F n n'' := by
  obtain ⟨evs, htrace, hF⟩ := h.trace
  obtain ⟨evs', htrace', hF'⟩ := h'.trace
  refine ⟨h'.marks.trans h.marks, evs ++ evs', by rw [htrace', htrace, List.append_assoc],
    fun e he => ?_⟩
  rw [sends_append, List.mem_append] at he
  exact he.elim (hF e) (hF' e)

theorem of_sentSince {m : Node} (h : Answered F n n') (hm : n.trace = m.trace)
    {e : NodeID × Frame} (he : e ∈ m.sentSince n') : F e := by
  obtain ⟨evs, htrace, hF⟩ := h.trace
  unfold Node.sentSince at he
  rw [htrace, hm, List.drop_left] at he
  exact hF e he

/-- One frame, if it can be encoded. -/
theorem send_if {dst : NodeID} {f : Frame} (hf : F (dst, f)) (c : Prop) [Decidable c] (n : Node) :
    Answered F n (if c then n.send dst f else n) := by
  split_ifs
  · refine ⟨rfl, [.send dst f], rfl, fun e he => ?_⟩
    rw [List.mem_singleton.mp he]
    exact hf
  · exact refl F n

end Answered

section Handlers

variable (n : Node) (env : Env) (rd : Reading) (sender : NodeID) (topic : Topic)
  (a b : Option Bytes)

theorem sendProbe_answered {F : NodeID × Frame → Prop}
    (hF : F (sender, .merkle topic a b (topicMerkleRoot env.cr n.store topic a b))) :
    Answered F n (n.sendProbe env sender topic a b) :=
  Answered.send_if hF _ n

theorem sendRange_answered {F : NodeID × Frame → Prop} {recs : List Record} {truncated : Bool}
    (hF : F (sender, .merkleRange topic recs truncated)) :
    Answered F n (n.sendRange sender topic recs truncated) :=
  Answered.send_if hF _ n

/-- A probe is answered by a page of the store. A probe back is sent with it only where one was
due, and is marked. -/
theorem handleProbe_answered (root : Bytes) :
    (n.handleProbe env rd sender topic a b root).store = n.store ∧
      (Answered (fun e => e = (sender, .merkleRange topic (rangeReply n.store topic a b).1
          (rangeReply n.store topic a b).2)) n (n.handleProbe env rd sender topic a b root) ∨
        (n.reciprocalDue rd sender topic = true ∧
          Answered (fun e => e.1 = sender ∧
            (e.2 = .merkle topic a b (topicMerkleRoot env.cr n.store topic a b) ∨
              e.2 = .merkleRange topic (rangeReply n.store topic a b).1
                (rangeReply n.store topic a b).2))
            (n.markReciprocal rd sender topic)
            (n.handleProbe env rd sender topic a b root))) := by
  by_cases hroot : topicMerkleRoot env.cr n.store topic a b = root
  · have heq : n.handleProbe env rd sender topic a b root = n := if_pos hroot
    rw [heq]
    exact ⟨rfl, Or.inl (Answered.refl _ n)⟩
  · rw [handleProbe_of_ne n env rd sender topic a b hroot]
    refine ⟨?_, ?_⟩
    · unfold Node.sendRange
      dsimp only
      split_ifs
      · exact store_reciprocate n env rd sender topic a b
      · exact store_reciprocate n env rd sender topic a b
    · by_cases hdue : n.reciprocalDue rd sender topic = true
      · refine Or.inr ⟨hdue, ?_⟩
        unfold Node.reciprocate
        rw [if_pos hdue]
        exact (sendProbe_answered _ env sender topic a b ⟨rfl, Or.inl rfl⟩).trans
          (sendRange_answered _ sender topic ⟨rfl, Or.inr rfl⟩)
      · refine Or.inl ?_
        unfold Node.reciprocate
        rw [if_neg hdue]
        exact sendRange_answered n sender topic rfl

/-- One record of a page sends nothing and is at most one call on the store. -/
theorem receiveRecord_answered (F : NodeID × Frame → Prop) (r : Record) :
    Answered F n (Node.receiveRecord env rd n r) ∧
      ((Node.receiveRecord env rd n r).store = n.store ∨
        (Node.receiveRecord env rd n r).store =
          (applyExt env.storeCfg rd.nowMs n.store r).2) := by
  have hmarks : (n.inbound env rd r).2.lastReciprocal = n.lastReciprocal := by
    unfold Node.inbound
    split_ifs <;> rfl
  obtain ⟨hstore, htrace, -⟩ := n.inbound_frame env rd r
  have hin : Answered F n (n.inbound env rd r).2 :=
    ⟨hmarks, [], by rw [htrace, List.append_nil], fun _ h => (nomatch h)⟩
  obtain ⟨n', happ, hstore', htrace', -⟩ := n.applyExt_inbound env rd r
  have hcall : Answered F n n' := by
    refine ⟨?_, _, htrace', fun _ h => (nomatch h)⟩
    have heq := congrArg (fun p : ApplyResult × Node => p.2.lastReciprocal) happ
    exact heq.symm.trans hmarks
  unfold Node.receiveRecord
  dsimp only
  rw [happ]
  split_ifs
  · exact ⟨hin, Or.inl hstore⟩
  · exact ⟨hcall.trans ⟨rfl, [.accept r], rfl, fun _ h => (nomatch h)⟩, Or.inr hstore'⟩
  · exact ⟨hcall, Or.inr hstore'⟩

/-- A page of records about the pool keeps the store within the pool, and a truncated page makes
the node probe from its cursor on. -/
theorem handleRange_answered {pool : Finset NodeID} (hn : Drawn pool (n.store.topic topic))
    {recs : List Record} (hrecs : ∀ r ∈ recs, r.nodeID ∈ pool) (truncated : Bool) :
    Drawn pool ((n.handleRange env rd sender topic recs truncated).store.topic topic) ∧
      Answered (fun e => e.1 = sender ∧
          ∃ c root, pageCursor recs truncated = some c ∧ e.2 = .merkle topic c none root)
        n (n.handleRange env rd sender topic recs truncated) := by
  generalize hF : (fun e : NodeID × Frame => e.1 = sender ∧
    ∃ c root, pageCursor recs truncated = some c ∧ e.2 = .merkle topic c none root) = F
  have hall : Drawn pool ((recs.foldl (Node.receiveRecord env rd) n).store.topic topic) ∧
      Answered F n (recs.foldl (Node.receiveRecord env rd) n) := by
    refine List.foldlRecOn (motive := fun m => Drawn pool (m.store.topic topic) ∧ Answered F n m)
      recs _ ⟨hn, Answered.refl F n⟩ fun m hm r hr => ?_
    obtain ⟨hans, hstore⟩ := receiveRecord_answered m env rd F r
    refine ⟨?_, hm.2.trans hans⟩
    rcases hstore with heq | heq
    · rw [heq]
      exact hm.1
    · rw [heq]
      exact hm.1.applyExt _ _ (hrecs r hr)
  unfold Node.handleRange
  dsimp only
  cases hlast : recs.getLast? with
  | none => exact hall
  | some last =>
    cases truncated with
    | false => exact hall
    | true =>
      have hnext : F (sender, .merkle topic (some (last.nodeID ++ [1])) none
          (topicMerkleRoot env.cr (recs.foldl (Node.receiveRecord env rd) n).store topic
            (some (last.nodeID ++ [1])) none)) := by
        rw [← hF]
        refine ⟨rfl, _, _, ?_, rfl⟩
        unfold pageCursor
        rw [if_pos rfl, hlast]
        rfl
      dsimp only
      rw [if_pos rfl, store_sendProbe]
      exact ⟨hall.1, hall.2.trans (sendProbe_answered _ env sender topic _ none hnext)⟩

end Handlers

/-! ## Ranks -/

/-- How many nodes of the pool a probe from the cursor on covers. -/
def ahead (pool : Finset NodeID) (c : Option Bytes) : ℕ :=
  (pool.filter fun node => inRange c none node = true).card

theorem lt_append_one (node : NodeID) : node < node ++ [1] := by
  induction node with
  | nil => exact List.nil_lt_cons 1 []
  | cons x node ih => exact List.cons_lt_cons_iff.mpr (Or.inr ⟨rfl, ih⟩)

/-- The cursor after a node of a range leaves that node behind. -/
theorem ahead_cursor_lt {pool : Finset NodeID} {a b : Option Bytes} {last : NodeID}
    (hlast : last ∈ pool) (hin : inRange a b last = true) :
    ahead pool (some (last ++ [1])) < ahead pool a := by
  have hstart := (inRange_iff.mp hin).1
  refine Finset.card_lt_card (Finset.ssubset_iff_of_subset ?_ |>.mpr ⟨last, ?_, ?_⟩)
  · intro node hnode
    obtain ⟨hmem, hrange⟩ := Finset.mem_filter.mp hnode
    have hle := (inRange_iff.mp hrange).1 _ rfl
    refine Finset.mem_filter.mpr ⟨hmem, inRange_iff.mpr ⟨fun x hx => ?_, fun _ h => (nomatch h)⟩⟩
    exact ((hstart x hx).trans (lt_append_one last).le).trans hle
  · exact Finset.mem_filter.mpr ⟨hlast, inRange_iff.mpr ⟨hstart, fun _ h => (nomatch h)⟩⟩
  · intro hnode
    have hle := (inRange_iff.mp (Finset.mem_filter.mp hnode).2).1 _ rfl
    exact absurd hle (not_le.mpr (lt_append_one last))

/-- The frames of an exchange on a topic, with records about nodes of the pool. -/
def Exchanged (pool : Finset NodeID) (topic : Topic) : Frame → Prop
  | .merkle t _ _ _ => t = topic
  | .merkleRange t records _ => t = topic ∧ ∀ r ∈ records, r.nodeID ∈ pool
  | _ => False

/-- A probe counts the nodes it covers, a truncated page those behind its cursor. -/
def exchangeRank (pool : Finset NodeID) : Frame → ℕ
  | .merkle _ rangeStart _ _ => 2 * ahead pool rangeStart + 1
  | .merkleRange _ records truncated =>
    match pageCursor records truncated with
    | some c => 2 * ahead pool c + 2
    | none => 0
  | _ => 0

/-- A page ranks below the probe it answers. -/
theorem exchangeRank_reply {pool : Finset NodeID} {s : RecordStore} {topic : Topic}
    (h : Drawn pool (s.topic topic)) (a b : Option Bytes) :
    exchangeRank pool (.merkleRange topic (rangeReply s topic a b).1 (rangeReply s topic a b).2) <
      2 * ahead pool a + 1 := by
  unfold exchangeRank
  dsimp only
  split
  · rename_i c hc
    unfold pageCursor at hc
    split_ifs at hc with htrunc
    obtain ⟨last, hlast, rfl⟩ := Option.map_eq_some_iff.mp hc
    have hmem := List.mem_of_getLast? hlast
    have hrange := mem_rangeRecords_of_truncated htrunc hmem
    have hlt := ahead_cursor_lt (h.reply hmem) (mem_rangeRecords.mp hrange).2.2
    omega
  · exact Nat.succ_pos _

/-! ## The budget of probes back -/

theorem Time.sub_self (t : Time) : Time.sub t t = 0 := by
  unfold Time.sub
  rw [Int.sub_self]
  rfl

/-- How many peers of a set a node may still probe back at a reading. -/
def probesLeft (P : Finset NodeID) (topic : Topic) (rd : Reading) (n : Node) : ℕ :=
  (P.filter fun peer => n.reciprocalDue rd peer topic = true).card

section Budget

variable {P : Finset NodeID} {topic : Topic} {rd : Reading} {n n' : Node} {peer : NodeID}

theorem probesLeft_congr (h : n'.lastReciprocal = n.lastReciprocal) :
    probesLeft P topic rd n' = probesLeft P topic rd n := by
  unfold probesLeft Node.reciprocalDue
  rw [h]

/-- While the clock stands still, a peer is probed back once. -/
theorem reciprocalDue_markReciprocal (p : NodeID) :
    (n.markReciprocal rd peer topic).reciprocalDue rd p topic = true ↔
      p ≠ peer ∧ n.reciprocalDue rd p topic = true := by
  have hkey : Node.reciprocalKey p topic = Node.reciprocalKey peer topic ↔ p = peer := by
    unfold Node.reciprocalKey
    rw [List.append_left_inj, List.append_left_inj]
  unfold Node.reciprocalDue Node.markReciprocal
  dsimp only
  rw [FMap.lookup_insert_eq]
  by_cases hp : p = peer
  · rw [if_pos (hkey.mpr hp)]
    dsimp only
    rw [Time.sub_self]
    simp [hp, second]
  · rw [if_neg (mt hkey.mp hp)]
    exact (and_iff_right hp).symm

theorem probesLeft_markReciprocal_lt (hpeer : peer ∈ P)
    (hdue : n.reciprocalDue rd peer topic = true) :
    probesLeft P topic rd (n.markReciprocal rd peer topic) < probesLeft P topic rd n := by
  unfold probesLeft
  simp only [reciprocalDue_markReciprocal]
  refine Finset.card_lt_card (Finset.ssubset_iff_of_subset ?_ |>.mpr ⟨peer, ?_, ?_⟩)
  · exact Finset.monotone_filter_right _ fun _ _ h => h.2
  · exact Finset.mem_filter.mpr ⟨hpeer, hdue⟩
  · exact fun h => (Finset.mem_filter.mp h).2.1 rfl

end Budget

/-! ## Deliveries -/

/-- What delivering a frame of an exchange does: the store stays within the pool, the answers go
back to the sender, and either a probe back is spent or the answers rank lower. -/
structure ExchangeStep (P pool : Finset NodeID) (topic : Topic) (rd : Reading) (src : NodeID)
    (f : Frame) (n n' : Node) : Prop where
  drawn : Drawn pool (n'.store.topic topic)
  sent : ∀ e ∈ n.sentSince n', e.1 = src ∧ Exchanged pool topic e.2
  cost : probesLeft P topic rd n' < probesLeft P topic rd n ∨
    (probesLeft P topic rd n' ≤ probesLeft P topic rd n ∧
      ∀ e ∈ n.sentSince n', exchangeRank pool e.2 < exchangeRank pool f)

section Deliver

variable {P pool : Finset NodeID} {topic : Topic} {rd : Reading} {src : NodeID} {n : Node}

theorem exchangeStep_refl {f : Frame} (hn : Drawn pool (n.store.topic topic)) :
    ExchangeStep P pool topic rd src f n n where
  drawn := hn
  sent e he := absurd he (not_mem_sentSince rfl e)
  cost := Or.inr ⟨le_rfl, fun e he => absurd he (not_mem_sentSince rfl e)⟩

theorem exchangeStep_handleProbe (env : Env) (hn : Drawn pool (n.store.topic topic))
    (hsrc : src ∈ P) (a b : Option Bytes) (root : Bytes) :
    ExchangeStep P pool topic rd src (.merkle topic a b root) n
      (n.handleProbe env rd src topic a b root) := by
  have hpage : Exchanged pool topic (.merkleRange topic (rangeReply n.store topic a b).1
      (rangeReply n.store topic a b).2) := ⟨rfl, fun _ => hn.reply⟩
  obtain ⟨hstore, hans | ⟨hdue, hans⟩⟩ := handleProbe_answered n env rd src topic a b root
  · refine ⟨by rwa [hstore], fun e he => ?_, Or.inr ⟨(probesLeft_congr hans.marks).le, ?_⟩⟩
    · rw [hans.of_sentSince rfl he]
      exact ⟨rfl, hpage⟩
    · intro e he
      rw [hans.of_sentSince rfl he]
      exact exchangeRank_reply hn a b
  · refine ⟨by rwa [hstore], fun e he => ?_, Or.inl ?_⟩
    · obtain ⟨hdst, hframe⟩ := hans.of_sentSince rfl he
      refine ⟨hdst, ?_⟩
      rcases hframe with hframe | hframe
      · rw [hframe]
        exact rfl
      · rw [hframe]
        exact hpage
    · rw [probesLeft_congr hans.marks]
      exact probesLeft_markReciprocal_lt hsrc hdue

theorem exchangeStep_handleRange (env : Env) (hn : Drawn pool (n.store.topic topic))
    {recs : List Record} (hrecs : ∀ r ∈ recs, r.nodeID ∈ pool) (truncated : Bool) :
    ExchangeStep P pool topic rd src (.merkleRange topic recs truncated) n
      (n.handleRange env rd src topic recs truncated) := by
  obtain ⟨hdrawn, hans⟩ := handleRange_answered n env rd src topic hn hrecs truncated
  refine ⟨hdrawn, fun e he => ?_, Or.inr ⟨(probesLeft_congr hans.marks).le, fun e he => ?_⟩⟩
  · obtain ⟨hdst, c, root, -, hframe⟩ := hans.of_sentSince rfl he
    rw [hframe]
    exact ⟨hdst, rfl⟩
  · obtain ⟨-, c, root, hcursor, hframe⟩ := hans.of_sentSince rfl he
    rw [hframe]
    unfold exchangeRank
    dsimp only
    rw [hcursor]
    exact Nat.lt_succ_self _

theorem exchangeStep_onReceive (env : Env) (hn : Drawn pool (n.store.topic topic))
    (hsrc : src ∈ P) {f : Frame} (hf : Exchanged pool topic f) :
    ExchangeStep P pool topic rd src f n (n.onReceive env rd src f) := by
  unfold Node.onReceive Node.receiveFrame
  split_ifs
  · exact exchangeStep_refl hn
  · exact exchangeStep_refl hn
  · cases f with
    | merkle t a b root =>
      obtain rfl : t = topic := hf
      exact exchangeStep_handleProbe env hn hsrc a b root
    | merkleRange t recs truncated =>
      obtain ⟨rfl, hrecs⟩ : t = topic ∧ _ := hf
      exact exchangeStep_handleRange env hn hrecs truncated
    | _ => exact hf.elim

end Deliver

/-- Frames handled at clocks that stand still. -/
def frozenHandler (env : NodeID → Env) (clock : NodeID → Reading) :
    Network.Handler NodeID Node Frame Unit :=
  fun i n src f _ => frameHandler env i n src f (clock i)

theorem exchange_descends (env : NodeID → Env) (clock : NodeID → Reading)
    (P pool : Finset NodeID) (topic : Topic) :
    Network.Descends (frozenHandler env clock)
      (fun i n => i ∈ P → Drawn pool (n.store.topic topic))
      (fun p => p.src ∈ P ∧ p.dst ∈ P ∧ Exchanged pool topic p.msg) P
      (fun i n => probesLeft P topic (clock i) n) (exchangeRank pool) where
  keeps _ hG hQ _ := (exchangeStep_onReceive _ (hG hQ.2.1) hQ.1 hQ.2.2).drawn
  sends _ hG hQ e he := by
    obtain ⟨hdst, hframe⟩ := (exchangeStep_onReceive _ (hG hQ.2.1) hQ.1 hQ.2.2).sent e he
    exact ⟨hQ.2.1, hdst ▸ hQ.1, hframe⟩
  cost _ hG hQ :=
    (exchangeStep_onReceive _ (hG hQ.2.1) hQ.1 hQ.2.2).cost.imp_left fun h => ⟨hQ.2.1, h⟩

/-- **Exchanges end.** Take two nodes with any stores and clocks that stand still, and one probe in
flight from one to the other, of any topic and range and with any root. Deliver frames in any order
for as long as there are any. After finitely many deliveries nothing is in flight. -/
theorem exchange_terminates (env : NodeID → Env) (clock : NodeID → Reading) (a b : NodeID)
    (node : NodeID → Node) (topic : Topic) (rangeStart rangeEnd : Option Bytes) (root : Bytes)
    (run : ℕ → Network.Net NodeID Node Frame)
    (hstart : run 0 = ⟨node, {⟨a, b, .merkle topic rangeStart rangeEnd root⟩}⟩)
    (hrun : ∀ k, (run k).flight ≠ 0 →
      Network.Step (frozenHandler env clock) (run k) (run (k + 1))) :
    ∃ k, (run k).flight = 0 := by
  have hdescends := exchange_descends env clock {a, b}
    (drawnFrom topic (node a).store ∪ drawnFrom topic (node b).store) topic
  refine Network.reaches_quiet (Network.acc_of_budget hdescends _ ?_ ?_) run hstart hrun
  · intro i hi
    rcases Finset.mem_insert.mp hi with rfl | hi
    · exact drawn_drawnFrom Finset.subset_union_left
    · rw [Finset.mem_singleton.mp hi]
      exact drawn_drawnFrom Finset.subset_union_right
  · intro p hp
    rw [Multiset.mem_singleton.mp hp]
    refine ⟨Finset.mem_insert_self a {b}, ?_, rfl⟩
    exact Finset.mem_insert_of_mem (Finset.mem_singleton_self b)

/-- Node 2 published a record that node 1 lacks. -/
def unevenNodes (i : NodeID) : Node :=
  if i = [2] then
    runNode plainEnv (newNode ⟨0, 0⟩ fun _ => {})
      [.publishKeyed ⟨1000000000, 1000000000⟩ [116] [107] [1, 2]]
  else newNode ⟨0, 0⟩ fun _ => {}

/-- What is in flight after node 1 probed node 2 and some deliveries in the order of sending. -/
def unevenFlight (k : ℕ) : List (Network.Packet NodeID Frame) :=
  (Network.deliverAll (frozenHandler (fun _ => plainEnv) fun _ => ⟨0, 0⟩) unevenNodes
    [⟨[1], [2], .merkle [116] none none []⟩] (List.replicate k ())).2

theorem unevenFlight_ends : ∃ k, unevenFlight k = [] := by
  obtain ⟨k, hk⟩ := exchange_terminates (fun _ => plainEnv) (fun _ => ⟨0, 0⟩) [1] [2] unevenNodes
    [116] none none []
    (fun k => ⟨(Network.deliverAll (frozenHandler (fun _ => plainEnv) fun _ => ⟨0, 0⟩) unevenNodes
      [⟨[1], [2], .merkle [116] none none []⟩] (List.replicate k ())).1, unevenFlight k⟩)
    rfl (fun k hk => Network.step_deliverAll _ () k _ _ fun hnil => hk (congrArg _ hnil))
  exact ⟨k, (Multiset.coe_eq_zero _).mp hk⟩

end Swarm
