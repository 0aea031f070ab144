import Swarm.Merkle.Root

/-!
# Strong convergence of owner records

Two stores fed the same owner records, in any orders and with any repetitions, hold the same
record in every slot: the greatest by clock, then signature. The store instantiates
`LastWriter`: as long as no cap turns a record away, a run is a list of last-writer writes on
the view of slots, and the view of slots determines every root.
-/

namespace Swarm

theorem rejectedCap_le_exec (cfg : StoreConfig) (s : RecordStore) (op : StoreOp) :
    s.rejectedCap ≤ (op.exec cfg s).rejectedCap := by
  cases op with
  | apply nowMs r =>
    show s.rejectedCap ≤ (applyExt cfg nowMs s r).2.rejectedCap
    rcases applyExt_eq cfg nowMs s r with ⟨-, -, heq⟩ | heq
    · rw [heq]
      exact Nat.le_succ _
    · rw [heq]
      unfold RecordStore.commit
      dsimp only
      split_ifs
      · exact Nat.le_succ _
      · exact le_rfl
  | reap nowMs ttlFor =>
    cases ttlFor <;> exact le_rfl

theorem rejectedCap_le_runStore (cfg : StoreConfig) (s : RecordStore) (ops : List StoreOp) :
    s.rejectedCap ≤ (runStore cfg s ops).rejectedCap := by
  induction ops generalizing s with
  | nil => exact le_rfl
  | cons op ops ih => exact (rejectedCap_le_exec cfg s op).trans (ih _)

/-- While no cap turns a record away, a run of owner records is a list of last-writer writes. -/
theorem slotView_runStore {cfg : StoreConfig} (s : RecordStore) {calls : List (Int64 × Record)}
    (hown : ∀ c ∈ calls, c.2.isObserverAttestation = false)
    (hcap : (runStore cfg s (applyOps calls)).rejectedCap = s.rejectedCap) :
    (runStore cfg s (applyOps calls)).slotView =
      LastWriter.putAll slotOf rankOf s.slotView (calls.map Prod.snd) := by
  induction calls generalizing s with
  | nil => rfl
  | cons c calls ih =>
    have hrest := rejectedCap_le_runStore cfg (applyExt cfg c.1 s c.2).2 (applyOps calls)
    have hend : (runStore cfg (applyExt cfg c.1 s c.2).2 (applyOps calls)).rejectedCap =
        s.rejectedCap := hcap
    rcases slotView_applyExt cfg c.1 s (hown c List.mem_cons_self) with
      ⟨-, hcnt, -⟩ | ⟨hcnt, hview⟩
    · omega
    · have := ih (applyExt cfg c.1 s c.2).2 (fun d hd => hown d (List.mem_cons_of_mem _ hd))
        (hend.trans hcnt.symm)
      rw [hview] at this
      exact this

/-- From the empty store, such a run holds the slot-wise maxima of its records. -/
theorem holds_runStore {cfg : StoreConfig} {calls : List (Int64 × Record)}
    (hown : ∀ c ∈ calls, c.2.isObserverAttestation = false)
    (hcap : (runStore cfg {} (applyOps calls)).rejectedCap = 0) :
    LastWriter.Holds slotOf rankOf {r | r ∈ calls.map Prod.snd}
      (runStore cfg {} (applyOps calls)).slotView := by
  rw [slotView_runStore {} hown hcap]
  exact LastWriter.holds_putAll _

/-- **Strong convergence.** Let two runs from the empty store pass the same owner records, in any
orders, with any repetitions, at any clock readings, and let no cap turn one away. If records of
one slot with equal clock and signature are identical, the two stores hold the same record in
every slot, which is the maximum of the slot by clock and then signature, and every root of
every topic is the same. -/
theorem owner_records_converge (cr : Crypto) (cfg : StoreConfig)
    (xs ys : List (Int64 × Record))
    (hown : ∀ c ∈ xs, c.2.isObserverAttestation = false)
    (hsame : ∀ r, r ∈ xs.map Prod.snd ↔ r ∈ ys.map Prod.snd)
    (hpin : ∀ r ∈ xs.map Prod.snd, ∀ r' ∈ xs.map Prod.snd,
      slotOf r = slotOf r' → r.hlc = r'.hlc → r.sig = r'.sig → r = r')
    (hx : (runStore cfg {} (applyOps xs)).rejectedCap = 0)
    (hy : (runStore cfg {} (applyOps ys)).rejectedCap = 0) :
    (∀ topic node key, (runStore cfg {} (applyOps xs)).getRawKeyed topic node key =
      (runStore cfg {} (applyOps ys)).getRawKeyed topic node key) ∧
    (∀ topic node key r, (runStore cfg {} (applyOps xs)).getRawKeyed topic node key = some r ↔
      r ∈ xs.map Prod.snd ∧ slotOf r = (topic, { nodeID := node, key := key }) ∧
        ∀ r' ∈ xs.map Prod.snd, slotOf r' = (topic, { nodeID := node, key := key }) →
          r'.hlc < r.hlc ∨ (r'.hlc = r.hlc ∧ (r'.sig < r.sig ∨ r'.sig = r.sig))) ∧
    ∀ topic rangeStart rangeEnd,
      topicMerkleRoot cr (runStore cfg {} (applyOps xs)) topic rangeStart rangeEnd =
        topicMerkleRoot cr (runStore cfg {} (applyOps ys)) topic rangeStart rangeEnd := by
  have hset : {r | r ∈ ys.map Prod.snd} = {r | r ∈ xs.map Prod.snd} := by
    ext r
    exact (hsame r).symm
  have hown' : ∀ c ∈ ys, c.2.isObserverAttestation = false := by
    intro c hc
    obtain ⟨d, hd, hdc⟩ := List.mem_map.mp ((hsame c.2).mpr (List.mem_map_of_mem hc))
    rw [← hdc]
    exact hown d hd
  have hpinned : LastWriter.Pinned slotOf rankOf {r | r ∈ xs.map Prod.snd} := by
    intro r hr r' hr' hslot hrank
    obtain ⟨hh, hs⟩ := (rankOf_eq_iff r r').mp hrank
    exact hpin r hr r' hr' hslot hh hs
  have holdsx := holds_runStore hown hx
  have holdsy := (holds_runStore hown' hy).congr hset
  have hview := holdsx.unique holdsy hpinned
  refine ⟨fun topic node key => ?_, fun topic node key r => ?_, fun topic a b => ?_⟩
  · rw [← slotView_eq_getRawKeyed, ← slotView_eq_getRawKeyed, hview]
  · rw [← slotView_eq_getRawKeyed, holdsx.eq_some_iff hpinned]
    simp only [rankOf_le_iff]
    rfl
  · exact topicMerkleRoot_congr cr (run_placed cfg _ topic) (fun k => by
      unfold RecordStore.signedView
      rw [hview]) a b

/-- Node 1 publishes twice in one slot and once under a key, node 2 deletes its record. -/
def mixedCalls : List (Int64 × Record) :=
  [(10, { topic := [116], nodeID := [1], hlc := 5, body := [1], sig := [1] }),
    (11, { topic := [116], nodeID := [1], hlc := 7, body := [2], sig := [2] }),
    (12, { topic := [116], nodeID := [1], hlc := 6, sig := [3], key := [107] }),
    (13, { topic := [116], nodeID := [2], hlc := 9, tombstone := true, sig := [4] })]

/-- The same records newest first, with the superseded one sent twice. -/
def mixedCalls' : List (Int64 × Record) :=
  [(30, { topic := [116], nodeID := [2], hlc := 9, tombstone := true, sig := [4] }),
    (31, { topic := [116], nodeID := [1], hlc := 7, body := [2], sig := [2] }),
    (31, { topic := [116], nodeID := [1], hlc := 5, body := [1], sig := [1] }),
    (32, { topic := [116], nodeID := [1], hlc := 6, sig := [3], key := [107] }),
    (33, { topic := [116], nodeID := [1], hlc := 5, body := [1], sig := [1] })]

theorem mixedCalls_converge :
    topicMerkleRoot (.ofTables [] [] []) (runStore {} {} (applyOps mixedCalls)) [116] none none =
      topicMerkleRoot (.ofTables [] [] []) (runStore {} {} (applyOps mixedCalls')) [116] none none ∧
    (runStore {} {} (applyOps mixedCalls')).getRawKeyed [116] [1] [] =
      some { topic := [116], nodeID := [1], hlc := 7, body := [2], sig := [2] } := by
  obtain ⟨hslots, -, hroots⟩ := owner_records_converge (.ofTables [] [] []) {}
    mixedCalls mixedCalls' (by decide) (by simp [mixedCalls, mixedCalls']; grind) (by decide)
    (by decide) (by decide)
  refine ⟨hroots [116] none none, ?_⟩
  rw [← hslots]
  decide

end Swarm
