import Swarm.Lib.SlidingWindow
import Swarm.Peers

/-!
# Backpressure on lazy pushes

`EnqueueLazy` bounds the announcements to a slow peer. With a fixed age and clock readings that do
not go back, its queue is a sliding window over the entries it accepted: the calls for one peer are
the offers of `SlidingWindow` (`log_enqueue`), with the bound of the peer as the room and the age as
the span.
-/

namespace Swarm

/-- A call of `EnqueueLazy`: the entry, and what the clock reads. -/
structure LazyCall where
  entry : LazyEntry
  now : Time

/-- The entry as it is queued. -/
def LazyCall.queued (c : LazyCall) : LazyEntry := { c.entry with queuedAt := c.now }

/-- The table along the calls for one peer, and the entries accepted so far. -/
structure LazyRun where
  table : PeerTable
  accepted : List LazyEntry := []

/-- The answer of `EnqueueLazy` to a call. -/
def LazyRun.accepts (st : LazyRun) (id : NodeID) (maxAge : Duration) (c : LazyCall) : Bool :=
  (st.table.enqueueLazy id c.entry maxAge c.now).1

/-- One call. -/
def LazyRun.enqueue (id : NodeID) (maxAge : Duration) (st : LazyRun) (c : LazyCall) : LazyRun where
  table := (st.table.enqueueLazy id c.entry maxAge c.now).2
  accepted := if st.accepts id maxAge c then st.accepted ++ [c.queued] else st.accepted

/-- A sequence of calls from a table, with no drain between them. -/
def lazyRun (id : NodeID) (maxAge : Duration) (pt : PeerTable) (calls : List LazyCall) : LazyRun :=
  calls.foldl (LazyRun.enqueue id maxAge) { table := pt }

/-- The accepted entries with a reading in a closed interval. -/
def queuedWithin (a b : ℤ) (entries : List LazyEntry) : List LazyEntry :=
  entries.filter fun e => decide (a ≤ e.queuedAt ∧ e.queuedAt ≤ b)

/-- The log of the window a peer's queue is. -/
def LazyRun.log (st : LazyRun) (id : NodeID) : SlidingWindow.Log LazyEntry where
  accepted := st.accepted
  queue := (st.table.ctx id).lazyQueue

theorem pruneLazy_eq_kept {maxAge : Duration} (h : 0 < maxAge) (queue : List LazyEntry)
    (c : LazyCall) : pruneLazy queue maxAge c.now =
      SlidingWindow.kept LazyEntry.queuedAt maxAge.toInt queue c.queued := by
  have hneg : (-maxAge).toInt = -maxAge.toInt := by
    have hpos := toInt_pos h
    have hlt := maxAge.toInt_lt
    rw [Int64.toInt_neg]
    exact Int.bmod_eq_of_le (by omega) (by omega)
  unfold pruneLazy SlidingWindow.kept
  rw [if_pos h, hneg]
  rfl

section Calls

variable {pt : PeerTable} {id : NodeID} {maxAge : Duration} {calls : List LazyCall}

/-- One call is one offer, and the bound of the peer stays. -/
theorem log_enqueue (st : LazyRun) (hmax : 0 < (st.table.ctx id).cfg.backpressureMax)
    (hage : 0 < maxAge) (c : LazyCall) :
    st.accepts id maxAge c = SlidingWindow.takes LazyEntry.queuedAt
        (st.table.ctx id).cfg.backpressureMax.toNat maxAge.toInt (st.log id).queue c.queued ∧
      (st.enqueue id maxAge c).log id = SlidingWindow.offer LazyEntry.queuedAt
        (st.table.ctx id).cfg.backpressureMax.toNat maxAge.toInt (st.log id) c.queued ∧
      ((st.enqueue id maxAge c).table.ctx id).cfg = (st.table.ctx id).cfg := by
  have hkept := pruneLazy_eq_kept hage (st.log id).queue c
  unfold SlidingWindow.offer SlidingWindow.takes
  rw [← hkept]
  unfold LazyRun.enqueue LazyRun.accepts PeerTable.enqueueLazy LazyRun.log
  dsimp only
  by_cases hfull : (st.table.ctx id).cfg.backpressureMax ≤
      (pruneLazy (st.table.ctx id).lazyQueue maxAge c.now).length
  · have hno : ¬ (pruneLazy (st.table.ctx id).lazyQueue maxAge c.now).length <
        (st.table.ctx id).cfg.backpressureMax.toNat := by omega
    simp [hmax, hfull, hno, PeerTable.ctx_setCtx_eq]
  · have hyes : (pruneLazy (st.table.ctx id).lazyQueue maxAge c.now).length <
        (st.table.ctx id).cfg.backpressureMax.toNat := by omega
    simp [hfull, hyes, PeerTable.ctx_setCtx_eq, LazyCall.queued]

/-- A sequence of calls is a sequence of offers. -/
theorem log_lazyRun (hmax : 0 < (pt.ctx id).cfg.backpressureMax) (hage : 0 < maxAge)
    (hempty : (pt.ctx id).lazyQueue = []) (calls : List LazyCall) :
    (lazyRun id maxAge pt calls).log id = (calls.map LazyCall.queued).foldl
        (SlidingWindow.offer LazyEntry.queuedAt (pt.ctx id).cfg.backpressureMax.toNat
          maxAge.toInt) {} ∧
      ((lazyRun id maxAge pt calls).table.ctx id).cfg = (pt.ctx id).cfg := by
  induction calls using List.reverseRecOn with
  | nil =>
    refine ⟨?_, rfl⟩
    show ({ accepted := [], queue := (pt.ctx id).lazyQueue } : SlidingWindow.Log LazyEntry) = _
    rw [hempty]
    rfl
  | append_singleton calls c ih =>
    obtain ⟨hlog, hcfg⟩ := ih
    have hstep := log_enqueue (lazyRun id maxAge pt calls) (by rw [hcfg]; exact hmax) hage c
    rw [hcfg] at hstep
    obtain ⟨-, hoffer, hkeep⟩ := hstep
    have hsnoc : lazyRun id maxAge pt (calls ++ [c]) =
        (lazyRun id maxAge pt calls).enqueue id maxAge c := List.foldl_append
    rw [hsnoc, List.map_append, List.foldl_append, ← hlog]
    exact ⟨hoffer, hkeep⟩

theorem queued_pairwise (hclock : calls.Pairwise fun c d => c.now ≤ d.now) :
    (calls.map LazyCall.queued).Pairwise fun x y => x.queuedAt ≤ y.queuedAt :=
  List.pairwise_map.mpr hclock

/-- Along calls with readings up to `top` the queue is the window before `top`. -/
theorem sliding_lazyRun (hmax : 0 < (pt.ctx id).cfg.backpressureMax) (hage : 0 < maxAge)
    (hempty : (pt.ctx id).lazyQueue = []) (hclock : calls.Pairwise fun c d => c.now ≤ d.now)
    {top : ℤ} (htop : ∀ c ∈ calls, c.now ≤ top) :
    SlidingWindow.Sliding LazyEntry.queuedAt (pt.ctx id).cfg.backpressureMax.toNat maxAge.toInt top
      ((lazyRun id maxAge pt calls).log id) := by
  rw [(log_lazyRun hmax hage hempty calls).1]
  refine SlidingWindow.sliding_run (toInt_pos hage).le (queued_pairwise hclock) fun e he => ?_
  obtain ⟨c, hc, rfl⟩ := List.mem_map.mp he
  exact htop c hc

theorem exists_sliding_lazyRun (hmax : 0 < (pt.ctx id).cfg.backpressureMax) (hage : 0 < maxAge)
    (hempty : (pt.ctx id).lazyQueue = []) (hclock : calls.Pairwise fun c d => c.now ≤ d.now) :
    ∃ top, SlidingWindow.Sliding LazyEntry.queuedAt (pt.ctx id).cfg.backpressureMax.toNat
      maxAge.toInt top ((lazyRun id maxAge pt calls).log id) := by
  rw [(log_lazyRun hmax hage hempty calls).1]
  exact SlidingWindow.exists_sliding_run (toInt_pos hage).le (queued_pairwise hclock)

end Calls

/-- **Backpressure is a sliding window.** For a peer with bound `B` and an empty queue, calls with
one age and readings that do not go back: no closed interval as long as the age has more than `B`
accepted entries, a refused call has `B` accepted entries in the age before it, and the queue never
holds more than `B`. -/
theorem enqueueLazy_sliding_window (pt : PeerTable) (id : NodeID) (B : ℤ) (maxAge : Duration)
    (calls : List LazyCall) (hB : (pt.ctx id).cfg.backpressureMax = B) (hpos : 0 < B)
    (hage : 0 < maxAge) (hempty : (pt.ctx id).lazyQueue = [])
    (hclock : calls.Pairwise fun c d => c.now ≤ d.now) :
    (∀ t : ℤ, ((queuedWithin t (t + maxAge.toInt)
        (lazyRun id maxAge pt calls).accepted).length : ℤ) ≤ B) ∧
      (∀ front c back, calls = front ++ c :: back →
        (lazyRun id maxAge pt front).accepts id maxAge c = false →
        ((queuedWithin (c.now - maxAge.toInt) c.now
          (lazyRun id maxAge pt front).accepted).length : ℤ) = B) ∧
      ∀ front back, calls = front ++ back →
        (((lazyRun id maxAge pt front).table.ctx id).lazyQueue.length : ℤ) ≤ B := by
  subst hB
  refine ⟨fun t => ?_, ?_, ?_⟩
  · obtain ⟨top, hrun⟩ := exists_sliding_lazyRun hpos hage hempty hclock
    have hle : (queuedWithin t (t + maxAge.toInt) (lazyRun id maxAge pt calls).accepted).length ≤
        (pt.ctx id).cfg.backpressureMax.toNat := hrun.windows t
    omega
  · rintro front c back rfl hno
    obtain ⟨hfront, -, hlast⟩ := List.pairwise_append.mp hclock
    have hrun := sliding_lazyRun hpos hage hempty hfront fun d hd => hlast d hd c List.mem_cons_self
    have hcfg := (log_lazyRun hpos hage hempty front).2
    have hstep := log_enqueue (lazyRun id maxAge pt front) (by rw [hcfg]; exact hpos) hage c
    rw [hcfg, hno] at hstep
    have heq : (queuedWithin (c.now - maxAge.toInt) c.now
        (lazyRun id maxAge pt front).accepted).length =
          (pt.ctx id).cfg.backpressureMax.toNat := hrun.refused le_rfl hstep.1.symm
    omega
  · rintro front back rfl
    obtain ⟨top, hrun⟩ :=
      exists_sliding_lazyRun hpos hage hempty (List.pairwise_append.mp hclock).1
    have hle : ((lazyRun id maxAge pt front).table.ctx id).lazyQueue.length ≤
        (pt.ctx id).cfg.backpressureMax.toNat := hrun.room
    omega

/-- A table whose peers take one announcement at a time. -/
def narrowTable : PeerTable := { configFn := fun _ => { backpressureMax := 1 } }

/-- Announcements at the start, after one age, and one reading later. -/
def spacedCalls : List LazyCall :=
  [0, second.toInt, second.toInt + 1].map fun now =>
    { entry := { topic := [], nodeID := [], hlc := 0, bodyHash := [], queuedAt := 0 }, now := now }

/-- The second entry falls on the end of the window of the first and is refused, the third is behind
it and is taken. -/
theorem spacedCalls_window :
    (lazyRun [1] second narrowTable spacedCalls).accepted.map LazyEntry.queuedAt =
        [0, 1000000001] ∧
      ∀ t : ℤ, ((queuedWithin t (t + second.toInt)
        (lazyRun [1] second narrowTable spacedCalls).accepted).length : ℤ) ≤ 1 :=
  ⟨by decide +kernel, (enqueueLazy_sliding_window narrowTable [1] 1 second spacedCalls rfl
    (by decide) (by decide) rfl (by decide +kernel)).1⟩

end Swarm
