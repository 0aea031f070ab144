import Mathlib.Algebra.Order.Group.Abs
import Mathlib.Algebra.Order.Group.Int
import Swarm.Lib.Runs
import Swarm.Store.Fence
import Swarm.Store.Quorum
import Swarm.Store.Relay

/-!
# The corroboration window

Before a quorum is counted, witnesses more than the window behind the newest observation are
dropped. The loop tests `newest - at > win` in 64 bits. An observation `2 ^ 63` ms or more before
the newest makes the difference wrap below zero and is kept, so it counts beside witnesses of any
later time.

`window_respected_iff` says that this is the only failure: what is counted lies within the window
of each other unless a witness that far back meets one within the window of the newest.
-/

namespace Swarm

/-- The observations in a witness set differ pairwise by at most `d` ms, on integers. -/
def Spread (set : FMap NodeID Record) (d : ℤ) : Prop :=
  ∀ o a o' a', set.lookup o = some a → set.lookup o' = some a' →
    a.observedAtUnixMs.toInt - a'.observedAtUnixMs.toInt ≤ d

/-- The loop keeps what lies within the window of the newest, and what lies so far back that the
difference wraps. -/
theorem lookup_pruneWindow_iff {win : Int64} (hwin : 0 ≤ win.toInt) {set : FMap NodeID Record}
    {o : NodeID} {a : Record} :
    (pruneWindow win set).lookup o = some a ↔ set.lookup o = some a ∧
      ((newestOf set).toInt - a.observedAtUnixMs.toInt ≤ win.toInt ∨
        2 ^ 63 ≤ (newestOf set).toInt - a.observedAtUnixMs.toInt) := by
  have hkept : ∀ b, set.lookup o = some b → (¬ win < newestOf set - b.observedAtUnixMs ↔
      (newestOf set).toInt - b.observedAtUnixMs.toInt ≤ win.toInt ∨
        2 ^ 63 ≤ (newestOf set).toInt - b.observedAtUnixMs.toInt) := by
    intro b hb
    have hle := Int64.le_iff_toInt_le.mp (observedAt_le_newestOf hb)
    have hnewest := (newestOf set).toInt_lt
    have hleast := b.observedAtUnixMs.le_toInt
    rw [Int64.lt_iff_toInt_lt, Int64.toInt_sub, Int.bmod_def]
    split_ifs <;> omega
  rw [lookup_pruneWindow, Option.bind_eq_some_iff]
  constructor
  · rintro ⟨b, hb, hkeep⟩
    split_ifs at hkeep with hold
    cases hkeep
    exact ⟨hb, (hkept _ hb).mp hold⟩
  · rintro ⟨ha, hnear⟩
    exact ⟨a, ha, if_neg ((hkept a ha).mpr hnear)⟩

/-- No observation lies `2 ^ 63` ms or more before the newest one where another lies within the
window of it. -/
def OneEra (win : Int64) (set : FMap NodeID Record) : Prop :=
  ∀ o a o' a', set.lookup o = some a → set.lookup o' = some a' →
    (newestOf set).toInt - a.observedAtUnixMs.toInt ≤ win.toInt →
    (newestOf set).toInt - a'.observedAtUnixMs.toInt < 2 ^ 63

/-- What the loop keeps lies within the window of each other exactly if the set is of one era. -/
theorem spread_pruneWindow_iff {win : Int64} (hwin : 0 ≤ win.toInt) (hsmall : win.toInt < 2 ^ 62)
    (set : FMap NodeID Record) : Spread (pruneWindow win set) win.toInt ↔ OneEra win set := by
  constructor
  · intro h o a o' a' ha ha' hnear
    by_contra hfar
    have hspread := h o a o' a' ((lookup_pruneWindow_iff hwin).mpr ⟨ha, Or.inl hnear⟩)
      ((lookup_pruneWindow_iff hwin).mpr ⟨ha', Or.inr (not_lt.mp hfar)⟩)
    omega
  · intro h o a o' a' ha ha'
    obtain ⟨ha, hcase⟩ := (lookup_pruneWindow_iff hwin).mp ha
    obtain ⟨ha', hnear' | hfar'⟩ := (lookup_pruneWindow_iff hwin).mp ha'
    · have hle := Int64.le_iff_toInt_le.mp (observedAt_le_newestOf ha)
      omega
    -- the earlier one wrapped: then none is near, the newest is the epoch, and both are at the
    -- least 64-bit value
    have hfar := hcase.resolve_left fun hnear =>
      absurd (h o a o' a' ha ha' hnear) (not_lt.mpr hfar')
    rcases MaxLoop.eq_start_or_mem Record.observedAtUnixMs 0 set.values with hzero | ⟨b, hb, hnew⟩
    · have hnew : (newestOf set).toInt = 0 := by
        rw [newestOf, hzero]
        rfl
      have hleast := a.observedAtUnixMs.le_toInt
      have hleast' := a'.observedAtUnixMs.le_toInt
      omega
    · obtain ⟨n, hn⟩ := FMap.mem_values.mp hb
      have hself : (newestOf set).toInt - b.observedAtUnixMs.toInt ≤ win.toInt := by
        rw [newestOf, ← hnew, sub_self]
        exact hwin
      exact absurd (h n b o' a' hn ha' hself) (not_lt.mpr hfar')

/-! ## Runs -/

/-- The call synthesises a tombstone: the topic is there or has room, and the attestation is
admitted and completes a quorum. -/
def DeclaresDead (cfg : StoreConfig) (s : RecordStore) (c : Int64 × Record) : Prop :=
  TopicRoom cfg s c.2.topic ∧ Crosses cfg s c

/-- The witnesses the store keeps of the target, with the attestation in the place of its
observer. -/
def joinedBy (s : RecordStore) (c : Int64 × Record) : FMap NodeID Record :=
  ((s.topic c.2.topic).witnesses c.2.nodeID).insert c.2.observerNodeID c.2

/-- The witnesses a call counts. -/
def countedBy (cfg : StoreConfig) (s : RecordStore) (c : Int64 × Record) : FMap NodeID Record :=
  (s.topic c.2.topic).witnessesAfter cfg c.2

/-- A tombstone is synthesised from witnesses within the window of each other only. -/
def Corroborated (cfg : StoreConfig) (s : RecordStore) (c : Int64 × Record) : Prop :=
  DeclaresDead cfg s c → Spread (countedBy cfg s c) cfg.winMs.toInt

/-- Where a tombstone is synthesised, the kept witnesses and the attestation are of one era. -/
def SameEra (cfg : StoreConfig) (s : RecordStore) (c : Int64 × Record) : Prop :=
  DeclaresDead cfg s c → OneEra cfg.winMs (joinedBy s c)

theorem winMs_lt (cfg : StoreConfig) : cfg.winMs.toInt < 2 ^ 62 := by
  have hlt := cfg.observerCorroborationWindow.toInt_lt
  have hpos := toInt_pos cfg.window_pos
  unfold StoreConfig.winMs
  rw [toInt_milliseconds, Int.tdiv_eq_ediv_of_nonneg hpos.le]
  omega

/-- Witnesses were passed as attestations. -/
theorem passed_of_joinedBy {cfg : StoreConfig} {front : List (Int64 × Record)} {c : Int64 × Record}
    {o : NodeID} {a : Record} (hatt : c.2.isObserverAttestation = true)
    (h : (joinedBy (front.foldl (applyCall cfg) {}) c).lookup o = some a) :
    ∃ d ∈ front ++ [c], d.2 = a ∧ d.2.isObserverAttestation = true := by
  unfold joinedBy at h
  rw [FMap.lookup_insert_eq] at h
  split_ifs at h with ho
  · cases h
    exact ⟨c, List.mem_append_right _ (List.mem_singleton_self c), rfl, hatt⟩
  · rw [← runStore_applyOps] at h
    have hkept := ((run_quorumInv cfg (applyOps front) c.2.topic).kept _ o a h).2
    obtain ⟨nowMs, hmem, -⟩ := hkept.passed
    obtain ⟨d, hd, heq⟩ := List.mem_map.mp hmem
    cases heq
    exact ⟨d, List.mem_append_left _ hd, rfl, hkept.attests⟩

/-- **The corroboration window.** In every run of calls the witnesses of every synthesised tombstone
lie pairwise within the window, on integers, exactly when at none of these calls a kept witness or
the attestation lies `2 ^ 63` ms or more before the newest of them where another lies within the
window of it. They do when every attestation passed carries an observation within `2 ^ 61` ms of the
epoch. -/
theorem window_respected_iff (cfg : StoreConfig) (calls : List (Int64 × Record)) :
    (Runs.StepsMeet (applyCall cfg) (Corroborated cfg) {} calls ↔
      Runs.StepsMeet (applyCall cfg) (SameEra cfg) {} calls) ∧
    ((∀ c ∈ calls, c.2.isObserverAttestation = true → |c.2.observedAtUnixMs.toInt| < 2 ^ 61) →
      Runs.StepsMeet (applyCall cfg) (Corroborated cfg) {} calls) := by
  have hone : ∀ s c, Corroborated cfg s c ↔ SameEra cfg s c := fun s c =>
    imp_congr_right fun _ => spread_pruneWindow_iff (winMs_nonneg cfg) (winMs_lt cfg) _
  refine ⟨by simp only [Runs.stepsMeet_iff_forall_split, hone], fun hera => ?_⟩
  rw [Runs.stepsMeet_iff_forall_split]
  intro front c back hcalls
  refine (hone _ c).mpr fun hsynth o a o' a' ha ha' _ => ?_
  have hsmall : ∀ {o : NodeID} {a : Record},
      (joinedBy (front.foldl (applyCall cfg) {}) c).lookup o = some a →
      |a.observedAtUnixMs.toInt| < 2 ^ 61 := by
    intro o a h
    obtain ⟨d, hd, rfl, hatt⟩ := passed_of_joinedBy hsynth.2.1 h
    refine hera d ?_ hatt
    rw [hcalls, List.append_cons]
    exact List.mem_append_left _ hd
  have hnewest : (newestOf (joinedBy (front.foldl (applyCall cfg) {}) c)).toInt < 2 ^ 61 := by
    unfold newestOf
    rcases MaxLoop.eq_start_or_mem Record.observedAtUnixMs 0
        (joinedBy (front.foldl (applyCall cfg) {}) c).values with hzero | ⟨b, hb, hnew⟩
    · rw [hzero]
      decide
    · obtain ⟨n, hn⟩ := FMap.mem_values.mp hb
      rw [← hnew]
      exact (abs_lt.mp (hsmall hn)).2
  have hold := abs_lt.mp (hsmall ha')
  omega

/-- One observer's attestation carries the least 64-bit time, the other's is recent. -/
def ancientCalls : List (Int64 × Record) :=
  [(1000, { topic := [116], nodeID := [9], hlc := 5, tombstone := true, sig := [1]
            observerNodeID := [1], observedAtUnixMs := -9223372036854775808 }),
    (1000, { topic := [116], nodeID := [9], hlc := 6, tombstone := true, sig := [2]
             observerNodeID := [2], observedAtUnixMs := 1000 })]

/-- The two are counted together and node 9 is declared dead. -/
theorem ancient_witness_counted :
    ((ancientCalls.foldl (applyCall {}) {}).getRawKeyed [116] [9] []).map Record.hlc = some 7 ∧
    ((ancientCalls.foldl (applyCall {}) {}).topicAttestations [116]).map Record.observedAtUnixMs =
      [-9223372036854775808, 1000] ∧
    ¬ Runs.StepsMeet (applyCall {}) (Corroborated {}) {} ancientCalls := by
  refine ⟨by decide, by decide, fun h => ?_⟩
  have hsecond := h.2.1
    ⟨fun hnone => (nomatch hnone), rfl, ⟨rfl, by decide, rfl, rfl, rfl, by decide⟩, by decide⟩
  exact absurd (hsecond [2] _ [1] _ rfl rfl) (by decide)

end Swarm
