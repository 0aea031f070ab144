import Swarm.Lib.CasLoop
import Swarm.Lib.MaxLoop
import Swarm.Time

/-!
# The hybrid logical clock

`hlc.go`: 48 bits of wall milliseconds over a 16-bit counter in one word, advanced by two
compare-and-swap loops. `nowNext` and `observeNext` are the loop bodies; `CasLoop` interleaves
them.

`packHLC` keeps only 16 bits of the counter, so the stamp after `(wall, 0xFFFF)` under a wall
reading that has not moved is `(wall, 0)`, below its predecessor. `now_causal_iff` says that this
is the one way the order is lost: the stamps of a run are strictly increasing, and above every
remote stamp observed within the budget, exactly when no stamp is taken there.
-/

namespace Swarm

/-- `packHLC`. -/
def packHLC (wall ctr : UInt64) : UInt64 := (wall <<< 16) ||| (ctr &&& 0xFFFF)

/-- `unpackHLC`: wall and counter. -/
def unpackHLC (h : UInt64) : UInt64 × UInt64 := (h >>> 16, h &&& 0xFFFF)

/-- `Decompose`. -/
def decompose (h : UInt64) : UInt64 × UInt16 := ((unpackHLC h).1, (unpackHLC h).2.toUInt16)

/-- The value `HLC.Now` tries to store over `cur` under the wall reading `nowWall`. -/
def nowNext (nowWall cur : UInt64) : UInt64 :=
  let (curWall, curCtr) := unpackHLC cur
  if curWall < nowWall then packHLC nowWall 0 else packHLC curWall (curCtr + 1)

/-- The value `HLC.observeAt` tries to store over `cur`. -/
def observeNext (remote : UInt64) (nowMs : Int64) (cur : UInt64) : UInt64 :=
  let skewMs := observerForwardSkewBudget.milliseconds.toUInt64
  let nowWall := nowMs.toUInt64
  let (curWall, curCtr) := unpackHLC cur
  let (remoteWall, remoteCtr) := unpackHLC remote
  let (maxWall, maxCtr) :=
    if remoteWall ≤ nowWall + skewMs ∧
        (curWall < remoteWall ∨ (remoteWall = curWall ∧ curCtr < remoteCtr)) then
      (remoteWall, remoteCtr)
    else (curWall, curCtr)
  if maxWall < nowWall then packHLC nowWall 0 else packHLC maxWall maxCtr

/-! ## Words as wall and counter -/

theorem wall_toNat (h : UInt64) : (unpackHLC h).1.toNat = h.toNat / 65536 := by
  show (h >>> 16).toNat = _
  rw [UInt64.toNat_shiftRight, show (16 : UInt64).toNat % 64 = 16 from rfl,
    Nat.shiftRight_eq_div_pow]

theorem and_mask_toNat (c : UInt64) : (c &&& 0xFFFF).toNat = c.toNat % 65536 := by
  rw [UInt64.toNat_and, show (0xFFFF : UInt64).toNat = 2 ^ 16 - 1 from rfl,
    Nat.and_two_pow_sub_one_eq_mod]

theorem ctr_toNat (h : UInt64) : (unpackHLC h).2.toNat = h.toNat % 65536 := and_mask_toNat h

theorem packHLC_toNat {w : UInt64} (c : UInt64) (hw : w.toNat < 2 ^ 48) :
    (packHLC w c).toNat = w.toNat * 65536 + c.toNat % 65536 := by
  unfold packHLC
  rw [UInt64.toNat_or, and_mask_toNat, UInt64.toNat_shiftLeft,
    show (16 : UInt64).toNat % 64 = 16 from rfl, Nat.shiftLeft_eq, Nat.mod_eq_of_lt (by omega),
    ← Nat.shiftLeft_eq,
    ← Nat.shiftLeft_add_eq_or_of_lt (by omega), Nat.shiftLeft_eq]

theorem wall_lt (h : UInt64) : (unpackHLC h).1.toNat < 2 ^ 48 := by
  have := h.toNat_lt
  rw [wall_toNat]
  omega

theorem packHLC_unpackHLC (h : UInt64) : packHLC (unpackHLC h).1 (unpackHLC h).2 = h := by
  apply UInt64.toNat_inj.mp
  rw [packHLC_toNat _ (wall_lt h), wall_toNat, ctr_toNat]
  omega

/-! ## One loop body -/

/-- The counter is at its limit and the wall reading has not moved past the word. -/
def CounterWraps (cur nowWall : UInt64) : Prop :=
  (unpackHLC cur).2 = 0xFFFF ∧ nowWall ≤ (unpackHLC cur).1

instance (cur nowWall : UInt64) : Decidable (CounterWraps cur nowWall) := by
  unfold CounterWraps; infer_instance

/-- The remote wall part is within the budget of the reading it was observed at. -/
def InBudget (remote : UInt64) (nowMs : Int64) : Prop :=
  (unpackHLC remote).1.toNat ≤ nowMs.toUInt64.toNat + 600000

instance (remote : UInt64) (nowMs : Int64) : Decidable (InBudget remote nowMs) := by
  unfold InBudget; infer_instance

theorem counterWraps_iff (cur nowWall : UInt64) :
    CounterWraps cur nowWall ↔
      cur.toNat % 65536 = 65535 ∧ nowWall.toNat ≤ cur.toNat / 65536 := by
  unfold CounterWraps
  rw [← UInt64.toNat_inj, ctr_toNat, UInt64.le_iff_toNat_le, wall_toNat]
  rfl

theorem nowNext_toNat {nowWall : UInt64} (cur : UInt64) (hw : nowWall.toNat < 2 ^ 48) :
    (nowNext nowWall cur).toNat =
      if cur.toNat / 65536 < nowWall.toNat then nowWall.toNat * 65536
      else cur.toNat / 65536 * 65536 + (cur.toNat % 65536 + 1) % 65536 := by
  have hstep : nowNext nowWall cur = if (unpackHLC cur).1 < nowWall then packHLC nowWall 0
      else packHLC (unpackHLC cur).1 ((unpackHLC cur).2 + 1) := rfl
  have hctr : ((unpackHLC cur).2 + 1).toNat = cur.toNat % 65536 + 1 := by
    rw [UInt64.toNat_add, ctr_toNat, show (1 : UInt64).toNat = 1 from rfl]
    omega
  rw [hstep]
  simp only [UInt64.lt_iff_toNat_lt, wall_toNat]
  split_ifs with h
  · rw [packHLC_toNat 0 hw, show (0 : UInt64).toNat % 65536 = 0 from rfl, Nat.add_zero]
  · rw [packHLC_toNat _ (wall_lt cur), wall_toNat, hctr]

/-- Away from the counter's limit a stamp is above the word it replaces. -/
theorem lt_nowNext {nowWall cur : UInt64} (hw : nowWall.toNat < 2 ^ 48)
    (h : ¬ CounterWraps cur nowWall) : cur < nowNext nowWall cur := by
  rw [counterWraps_iff] at h
  rw [UInt64.lt_iff_toNat_lt, nowNext_toNat cur hw]
  split_ifs with hlt <;> omega

/-- At the counter's limit it is not. -/
theorem nowNext_le_of_wraps {nowWall cur : UInt64} (hw : nowWall.toNat < 2 ^ 48)
    (h : CounterWraps cur nowWall) : nowNext nowWall cur ≤ cur := by
  rw [counterWraps_iff] at h
  rw [UInt64.le_iff_toNat_le, nowNext_toNat cur hw, if_neg (by omega)]
  omega

theorem skewMs_toNat : observerForwardSkewBudget.milliseconds.toUInt64.toNat = 600000 := by decide

/-- What an observation stores: the word itself, the remote stamp when it is in budget and
greater, or the wall reading when it is past both. -/
theorem observeNext_spec (remote : UInt64) {nowMs : Int64} (cur : UInt64)
    (hw : nowMs.toUInt64.toNat < 2 ^ 48) :
    ∃ m : UInt64, (m = if InBudget remote nowMs ∧ cur < remote then remote else cur) ∧
      observeNext remote nowMs cur =
        if m.toNat / 65536 < nowMs.toUInt64.toNat then packHLC nowMs.toUInt64 0 else m := by
  have hbudget : (unpackHLC remote).1 ≤ nowMs.toUInt64 +
      observerForwardSkewBudget.milliseconds.toUInt64 ↔ InBudget remote nowMs := by
    rw [UInt64.le_iff_toNat_le, UInt64.toNat_add, skewMs_toNat]
    unfold InBudget
    omega
  have hless : ((unpackHLC cur).1 < (unpackHLC remote).1 ∨
      ((unpackHLC remote).1 = (unpackHLC cur).1 ∧
        (unpackHLC cur).2 < (unpackHLC remote).2)) ↔ cur < remote := by
    simp only [UInt64.lt_iff_toNat_lt, ← UInt64.toNat_inj, wall_toNat, ctr_toNat]
    omega
  refine ⟨_, rfl, ?_⟩
  unfold observeNext
  simp only [hbudget, hless]
  by_cases hc : InBudget remote nowMs ∧ cur < remote
  · simp only [if_pos hc, packHLC_unpackHLC]
    simp only [UInt64.lt_iff_toNat_lt, wall_toNat]
  · simp only [if_neg hc, packHLC_unpackHLC]
    simp only [UInt64.lt_iff_toNat_lt, wall_toNat]

theorem lt_packHLC_of_wall_lt {m w : UInt64} (hw : w.toNat < 2 ^ 48)
    (h : m.toNat / 65536 < w.toNat) : m < packHLC w 0 := by
  rw [UInt64.lt_iff_toNat_lt, packHLC_toNat 0 hw]
  omega

/-- An observation never moves the word back. -/
theorem le_observeNext (remote : UInt64) {nowMs : Int64} (cur : UInt64)
    (hw : nowMs.toUInt64.toNat < 2 ^ 48) : cur ≤ observeNext remote nowMs cur := by
  obtain ⟨m, hm, heq⟩ := observeNext_spec remote cur hw
  have hcm : cur ≤ m := by
    rw [hm]
    split_ifs with hc
    · exact hc.2.le
    · exact le_rfl
  rw [heq]
  split_ifs with h
  · exact hcm.trans (lt_packHLC_of_wall_lt hw h).le
  · exact hcm

/-- An observation in budget lifts the word to the remote stamp. -/
theorem remote_le_observeNext {remote : UInt64} {nowMs : Int64} (cur : UInt64)
    (hw : nowMs.toUInt64.toNat < 2 ^ 48) (hb : InBudget remote nowMs) :
    remote ≤ observeNext remote nowMs cur := by
  obtain ⟨m, hm, heq⟩ := observeNext_spec remote cur hw
  have hrm : remote ≤ m := by
    rw [hm]
    split_ifs with hc
    · exact le_rfl
    · exact not_lt.mp fun hlt => hc ⟨hb, hlt⟩
  rw [heq]
  split_ifs with h
  · exact hrm.trans (lt_packHLC_of_wall_lt hw h).le
  · exact hrm

/-- Where the word after an observation comes from. -/
theorem observeNext_eq_or (remote : UInt64) {nowMs : Int64} (cur : UInt64)
    (hw : nowMs.toUInt64.toNat < 2 ^ 48) :
    observeNext remote nowMs cur = cur ∨
      (InBudget remote nowMs ∧ observeNext remote nowMs cur = remote) ∨
      (observeNext remote nowMs cur).toNat % 65536 = 0 := by
  obtain ⟨m, hm, heq⟩ := observeNext_spec remote cur hw
  rw [heq]
  split_ifs with h
  · right; right
    rw [packHLC_toNat 0 hw, show (0 : UInt64).toNat = 0 from rfl]
    omega
  · by_cases hc : InBudget remote nowMs ∧ cur < remote
    · rw [if_pos hc] at hm
      exact Or.inr (Or.inl ⟨hc.1, hm⟩)
    · rw [if_neg hc] at hm
      exact Or.inl hm

/-! ## Runs of concurrent callers -/

/-- The two operations on the clock. -/
inductive HlcOp where
  | now
  | observeAt (remote : UInt64) (nowMs : Int64)
  deriving DecidableEq

/-- The loop body of an operation; only `now` uses the wall reading of the attempt. -/
def hlcNext : HlcOp → UInt64 → UInt64 → UInt64
  | .now, nowWall, cur => nowNext nowWall cur
  | .observeAt remote nowMs, _, cur => observeNext remote nowMs cur

/-- One swap of the clock word. -/
abbrev HlcCommit := CasLoop.Commit UInt64 HlcOp UInt64

/-- The stamps later ones must exceed: what `Now` returned, what was observed in budget. -/
def floors (c : HlcCommit) : List UInt64 :=
  match c.op with
  | .now => [c.new hlcNext]
  | .observeAt remote nowMs => if InBudget remote nowMs then [remote] else []

/-- Every value returned by `Now` exceeds the floors left before it. -/
def Causal (log : List HlcCommit) : Prop :=
  log.Pairwise fun c d => d.op = .now → ∀ v ∈ floors c, v < d.new hlcNext

/-- No stamp is taken at the counter's limit. -/
def NoWrap (log : List HlcCommit) : Prop :=
  ∀ c ∈ log, c.op = .now → ¬ CounterWraps c.old c.rd

/-- Observations take their wall reading as an argument. -/
def HlcOp.WallOk : HlcOp → Prop
  | .now => True
  | .observeAt _ nowMs => nowMs.toUInt64.toNat < 2 ^ 48

/-- Every wall reading of the actions, argument or own, is below `2 ^ 48`. -/
def WallsOk {Tid : Type} (acts : List (CasLoop.Act HlcOp UInt64 Tid)) : Prop :=
  ∀ a ∈ acts, a.Within HlcOp.WallOk fun nowWall => nowWall.toNat < 2 ^ 48

section Sequential

variable {w v : UInt64} {log : List HlcCommit} (hs : CasLoop.Sequential hlcNext w log v)
  (hwall : ∀ c ∈ log, c.op.WallOk ∧ c.rd.toNat < 2 ^ 48)

include hs hwall in
/-- Without a wrap the word bounds everything later stamps must exceed. -/
theorem floors_le_word (hn : NoWrap log) : ∀ c ∈ log, ∀ u ∈ floors c, u ≤ v := by
  induction hs with
  | nil => exact fun c hc => absurd hc List.not_mem_nil
  | snoc d _ ih =>
    have hold := ih (fun c hc => hwall c (List.mem_append_left _ hc))
      (fun c hc => hn c (List.mem_append_left _ hc))
    obtain ⟨hop, hrd⟩ := hwall d (List.mem_append_right _ List.mem_cons_self)
    have hnd := hn d (List.mem_append_right _ List.mem_cons_self)
    obtain ⟨op, rd, old⟩ := d
    intro c hc u hu
    cases op with
    | now =>
      rcases List.mem_append.mp hc with hc | hc
      · exact (hold c hc u hu).trans (lt_nowNext hrd (hnd rfl)).le
      · rw [List.mem_singleton.mp hc] at hu
        exact (List.mem_singleton.mp hu).le
    | observeAt remote nowMs =>
      rcases List.mem_append.mp hc with hc | hc
      · exact (hold c hc u hu).trans (le_observeNext remote _ hop)
      · rw [List.mem_singleton.mp hc] at hu
        simp only [floors] at hu
        split_ifs at hu with hb
        · rw [List.mem_singleton.mp hu]
          exact remote_le_observeNext _ hop hb
        · exact absurd hu List.not_mem_nil

include hs hwall in
/-- From a fresh clock, a word with a non-zero counter is itself one of the floors. -/
theorem word_mem_floors (hw : w.toNat % 65536 = 0) :
    v.toNat % 65536 = 0 ∨ ∃ c ∈ log, v ∈ floors c := by
  induction hs with
  | nil => exact Or.inl hw
  | snoc d _ ih =>
    have hold := ih fun c hc => hwall c (List.mem_append_left _ hc)
    obtain ⟨hop, -⟩ := hwall d (List.mem_append_right _ List.mem_cons_self)
    obtain ⟨op, rd, old⟩ := d
    cases op with
    | now =>
      exact Or.inr ⟨_, List.mem_append_right _ List.mem_cons_self, List.mem_cons_self⟩
    | observeAt remote nowMs =>
      show (observeNext remote nowMs old).toNat % 65536 = 0 ∨
        ∃ c ∈ _, observeNext remote nowMs old ∈ floors c
      rcases observeNext_eq_or remote old hop with h | ⟨hb, h⟩ | h
      · rw [h]
        exact hold.imp_right fun ⟨c, hc, hmem⟩ => ⟨c, List.mem_append_left _ hc, hmem⟩
      · rw [h]
        refine Or.inr ⟨_, List.mem_append_right _ List.mem_cons_self, ?_⟩
        simp only [floors, if_pos hb, List.mem_singleton]
      · exact Or.inl h

include hs hwall in
/-- A sequential history of a fresh clock is causal exactly when no stamp wraps. -/
theorem causal_iff_noWrap (hw : w.toNat % 65536 = 0) : Causal log ↔ NoWrap log := by
  induction hs with
  | nil => exact ⟨fun _ c hc => absurd hc List.not_mem_nil, fun _ => List.Pairwise.nil⟩
  | @snoc l d hl ih =>
    have hwl : ∀ c ∈ l, c.op.WallOk ∧ c.rd.toNat < 2 ^ 48 :=
      fun c hc => hwall c (List.mem_append_left _ hc)
    have hrd := (hwall d (List.mem_append_right _ List.mem_cons_self)).2
    unfold Causal NoWrap
    rw [List.pairwise_append]
    constructor
    · rintro ⟨hpre, -, hlast⟩ c hc hop hwrap
      rcases List.mem_append.mp hc with hc | hc
      · exact (ih hwl).mp hpre c hc hop hwrap
      -- the wrapped-over word is a floor itself, and the stamp is not above it
      · rw [List.mem_singleton] at hc
        subst hc
        have hle : c.new hlcNext ≤ c.old := by
          unfold CasLoop.Commit.new
          rw [hop]
          exact nowNext_le_of_wraps hrd hwrap
        rcases word_mem_floors hl hwl hw with h0 | ⟨b, hb, hmem⟩
        · have := ((counterWraps_iff _ _).mp hwrap).1
          omega
        · exact absurd (hlast b hb c List.mem_cons_self hop _ hmem) (not_lt.mpr hle)
    · intro hn
      have hnl : NoWrap l := fun c hc => hn c (List.mem_append_left _ hc)
      refine ⟨(ih hwl).mpr hnl, List.pairwise_singleton _ _, fun b hb c hc hop u hu => ?_⟩
      rw [List.mem_singleton] at hc
      subst hc
      have hlt : c.old < c.new hlcNext := by
        unfold CasLoop.Commit.new
        rw [hop]
        exact lt_nowNext hrd (hn c (List.mem_append_right _ List.mem_cons_self) hop)
      exact lt_of_le_of_lt (floors_le_word hl hwl hnl b hb u hu) hlt

end Sequential

/-- **Causality of the clock.** For a clock created at wall time `w` and any interleaving of the
loads and swaps of any number of callers, with readings below `2 ^ 48`: every stamp returned
exceeds every earlier stamp and every remote stamp observed earlier within the budget, exactly
when no stamp is taken over a word whose counter is `0xFFFF` and whose wall part the reading has
not passed. -/
theorem now_causal_iff {Tid : Type} [DecidableEq Tid] (w : UInt64) (hw : w.toNat < 2 ^ 48)
    (acts : List (CasLoop.Act HlcOp UInt64 Tid)) (hr : WallsOk acts) :
    Causal (CasLoop.run hlcNext (packHLC w 0) acts).log ↔
      NoWrap (CasLoop.run hlcNext (packHLC w 0) acts).log := by
  refine causal_iff_noWrap (CasLoop.run_sequential hlcNext _ acts)
    (CasLoop.run_within hlcNext _ acts hr) ?_
  rw [packHLC_toNat 0 hw, show (0 : UInt64).toNat = 0 from rfl]
  omega

/-- A clock created at 100 ms observes the stamp `(100, 0xFFFF)` at 100 ms and stamps once more in
that millisecond: the stamp is `(100, 0)`. -/
def wrapActs : List (CasLoop.Act HlcOp UInt64 Unit) :=
  [.call () (.observeAt (packHLC 100 0xFFFF) 100), .load (), .cas () 100,
    .call () .now, .load (), .cas () 100]

theorem wrapActs_not_causal :
    WallsOk wrapActs ∧ InBudget (packHLC 100 0xFFFF) 100 ∧
      (CasLoop.run hlcNext (packHLC 100 0) wrapActs).word = packHLC 100 0 ∧
      packHLC 100 0 < packHLC 100 0xFFFF ∧
      ¬ Causal (CasLoop.run hlcNext (packHLC 100 0) wrapActs).log := by
  refine ⟨?_, by decide, by decide, by decide, ?_⟩
  · simp [WallsOk, wrapActs, CasLoop.Act.Within, HlcOp.WallOk]
    decide
  · have hlog : (CasLoop.run hlcNext (packHLC 100 0) wrapActs).log =
        [⟨.observeAt (packHLC 100 0xFFFF) 100, 100, packHLC 100 0⟩,
          ⟨.now, 100, packHLC 100 0xFFFF⟩] := rfl
    rw [hlog, Causal, List.pairwise_pair]
    exact fun h => absurd (h rfl (packHLC 100 0xFFFF) (by decide)) (by decide)

/-- Two callers race for the word at 100 ms; the loser retries and both stamps are distinct. -/
def raceActs : List (CasLoop.Act HlcOp UInt64 Bool) :=
  [.call false .now, .call true .now, .load false, .load true, .cas true 100, .cas false 100,
    .load false, .cas false 99]

theorem raceActs_causal :
    WallsOk raceActs ∧ Causal (CasLoop.run hlcNext (packHLC 100 0) raceActs).log := by
  have hr : WallsOk raceActs := by
    simp [WallsOk, raceActs, CasLoop.Act.Within, HlcOp.WallOk]
  refine ⟨hr, (now_causal_iff 100 (by decide) raceActs hr).mpr ?_⟩
  unfold NoWrap
  decide

/-! ## How far remote stamps move the wall part -/

/-- The wall reading a commit used. -/
def wallReading (c : HlcCommit) : ℕ :=
  match c.op with
  | .now => c.rd.toNat
  | .observeAt _ nowMs => nowMs.toUInt64.toNat

/-- The largest wall reading used so far. -/
def topReading (log : List HlcCommit) : ℕ := maxLoop wallReading 0 log

/-- The wall reading passed to an observation is not negative and leaves room for the budget. -/
def HlcOp.ReadsInRange : HlcOp → Prop
  | .now => True
  | .observeAt _ nowMs => 0 ≤ nowMs.toInt ∧ nowMs.toInt < 2 ^ 48 - 600000

theorem HlcOp.ReadsInRange.wallOk {op : HlcOp} (h : op.ReadsInRange) : op.WallOk := by
  cases op with
  | now => trivial
  | observeAt remote nowMs =>
    obtain ⟨hpos, hlt⟩ := h
    show nowMs.toUInt64.toNat < 2 ^ 48
    have hread : nowMs.toInt = (nowMs.toUInt64.toNat : ℤ).bmod (2 ^ 64) :=
      BitVec.toInt_eq_toNat_bmod nowMs.toBitVec
    have hword := nowMs.toUInt64.toNat_lt
    rw [hread, Int.bmod_def] at hpos hlt
    split_ifs at hpos hlt <;> omega

/-- One commit raises the wall part at most to the budget over its reading. -/
theorem wall_new_le {c : HlcCommit} (hop : c.op.WallOk) (hrd : c.rd.toNat < 2 ^ 48) :
    (unpackHLC (c.new hlcNext)).1.toNat ≤
      max (unpackHLC c.old).1.toNat (wallReading c + 600000) := by
  obtain ⟨op, rd, old⟩ := c
  rw [wall_toNat, wall_toNat]
  cases op with
  | now =>
    have hrd' : rd.toNat < 2 ^ 48 := hrd
    show (nowNext rd old).toNat / 65536 ≤ max (old.toNat / 65536) (rd.toNat + 600000)
    rw [nowNext_toNat old hrd']
    split_ifs <;> omega
  | observeAt remote nowMs =>
    show (observeNext remote nowMs old).toNat / 65536 ≤
      max (old.toNat / 65536) (nowMs.toUInt64.toNat + 600000)
    obtain ⟨m, hm, heq⟩ := observeNext_spec remote old hop
    have hle : m.toNat / 65536 ≤ max (old.toNat / 65536) (nowMs.toUInt64.toNat + 600000) := by
      rw [hm]
      split_ifs with hc
      · have hbudget := hc.1
        unfold InBudget at hbudget
        rw [wall_toNat] at hbudget
        exact le_max_of_le_right hbudget
      · exact le_max_left _ _
    rw [heq]
    split_ifs
    · rw [packHLC_toNat 0 hop, show (0 : UInt64).toNat = 0 from rfl]
      omega
    · exact hle

/-- So does a whole history. -/
theorem wall_word_le {w v : UInt64} {log : List HlcCommit}
    (hs : CasLoop.Sequential hlcNext w log v)
    (hwall : ∀ c ∈ log, c.op.WallOk ∧ c.rd.toNat < 2 ^ 48) {top : ℕ}
    (htop : ∀ c ∈ log, wallReading c ≤ top) :
    (unpackHLC v).1.toNat ≤ max (unpackHLC w).1.toNat (top + 600000) := by
  induction hs with
  | nil => exact le_max_left _ _
  | @snoc l c _ ih =>
    have hlast : c ∈ l ++ [c] := List.mem_append_right _ (List.mem_singleton_self c)
    have hold := ih (fun d hd => hwall d (List.mem_append_left _ hd))
      (fun d hd => htop d (List.mem_append_left _ hd))
    have hnew := wall_new_le (hwall c hlast).1 (hwall c hlast).2
    have hread := htop c hlast
    omega

/-- **Remotes cannot ratchet the clock.** From any word and for any interleaving of the loads and
swaps of any number of callers, with any remote stamps and wall readings in `[0, 2 ^ 48 - 600000)`:
the wall part of the word is at most that of the first word or the largest reading so far plus the
skew budget, and no observation replaces the word by a smaller one. -/
theorem observe_within_budget {Tid : Type} [DecidableEq Tid] (w : UInt64)
    (acts : List (CasLoop.Act HlcOp UInt64 Tid))
    (hr : ∀ a ∈ acts, a.Within HlcOp.ReadsInRange fun nowWall => nowWall.toNat < 2 ^ 48 - 600000) :
    (unpackHLC (CasLoop.run hlcNext w acts).word).1.toNat ≤
        max (unpackHLC w).1.toNat (topReading (CasLoop.run hlcNext w acts).log +
          observerForwardSkewBudget.milliseconds.toUInt64.toNat) ∧
      ∀ c ∈ (CasLoop.run hlcNext w acts).log, ∀ remote nowMs, c.op = .observeAt remote nowMs →
        c.old ≤ c.new hlcNext := by
  have hwall : ∀ c ∈ (CasLoop.run hlcNext w acts).log, c.op.WallOk ∧ c.rd.toNat < 2 ^ 48 := by
    intro c hc
    obtain ⟨hop, hrd⟩ := CasLoop.run_within hlcNext w acts hr c hc
    exact ⟨hop.wallOk, by omega⟩
  constructor
  · rw [skewMs_toNat]
    exact wall_word_le (CasLoop.run_sequential hlcNext w acts) hwall
      fun c hc => MaxLoop.le_of_mem _ _ hc
  · rintro ⟨_, rd, old⟩ hc remote nowMs rfl
    exact le_observeNext remote old (hwall _ hc).1

/-- A caller observes a stamp ten minutes and a millisecond ahead, which is ignored, and one ten
minutes ahead, which is adopted. -/
def hastyActs : List (CasLoop.Act HlcOp UInt64 Unit) :=
  [.call () (.observeAt (packHLC 600101 7) 100), .load (), .cas () 100,
    .call () (.observeAt (packHLC 600100 7) 100), .load (), .cas () 100]

theorem hastyActs_within_budget :
    (CasLoop.run hlcNext (packHLC 100 0) hastyActs).word = packHLC 600100 7 ∧
    (unpackHLC (packHLC 600100 7)).1.toNat ≤
      max (unpackHLC (packHLC 100 0)).1.toNat (100 + 600000) := by
  have hword : (CasLoop.run hlcNext (packHLC 100 0) hastyActs).word = packHLC 600100 7 := by decide
  have h := (observe_within_budget (packHLC 100 0) hastyActs (by
    simp [hastyActs, CasLoop.Act.Within, HlcOp.ReadsInRange])).1
  rw [hword, show topReading (CasLoop.run hlcNext (packHLC 100 0) hastyActs).log = 100 by decide,
    skewMs_toNat] at h
  exact ⟨hword, h⟩

end Swarm
