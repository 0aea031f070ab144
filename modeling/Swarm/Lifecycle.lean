import Mathlib.Data.Nat.Basic
import Mathlib.Logic.Function.Basic
import Mathlib.Order.Basic
import Mathlib.Tactic.ByContra
import Mathlib.Tactic.SplitIfs
import Mathlib.Tactic.Tauto

/-!
# Starting and stopping

`Wire`, `Start` and `Stop` of `node.go` as runs of their atomic steps, for any number of calls at
once. `Start` checks that the node is not stopped and later swaps `started`, hands its cancel
function over and starts the ticker; `Stop` swaps `stopped`, reads the cancel function, calls it and
waits for the ticker. Nothing orders the check of `Start` before the swap of `Stop`.

At most one ticker is ever started (`one_ticker`). A `Stop` that finds no `Start` between its check
and its `wg.Add` joins the ticker (`stop_joins_iff`) and is never stuck (`stop_never_stuck`); one
that finds such a `Start` may return before the ticker is started.
-/

namespace Swarm

/-- The errors of `Wire` and `Start`. -/
inductive LifeError where
  | invalidConfig
  | alreadyWired
  | stopped
  | alreadyStarted
  deriving DecidableEq

/-- The error texts. -/
def LifeError.text : LifeError → String
  | .invalidConfig => "swarm: invalid config"
  | .alreadyWired => "swarm: already wired"
  | .stopped => "swarm: engine stopped"
  | .alreadyStarted => "swarm: already started"

/-- Where a call is. Calls are told apart by an id; `Start` names its context after its call. -/
inductive LifeAt (C : Type) where
  | idle
  | wireCalled
  | wireWon
  | wireDone (err : Option LifeError)
  | startCalled
  /-- The transport is there. -/
  | startChecked
  /-- The node was not stopped. -/
  | startLoaded
  | startWon
  /-- The cancel function is handed over. -/
  | startStored
  /-- The ticker is counted in the wait group. -/
  | startAdded
  /-- On `startCtx.Done()`. -/
  | startBlocked
  | startDone (err : Option LifeError)
  | stopCalled
  | stopWon
  | stopRead (cancel : Option C)
  | stopWait
  | stopDone (won : Bool)
  deriving DecidableEq

/-- The flags of a node, its wait group, and the calls in progress. -/
structure Life (C : Type) where
  wired : Bool := false
  tport : Bool := false
  started : Bool := false
  stopped : Bool := false
  /-- `startCancel`, by the call whose context it ends. -/
  cancel : Option C := none
  /-- The contexts that are done. -/
  done : C → Bool := fun _ => false
  wg : ℕ := 0
  /-- The calls whose ticker goroutine is running. -/
  ticking : C → Bool := fun _ => false
  calls : C → LifeAt C := fun _ => .idle

inductive LifeCall where
  | wire
  | start
  | stop

/-- A call begins or takes its next step, the context given to a `Start` ends, or a ticker returns
because its context is done. -/
inductive LifeAct (C : Type) where
  | call (c : C) (op : LifeCall)
  | advance (c : C)
  | expire (c : C)
  | exit (c : C)

namespace Life

variable {C : Type} [DecidableEq C]

/-- The call moves on. -/
def move (s : Life C) (c : C) (p : LifeAt C) : Life C :=
  { s with calls := Function.update s.calls c p }

/-- The next step of a call; one that waits stays where it is. -/
def advance (noTicker : Bool) (s : Life C) (c : C) : Life C :=
  match s.calls c with
  | .wireCalled =>
    if s.wired then s.move c (.wireDone (some .alreadyWired))
    else { s with wired := true }.move c .wireWon
  | .wireWon => { s with tport := true }.move c (.wireDone none)
  | .startCalled =>
    if !s.tport then s.move c (.startDone (some .invalidConfig)) else s.move c .startChecked
  | .startChecked =>
    if s.stopped then s.move c (.startDone (some .stopped)) else s.move c .startLoaded
  | .startLoaded =>
    if s.started then s.move c (.startDone (some .alreadyStarted))
    else { s with started := true }.move c .startWon
  | .startWon => { s with cancel := some c }.move c .startStored
  | .startStored =>
    if noTicker then s.move c .startBlocked else { s with wg := s.wg + 1 }.move c .startAdded
  | .startAdded =>
    { s with ticking := Function.update s.ticking c true }.move c .startBlocked
  | .startBlocked => if s.done c then s.move c (.startDone none) else s
  | .stopCalled =>
    if s.stopped then s.move c (.stopDone false) else { s with stopped := true }.move c .stopWon
  | .stopWon => s.move c (.stopRead s.cancel)
  | .stopRead none => s.move c .stopWait
  | .stopRead (some ctx) => { s with done := Function.update s.done ctx true }.move c .stopWait
  | .stopWait => if s.wg = 0 then s.move c (.stopDone true) else s
  | _ => s

def call (s : Life C) (c : C) (op : LifeCall) : Life C :=
  match s.calls c with
  | .idle =>
    match op with
    | .wire => s.move c .wireCalled
    | .start => s.move c .startCalled
    | .stop => s.move c .stopCalled
  | _ => s

/-- The ticker of a call returns. -/
def exit (s : Life C) (c : C) : Life C :=
  if s.ticking c && s.done c then
    { s with ticking := Function.update s.ticking c false, wg := s.wg - 1 }
  else s

def step (noTicker : Bool) (s : Life C) : LifeAct C → Life C
  | .call c op => s.call c op
  | .advance c => s.advance noTicker c
  | .expire c => { s with done := Function.update s.done c true }
  | .exit c => s.exit c

def run (noTicker : Bool) (s : Life C) (acts : List (LifeAct C)) : Life C :=
  acts.foldl (step noTicker) s

theorem run_append (noTicker : Bool) (s : Life C) (acts acts' : List (LifeAct C)) :
    s.run noTicker (acts ++ acts') = (s.run noTicker acts).run noTicker acts' :=
  List.foldl_append

end Life

/-- A `Start` that won the swap. -/
def LifeAt.won {C : Type} : LifeAt C → Bool
  | .startWon => true
  | .startStored => true
  | .startAdded => true
  | .startBlocked => true
  | .startDone none => true
  | _ => false

/-- A `Start` that handed its cancel function over. -/
def LifeAt.stored {C : Type} : LifeAt C → Bool
  | .startStored => true
  | .startAdded => true
  | .startBlocked => true
  | .startDone none => true
  | _ => false

@[grind =]
theorem LifeAt.stored_iff {C : Type} {p : LifeAt C} : p.stored = true ↔
    p = .startStored ∨ p = .startAdded ∨ p = .startBlocked ∨ p = .startDone none := by
  cases p with
  | startDone err => cases err <;> simp [stored]
  | _ => simp [stored]

@[grind =]
theorem LifeAt.won_iff {C : Type} {p : LifeAt C} :
    p.won = true ↔ p = .startWon ∨ p.stored = true := by
  cases p with
  | startDone err => cases err <;> simp [won, stored]
  | _ => simp [won, stored]

/-- What holds whatever the calls do. -/
structure LifeInv {C : Type} (s : Life C) : Prop where
  won_started : ∀ c, (s.calls c).won = true → s.started = true
  won_unique : ∀ c c', (s.calls c).won = true → (s.calls c').won = true → c = c'
  cancel_iff : ∀ c, s.cancel = some c ↔ (s.calls c).stored = true
  ticking_stored : ∀ c, s.ticking c = true →
    s.calls c = .startBlocked ∨ s.calls c = .startDone none
  wg_pos : ∀ c, s.calls c = .startAdded ∨ s.ticking c = true → s.wg = 1
  wg_zero : (∀ c, s.calls c ≠ .startAdded ∧ s.ticking c = false) → s.wg = 0

namespace LifeInv

variable {C : Type} {s : Life C}

theorem init : LifeInv ({} : Life C) where
  won_started _ h := absurd h Bool.false_ne_true
  won_unique _ _ h := absurd h Bool.false_ne_true
  cancel_iff _ := iff_of_false (Option.some_ne_none _).symm Bool.false_ne_true
  ticking_stored _ h := absurd h Bool.false_ne_true
  wg_pos _ h := by simp at h
  wg_zero _ := rfl

/-- A ticker that runs or is about to belongs to the `Start` that won. -/
theorem won_of_ticker (h : LifeInv s) {c : C} (hc : s.calls c = .startAdded ∨ s.ticking c = true) :
    (s.calls c).won = true := by
  rw [LifeAt.won_iff, LifeAt.stored_iff]
  have htick := h.ticking_stored c
  tauto

/-- The flags are not part of it. -/
theorem flags (h : LifeInv s) (wired tport stopped : Bool) (done : C → Bool) :
    LifeInv { s with wired := wired, tport := tport, stopped := stopped, done := done } :=
  ⟨h.1, h.2, h.3, h.4, h.5, h.6⟩

variable [DecidableEq C]

/-- A move of the winner that neither adds nor starts the ticker. -/
theorem move (h : LifeInv s) {c : C} {q : LifeAt C} (hwon : q.won = (s.calls c).won)
    (hstored : q.stored = (s.calls c).stored) (hadded : s.calls c ≠ .startAdded)
    (hadded' : q ≠ .startAdded)
    (htick : s.ticking c = true → q = .startBlocked ∨ q = .startDone none) :
    LifeInv (s.move c q) := by
  obtain ⟨hstart, hunique, hcancel, hticking, hpos, hzero⟩ := h
  constructor
  all_goals simp only [Life.move, Function.update_apply]
  · grind
  · grind
  · grind
  · grind
  · grind
  · exact fun hnone => hzero fun c' => by grind

/-- A move of another call. -/
theorem move_plain (h : LifeInv s) {c : C} {q : LifeAt C} (hc : (s.calls c).won = false)
    (hq : q.won = false) : LifeInv (s.move c q) := by
  have hnot {p : LifeAt C} (hp : p.won = false) : p.stored = false ∧ p ≠ .startAdded := by
    rw [Bool.eq_false_iff, ne_eq, LifeAt.won_iff, LifeAt.stored_iff] at hp
    rw [Bool.eq_false_iff, ne_eq, LifeAt.stored_iff]
    tauto
  refine h.move (hq.trans hc.symm) ((hnot hq).1.trans (hnot hc).1.symm) (hnot hc).2 (hnot hq).2
    fun htick => ?_
  rw [h.won_of_ticker (Or.inr htick)] at hc
  cases hc

/-- The first `Start` that swaps. -/
theorem win (h : LifeInv s) (c : C) (hstart : s.started = false) :
    LifeInv ({ s with started := true }.move c .startWon) := by
  have hnone : ∀ c', (s.calls c').won = false := fun c' => by
    by_contra hwon
    rw [h.won_started c' (Bool.not_eq_false _ ▸ hwon)] at hstart
    cases hstart
  obtain ⟨-, -, hcancel, hticking, hpos, hzero⟩ := h
  constructor
  all_goals simp only [Life.move, Function.update_apply]
  · grind
  · grind
  · grind
  · grind
  · grind
  · exact fun hnone => hzero fun c' => by grind

/-- It hands its cancel function over. -/
theorem store (h : LifeInv s) {c : C} (hc : s.calls c = .startWon) :
    LifeInv ({ s with cancel := some c }.move c .startStored) := by
  have honly : ∀ c', (s.calls c').won = true → c' = c := fun c' hwon =>
    h.won_unique c' c hwon (by rw [hc]; rfl)
  have hsub : ∀ c', (s.calls c').stored = true → (s.calls c').won = true := fun c' hs =>
    LifeAt.won_iff.mpr (Or.inr hs)
  obtain ⟨hstart, hunique, hcancel, hticking, hpos, hzero⟩ := h
  constructor
  all_goals simp only [Life.move, Function.update_apply]
  · grind
  · grind
  · grind
  · grind
  · grind
  · exact fun hnone => hzero fun c' => by grind

/-- It counts the ticker: there was none. -/
theorem add (h : LifeInv s) {c : C} (hc : s.calls c = .startStored) :
    LifeInv ({ s with wg := s.wg + 1 }.move c .startAdded) := by
  have honly : ∀ c', (s.calls c').won = true → c' = c := fun c' hwon =>
    h.won_unique c' c hwon (by rw [hc]; rfl)
  have hfree : s.wg = 0 := by
    refine h.wg_zero fun c' => ?_
    by_contra hno
    have hc' : s.calls c' = .startAdded ∨ s.ticking c' = true := by grind
    obtain rfl := honly c' (h.won_of_ticker hc')
    have htick := h.ticking_stored c'
    grind
  obtain ⟨hstart, hunique, hcancel, hticking, hpos, hzero⟩ := h
  constructor
  all_goals simp only [Life.move, Function.update_apply]
  · grind
  · grind
  · grind
  · grind
  · grind
  · exact fun hnone => absurd (if_pos rfl) (hnone c).1

/-- The ticker runs. -/
theorem spawn (h : LifeInv s) {c : C} (hc : s.calls c = .startAdded) :
    LifeInv ({ s with ticking := Function.update s.ticking c true }.move c .startBlocked) := by
  obtain ⟨hstart, hunique, hcancel, hticking, hpos, hzero⟩ := h
  constructor
  all_goals simp only [Life.move, Function.update_apply]
  · grind
  · grind
  · grind
  · grind
  · grind
  · exact fun hnone => absurd (hnone c).2 (by simp)

/-- The ticker returns. -/
theorem exit (h : LifeInv s) (c : C) : LifeInv (s.exit c) := by
  unfold Life.exit
  split_ifs with hrun
  · rw [Bool.and_eq_true] at hrun
    have honly : ∀ c', s.calls c' = .startAdded ∨ s.ticking c' = true → c' = c := fun c' hc' =>
      h.won_unique c' c (h.won_of_ticker hc') (h.won_of_ticker (Or.inr hrun.1))
    obtain ⟨hstart, hunique, hcancel, hticking, hpos, hzero⟩ := h
    constructor
    all_goals simp only [Function.update_apply]
    · exact hstart
    · exact hunique
    · exact hcancel
    · grind
    · grind
    · grind
  · exact h

theorem call (h : LifeInv s) (c : C) (op : LifeCall) : LifeInv (s.call c op) := by
  unfold Life.call
  cases hc : s.calls c with
  | idle =>
    have hplain : (s.calls c).won = false := by rw [hc]; rfl
    cases op with
    | wire => exact h.move_plain hplain rfl
    | start => exact h.move_plain hplain rfl
    | stop => exact h.move_plain hplain rfl
  | _ => exact h

theorem advance (h : LifeInv s) (noTicker : Bool) (c : C) : LifeInv (s.advance noTicker c) := by
  unfold Life.advance
  cases hc : s.calls c with
  | startLoaded =>
    have hplain : (s.calls c).won = false := by rw [hc]; rfl
    dsimp only
    split_ifs with hstart
    · exact h.move_plain hplain rfl
    · exact h.win c (Bool.not_eq_true _ ▸ hstart)
  | startWon => exact h.store hc
  | startStored =>
    dsimp only
    split_ifs
    · exact h.move (by rw [hc]; rfl) (by rw [hc]; rfl) (by simp [hc]) (by simp) fun _ => Or.inl rfl
    · exact h.add hc
  | startAdded => exact h.spawn hc
  | startBlocked =>
    dsimp only
    split_ifs
    · exact h.move (by rw [hc]; rfl) (by rw [hc]; rfl) (by simp [hc]) (by simp) fun _ => Or.inr rfl
    · exact h
  | wireCalled =>
    have hplain : (s.calls c).won = false := by rw [hc]; rfl
    dsimp only
    split_ifs
    · exact h.move_plain hplain rfl
    · exact (h.flags true s.tport s.stopped s.done).move_plain hplain rfl
  | wireWon =>
    exact (h.flags s.wired true s.stopped s.done).move_plain (by rw [hc]; rfl) rfl
  | startCalled =>
    have hplain : (s.calls c).won = false := by rw [hc]; rfl
    dsimp only
    split_ifs
    · exact h.move_plain hplain rfl
    · exact h.move_plain hplain rfl
  | startChecked =>
    have hplain : (s.calls c).won = false := by rw [hc]; rfl
    dsimp only
    split_ifs
    · exact h.move_plain hplain rfl
    · exact h.move_plain hplain rfl
  | stopCalled =>
    have hplain : (s.calls c).won = false := by rw [hc]; rfl
    dsimp only
    split_ifs
    · exact h.move_plain hplain rfl
    · exact (h.flags s.wired s.tport true s.done).move_plain hplain rfl
  | stopWon => exact h.move_plain (by rw [hc]; rfl) rfl
  | stopRead cancel =>
    cases cancel with
    | none => exact h.move_plain (by rw [hc]; rfl) rfl
    | some ctx =>
      exact (h.flags s.wired s.tport s.stopped _).move_plain (by rw [hc]; rfl) rfl
  | stopWait =>
    dsimp only
    split_ifs
    · exact h.move_plain (by rw [hc]; rfl) rfl
    · exact h
  | _ => exact h

theorem step (h : LifeInv s) (noTicker : Bool) (a : LifeAct C) : LifeInv (s.step noTicker a) := by
  cases a with
  | call c op => exact h.call c op
  | advance c => exact h.advance noTicker c
  | expire c => exact h.flags s.wired s.tport s.stopped _
  | exit c => exact h.exit c

theorem run (noTicker : Bool) (acts : List (LifeAct C)) :
    LifeInv (Life.run noTicker ({} : Life C) acts) :=
  List.foldlRecOn _ _ .init fun _ h a _ => h.step noTicker a

end LifeInv

/-! ## Starts over a run -/

/-- The call an act is about. -/
def LifeAct.of {C : Type} : LifeAct C → C
  | .call c _ => c
  | .advance c => c
  | .expire c => c
  | .exit c => c

/-- The tickers a run starts: the steps after which one runs that did not run before. -/
def Life.spawned {C : Type} [DecidableEq C] (noTicker : Bool) : Life C → List (LifeAct C) → ℕ
  | _, [] => 0
  | s, a :: acts =>
    (if s.ticking a.of = false ∧ (s.step noTicker a).ticking a.of = true then 1 else 0) +
      spawned noTicker (s.step noTicker a) acts

/-- A `Start` past the start of its ticker. -/
def LifeAt.Launched {C : Type} (p : LifeAt C) : Prop := p = .startBlocked ∨ p = .startDone none

section Spawned

variable {C : Type} [DecidableEq C] {s : Life C} {noTicker : Bool} {a : LifeAct C} {c : C}

/-- An act moves its own call and no other. -/
theorem calls_step_of_ne (hc : c ≠ a.of) : (s.step noTicker a).calls c = s.calls c := by
  cases a with
  | call c' op =>
    unfold Life.step Life.call
    dsimp only
    split
    · cases op <;> exact Function.update_of_ne hc _ _
    · rfl
  | advance c' =>
    unfold Life.step Life.advance
    dsimp only
    split <;> (try split_ifs) <;> first | rfl | exact Function.update_of_ne hc _ _
  | expire c' => rfl
  | exit c' =>
    unfold Life.step Life.exit
    dsimp only
    split_ifs <;> rfl

/-- A `Start` whose ticker was started stays past that point. -/
theorem launched_step (hc : (s.calls c).Launched) :
    ((s.step noTicker a).calls c).Launched := by
  by_cases hne : c = a.of
  · subst hne
    cases a with
    | call c op =>
      show ((s.call c op).calls c).Launched
      unfold Life.call
      rcases hc with hc | hc
      · rw [show s.calls c = .startBlocked from hc]
        exact Or.inl hc
      · rw [show s.calls c = .startDone none from hc]
        exact Or.inr hc
    | advance c =>
      show ((s.advance noTicker c).calls c).Launched
      unfold Life.advance
      rcases hc with hc | hc
      · rw [show s.calls c = .startBlocked from hc]
        dsimp only
        split_ifs
        · exact Or.inr (Function.update_self _ _ _)
        · exact Or.inl hc
      · rw [show s.calls c = .startDone none from hc]
        exact Or.inr hc
    | expire c => exact hc
    | exit c =>
      show ((s.exit c).calls c).Launched
      unfold Life.exit
      split_ifs <;> exact hc
  · rw [calls_step_of_ne hne]
    exact hc

/-- A ticker that runs after an act of its call ran before, or was started by the `Start` that
counted it. -/
theorem ticking_step_cases (hon : (s.step noTicker a).ticking a.of = true) :
    s.ticking a.of = true ∨
      s.calls a.of = .startAdded ∧ (s.step noTicker a).calls a.of = .startBlocked := by
  cases a with
  | call c op =>
    unfold Life.step Life.call at hon
    dsimp only at hon
    split at hon
    · cases op <;> exact Or.inl hon
    · exact Or.inl hon
  | advance c =>
    show s.ticking c = true ∨ s.calls c = _ ∧ (s.advance noTicker c).calls c = _
    by_cases hadded : s.calls c = .startAdded
    · right
      unfold Life.advance
      rw [hadded]
      exact ⟨rfl, Function.update_self _ _ _⟩
    · left
      unfold Life.step Life.advance at hon
      dsimp only at hon
      split at hon <;> (try split_ifs at hon) <;> first | exact hon | contradiction
  | expire c => exact Or.inl hon
  | exit c =>
    unfold Life.step Life.exit at hon
    dsimp only at hon
    split_ifs at hon with hrun
    · rw [Bool.and_eq_true] at hrun
      exact Or.inl hrun.1
    · exact Or.inl hon

/-- After the first there is no other. -/
theorem spawned_eq_zero (h : LifeInv s) (hc : (s.calls c).Launched) (acts : List (LifeAct C)) :
    s.spawned noTicker acts = 0 := by
  induction acts generalizing s with
  | nil => rfl
  | cons a acts ih =>
    have hnone : ¬(s.ticking a.of = false ∧ (s.step noTicker a).ticking a.of = true) := by
      rintro ⟨hoff, hon⟩
      obtain ⟨hadded, -⟩ := (ticking_step_cases hon).resolve_left (by simp [hoff])
      have hwon : (s.calls c).won = true :=
        LifeAt.won_iff.mpr (Or.inr (LifeAt.stored_iff.mpr (Or.inr (Or.inr hc))))
      have hsame := h.won_unique c a.of hwon (by rw [hadded]; rfl)
      rw [hsame, hadded] at hc
      rcases hc with hc | hc <;> cases hc
    unfold Life.spawned
    rw [if_neg hnone, ih (h.step noTicker a) (launched_step hc)]

theorem spawned_le_one (h : LifeInv s) (acts : List (LifeAct C)) :
    s.spawned noTicker acts ≤ 1 := by
  induction acts generalizing s with
  | nil => exact Nat.zero_le 1
  | cons a acts ih =>
    unfold Life.spawned
    split_ifs with hspawn
    · obtain ⟨-, hblocked⟩ := (ticking_step_cases hspawn.2).resolve_left (by simp [hspawn.1])
      rw [spawned_eq_zero (h.step noTicker a) (Or.inl hblocked)]
    · rw [Nat.zero_add]
      exact ih (h.step noTicker a)

end Spawned

/-- **One ticker.** Whatever calls of `Wire`, `Start` and `Stop` run at once: over the whole run at
most one ticker is started, its context is the one `Stop` would cancel, the wait group counts at
most one, and at most one `Start` gets past the swap, so every other one that returns returns an
error. -/
theorem one_ticker {C : Type} [DecidableEq C] (noTicker : Bool) (acts : List (LifeAct C)) :
    Life.spawned noTicker ({} : Life C) acts ≤ 1 ∧
    (∀ c c', (Life.run noTicker {} acts).ticking c = true →
      (Life.run noTicker {} acts).ticking c' = true → c = c') ∧
    (∀ c, (Life.run noTicker {} acts).ticking c = true →
      (Life.run noTicker {} acts).cancel = some c) ∧
    (Life.run noTicker ({} : Life C) acts).wg ≤ 1 ∧
    ∀ c c', (Life.run noTicker {} acts).calls c = .startDone none →
      (Life.run noTicker {} acts).calls c' = .startDone none → c = c' := by
  have h := LifeInv.run (C := C) noTicker acts
  generalize Life.run noTicker ({} : Life C) acts = s at h
  refine ⟨spawned_le_one .init acts, fun c c' hc hc' => ?_, fun c hc => ?_, ?_,
    fun c c' hc hc' => ?_⟩
  · exact h.won_unique c c' (h.won_of_ticker (Or.inr hc)) (h.won_of_ticker (Or.inr hc'))
  · refine (h.cancel_iff c).mpr (LifeAt.stored_iff.mpr ?_)
    exact Or.inr (Or.inr (h.ticking_stored c hc))
  · by_cases hany : ∃ c, s.calls c = .startAdded ∨ s.ticking c = true
    · obtain ⟨c, hc⟩ := hany
      exact (h.wg_pos c hc).le
    · refine (h.wg_zero fun c => ?_).le.trans (Nat.zero_le 1)
      have hnone := not_exists.mp hany c
      grind
  · exact h.won_unique c c' (by rw [hc]; rfl) (by rw [hc']; rfl)

/-! ## Stopping -/

section Stop

variable {C : Type}

/-- A `Start` that passed its check may still start the ticker without being counted. -/
def Racing (s : Life C) (c : C) : Prop :=
  s.calls c = .startLoaded ∧ s.started = false ∨ s.calls c = .startWon ∨ s.calls c = .startStored

instance Racing.decidable [DecidableEq C] (s : Life C) (c : C) : Decidable (Racing s c) :=
  inferInstanceAs (Decidable (_ ∧ _ ∨ _ ∨ _))

/-- What holds once a `Stop` won and no `Start` was racing. -/
structure Final (stop : C) (s : Life C) : Prop where
  inv : LifeInv s
  stopped : s.stopped = true
  calm : ∀ c, ¬ Racing s c
  joined : s.calls stop = .stopDone true → ∀ c, s.calls c ≠ .startAdded ∧ s.ticking c = false

namespace Final

variable {stop : C} {s : Life C}

theorem flags (h : Final stop s) (wired tport : Bool) (done : C → Bool) :
    Final stop { s with wired := wired, tport := tport, done := done } :=
  ⟨h.inv.flags wired tport s.stopped done, h.stopped, h.calm, h.joined⟩

theorem not_ticking (h : LifeInv s) (hwg : s.wg = 0) (c : C) :
    s.calls c ≠ .startAdded ∧ s.ticking c = false := by
  have hpos := h.wg_pos c
  grind

variable [DecidableEq C]

/-- A move of a call that starts nothing. -/
theorem move (h : Final stop s) {c : C} {q : LifeAt C} (hinv : LifeInv (s.move c q))
    (hcalm : q ≠ .startLoaded ∧ q ≠ .startWon ∧ q ≠ .startStored ∧ q ≠ .startAdded)
    (hwait : q = .stopDone true → s.wg = 0) : Final stop (s.move c q) := by
  refine ⟨hinv, h.stopped, fun c' => ?_, fun hdone c' => ?_⟩
  · have hold := h.calm c'
    unfold Racing at hold ⊢
    simp only [Life.move, Function.update_apply]
    grind
  · simp only [Life.move, Function.update_apply] at hdone ⊢
    have hnone : s.calls c' ≠ .startAdded ∧ s.ticking c' = false := by
      split_ifs at hdone
      · exact not_ticking h.inv (hwait hdone) c'
      · exact h.joined hdone c'
    grind

theorem advance (h : Final stop s) (noTicker : Bool) (c : C) :
    Final stop (s.advance noTicker c) := by
  have hinv := h.inv.advance noTicker c
  have hcalm := h.calm c
  unfold Racing at hcalm
  have hstopped := h.stopped
  unfold Life.advance at hinv ⊢
  cases hc : s.calls c with
  | wireCalled =>
    simp only [hc] at hinv ⊢
    split_ifs at hinv ⊢
    · exact h.move hinv (by simp) (by simp)
    · exact (h.flags true s.tport s.done).move hinv (by simp) (by simp)
  | wireWon =>
    simp only [hc] at hinv ⊢
    exact (h.flags s.wired true s.done).move hinv (by simp) (by simp)
  | startCalled =>
    simp only [hc] at hinv ⊢
    split_ifs at hinv ⊢
    · exact h.move hinv (by simp) (by simp)
    · exact h.move hinv (by simp) (by simp)
  | startChecked =>
    simp only [hc, hstopped] at hinv ⊢
    exact h.move hinv (by simp) (by simp)
  | startLoaded =>
    -- somebody else started
    have hstarted : s.started = true := by grind
    simp only [hc, hstarted] at hinv ⊢
    exact h.move hinv (by simp) (by simp)
  | startWon => exact absurd (Or.inr (Or.inl hc)) hcalm
  | startStored => exact absurd (Or.inr (Or.inr hc)) hcalm
  | startAdded =>
    simp only [hc] at hinv ⊢
    refine ⟨hinv, hstopped, fun c' => ?_, fun hdone => ?_⟩
    · have hold := h.calm c'
      unfold Racing at hold ⊢
      simp only [Life.move, Function.update_apply]
      grind
    · -- a `Stop` waits for a ticker that is counted
      simp only [Life.move, Function.update_apply] at hdone
      split_ifs at hdone
      exact absurd hc (h.joined hdone c).1
  | startBlocked =>
    simp only [hc] at hinv ⊢
    split_ifs at hinv ⊢
    · exact h.move hinv (by simp) (by simp)
    · exact h
  | stopCalled =>
    simp only [hc, hstopped] at hinv ⊢
    exact h.move hinv (by simp) (by simp)
  | stopWon =>
    simp only [hc] at hinv ⊢
    exact h.move hinv (by simp) (by simp)
  | stopRead cancel =>
    cases cancel with
    | none =>
      simp only [hc] at hinv ⊢
      exact h.move hinv (by simp) (by simp)
    | some ctx =>
      simp only [hc] at hinv ⊢
      exact (h.flags s.wired s.tport _).move hinv (by simp) (by simp)
  | stopWait =>
    simp only [hc] at hinv ⊢
    split_ifs at hinv ⊢ with hwg
    · exact h.move hinv (by simp) fun _ => hwg
    · exact h
  | _ => exact h

theorem step (h : Final stop s) (noTicker : Bool) (a : LifeAct C) :
    Final stop (s.step noTicker a) := by
  have hinv := h.inv.step noTicker a
  cases a with
  | advance c => exact h.advance noTicker c
  | expire c => exact h.flags s.wired s.tport _
  | call c op =>
    change LifeInv (s.call c op) at hinv
    show Final stop (s.call c op)
    unfold Life.call at hinv ⊢
    cases hc : s.calls c with
    | idle =>
      simp only [hc] at hinv ⊢
      cases op with
      | wire => exact h.move hinv (by simp) (by simp)
      | start => exact h.move hinv (by simp) (by simp)
      | stop => exact h.move hinv (by simp) (by simp)
    | _ => exact h
  | exit c =>
    change LifeInv (s.exit c) at hinv
    show Final stop (s.exit c)
    unfold Life.exit at hinv ⊢
    split_ifs at hinv ⊢
    · refine ⟨hinv, h.stopped, h.calm, fun hdone c' => ?_⟩
      have hold := h.joined hdone c'
      simp only [Function.update_apply]
      grind
    · exact h

theorem run (h : Final stop s) (noTicker : Bool) (acts : List (LifeAct C)) :
    Final stop (s.run noTicker acts) :=
  List.foldlRecOn _ _ h fun _ h a _ => h.step noTicker a

end Final

variable [DecidableEq C] {s : Life C} {stop c : C}

/-- The `Stop` that wins. -/
theorem advance_stopCalled (hstop : s.calls stop = .stopCalled) (hrun : s.stopped = false)
    (noTicker : Bool) :
    s.advance noTicker stop = { s with stopped := true }.move stop .stopWon := by
  unfold Life.advance
  simp only [hstop, hrun]
  rfl

theorem final_of_calm (h : LifeInv s) (hstop : s.calls stop = .stopCalled)
    (hrun : s.stopped = false) (noTicker : Bool) (hcalm : ∀ c, ¬ Racing s c) :
    Final stop (s.advance noTicker stop) := by
  have hinv := h.advance noTicker stop
  rw [advance_stopCalled hstop hrun] at hinv ⊢
  refine ⟨hinv, rfl, fun c => ?_, fun hdone => ?_⟩
  · have hold := hcalm c
    unfold Racing at hold ⊢
    simp only [Life.move, Function.update_apply]
    grind
  · simp [Life.move] at hdone

/-! ### A `Start` that races -/

/-- With nothing counted, a `Stop` that won returns by itself. -/
theorem stop_returns (hstop : s.calls stop = .stopWon) (hwg : s.wg = 0) (noTicker : Bool) :
    ∃ done, s.run noTicker [.advance stop, .advance stop, .advance stop] =
      { s with done := done }.move stop (.stopDone true) := by
  cases hcancel : s.cancel with
  | none =>
    refine ⟨s.done, ?_⟩
    simp [Life.run, Life.step, Life.advance, Life.move, hstop, hcancel, hwg]
  | some ctx =>
    refine ⟨Function.update s.done ctx true, ?_⟩
    simp [Life.run, Life.step, Life.advance, Life.move, hstop, hcancel, hwg]

/-- A racing `Start` goes on to start its ticker, stopped or not. -/
theorem racing_ticks (hrace : Racing s c) :
    ∃ k, (s.run false (List.replicate k (.advance c))).ticking c = true ∧
      ∀ c', c' ≠ c → (s.run false (List.replicate k (.advance c))).calls c' = s.calls c' := by
  rcases hrace with ⟨hc, hstart⟩ | hc | hc
  · refine ⟨4, ?_, fun c' hne => ?_⟩
    · simp [Life.run, Life.step, Life.advance, Life.move, List.replicate, hc, hstart]
    · simp [Life.run, Life.step, Life.advance, Life.move, List.replicate, hc, hstart, hne]
  · refine ⟨3, ?_, fun c' hne => ?_⟩
    · simp [Life.run, Life.step, Life.advance, Life.move, List.replicate, hc]
    · simp [Life.run, Life.step, Life.advance, Life.move, List.replicate, hc, hne]
  · refine ⟨2, ?_, fun c' hne => ?_⟩
    · simp [Life.run, Life.step, Life.advance, Life.move, List.replicate, hc]
    · simp [Life.run, Life.step, Life.advance, Life.move, List.replicate, hc, hne]

/-- Nothing is counted yet when a `Start` is racing. -/
theorem wg_of_racing (h : LifeInv s) (hrace : Racing s c) : s.wg = 0 := by
  refine h.wg_zero fun c' => ?_
  by_contra hno
  have hc' : s.calls c' = .startAdded ∨ s.ticking c' = true := by grind
  have hwon := h.won_of_ticker hc'
  rcases hrace with ⟨-, hstart⟩ | hc | hc
  · rw [h.won_started c' hwon] at hstart
    cases hstart
  all_goals
    obtain rfl := h.won_unique c' c hwon (by rw [hc]; rfl)
    have htick := h.ticking_stored c'
    grind

/-- **When `Stop` joins the ticker.** Any number of calls are in progress and a `Stop` is the first
to swap `stopped`. When it returns, no ticker is running whatever happens in between, exactly if no
`Start` was between its check of `stopped` and its `wg.Add` at the swap. -/
theorem stop_joins_iff {C : Type} [DecidableEq C] (acts : List (LifeAct C)) (stop : C)
    (hstop : (Life.run false {} acts).calls stop = .stopCalled)
    (hrun : (Life.run false {} acts).stopped = false) :
    (∀ rest : List (LifeAct C),
      (Life.run false {} (acts ++ .advance stop :: rest)).calls stop = .stopDone true →
      ∀ c, (Life.run false {} (acts ++ .advance stop :: rest)).ticking c = false) ↔
    ∀ c, ¬ Racing (Life.run false {} acts) c := by
  have h := LifeInv.run (C := C) false acts
  have hsplit : ∀ rest, Life.run false {} (acts ++ .advance stop :: rest) =
      ((Life.run false {} acts).advance false stop).run false rest := fun rest =>
    Life.run_append ..
  simp only [hsplit]
  generalize Life.run false ({} : Life C) acts = s at h hstop hrun
  constructor
  · -- the `Stop` returns first, then the `Start` goes on
    intro hjoin c hrace
    have hne : stop ≠ c := by
      rintro rfl
      unfold Racing at hrace
      simp [hstop] at hrace
    rw [advance_stopCalled hstop hrun] at hjoin
    have hwg : s.wg = 0 := wg_of_racing h hrace
    have hwon : ({ s with stopped := true }.move stop .stopWon).calls stop = .stopWon :=
      Function.update_self ..
    obtain ⟨done, hret⟩ := stop_returns hwon hwg false
    have hrace' : Racing (({ s with stopped := true }.move stop .stopWon).run false
        [.advance stop, .advance stop, .advance stop]) c := by
      rw [hret]
      unfold Racing at hrace ⊢
      simpa [Life.move, hne.symm] using hrace
    obtain ⟨k, htick, hother⟩ := racing_ticks hrace'
    have hjoined := hjoin ([.advance stop, .advance stop, .advance stop] ++
      List.replicate k (.advance c))
    rw [Life.run_append] at hjoined
    have hreturned := hother stop hne
    rw [hret] at hreturned htick hjoined
    have hlate := hjoined (hreturned.trans (by simp [Life.move])) c
    rw [htick] at hlate
    cases hlate
  · intro hcalm rest hdone c
    have hfinal := (final_of_calm h hstop hrun false hcalm).run false rest
    exact (hfinal.joined hdone c).2

/-- A `Start` by `1` has checked that the node is not stopped when `2` calls `Stop`. -/
def startThenStop : List (LifeAct (Fin 3)) :=
  [.call 0 .wire, .advance 0, .advance 0, .call 1 .start, .advance 1, .advance 1, .call 2 .stop]

/-- The `Stop` may return and the ticker run on. -/
theorem startThenStop_races : ¬ ∀ rest,
    (Life.run false {} (startThenStop ++ .advance 2 :: rest)).calls 2 = .stopDone true →
    ∀ c, (Life.run false {} (startThenStop ++ .advance 2 :: rest)).ticking c = false :=
  fun hjoin => (stop_joins_iff startThenStop 2 (by decide) (by decide)).mp hjoin 1 (by decide)

/-! ### A `Stop` that waits -/

/-- Where the `Stop` that won is, and that what it waits for has been told to end. -/
structure Stopping (stop : C) (s : Life C) : Prop where
  at_step : s.calls stop = .stopWon ∨ s.calls stop = .stopRead s.cancel ∨
    s.calls stop = .stopWait ∨ s.calls stop = .stopDone true
  cancelled : s.calls stop = .stopWait → ∀ c, s.cancel = some c → s.done c = true

namespace Stopping

omit [DecidableEq C] in
/-- Steps of others, which neither replace the cancel function nor undo the end of a context. -/
theorem of_others {t : Life C} (h : Stopping stop s) (hcalls : t.calls stop = s.calls stop)
    (hcancel : t.cancel = s.cancel) (hdone : ∀ c, s.done c = true → t.done c = true) :
    Stopping stop t := by
  obtain ⟨hat, hended⟩ := h
  constructor
  · rw [hcalls, hcancel]
    exact hat
  · rw [hcalls, hcancel]
    exact fun hwait c hc => hdone c (hended hwait c hc)

/-- The steps of another call. -/
theorem advance_other (h : Stopping stop s) (hcalm : ∀ c, ¬ Racing s c) (noTicker : Bool)
    (hne : c ≠ stop) : Stopping stop (s.advance noTicker c) := by
  have hmove (q : LifeAt C) : (s.move c q).calls stop = s.calls stop :=
    Function.update_of_ne hne.symm ..
  have hplain (q : LifeAt C) : Stopping stop (s.move c q) :=
    h.of_others (hmove q) rfl fun _ => id
  unfold Life.advance
  cases hc : s.calls c with
  | startWon => exact absurd (Or.inr (Or.inl hc)) (hcalm c)
  | stopRead cancel =>
    cases cancel with
    | none => exact hplain _
    | some ctx =>
      refine h.of_others (hmove _) rfl fun c' hdone => ?_
      by_cases hctx : c' = ctx
      · exact hctx ▸ Function.update_self ..
      · exact (Function.update_of_ne hctx ..).trans hdone
  | _ =>
    dsimp only
    try split_ifs
    all_goals first
      | exact h
      | exact hplain _
      | exact h.of_others (hmove _) rfl fun _ => id

/-- Its own steps. -/
theorem advance_self (h : Stopping stop s) (noTicker : Bool) :
    Stopping stop (s.advance noTicker stop) := by
  obtain ⟨hwon | hread | hwait | hdone, hended⟩ := h
  · have hstep : s.advance noTicker stop = s.move stop (.stopRead s.cancel) := by
      unfold Life.advance
      rw [hwon]
    rw [hstep]
    refine ⟨Or.inr (Or.inl (Function.update_self ..)), fun hwait => ?_⟩
    simp [Life.move] at hwait
  · -- the cancel function it read is still the one in the node
    cases hcancel : s.cancel with
    | none =>
      have hstep : s.advance noTicker stop = s.move stop .stopWait := by
        unfold Life.advance
        rw [hread, hcancel]
      rw [hstep]
      refine ⟨Or.inr (Or.inr (Or.inl (Function.update_self ..))), fun _ c hc => ?_⟩
      cases hcancel.symm.trans hc
    | some ctx =>
      have hstep : s.advance noTicker stop =
          { s with done := Function.update s.done ctx true }.move stop .stopWait := by
        unfold Life.advance
        rw [hread, hcancel]
      rw [hstep]
      refine ⟨Or.inr (Or.inr (Or.inl (Function.update_self ..))), fun _ c hc => ?_⟩
      cases hcancel.symm.trans hc
      exact Function.update_self ..
  · unfold Life.advance
    rw [hwait]
    dsimp only
    split_ifs
    · refine ⟨Or.inr (Or.inr (Or.inr (Function.update_self ..))), fun hback => ?_⟩
      simp [Life.move] at hback
    · exact ⟨Or.inr (Or.inr (Or.inl hwait)), hended⟩
  · unfold Life.advance
    rw [hdone]
    exact ⟨Or.inr (Or.inr (Or.inr hdone)), hended⟩

theorem step (h : Stopping stop s) (hcalm : ∀ c, ¬ Racing s c) (noTicker : Bool) (a : LifeAct C) :
    Stopping stop (s.step noTicker a) := by
  cases a with
  | advance c =>
    by_cases hne : c = stop
    · exact hne ▸ h.advance_self noTicker
    · exact h.advance_other hcalm noTicker hne
  | expire ctx =>
    refine h.of_others rfl rfl fun c hdone => ?_
    by_cases hctx : c = ctx
    · exact hctx ▸ Function.update_self ..
    · exact (Function.update_of_ne hctx ..).trans hdone
  | exit c =>
    show Stopping stop (s.exit c)
    unfold Life.exit
    split_ifs
    · exact h.of_others rfl rfl fun _ => id
    · exact h
  | call c op =>
    show Stopping stop (s.call c op)
    unfold Life.call
    cases hc : s.calls c with
    | idle =>
      have hne : c ≠ stop := by
        rintro rfl
        simpa [hc] using h.at_step
      cases op with
      | wire => exact h.of_others (Function.update_of_ne hne.symm ..) rfl fun _ => id
      | start => exact h.of_others (Function.update_of_ne hne.symm ..) rfl fun _ => id
      | stop => exact h.of_others (Function.update_of_ne hne.symm ..) rfl fun _ => id
    | _ => exact h

theorem run (h : Stopping stop s) (hfinal : Final stop s) (noTicker : Bool)
    (acts : List (LifeAct C)) : Stopping stop (s.run noTicker acts) := by
  induction acts generalizing s with
  | nil => exact h
  | cons a acts ih => exact ih (h.step hfinal.calm noTicker a) (hfinal.step noTicker a)

end Stopping

/-- There is a way on to the return of the `Stop`. -/
def CanReturn (noTicker : Bool) (stop : C) (s : Life C) : Prop :=
  ∃ more, (s.run noTicker more).calls stop = .stopDone true

theorem CanReturn.of_step {noTicker : Bool} (a : LifeAct C)
    (h : CanReturn noTicker stop (s.step noTicker a)) : CanReturn noTicker stop s := by
  obtain ⟨more, hmore⟩ := h
  exact ⟨a :: more, hmore⟩

theorem canReturn_of_free (noTicker : Bool) (hwait : s.calls stop = .stopWait) (hwg : s.wg = 0) :
    CanReturn noTicker stop s :=
  ⟨[.advance stop], by simp [Life.run, Life.step, Life.advance, Life.move, hwait, hwg]⟩

/-- The ticker it waits for was told to end, so it can return. -/
theorem canReturn_of_ticking (noTicker : Bool) (hinv : LifeInv s) (hstop : Stopping stop s)
    (hwait : s.calls stop = .stopWait) (htick : s.ticking c = true) :
    CanReturn noTicker stop s := by
  have hcancel : s.cancel = some c :=
    (hinv.cancel_iff c).mpr (LifeAt.stored_iff.mpr (Or.inr (Or.inr (hinv.ticking_stored c htick))))
  have hexit : s.exit c =
      { s with ticking := Function.update s.ticking c false, wg := s.wg - 1 } := by
    unfold Life.exit
    rw [htick, hstop.cancelled hwait c hcancel]
    rfl
  refine .of_step (.exit c) ?_
  show CanReturn noTicker stop (s.exit c)
  rw [hexit]
  refine canReturn_of_free noTicker hwait ?_
  show s.wg - 1 = 0
  rw [hinv.wg_pos c (Or.inr htick)]

theorem canReturn_of_wait (noTicker : Bool) (hfinal : Final stop s) (hstop : Stopping stop s)
    (hwait : s.calls stop = .stopWait) : CanReturn noTicker stop s := by
  by_cases hadded : ∃ c, s.calls c = .startAdded
  · obtain ⟨c, hc⟩ := hadded
    have hne : stop ≠ c := by
      rintro rfl
      cases hwait.symm.trans hc
    have hstep : s.advance noTicker c =
        { s with ticking := Function.update s.ticking c true }.move c .startBlocked := by
      unfold Life.advance
      rw [hc]
    refine .of_step (.advance c) ?_
    have hinv := hfinal.inv.advance noTicker c
    have hstop' := hstop.advance_other hfinal.calm noTicker hne.symm
    show CanReturn noTicker stop (s.advance noTicker c)
    rw [hstep] at hinv hstop' ⊢
    exact canReturn_of_ticking noTicker hinv hstop' ((Function.update_of_ne hne ..).trans hwait)
      (Function.update_self ..)
  · by_cases htick : ∃ c, s.ticking c = true
    · obtain ⟨c, hc⟩ := htick
      exact canReturn_of_ticking noTicker hfinal.inv hstop hwait hc
    · refine canReturn_of_free noTicker hwait (hfinal.inv.wg_zero fun c => ⟨?_, ?_⟩)
      · exact fun hc => hadded ⟨c, hc⟩
      · exact Bool.eq_false_iff.mpr fun hc => htick ⟨c, hc⟩

theorem canReturn_of_read (noTicker : Bool) (hfinal : Final stop s) (hstop : Stopping stop s)
    (hread : s.calls stop = .stopRead s.cancel) : CanReturn noTicker stop s := by
  refine .of_step (.advance stop) (canReturn_of_wait noTicker (hfinal.advance noTicker stop)
    (hstop.advance_self noTicker) ?_)
  show (s.advance noTicker stop).calls stop = .stopWait
  unfold Life.advance
  rw [hread]
  cases s.cancel with
  | none => exact Function.update_self ..
  | some ctx => exact Function.update_self ..

theorem canReturn_of_stopping (noTicker : Bool) (hfinal : Final stop s) (hstop : Stopping stop s) :
    CanReturn noTicker stop s := by
  rcases hstop.at_step with hwon | hread | hwait | hdone
  · have hstep : s.advance noTicker stop = s.move stop (.stopRead s.cancel) := by
      unfold Life.advance
      rw [hwon]
    refine .of_step (.advance stop) (canReturn_of_read noTicker (hfinal.advance noTicker stop)
      (hstop.advance_self noTicker) ?_)
    show (s.advance noTicker stop).calls stop = .stopRead (s.advance noTicker stop).cancel
    rw [hstep]
    exact Function.update_self ..
  · exact canReturn_of_read noTicker hfinal hstop hread
  · exact canReturn_of_wait noTicker hfinal hstop hwait
  · exact ⟨[], hdone⟩

/-- **A `Stop` that finds no race is never stuck.** Whatever the other calls do after its swap, it
can still return: the ticker it waits for, if there is one, has been told to end. -/
theorem stop_never_stuck {C : Type} [DecidableEq C] (noTicker : Bool) (acts : List (LifeAct C))
    (stop : C) (hstop : (Life.run noTicker {} acts).calls stop = .stopCalled)
    (hrun : (Life.run noTicker {} acts).stopped = false)
    (hcalm : ∀ c, ¬ Racing (Life.run noTicker {} acts) c) (rest : List (LifeAct C)) :
    ∃ more, (Life.run noTicker {} (acts ++ .advance stop :: rest ++ more)).calls stop =
      .stopDone true := by
  have h := LifeInv.run (C := C) noTicker acts
  simp only [Life.run_append]
  generalize Life.run noTicker ({} : Life C) acts = s at h hstop hrun hcalm
  have hfinal := final_of_calm h hstop hrun noTicker hcalm
  have hstopping : Stopping stop (s.advance noTicker stop) := by
    rw [advance_stopCalled hstop hrun]
    refine ⟨Or.inl (Function.update_self ..), fun hwait => ?_⟩
    simp [Life.move] at hwait
  exact canReturn_of_stopping noTicker (hfinal.run noTicker rest)
    (hstopping.run hfinal noTicker rest)

/-- A `Start` by `1` has its ticker running when `2` calls `Stop`. -/
def startedThenStop : List (LifeAct (Fin 3)) :=
  [.call 0 .wire, .advance 0, .advance 0, .call 1 .start, .advance 1, .advance 1, .advance 1,
    .advance 1, .advance 1, .advance 1, .call 2 .stop]

/-- The ticker is running, and the `Stop` returns. -/
theorem startedThenStop_returns : (Life.run false {} startedThenStop).ticking 1 = true ∧
    ∃ more, (Life.run false {} (startedThenStop ++ .advance 2 :: [] ++ more)).calls 2 =
      .stopDone true :=
  ⟨by decide, stop_never_stuck false startedThenStop 2 (by decide) (by decide) (by decide) []⟩

end Stop

end Swarm
