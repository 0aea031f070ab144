import Mathlib.Logic.Basic

/-!
# Conditions along a run

A run is a list of operations folded through a step function. `StepsMeet C s l` says that every
operation meets the condition `C` at the state it finds, `StatesMeet P s l` that every state
reached, the first included, satisfies `P`.

When `C` is exactly what one step needs in order to keep `P`, the two agree along every run that
starts in `P` (`statesMeet_iff_stepsMeet`).
-/

namespace Runs

variable {σ α : Type} (step : σ → α → σ)

/-- Every operation meets `C` at the state it finds. -/
def StepsMeet (C : σ → α → Prop) : σ → List α → Prop
  | _, [] => True
  | s, a :: l => C s a ∧ StepsMeet C (step s a) l

/-- Every state reached satisfies `P`. -/
def StatesMeet (P : σ → Prop) : σ → List α → Prop
  | s, [] => P s
  | s, a :: l => P s ∧ StatesMeet P (step s a) l

variable {step} {C : σ → α → Prop} {P : σ → Prop}

theorem StatesMeet.start {s : σ} {l : List α} (h : StatesMeet step P s l) : P s := by
  cases l with
  | nil => exact h
  | cons a l => exact h.1

theorem stepsMeet_append {s : σ} {l l' : List α} :
    StepsMeet step C s (l ++ l') ↔ StepsMeet step C s l ∧ StepsMeet step C (l.foldl step s) l' := by
  induction l generalizing s with
  | nil =>
    show StepsMeet step C s l' ↔ True ∧ StepsMeet step C s l'
    rw [true_and]
  | cons a l ih =>
    show C s a ∧ StepsMeet step C (step s a) (l ++ l') ↔
      (C s a ∧ StepsMeet step C (step s a) l) ∧ _
    rw [ih, and_assoc]
    rfl

/-- Every operation meets `C` at the state the operations before it lead to. -/
theorem stepsMeet_iff_forall_split {s : σ} {l : List α} :
    StepsMeet step C s l ↔ ∀ front a back, l = front ++ a :: back → C (front.foldl step s) a := by
  constructor
  · rintro h front a back rfl
    exact (stepsMeet_append.mp h).2.1
  · intro h
    induction l generalizing s with
    | nil => trivial
    | cons a l ih =>
      refine ⟨h [] a l rfl, ih fun front b back heq => ?_⟩
      exact h (a :: front) b back (by rw [heq, List.cons_append])

/-- What every step that meets `C` keeps holds at the end. -/
theorem StepsMeet.invariant (hstep : ∀ s a, P s → C s a → P (step s a)) {s : σ} {l : List α}
    (h : StepsMeet step C s l) (hs : P s) : P (l.foldl step s) := by
  induction l generalizing s with
  | nil => exact hs
  | cons a l ih => exact ih h.2 (hstep s a hs h.1)

/-- What `C` says about the operation alone holds of every operation. -/
theorem StepsMeet.forall_mem {D : α → Prop} (hD : ∀ s a, C s a → D a) {s : σ} {l : List α}
    (h : StepsMeet step C s l) : ∀ a ∈ l, D a := by
  induction l generalizing s with
  | nil => exact fun _ ha => (nomatch ha)
  | cons a l ih => exact List.forall_mem_cons.mpr ⟨hD s a h.1, ih h.2⟩

/-- If along an invariant `C` is what one step needs to keep `P`, the states of a run satisfy `P`
exactly when its operations meet `C`. -/
theorem statesMeet_iff_of_invariant {I : σ → Prop} (hI : ∀ s a, I s → I (step s a))
    (hstep : ∀ s a, I s → P s → (P (step s a) ↔ C s a)) {s : σ} (hi : I s) (hs : P s)
    (l : List α) : StatesMeet step P s l ↔ StepsMeet step C s l := by
  induction l generalizing s with
  | nil => exact ⟨fun _ => trivial, fun _ => hs⟩
  | cons a l ih =>
    constructor
    · rintro ⟨-, hrest⟩
      have hnext := hrest.start
      exact ⟨(hstep s a hi hs).mp hnext, (ih (hI s a hi) hnext).mp hrest⟩
    · rintro ⟨ha, hrest⟩
      exact ⟨hs, (ih (hI s a hi) ((hstep s a hi hs).mpr ha)).mpr hrest⟩

/-- If `C` is what one step needs to keep `P`, the states of a run satisfy `P` exactly when its
operations meet `C`. -/
theorem statesMeet_iff_stepsMeet (hstep : ∀ s a, P s → (P (step s a) ↔ C s a)) {s : σ}
    (hs : P s) (l : List α) : StatesMeet step P s l ↔ StepsMeet step C s l :=
  statesMeet_iff_of_invariant (I := fun _ => True) (fun _ _ _ => trivial)
    (fun s a _ => hstep s a) trivial hs l

end Runs
