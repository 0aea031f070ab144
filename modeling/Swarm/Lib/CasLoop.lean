import Mathlib.Data.List.Induction
import Swarm.Lib.Words

/-!
# Words updated by compare-and-swap loops

Callers share one word. A caller loads it, computes a new value from what it loaded and from a
reading it takes, and publishes the new value by compare-and-swap, starting over when the word
changed in between. `step` interleaves the loads and swaps of any number of callers.

`run_sequential` is the linearisation: whatever the interleaving, the committed operations form a
sequential history, each started from the word the one before it published.
-/

namespace CasLoop

variable {σ Op Rd Tid : Type}

/-- Where a caller stands: outside, before its load, or between load and swap. -/
inductive Pc (σ Op : Type) where
  | idle
  | calling (op : Op)
  | loaded (op : Op) (cur : σ)

/-- A successful swap: the operation, its reading, and the word it replaced. -/
structure Commit (σ Op Rd : Type) where
  op : Op
  rd : Rd
  old : σ

/-- The shared word, the callers, and the swaps committed so far, oldest first. -/
structure State (σ Op Rd Tid : Type) where
  word : σ
  pc : Tid → Pc σ Op
  log : List (Commit σ Op Rd)

/-- One atomic action of caller `t`; the reading is the one the computation uses. -/
inductive Act (Op Rd Tid : Type) where
  | call (t : Tid) (op : Op)
  | load (t : Tid)
  | cas (t : Tid) (rd : Rd)

/-- The word `w` and no caller inside. -/
def init (w : σ) : State σ Op Rd Tid := { word := w, pc := fun _ => .idle, log := [] }

section Step

variable [DecidableEq σ] [DecidableEq Tid] (next : Op → Rd → σ → σ)

/-- The word a commit published. -/
def Commit.new (c : Commit σ Op Rd) : σ := next c.op c.rd c.old

/-- One action. Actions a caller is not ready for change nothing. -/
def step (s : State σ Op Rd Tid) : Act Op Rd Tid → State σ Op Rd Tid
  | .call t op =>
    match s.pc t with
    | .idle => { s with pc := Function.update s.pc t (.calling op) }
    | _ => s
  | .load t =>
    match s.pc t with
    | .calling op => { s with pc := Function.update s.pc t (.loaded op s.word) }
    | _ => s
  | .cas t rd =>
    match s.pc t with
    | .loaded op cur =>
      if s.word = cur then
        { word := next op rd cur
          pc := Function.update s.pc t .idle
          log := s.log ++ [⟨op, rd, cur⟩] }
      else { s with pc := Function.update s.pc t (.calling op) }
    | _ => s

/-- The state after a list of actions. -/
def run (w : σ) (acts : List (Act Op Rd Tid)) : State σ Op Rd Tid := acts.foldl (step next) (init w)

/-- A sequential history from `w` to its last word: every commit replaces the word left by the one
before it. -/
inductive Sequential (w : σ) : List (Commit σ Op Rd) → σ → Prop
  | nil : Sequential w [] w
  | snoc {l : List (Commit σ Op Rd)} (c : Commit σ Op Rd) (hl : Sequential w l c.old) :
      Sequential w (l ++ [c]) (c.new next)

/-- One action extends a sequential history. -/
theorem step_sequential (w : σ) (s : State σ Op Rd Tid) (a : Act Op Rd Tid)
    (h : Sequential next w s.log s.word) :
    Sequential next w (step next s a).log (step next s a).word := by
  cases a with
  | call t op => simp only [step]; split <;> exact h
  | load t => simp only [step]; split <;> exact h
  | cas t rd =>
    simp only [step]
    split
    · rename_i op cur _
      split_ifs with heq
      · rw [heq] at h
        exact .snoc ⟨op, rd, cur⟩ h
      · exact h
    · exact h

/-- **Linearisation.** The committed operations of a run are a sequential history of its word. -/
theorem run_sequential (w : σ) (acts : List (Act Op Rd Tid)) :
    Sequential next w (run next w acts).log (run next w acts).word := by
  induction acts using List.reverseRecOn with
  | nil => exact .nil
  | append_singleton acts a ih =>
    unfold run
    rw [List.foldl_append]
    exact step_sequential next w _ a ih

/-! ## Where committed operations come from -/

/-- The operations called and the readings taken by an action satisfy `P` and `Q`. -/
def Act.Within (P : Op → Prop) (Q : Rd → Prop) : Act Op Rd Tid → Prop
  | .call _ op => P op
  | .load _ => True
  | .cas _ rd => Q rd

/-- A caller's operation satisfies `P`. -/
def Pc.Within (P : Op → Prop) : Pc σ Op → Prop
  | .idle => True
  | .calling op => P op
  | .loaded op _ => P op

theorem step_within {P : Op → Prop} {Q : Rd → Prop} {s : State σ Op Rd Tid} {a : Act Op Rd Tid}
    (ha : a.Within P Q) (hpc : ∀ t, (s.pc t).Within P) (hlog : ∀ c ∈ s.log, P c.op ∧ Q c.rd) :
    (∀ t, ((step next s a).pc t).Within P) ∧ ∀ c ∈ (step next s a).log, P c.op ∧ Q c.rd := by
  have hupd : ∀ (t : Tid) (x : Pc σ Op), x.Within P →
      ∀ u, (Function.update s.pc t x u).Within P := by
    intro t x hx u
    by_cases hu : u = t
    · subst hu; rw [Function.update_self]; exact hx
    · rw [Function.update_of_ne hu]; exact hpc u
  cases a with
  | call t op =>
    simp only [step]
    split
    · exact ⟨hupd t _ ha, hlog⟩
    · exact ⟨hpc, hlog⟩
  | load t =>
    simp only [step]
    split
    · rename_i op heq
      exact ⟨hupd t _ (by have := hpc t; rw [heq] at this; exact this), hlog⟩
    · exact ⟨hpc, hlog⟩
  | cas t rd =>
    simp only [step]
    split
    · rename_i op cur heq
      have hop : P op := by have := hpc t; rw [heq] at this; exact this
      split_ifs
      · refine ⟨hupd t _ trivial, fun c hc => ?_⟩
        rcases List.mem_append.mp hc with hc | hc
        · exact hlog c hc
        · rw [List.mem_singleton.mp hc]; exact ⟨hop, ha⟩
      · exact ⟨hupd t _ hop, hlog⟩
    · exact ⟨hpc, hlog⟩

/-- What holds of every operation called and every reading taken holds of every commit. -/
theorem run_within {P : Op → Prop} {Q : Rd → Prop} (w : σ) (acts : List (Act Op Rd Tid))
    (h : ∀ a ∈ acts, a.Within P Q) : ∀ c ∈ (run next w acts).log, P c.op ∧ Q c.rd := by
  have both : (∀ t, ((run next w acts).pc t).Within P) ∧
      ∀ c ∈ (run next w acts).log, P c.op ∧ Q c.rd := by
    induction acts using List.reverseRecOn with
    | nil => exact ⟨fun _ => trivial, fun c hc => absurd hc List.not_mem_nil⟩
    | append_singleton acts a ih =>
      obtain ⟨hpc, hlog⟩ := ih fun b hb => h b (List.mem_append_left _ hb)
      unfold run
      rw [List.foldl_append]
      exact step_within next (h a (List.mem_append_right _ List.mem_cons_self)) hpc hlog
  exact both.2

end Step

end CasLoop
