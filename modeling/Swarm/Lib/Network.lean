import Mathlib.Algebra.Order.BigOperators.Group.Finset
import Mathlib.Logic.Hydra

/-!
# Networks of message handlers

Parties with a state each, and messages in flight that may be delivered in any order. Delivering a
message runs the handler of its destination, which changes that party's state and sends messages.

A run is finite when every message sent has a lower rank than the one it answers
(`acc_of_rank`): one delivery cuts a message and puts finitely many smaller ones in its place. It is
also finite when a delivery may send anything, as long as the party pays for it out of a budget that
never grows (`acc_of_budget`). Where every run is finite, every order of delivery ends with nothing
in flight (`reaches_quiet`).
-/

namespace Network

/-- A message in flight. -/
structure Packet (I M : Type*) where
  src : I
  dst : I
  msg : M

/-- The states of the parties and what is in flight. -/
structure Net (I S M : Type*) where
  node : I → S
  flight : Multiset (Packet I M)

variable {I S M X : Type*} [DecidableEq I]

/-- A handler: at a party in a state, for a message from a party, under an outside input. -/
abbrev Handler (I S M X : Type*) := I → S → I → M → X → S × List (I × M)

/-- What the handler sends, as packets. -/
def emitted (src : I) (out : List (I × M)) : Multiset (Packet I M) :=
  Multiset.ofList (out.map fun e => ⟨src, e.1, e.2⟩)

omit [DecidableEq I] in
theorem mem_emitted {src : I} {out : List (I × M)} {p : Packet I M} :
    p ∈ emitted src out ↔ ∃ e ∈ out, ⟨src, e.1, e.2⟩ = p := by
  unfold emitted
  rw [Multiset.mem_coe, List.mem_map]

/-- One delivery. -/
inductive Step (handle : Handler I S M X) : Net I S M → Net I S M → Prop where
  | deliver (node : I → S) (rest : Multiset (Packet I M)) (p : Packet I M) (x : X) :
    Step handle ⟨node, p ::ₘ rest⟩
      ⟨Function.update node p.dst (handle p.dst (node p.dst) p.src p.msg x).1,
        rest + emitted p.dst (handle p.dst (node p.dst) p.src p.msg x).2⟩

/-- With one message in flight, it is the one delivered. -/
theorem step_singleton {handle : Handler I S M X} {node : I → S} {p : Packet I M} {net : Net I S M}
    (h : Step handle ⟨node, {p}⟩ net) :
    ∃ x, net = ⟨Function.update node p.dst (handle p.dst (node p.dst) p.src p.msg x).1,
      emitted p.dst (handle p.dst (node p.dst) p.src p.msg x).2⟩ := by
  generalize hstart : Net.mk node {p} = start at h
  cases h with
  | deliver node' rest q x =>
    obtain ⟨rfl, hflight⟩ := Net.mk.inj hstart
    obtain ⟨rfl, rfl⟩ := (Multiset.singleton_eq_cons_iff _).mp hflight
    exact ⟨x, by rw [zero_add]⟩

/-- Deliver in the order of sending, one delivery for each outside input. -/
def deliverAll (handle : Handler I S M X) :
    (I → S) → List (Packet I M) → List X → (I → S) × List (Packet I M)
  | node, p :: rest, x :: xs =>
    let out := handle p.dst (node p.dst) p.src p.msg x
    deliverAll handle (Function.update node p.dst out.1)
      (rest ++ out.2.map fun e => ⟨p.dst, e.1, e.2⟩) xs
  | node, flight, _ => (node, flight)

theorem deliverAll_nil (handle : Handler I S M X) (node : I → S) (flight : List (Packet I M)) :
    deliverAll handle node flight [] = (node, flight) := by
  cases flight <;> rfl

theorem deliverAll_run (handle : Handler I S M X) (node : I → S) (flight : List (Packet I M))
    (xs : List X) :
    Relation.ReflTransGen (Step handle) ⟨node, flight⟩
      ⟨(deliverAll handle node flight xs).1, (deliverAll handle node flight xs).2⟩ := by
  induction xs generalizing node flight with
  | nil =>
    rw [deliverAll_nil]
  | cons x xs ih =>
    cases flight with
    | nil => exact .refl
    | cons p rest => exact .head (.deliver node rest p x) (ih _ _)

/-- As long as something is in flight, one more input is one more delivery. -/
theorem step_deliverAll (handle : Handler I S M X) (x : X) (k : ℕ) (node : I → S)
    (flight : List (Packet I M))
    (h : (deliverAll handle node flight (List.replicate k x)).2 ≠ []) :
    Step handle
      ⟨(deliverAll handle node flight (List.replicate k x)).1,
        (deliverAll handle node flight (List.replicate k x)).2⟩
      ⟨(deliverAll handle node flight (List.replicate (k + 1) x)).1,
        (deliverAll handle node flight (List.replicate (k + 1) x)).2⟩ := by
  induction k generalizing node flight with
  | zero =>
    cases flight with
    | nil => exact absurd rfl h
    | cons p rest =>
      show Step handle ⟨node, p ::ₘ rest⟩
        ⟨(deliverAll handle _ _ []).1, (deliverAll handle _ _ []).2⟩
      rw [deliverAll_nil]
      exact .deliver node rest p x
  | succ k ih =>
    cases flight with
    | nil => exact absurd rfl h
    | cons p rest => exact ih _ _ h

/-! ## Finite runs -/

/-- One delivery keeps what `G` says of the party and `Q` of the packets. It is paid for by a party
of `P`, or answers with lower ranks at no cost. -/
structure Descends (handle : Handler I S M X) (G : I → S → Prop) (Q : Packet I M → Prop)
    (P : Finset I) (budget : I → S → ℕ) (rank : M → ℕ) : Prop where
  keeps : ∀ {i s src m} x, G i s → Q ⟨src, i, m⟩ → G i (handle i s src m x).1
  sends : ∀ {i s src m} x, G i s → Q ⟨src, i, m⟩ →
    ∀ e ∈ (handle i s src m x).2, Q ⟨i, e.1, e.2⟩
  cost : ∀ {i s src m} x, G i s → Q ⟨src, i, m⟩ →
    (i ∈ P ∧ budget i (handle i s src m x).1 < budget i s) ∨
      (budget i (handle i s src m x).1 ≤ budget i s ∧
        ∀ e ∈ (handle i s src m x).2, rank e.2 < rank m)

section Budget

variable {P : Finset I} {budget : I → S → ℕ} {node : I → S} {i : I} {s : S}

theorem sum_update_le (h : budget i s ≤ budget i (node i)) :
    ∑ j ∈ P, budget j (Function.update node i s j) ≤ ∑ j ∈ P, budget j (node j) := by
  refine Finset.sum_le_sum fun j _ => ?_
  by_cases hj : j = i
  · rw [hj, Function.update_self]
    exact h
  · rw [Function.update_of_ne hj]

theorem sum_update_lt (hi : i ∈ P) (h : budget i s < budget i (node i)) :
    ∑ j ∈ P, budget j (Function.update node i s j) < ∑ j ∈ P, budget j (node j) := by
  refine Finset.sum_lt_sum (fun j _ => ?_) ⟨i, hi, by rwa [Function.update_self]⟩
  by_cases hj : j = i
  · rw [hj, Function.update_self]
    exact h.le
  · rw [Function.update_of_ne hj]

end Budget

omit [DecidableEq I] in
/-- Answers of lower rank are a cut and expansion of the ranks in flight. -/
theorem cutExpand_ranks {rank : M → ℕ} {rest : Multiset (Packet I M)} {p : Packet I M} {src : I}
    {out : List (I × M)} (h : ∀ e ∈ out, rank e.2 < rank p.msg) :
    Relation.CutExpand (fun a b : ℕ => a < b)
      ((rest + emitted src out).map fun q => rank q.msg)
      ((p ::ₘ rest).map fun q => rank q.msg) := by
  refine ⟨(emitted src out).map fun q => rank q.msg, rank p.msg, fun a ha => ?_, ?_⟩
  · obtain ⟨q, hq, rfl⟩ := Multiset.mem_map.mp ha
    obtain ⟨e, he, rfl⟩ := mem_emitted.mp hq
    exact h e he
  · rw [Multiset.map_add, Multiset.map_cons, add_right_comm, ← Multiset.singleton_add,
      add_comm {rank p.msg}]

/-- If deliveries are paid for or answer with lower ranks, no delivery sequence goes on for ever. -/
theorem acc_of_budget {handle : Handler I S M X} {G : I → S → Prop} {Q : Packet I M → Prop}
    {P : Finset I} {budget : I → S → ℕ} {rank : M → ℕ} (h : Descends handle G Q P budget rank)
    (net : Net I S M) (hG : ∀ i, G i (net.node i)) (hQ : ∀ p ∈ net.flight, Q p) :
    Acc (fun b a => Step handle a b) net := by
  have hwf : WellFounded (Relation.CutExpand fun a b : ℕ => a < b) := wellFounded_lt.cutExpand
  -- the budget left decreases, or stays while the ranks in flight decrease
  generalize hleft : ∑ i ∈ P, budget i (net.node i) = left
  induction left using Nat.strong_induction_on generalizing net with
  | _ left ihleft =>
    generalize hranks : net.flight.map (fun p => rank p.msg) = ranks
    induction ranks using hwf.induction generalizing net with
    | _ ranks ihranks =>
      refine ⟨_, fun net' hstep => ?_⟩
      cases hstep with
      | deliver node rest p x =>
        have hp : Q p := hQ p (Multiset.mem_cons_self p rest)
        have hparties : ∀ i, G i (Function.update node p.dst
            (handle p.dst (node p.dst) p.src p.msg x).1 i) := fun i => by
          by_cases hi : i = p.dst
          · rw [hi, Function.update_self]
            exact h.keeps x (hG p.dst) hp
          · rw [Function.update_of_ne hi]
            exact hG i
        have hpackets : ∀ q ∈ rest + emitted p.dst (handle p.dst (node p.dst) p.src p.msg x).2,
            Q q := fun q hq => by
          rcases Multiset.mem_add.mp hq with hold | hnew
          · exact hQ q (Multiset.mem_cons_of_mem hold)
          · obtain ⟨e, he, rfl⟩ := mem_emitted.mp hnew
            exact h.sends x (hG p.dst) hp e he
        rcases h.cost x (hG p.dst) hp with ⟨hmem, hlt⟩ | ⟨hle, hrank⟩
        · exact ihleft _ (hleft ▸ sum_update_lt hmem hlt) _ hparties hpackets rfl
        · rcases (sum_update_le (P := P) hle).lt_or_eq with hlt | heq
          · exact ihleft _ (hleft ▸ hlt) _ hparties hpackets rfl
          · exact ihranks _ (hranks ▸ cutExpand_ranks hrank) _ hparties hpackets
              (heq.trans hleft) rfl

/-- If answers rank below what they answer, no delivery sequence goes on for ever. -/
theorem acc_of_rank {handle : Handler I S M X} {Q : M → Prop} {rank : M → ℕ}
    (hrank : ∀ i s src m x, Q m → ∀ e ∈ (handle i s src m x).2, Q e.2 ∧ rank e.2 < rank m)
    (net : Net I S M) (hQ : ∀ p ∈ net.flight, Q p.msg) :
    Acc (fun b a => Step handle a b) net := by
  have h : Descends handle (fun _ _ => True) (fun p => Q p.msg) ∅ (fun _ _ => 0) rank :=
    { keeps := fun _ _ _ => trivial
      sends := fun x _ hm e he => (hrank _ _ _ _ x hm e he).1
      cost := fun x _ hm => Or.inr ⟨le_rfl, fun e he => (hrank _ _ _ _ x hm e he).2⟩ }
  exact acc_of_budget h net (fun _ => trivial) hQ

/-- Where every delivery sequence ends, delivering as long as something is in flight comes to an
end with nothing in flight. -/
theorem reaches_quiet {handle : Handler I S M X} {net : Net I S M}
    (hacc : Acc (fun b a => Step handle a b) net) (run : ℕ → Net I S M) (h0 : run 0 = net)
    (hrun : ∀ k, (run k).flight ≠ 0 → Step handle (run k) (run (k + 1))) :
    ∃ k, (run k).flight = 0 := by
  induction hacc generalizing run with
  | intro net _ ih =>
    by_cases hquiet : (run 0).flight = 0
    · exact ⟨0, hquiet⟩
    · obtain ⟨k, hk⟩ := ih (run 1) (h0 ▸ hrun 0 hquiet) (fun k => run (k + 1)) rfl
        fun k => hrun (k + 1)
      exact ⟨k + 1, hk⟩

/-- A net from which every delivery sequence ends has no infinite run. -/
theorem no_infinite_run {handle : Handler I S M X} {net : Net I S M}
    (hacc : Acc (fun b a => Step handle a b) net) :
    ¬ ∃ run : ℕ → Net I S M, run 0 = net ∧ ∀ k, Step handle (run k) (run (k + 1)) := by
  induction hacc with
  | intro net _ ih =>
    rintro ⟨run, h0, hrun⟩
    exact ih (run 1) (h0 ▸ hrun 0) ⟨fun k => run (k + 1), rfl, fun k => hrun (k + 1)⟩

end Network
