import Swarm.Lib.Network

/-!
# Flooding with pushes, announcements and requests

Parties hold items in versions. A party that takes a newer version tells every neighbour but the
sender, by pushing it with one hop less or by announcing it. A party that hears of a version it does
not have notes the announcer down and later asks it, on a timer of its own; whoever is asked pushes.

`Protocol` states this as a contract. `Inv` holds along every run of deliveries, timers and new
versions. What a party holds, each neighbour holds too, or it is pushed or announced to the
neighbour, or the neighbour waits or has asked (`Ob`). So when nothing is in flight and nobody
waits, neighbours hold the same (`Inv.agree`). Hops run out only when everyone has the version: each
hop less is one more party that has it. Every delivery is paid for (`Inv.deliveries_le`).
-/

namespace LazyFlood

open Network

/-- What a message says about version `v` of item `k`. -/
inductive Kind (K V : Type) where
  | push (k : K) (v : V) (hops : ℕ)
  | announce (k : K) (v : V)
  | request (k : K) (v : V)
  | idle
  | other

/-- The price of a delivery, with what it leads to. -/
def Kind.weight {K V : Type} : Kind K V → ℕ
  | .push _ _ _ => 2
  | .announce _ _ => 5
  | .request _ _ => 3
  | .idle => 1
  | .other => 0

variable {I S M X K V : Type} [DecidableEq I] [LinearOrder V]

/-- How messages and states are read. -/
structure Parts (I S M K V : Type) where
  kind : M → Kind K V
  /-- The party holds the version or a newer one. -/
  Has : S → K → V → Prop
  /-- The party is going to ask the announcer. -/
  Waits : S → K → V → I → Prop
  /-- The party has asked. -/
  Asked : S → K → V → Prop
  /-- How many versions it has yet to take, at most. -/
  left : S → ℕ
  /-- How many announcers it is going to ask. -/
  pending : S → ℕ

namespace Parts

variable (pt : Parts I S M K V)

/-- Nothing that matters changes. -/
structure Stays (s s' : S) : Prop where
  has : ∀ k v, pt.Has s' k v ↔ pt.Has s k v
  waits : ∀ k v a, pt.Waits s' k v a ↔ pt.Waits s k v a
  asked : ∀ k v, pt.Asked s' k v ↔ pt.Asked s k v
  left : pt.left s' ≤ pt.left s
  pending : pt.pending s' ≤ pt.pending s

/-- The party takes a version that came with `h` hops and tells its neighbours. -/
structure Passes (nbr : I → I → Prop) (fanout : ℕ) (i : I) (src : Option I) (h : ℕ) (k : K) (v : V)
    (s s' : S) (out : List (I × M)) : Prop where
  new : ¬ pt.Has s k v
  has : ∀ k' v', pt.Has s' k' v' ↔ pt.Has s k' v' ∨ k' = k ∧ v' ≤ v
  waits : ∀ k' v' a, pt.Waits s k' v' a → pt.Waits s' k' v' a ∨ k' = k ∧ v' = v
  waits_of : ∀ k' v' a, pt.Waits s' k' v' a → pt.Waits s k' v' a
  asked_of : ∀ k' v', pt.Asked s' k' v' → pt.Asked s k' v'
  sends : ∀ e ∈ out, nbr i e.1 ∧
    (pt.kind e.2 = .announce k v ∨ 1 < h ∧ pt.kind e.2 = .push k v (h - 1))
  tells : 1 < h → ∀ j, nbr i j → some j ≠ src → ∃ m, (j, m) ∈ out ∧
    (pt.kind m = .announce k v ∨ pt.kind m = .push k v (h - 1))
  left : pt.left s' < pt.left s
  pending : pt.pending s' ≤ pt.pending s
  fanout : out.length ≤ fanout

/-- The party hears of a version. -/
structure Notes (src : I) (k : K) (v : V) (s s' : S) : Prop where
  has : ∀ k' v', pt.Has s' k' v' ↔ pt.Has s k' v'
  waits : ∀ k' v' a, pt.Waits s k' v' a → pt.Waits s' k' v' a
  waits_of : ∀ k' v' a, pt.Waits s' k' v' a → pt.Waits s k' v' a ∨ k' = k ∧ v' = v ∧ a = src
  asked : ∀ k' v', pt.Asked s' k' v' ↔ pt.Asked s k' v'
  noted : pt.Has s k v ∨ pt.Asked s k v ∨ ∃ a, pt.Waits s' k v a
  left : pt.left s' ≤ pt.left s
  pending : pt.pending s' ≤ pt.pending s + 1

/-- The party asks some of the announcers it waits for. -/
structure Asks (s s' : S) (out : List (I × M)) : Prop where
  has : ∀ k v, pt.Has s' k v ↔ pt.Has s k v
  waits : ∀ k v a, pt.Waits s k v a →
    pt.Waits s' k v a ∨ ∃ m, (a, m) ∈ out ∧ pt.kind m = .request k v
  waits_of : ∀ k v a, pt.Waits s' k v a → pt.Waits s k v a
  asked_of : ∀ k v, pt.Asked s' k v →
    pt.Asked s k v ∨ ∃ a m, (a, m) ∈ out ∧ pt.kind m = .request k v
  sends : ∀ e ∈ out, ∃ k v, pt.kind e.2 = .request k v ∧ pt.Waits s k v e.1
  left : pt.left s' ≤ pt.left s
  pending : out.length + pt.pending s' ≤ pt.pending s

end Parts

/-- The contract of the parties in `P`, which are neighbours as `nbr` says. `act` is what a party
does by itself, and `refused` counts what it turned away. -/
structure Protocol (handle : Handler I S M X) (act : I → S → S → List (I × M) → Prop)
    (P : Finset I) (nbr : I → I → Prop) (items : Set (K × V)) (hops fanout : ℕ)
    extends Parts I S M K V where
  Good : I → S → Prop
  refused : S → ℕ
  hops_pos : 1 ≤ hops
  inside : ∀ {i j}, i ∈ P → nbr i j → j ∈ P
  symm : ∀ {i j}, i ∈ P → nbr i j → nbr j i
  has_le : ∀ {s k v v'}, Has s k v' → v ≤ v' → Has s k v
  item_of_waits : ∀ {i s k v a}, i ∈ P → Good i s → Waits s k v a → (k, v) ∈ items
  refused_handle : ∀ i s src m x, refused s ≤ refused (handle i s src m x).1
  refused_act : ∀ {i s s' out}, act i s s' out → refused s ≤ refused s'
  act_keeps : ∀ {i s s' out}, i ∈ P → Good i s → act i s s' out → Good i s'
  act_does : ∀ {i s s' out}, i ∈ P → Good i s → act i s s' out → refused s' = refused s →
    toParts.Asks s s' out ∨
      ∃ k v, (k, v) ∈ items ∧ toParts.Passes nbr fanout i none (hops + 1) k v s s' out
  push_keeps : ∀ {i s src m k v h} x, i ∈ P → Good i s → nbr i src → kind m = .push k v h →
    (k, v) ∈ items → Good i (handle i s src m x).1
  push_does : ∀ {i s src m k v h} x, i ∈ P → Good i s → nbr i src → kind m = .push k v h →
    (k, v) ∈ items → refused (handle i s src m x).1 = refused s →
    toParts.Passes nbr fanout i (some src) h k v s (handle i s src m x).1
        (handle i s src m x).2 ∨
      Has s k v ∧ toParts.Stays s (handle i s src m x).1 ∧
        (∀ e ∈ (handle i s src m x).2, e.1 = src ∧ kind e.2 = .idle) ∧
        (handle i s src m x).2.length ≤ 1
  announce_does : ∀ {i s src m k v} x, i ∈ P → Good i s → nbr i src → kind m = .announce k v →
    (k, v) ∈ items → Good i (handle i s src m x).1 ∧
      toParts.Notes src k v s (handle i s src m x).1 ∧ (handle i s src m x).2 = []
  request_does : ∀ {i s src m k v} x, i ∈ P → Good i s → nbr i src → kind m = .request k v →
    (k, v) ∈ items → Has s k v →
      Good i (handle i s src m x).1 ∧ toParts.Stays s (handle i s src m x).1 ∧
      ∃ m' v', (handle i s src m x).2 = [(src, m')] ∧ kind m' = .push k v' hops ∧ v ≤ v' ∧
        (k, v') ∈ items ∧ Has s k v'
  idle_does : ∀ {i s src m} x, i ∈ P → Good i s → nbr i src → kind m = .idle →
    Good i (handle i s src m x).1 ∧ toParts.Stays s (handle i s src m x).1 ∧
      (handle i s src m x).2 = []

/-- A party does something by itself. -/
inductive Act (act : I → S → S → List (I × M) → Prop) (P : Finset I) :
    Net I S M → Net I S M → Prop where
  | intro (node : I → S) (flight : Multiset (Packet I M)) {i : I} {s' : S} {out : List (I × M)}
    (hi : i ∈ P) (h : act i (node i) s' out) :
    Act act P ⟨node, flight⟩ ⟨Function.update node i s', flight + emitted i out⟩

/-- A run with so many deliveries. -/
inductive Run (handle : Handler I S M X) (act : I → S → S → List (I × M) → Prop) (P : Finset I) :
    ℕ → Net I S M → Net I S M → Prop where
  | nil (net : Net I S M) : Run handle act P 0 net net
  | deliver {n : ℕ} {net net' net'' : Net I S M} :
    Run handle act P n net net' → Step handle net' net'' → Run handle act P (n + 1) net net''
  | act {n : ℕ} {net net' net'' : Net I S M} :
    Run handle act P n net net' → Act act P net' net'' → Run handle act P n net net''

variable {handle : Handler I S M X} {act : I → S → S → List (I × M) → Prop} {P : Finset I}
  {nbr : I → I → Prop} {items : Set (K × V)} {hops fanout : ℕ}

/-- A run goes on with deliveries. -/
theorem Run.steps {n : ℕ} {net net' net'' : Net I S M} (h : Run handle act P n net net')
    (hsteps : Relation.ReflTransGen (Step handle) net' net'') :
    ∃ m, Run handle act P m net net'' := by
  induction hsteps with
  | refl => exact ⟨n, h⟩
  | tail _ hstep ih =>
    obtain ⟨m, hm⟩ := ih
    exact ⟨m + 1, hm.deliver hstep⟩

/-! ## Obligations -/

section Obligations

variable (pt : Parts I S M K V)

/-- The party holds the version, or it is pushed to it, or it waits or has asked for it. -/
inductive Due (net : Net I S M) (j : I) (k : K) (v : V) : Prop where
  | has (h : pt.Has (net.node j) k v)
  | pushed {p : Packet I M} {v' : V} {h : ℕ} (hp : p ∈ net.flight) (hdst : p.dst = j)
    (hk : pt.kind p.msg = .push k v' h) (hle : v ≤ v')
  | waits {v' : V} {a : I} (hw : pt.Waits (net.node j) k v' a) (hle : v ≤ v')
  | asked {p : Packet I M} {v' : V} (hp : p ∈ net.flight) (hsrc : p.src = j)
    (hk : pt.kind p.msg = .request k v') (hle : v ≤ v')

/-- Or it is announced to it. -/
def Ob (net : Net I S M) (j : I) (k : K) (v : V) : Prop :=
  Due pt net j k v ∨ ∃ p ∈ net.flight, p.dst = j ∧ ∃ v', pt.kind p.msg = .announce k v' ∧ v ≤ v'

open Classical in
/-- The parties that hold the version. -/
noncomputable def holders (P : Finset I) (node : I → S) (k : K) (v : V) : Finset I :=
  P.filter fun i => pt.Has (node i) k v

variable {pt} {net net' : Net I S M} {j : I} {k : K} {v v' : V}

omit [DecidableEq I] [LinearOrder V] in
theorem mem_holders {node : I → S} {i : I} :
    i ∈ holders pt P node k v ↔ i ∈ P ∧ pt.Has (node i) k v := by
  classical
  unfold holders
  rw [Finset.mem_filter]

omit [DecidableEq I] [LinearOrder V] in
theorem holders_mono {node node' : I → S}
    (h : ∀ i ∈ P, pt.Has (node i) k v → pt.Has (node' i) k v) :
    (holders pt P node k v).card ≤ (holders pt P node' k v).card := by
  refine Finset.card_le_card fun i hi => ?_
  obtain ⟨hP, hhas⟩ := mem_holders.mp hi
  exact mem_holders.mpr ⟨hP, h i hP hhas⟩

omit [DecidableEq I] in
theorem Due.le (hhas : ∀ {s v v'}, pt.Has s k v' → v ≤ v' → pt.Has s k v) (h : Due pt net j k v')
    (hle : v ≤ v') : Due pt net j k v := by
  cases h with
  | has h => exact .has (hhas h hle)
  | pushed hp hdst hk hle' => exact .pushed hp hdst hk (hle.trans hle')
  | waits hw hle' => exact .waits hw (hle.trans hle')
  | asked hp hsrc hk hle' => exact .asked hp hsrc hk (hle.trans hle')

end Obligations

/-! ## The invariant -/

/-- What a packet in flight says about its ends. -/
structure Flies (pr : Protocol handle act P nbr items hops fanout) (node : I → S)
    (p : Packet I M) : Prop where
  src : p.src ∈ P
  known : nbr p.src p.dst
  kind : pr.kind p.msg ≠ .other
  push : ∀ k v h, pr.kind p.msg = .push k v h → (k, v) ∈ items ∧ pr.Has (node p.src) k v ∧
    1 ≤ h ∧ hops + 1 ≤ h + (holders pr.toParts P node k v).card
  announce : ∀ k v, pr.kind p.msg = .announce k v → (k, v) ∈ items ∧ pr.Has (node p.src) k v
  request : ∀ k v, pr.kind p.msg = .request k v → (k, v) ∈ items ∧ pr.Has (node p.dst) k v

/-- What holds along every run. -/
structure Inv (pr : Protocol handle act P nbr items hops fanout) (net : Net I S M) : Prop where
  good : ∀ i ∈ P, pr.Good i (net.node i)
  flies : ∀ p ∈ net.flight, Flies pr net.node p
  waits : ∀ i ∈ P, ∀ k v a, pr.Waits (net.node i) k v a → nbr i a ∧ pr.Has (net.node a) k v
  asked : ∀ i ∈ P, ∀ k v, pr.Asked (net.node i) k v → Due pr.toParts net i k v
  passed : ∀ i ∈ P, ∀ j, nbr i j → ∀ k v, pr.Has (net.node i) k v → Ob pr.toParts net j k v

variable {pr : Protocol handle act P nbr items hops fanout}

omit [DecidableEq I] in
/-- What others say about their ends stays true when versions are added. -/
theorem Flies.mono {node node' : I → S} {p : Packet I M} (h : Flies pr node p)
    (hmono : ∀ i k v, pr.Has (node i) k v → pr.Has (node' i) k v) : Flies pr node' p where
  src := h.src
  known := h.known
  kind := h.kind
  push k v n hk := by
    obtain ⟨hitem, hhas, hpos, hhops⟩ := h.push k v n hk
    refine ⟨hitem, hmono _ k v hhas, hpos, hhops.trans (Nat.add_le_add_left ?_ n)⟩
    exact holders_mono fun i _ => hmono i k v
  announce k v hk := (h.announce k v hk).imp_right (hmono _ k v)
  request k v hk := (h.request k v hk).imp_right (hmono _ k v)

section Kinds

variable {node : I → S} {p : Packet I M} {k : K} {v : V} {h : ℕ}

omit [DecidableEq I] in
theorem Flies.of_push (hsrc : p.src ∈ P) (hknown : nbr p.src p.dst)
    (hk : pr.kind p.msg = .push k v h) (hpush : (k, v) ∈ items ∧ pr.Has (node p.src) k v ∧ 1 ≤ h ∧
      hops + 1 ≤ h + (holders pr.toParts P node k v).card) : Flies pr node p := by
  refine ⟨hsrc, hknown, by simp [hk], fun k' v' h' hk' => ?_, fun k' v' hk' => ?_,
    fun k' v' hk' => ?_⟩
  all_goals
    rw [hk] at hk'
    cases hk'
  exact hpush

omit [DecidableEq I] in
theorem Flies.of_announce (hsrc : p.src ∈ P) (hknown : nbr p.src p.dst)
    (hk : pr.kind p.msg = .announce k v) (hheld : (k, v) ∈ items ∧ pr.Has (node p.src) k v) :
    Flies pr node p := by
  refine ⟨hsrc, hknown, by simp [hk], fun k' v' h' hk' => ?_, fun k' v' hk' => ?_,
    fun k' v' hk' => ?_⟩
  all_goals
    rw [hk] at hk'
    cases hk'
  exact hheld

omit [DecidableEq I] in
theorem Flies.of_request (hsrc : p.src ∈ P) (hknown : nbr p.src p.dst)
    (hk : pr.kind p.msg = .request k v) (hheld : (k, v) ∈ items ∧ pr.Has (node p.dst) k v) :
    Flies pr node p := by
  refine ⟨hsrc, hknown, by simp [hk], fun k' v' h' hk' => ?_, fun k' v' hk' => ?_,
    fun k' v' hk' => ?_⟩
  all_goals
    rw [hk] at hk'
    cases hk'
  exact hheld

omit [DecidableEq I] in
theorem Flies.of_idle (hsrc : p.src ∈ P) (hknown : nbr p.src p.dst)
    (hk : pr.kind p.msg = .idle) : Flies pr node p := by
  refine ⟨hsrc, hknown, by simp [hk], fun k' v' h' hk' => ?_, fun k' v' hk' => ?_,
    fun k' v' hk' => ?_⟩
  all_goals
    rw [hk] at hk'
    cases hk'

end Kinds

/-! ## One move -/

section Move

variable {node : I → S} {gone rest : Multiset (Packet I M)} {i : I} {s' : S} {out : List (I × M)}

/-- What a push or a request that is gone was for is still to come. -/
structure Answered (pr : Protocol handle act P nbr items hops fanout) (net : Net I S M)
    (p : Packet I M) : Prop where
  push : ∀ k v h, pr.kind p.msg = .push k v h → Due pr.toParts net p.dst k v
  request : ∀ k v, pr.kind p.msg = .request k v → Due pr.toParts net p.src k v

/-- And so is what an announcement was for. -/
structure Settled (pr : Protocol handle act P nbr items hops fanout) (net : Net I S M)
    (p : Packet I M) : Prop extends Answered pr net p where
  announce : ∀ k v, pr.kind p.msg = .announce k v → Due pr.toParts net p.dst k v

omit [DecidableEq I] in
theorem Settled.of_push {net : Net I S M} {p : Packet I M} {k : K} {v : V} {h : ℕ}
    (hk : pr.kind p.msg = .push k v h) (hdue : Due pr.toParts net p.dst k v) :
    Settled pr net p := by
  refine ⟨⟨fun k' v' n' hk' => ?_, fun k' v' hk' => ?_⟩, fun k' v' hk' => ?_⟩
  all_goals
    rw [hk] at hk'
    cases hk'
  exact hdue

omit [DecidableEq I] in
theorem Settled.of_announce {net : Net I S M} {p : Packet I M} {k : K} {v : V}
    (hk : pr.kind p.msg = .announce k v) (hdue : Due pr.toParts net p.dst k v) :
    Settled pr net p := by
  refine ⟨⟨fun k' v' n' hk' => ?_, fun k' v' hk' => ?_⟩, fun k' v' hk' => ?_⟩
  all_goals
    rw [hk] at hk'
    cases hk'
  exact hdue

omit [DecidableEq I] in
theorem Settled.of_request {net : Net I S M} {p : Packet I M} {k : K} {v : V}
    (hk : pr.kind p.msg = .request k v) (hdue : Due pr.toParts net p.src k v) :
    Settled pr net p := by
  refine ⟨⟨fun k' v' n' hk' => ?_, fun k' v' hk' => ?_⟩, fun k' v' hk' => ?_⟩
  all_goals
    rw [hk] at hk'
    cases hk'
  exact hdue

omit [DecidableEq I] in
theorem Settled.of_idle {net : Net I S M} {p : Packet I M} (hk : pr.kind p.msg = .idle) :
    Settled pr net p := by
  refine ⟨⟨fun k' v' n' hk' => ?_, fun k' v' hk' => ?_⟩, fun k' v' hk' => ?_⟩
  all_goals
    rw [hk] at hk'
    cases hk'

/-- The net when party `i` has moved on to `s'` and sent `out`. -/
abbrev moved (node : I → S) (rest : Multiset (Packet I M)) (i : I) (s' : S) (out : List (I × M)) :
    Net I S M :=
  ⟨Function.update node i s', rest + emitted i out⟩

theorem has_moved (hmono : ∀ k v, pr.Has (node i) k v → pr.Has s' k v) (j : I) (k : K) (v : V)
    (h : pr.Has (node j) k v) : pr.Has (Function.update node i s' j) k v := by
  by_cases hj : j = i
  · subst hj
    rw [Function.update_self]
    exact hmono k v h
  · rwa [Function.update_of_ne hj]

theorem Due.move {j : I} {k : K} {v : V} (h : Due pr.toParts ⟨node, gone + rest⟩ j k v)
    (hmono : ∀ k v, pr.Has (node i) k v → pr.Has s' k v)
    (hwaits : ∀ k v a, pr.Waits (node i) k v a → Due pr.toParts (moved node rest i s' out) i k v)
    (hgone : ∀ p ∈ gone, Answered pr (moved node rest i s' out) p) :
    Due pr.toParts (moved node rest i s' out) j k v := by
  cases h with
  | has h => exact .has (has_moved hmono j k v h)
  | pushed hp hdst hk hle =>
    rcases Multiset.mem_add.mp hp with hg | hr
    · exact hdst ▸ ((hgone _ hg).push _ _ _ hk).le pr.has_le hle
    · exact .pushed (Multiset.mem_add.mpr (Or.inl hr)) hdst hk hle
  | waits hw hle =>
    by_cases hj : j = i
    · subst hj
      exact (hwaits _ _ _ hw).le pr.has_le hle
    · change pr.Waits (node j) _ _ _ at hw
      rw [← Function.update_of_ne hj s' node] at hw
      exact .waits hw hle
  | asked hp hsrc hk hle =>
    rcases Multiset.mem_add.mp hp with hg | hr
    · exact hsrc ▸ ((hgone _ hg).request _ _ hk).le pr.has_le hle
    · exact .asked (Multiset.mem_add.mpr (Or.inl hr)) hsrc hk hle

/-- A move keeps the invariant if what it newly holds is passed on, what it waited or asked for is
still to come, and what it sends is true. -/
theorem Inv.move (h : Inv pr ⟨node, gone + rest⟩) (hi : i ∈ P) (hgood : pr.Good i s')
    (hmono : ∀ k v, pr.Has (node i) k v → pr.Has s' k v)
    (hgrow : ∀ k v, pr.Has s' k v → pr.Has (node i) k v ∨
      ∀ j, nbr i j → Ob pr.toParts (moved node rest i s' out) j k v)
    (hwaits : ∀ k v a, pr.Waits (node i) k v a → Due pr.toParts (moved node rest i s' out) i k v)
    (hwaits_of : ∀ k v a, pr.Waits s' k v a → nbr i a ∧ pr.Has (node a) k v)
    (hasked : ∀ k v, pr.Asked s' k v →
      pr.Asked (node i) k v ∨ Due pr.toParts (moved node rest i s' out) i k v)
    (hgone : ∀ p ∈ gone, Settled pr (moved node rest i s' out) p)
    (hout : ∀ e ∈ out, Flies pr (Function.update node i s') ⟨i, e.1, e.2⟩) :
    Inv pr (moved node rest i s' out) where
  good j hj := by
    show pr.Good j (Function.update node i s' j)
    by_cases hij : j = i
    · subst hij
      rwa [Function.update_self]
    · rw [Function.update_of_ne hij]
      exact h.good j hj
  flies p hp := by
    rcases Multiset.mem_add.mp hp with hr | hnew
    · exact (h.flies p (Multiset.mem_add.mpr (Or.inr hr))).mono (has_moved hmono)
    · obtain ⟨e, he, rfl⟩ := mem_emitted.mp hnew
      exact hout e he
  waits j hj k v a hw := by
    have hold : nbr j a ∧ pr.Has (node a) k v := by
      change pr.Waits (Function.update node i s' j) k v a at hw
      by_cases hij : j = i
      · subst hij
        rw [Function.update_self] at hw
        exact hwaits_of k v a hw
      · rw [Function.update_of_ne hij] at hw
        exact h.waits j hj k v a hw
    exact ⟨hold.1, has_moved hmono a k v hold.2⟩
  asked j hj k v ha := by
    have hanswered := fun p hp => (hgone p hp).toAnswered
    change pr.Asked (Function.update node i s' j) k v at ha
    by_cases hij : j = i
    · subst hij
      rw [Function.update_self] at ha
      rcases hasked k v ha with hold | hnew
      · exact (h.asked j hj k v hold).move hmono hwaits hanswered
      · exact hnew
    · rw [Function.update_of_ne hij] at ha
      exact (h.asked j hj k v ha).move hmono hwaits hanswered
  passed l hl j hlj k v hhas := by
    have hold : pr.Has (node l) k v → Ob pr.toParts (moved node rest i s' out) j k v := by
      intro hhas
      rcases h.passed l hl j hlj k v hhas with hdue | ⟨p, hp, hdst, v', hk, hle⟩
      · exact Or.inl (hdue.move hmono hwaits fun p hp => (hgone p hp).toAnswered)
      · rcases Multiset.mem_add.mp hp with hg | hr
        · exact Or.inl (hdst ▸ ((hgone p hg).announce k v' hk).le pr.has_le hle)
        · exact Or.inr ⟨p, Multiset.mem_add.mpr (Or.inl hr), hdst, v', hk, hle⟩
    change pr.Has (Function.update node i s' l) k v at hhas
    by_cases hil : l = i
    · subst hil
      rw [Function.update_self] at hhas
      rcases hgrow k v hhas with hhad | hnew
      · exact hold hhad
      · exact hnew j hlj
    · rw [Function.update_of_ne hil] at hhas
      exact hold hhas

/-! ## What the moves do -/

variable {k : K} {v : V} {n : ℕ}

/-- A party that takes a version and tells its neighbours. Without hops left it is the last. -/
theorem Inv.passes (h : Inv pr ⟨node, gone + rest⟩) (hcard : P.card ≤ hops + 1) (hi : i ∈ P)
    (hgood : pr.Good i s') {src : Option I} (hitem : (k, v) ∈ items)
    (hpass : pr.toParts.Passes nbr fanout i src n k v (node i) s' out)
    (hsrc : ∀ j, src = some j → pr.Has (node j) k v)
    (hhops : 1 ≤ n ∧ hops + 1 ≤ n + (holders pr.toParts P node k v).card)
    (hgone : ∀ p ∈ gone, Settled pr (moved node rest i s' out) p) :
    Inv pr (moved node rest i s' out) := by
  have hmono : ∀ k' v', pr.Has (node i) k' v' → pr.Has s' k' v' := fun k' v' hhas =>
    (hpass.has k' v').mpr (Or.inl hhas)
  have hnew : pr.Has s' k v := (hpass.has k v).mpr (Or.inr ⟨rfl, le_rfl⟩)
  -- one more party has it
  have hmore : (holders pr.toParts P node k v).card + 1 ≤
      (holders pr.toParts P (Function.update node i s') k v).card := by
    refine Finset.card_lt_card ⟨fun j hj => ?_, fun hsub => ?_⟩
    · obtain ⟨hP, hhas⟩ := mem_holders.mp hj
      exact mem_holders.mpr ⟨hP, has_moved hmono j k v hhas⟩
    · have hmem : i ∈ holders pr.toParts P (Function.update node i s') k v := by
        rw [mem_holders, Function.update_self]
        exact ⟨hi, hnew⟩
      exact hpass.new (mem_holders.mp (hsub hmem)).2
  have htold : ∀ j, nbr i j → Ob pr.toParts (moved node rest i s' out) j k v := by
    intro j hij
    by_cases hn : 1 < n
    · by_cases hj : src = some j
      · exact Or.inl (.has (has_moved hmono j k v (hsrc j hj)))
      · obtain ⟨m, hm, hkind⟩ := hpass.tells hn j hij fun heq => hj heq.symm
        have hmem : (⟨i, j, m⟩ : Packet I M) ∈ (moved node rest i s' out).flight :=
          Multiset.mem_add.mpr (Or.inr (mem_emitted.mpr ⟨_, hm, rfl⟩))
        rcases hkind with hkind | hkind
        · exact Or.inr ⟨_, hmem, rfl, v, hkind, le_rfl⟩
        · exact Or.inl (.pushed hmem rfl hkind le_rfl)
    · -- as many parties as there are hops had it before
      have hall : holders pr.toParts P (Function.update node i s') k v = P := by
        refine Finset.eq_of_subset_of_card_le (fun l hl => (mem_holders.mp hl).1) ?_
        omega
      have hj : j ∈ holders pr.toParts P (Function.update node i s') k v := by
        rw [hall]
        exact pr.inside hi hij
      exact Or.inl (.has (mem_holders.mp hj).2)
  refine h.move hi hgood hmono (fun k' v' hhas => ?_) (fun k' v' a hw => ?_)
    (fun k' v' a hw => h.waits i hi k' v' a (hpass.waits_of k' v' a hw))
    (fun k' v' ha => Or.inl (hpass.asked_of k' v' ha)) hgone fun e he => ?_
  · rcases (hpass.has k' v').mp hhas with hold | ⟨rfl, hle⟩
    · exact Or.inl hold
    · refine Or.inr fun j hij => ?_
      rcases htold j hij with hdue | ⟨p, hp, hdst, v'', hk, hle'⟩
      · exact Or.inl (hdue.le pr.has_le hle)
      · exact Or.inr ⟨p, hp, hdst, v'', hk, hle.trans hle'⟩
  · rcases hpass.waits k' v' a hw with hkept | ⟨rfl, rfl⟩
    · rw [← Function.update_self i s' node] at hkept
      exact .waits hkept le_rfl
    · refine .has ?_
      show pr.Has (Function.update node i s' i) _ _
      rw [Function.update_self]
      exact hnew
  · obtain ⟨hknown, hkind⟩ := hpass.sends e he
    have hheld : pr.Has (Function.update node i s' i) k v := by
      rw [Function.update_self]
      exact hnew
    rcases hkind with hkind | ⟨hn, hkind⟩
    · exact .of_announce hi hknown hkind ⟨hitem, hheld⟩
    · exact .of_push hi hknown hkind ⟨hitem, hheld, by omega, by omega⟩

/-- A party that changes nothing and sends what is true. -/
theorem Inv.stays (h : Inv pr ⟨node, gone + rest⟩) (hi : i ∈ P) (hgood : pr.Good i s')
    (hstay : pr.toParts.Stays (node i) s')
    (hgone : ∀ p ∈ gone, Settled pr (moved node rest i s' out) p)
    (hout : ∀ e ∈ out, Flies pr (Function.update node i s') ⟨i, e.1, e.2⟩) :
    Inv pr (moved node rest i s' out) := by
  refine h.move hi hgood (fun k v => (hstay.has k v).mpr)
    (fun k v hhas => Or.inl ((hstay.has k v).mp hhas)) (fun k v a hw => ?_)
    (fun k v a hw => h.waits i hi k v a ((hstay.waits k v a).mp hw))
    (fun k v ha => Or.inl ((hstay.asked k v).mp ha)) hgone hout
  have hkept := (hstay.waits k v a).mpr hw
  rw [← Function.update_self i s' node] at hkept
  exact .waits hkept le_rfl

/-- A party that hears of a version. -/
theorem Inv.notes {p : Packet I M} (h : Inv pr ⟨node, {p} + rest⟩) (hi : p.dst ∈ P)
    (hgood : pr.Good p.dst s') (hkind : pr.kind p.msg = .announce k v)
    (hnote : pr.toParts.Notes p.src k v (node p.dst) s') :
    Inv pr (moved node rest p.dst s' []) := by
  have hmono : ∀ k' v', pr.Has (node p.dst) k' v' → pr.Has s' k' v' := fun k' v' =>
    (hnote.has k' v').mpr
  have hp := h.flies p (Multiset.mem_add.mpr (Or.inl (Multiset.mem_singleton_self p)))
  have hwaits : ∀ k' v' a, pr.Waits (node p.dst) k' v' a →
      Due pr.toParts (moved node rest p.dst s' []) p.dst k' v' := by
    intro k' v' a hw
    have hkept := hnote.waits k' v' a hw
    rw [← Function.update_self p.dst s' node] at hkept
    exact .waits hkept le_rfl
  have hanswered : Answered pr (moved node rest p.dst s' []) p := by
    refine ⟨fun k' v' n' hk => ?_, fun k' v' hk => ?_⟩
    all_goals
      rw [hkind] at hk
      cases hk
  have hdue : Due pr.toParts (moved node rest p.dst s' []) p.dst k v := by
    rcases hnote.noted with hhas | hasked | ⟨a, hw⟩
    · exact .has (has_moved hmono p.dst k v hhas)
    · -- what was asked for before does not hang on this announcement
      refine (h.asked p.dst hi k v hasked).move hmono hwaits fun q hq => ?_
      rw [Multiset.mem_singleton.mp hq]
      exact hanswered
    · rw [← Function.update_self p.dst s' node] at hw
      exact .waits hw le_rfl
  refine h.move hi hgood hmono (fun k' v' hhas => Or.inl ((hnote.has k' v').mp hhas)) hwaits
    (fun k' v' a hw => ?_) (fun k' v' ha => Or.inl ((hnote.asked k' v').mp ha)) (fun q hq => ?_)
    fun e he => absurd he List.not_mem_nil
  · rcases hnote.waits_of k' v' a hw with hold | ⟨rfl, rfl, rfl⟩
    · exact h.waits p.dst hi k' v' a hold
    · exact ⟨pr.symm hp.src hp.known, (hp.announce k' v' hkind).2⟩
  · rw [Multiset.mem_singleton.mp hq]
    exact .of_announce hkind hdue

/-- A party that asks announcers. -/
theorem Inv.asks (h : Inv pr ⟨node, rest⟩) (hi : i ∈ P) (hgood : pr.Good i s')
    (hask : pr.toParts.Asks (node i) s' out) : Inv pr (moved node rest i s' out) := by
  have hmono : ∀ k' v', pr.Has (node i) k' v' → pr.Has s' k' v' := fun k' v' =>
    (hask.has k' v').mpr
  rw [← zero_add rest] at h
  have hasked : ∀ k v a m, (a, m) ∈ out → pr.kind m = .request k v →
      Due pr.toParts (moved node rest i s' out) i k v := by
    intro k v a m hm hk
    exact .asked (Multiset.mem_add.mpr (Or.inr (mem_emitted.mpr ⟨_, hm, rfl⟩))) rfl hk le_rfl
  refine h.move hi hgood hmono (fun k v hhas => Or.inl ((hask.has k v).mp hhas))
    (fun k v a hw => ?_) (fun k v a hw => h.waits i hi k v a (hask.waits_of k v a hw))
    (fun k v ha => ?_) (fun p hp => absurd hp (Multiset.notMem_zero p)) fun e he => ?_
  · rcases hask.waits k v a hw with hkept | ⟨m, hm, hk⟩
    · rw [← Function.update_self i s' node] at hkept
      exact .waits hkept le_rfl
    · exact hasked k v a m hm hk
  · rcases hask.asked_of k v ha with hold | ⟨a, m, hm, hk⟩
    · exact Or.inl hold
    · exact Or.inr (hasked k v a m hm hk)
  · obtain ⟨k, v, hk, hw⟩ := hask.sends e he
    obtain ⟨hknown, hhas⟩ := h.waits i hi k v e.1 hw
    have hitem : (k, v) ∈ items := pr.item_of_waits hi (h.good i hi) hw
    exact .of_request hi hknown hk ⟨hitem, has_moved hmono e.1 k v hhas⟩

end Move

/-! ## Runs -/

variable {net net' : Net I S M}

theorem Inv.step (h : Inv pr net) (hcard : P.card ≤ hops + 1) (hstep : Step handle net net')
    (hrefused : ∀ i ∈ P, pr.refused (net'.node i) = pr.refused (net.node i)) : Inv pr net' := by
  cases hstep with
  | deliver node rest p x =>
    have hp := h.flies p (Multiset.mem_cons_self p rest)
    have hdst : p.dst ∈ P := pr.inside hp.src hp.known
    have hgood := h.good p.dst hdst
    have hknown := pr.symm hp.src hp.known
    have hsame := hrefused p.dst hdst
    change pr.refused (Function.update node p.dst _ p.dst) = pr.refused (node p.dst) at hsame
    rw [Function.update_self] at hsame
    rw [← Multiset.singleton_add] at h
    cases hk : pr.kind p.msg with
    | push k v n =>
      obtain ⟨hitem, hhas, hpos, hhops⟩ := hp.push k v n hk
      have hkeeps := pr.push_keeps x hdst hgood hknown hk hitem
      have hgone {s' : S} {out : List (I × M)} (hheld : pr.Has s' k v) :
          ∀ q ∈ ({p} : Multiset (Packet I M)), Settled pr (moved node rest p.dst s' out) q := by
        intro q hq
        rw [Multiset.mem_singleton.mp hq]
        refine .of_push hk (.has ?_)
        show pr.Has (Function.update node p.dst s' p.dst) k v
        rwa [Function.update_self]
      rcases pr.push_does x hdst hgood hknown hk hitem hsame with hpass | ⟨hheld, hstay, hout, -⟩
      · refine h.passes hcard hdst hkeeps hitem hpass (fun j hj => ?_) ⟨hpos, hhops⟩ (hgone ?_)
        · cases hj
          exact hhas
        · exact (hpass.has k v).mpr (Or.inr ⟨rfl, le_rfl⟩)
      · refine h.stays hdst hkeeps hstay (hgone ((hstay.has k v).mpr hheld)) fun e he => ?_
        obtain ⟨hsrc, hidle⟩ := hout e he
        exact .of_idle hdst (hsrc ▸ hknown) hidle
    | announce k v =>
      obtain ⟨hkeeps, hnote, hout⟩ :=
        pr.announce_does x hdst hgood hknown hk (hp.announce k v hk).1
      rw [hout]
      exact h.notes hdst hkeeps hk hnote
    | request k v =>
      obtain ⟨hitem, hhas⟩ := hp.request k v hk
      obtain ⟨hkeeps, hstay, m, v', hout, hm, hle, hitem', hhas'⟩ :=
        pr.request_does x hdst hgood hknown hk hitem hhas
      rw [hout]
      have hheld : pr.Has (Function.update node p.dst (handle p.dst (node p.dst) p.src p.msg x).1
          p.dst) k v' := by
        rw [Function.update_self]
        exact (hstay.has k v').mpr hhas'
      refine h.stays hdst hkeeps hstay (fun q hq => ?_) fun e he => ?_
      · rw [Multiset.mem_singleton.mp hq]
        exact .of_request hk (.pushed (Multiset.mem_add.mpr (Or.inr (mem_emitted.mpr
          ⟨_, List.mem_singleton_self _, rfl⟩))) rfl hm hle)
      · rw [List.mem_singleton.mp he]
        have hone : 1 ≤ (holders pr.toParts P (Function.update node p.dst
            (handle p.dst (node p.dst) p.src p.msg x).1) k v').card :=
          Finset.card_pos.mpr ⟨p.dst, mem_holders.mpr ⟨hdst, hheld⟩⟩
        exact .of_push hdst hknown hm ⟨hitem', hheld, pr.hops_pos, by omega⟩
    | idle =>
      obtain ⟨hkeeps, hstay, hout⟩ := pr.idle_does x hdst hgood hknown hk
      rw [hout]
      refine h.stays hdst hkeeps hstay (fun q hq => ?_) fun e he => absurd he List.not_mem_nil
      rw [Multiset.mem_singleton.mp hq]
      exact .of_idle hk
    | other => exact absurd hk hp.kind

theorem Inv.acts (h : Inv pr net) (hcard : P.card ≤ hops + 1) (hact : Act act P net net')
    (hrefused : ∀ i ∈ P, pr.refused (net'.node i) = pr.refused (net.node i)) : Inv pr net' := by
  cases hact with
  | @intro node flight i s' out hi hdo =>
    have hkeeps := pr.act_keeps hi (h.good i hi) hdo
    have hsame := hrefused i hi
    change pr.refused (Function.update node i s' i) = pr.refused (node i) at hsame
    rw [Function.update_self] at hsame
    rcases pr.act_does hi (h.good i hi) hdo hsame with hask | ⟨k, v, hitem, hpass⟩
    · exact h.asks hi hkeeps hask
    · rw [← zero_add flight] at h
      refine h.passes hcard hi hkeeps hitem hpass (fun j hj => by cases hj)
        ⟨Nat.le_add_left 1 hops, Nat.le_add_right _ _⟩ fun p hp => ?_
      exact absurd hp (Multiset.notMem_zero p)

/-- The counts only rise. -/
theorem refused_update {node : I → S} {i : I} {s' : S}
    (hle : pr.refused (node i) ≤ pr.refused s') (j : I) :
    pr.refused (node j) ≤ pr.refused (Function.update node i s' j) := by
  by_cases hj : j = i
  · subst hj
    rwa [Function.update_self]
  · rw [Function.update_of_ne hj]

theorem refused_step (hstep : Step handle net net') (i : I) :
    pr.refused (net.node i) ≤ pr.refused (net'.node i) := by
  cases hstep with
  | deliver node rest p x => exact refused_update (pr.refused_handle ..) i

theorem refused_acts (hact : Act act P net net') (i : I) :
    pr.refused (net.node i) ≤ pr.refused (net'.node i) := by
  cases hact with
  | intro node flight hj hdo => exact refused_update (pr.refused_act hdo) i

variable (pr) in
theorem Run.refused {n : ℕ} (hrun : Run handle act P n net net') (i : I) :
    pr.refused (net.node i) ≤ pr.refused (net'.node i) := by
  induction hrun with
  | nil => exact le_rfl
  | deliver _ hstep ih => exact ih.trans (refused_step hstep i)
  | act _ hact ih => exact ih.trans (refused_acts hact i)

/-- Along a run in which nothing is turned away the invariant holds. -/
theorem Inv.run {n : ℕ} (h : Inv pr net) (hcard : P.card ≤ hops + 1)
    (hrun : Run handle act P n net net')
    (hrefused : ∀ i ∈ P, pr.refused (net'.node i) = pr.refused (net.node i)) : Inv pr net' := by
  induction hrun with
  | nil => exact h
  | deliver hrun hstep ih =>
    have hmid := fun i hi => le_antisymm ((refused_step hstep i).trans (hrefused i hi).le)
      (hrun.refused pr i)
    exact (ih h hmid).step hcard hstep fun i hi => (hrefused i hi).trans (hmid i hi).symm
  | act hrun hact ih =>
    have hmid := fun i hi => le_antisymm ((refused_acts hact i).trans (hrefused i hi).le)
      (hrun.refused pr i)
    exact (ih h hmid).acts hcard hact fun i hi => (hrefused i hi).trans (hmid i hi).symm

omit [DecidableEq I] in
/-- When nothing is in flight and nobody waits, a neighbour holds what a party holds. -/
theorem Inv.held (h : Inv pr net) (hquiet : net.flight = 0)
    (hidle : ∀ i ∈ P, ∀ k v a, ¬ pr.Waits (net.node i) k v a) {i j : I} (hi : i ∈ P)
    (hij : nbr i j) {k : K} {v : V} (hhas : pr.Has (net.node i) k v) :
    pr.Has (net.node j) k v := by
  have hnone : ∀ p, p ∉ net.flight := fun p => by
    rw [hquiet]
    exact Multiset.notMem_zero p
  rcases h.passed i hi j hij k v hhas with hdue | ⟨p, hp, -⟩
  · cases hdue with
    | has h => exact h
    | pushed hp _ _ _ => exact absurd hp (hnone _)
    | waits hw _ => exact absurd hw (hidle j (pr.inside hi hij) _ _ _)
    | asked hp _ _ _ => exact absurd hp (hnone _)
  · exact absurd hp (hnone p)

omit [DecidableEq I] in
/-- And so does every party that neighbours lead to. -/
theorem Inv.agree (h : Inv pr net) (hquiet : net.flight = 0)
    (hidle : ∀ i ∈ P, ∀ k v a, ¬ pr.Waits (net.node i) k v a) {i j : I} (hi : i ∈ P)
    (hij : Relation.ReflTransGen nbr i j) (k : K) (v : V) :
    pr.Has (net.node i) k v ↔ pr.Has (net.node j) k v := by
  suffices hall : j ∈ P ∧ (pr.Has (net.node i) k v ↔ pr.Has (net.node j) k v) from hall.2
  induction hij with
  | refl => exact ⟨hi, Iff.rfl⟩
  | tail _ hnbr ih =>
    refine ⟨pr.inside ih.1 hnbr, ih.2.trans ⟨h.held hquiet hidle ih.1 hnbr, ?_⟩⟩
    exact h.held hquiet hidle (pr.inside ih.1 hnbr) (pr.symm ih.1 hnbr)

/-! ## Every delivery is paid for -/

/-- What a party may still cost. -/
def credit (pt : Parts I S M K V) (fanout : ℕ) (s : S) : ℕ :=
  5 * fanout * pt.left s + 4 * pt.pending s

/-- What is left to pay for the deliveries to come. -/
def price (pt : Parts I S M K V) (fanout : ℕ) (P : Finset I) (net : Net I S M) : ℕ :=
  ∑ i ∈ P, credit pt fanout (net.node i) + (net.flight.map fun p => (pt.kind p.msg).weight).sum

/-- The price of what a party sends. -/
def outPrice (pt : Parts I S M K V) (out : List (I × M)) : ℕ :=
  (out.map fun e => (pt.kind e.2).weight).sum

section Price

variable {pt : Parts I S M K V} {node : I → S} {rest : Multiset (Packet I M)} {i : I} {s' : S}
  {out : List (I × M)}

omit [LinearOrder V] in
theorem sum_moved (f : S → ℕ) (node : I → S) (s' : S) (hi : i ∈ P) :
    ∑ j ∈ P, f (Function.update node i s' j) + f (node i) = ∑ j ∈ P, f (node j) + f s' := by
  have hrest : ∑ j ∈ P.erase i, f (Function.update node i s' j) = ∑ j ∈ P.erase i, f (node j) :=
    Finset.sum_congr rfl fun j hj => by rw [Function.update_of_ne (Finset.ne_of_mem_erase hj)]
  rw [← Finset.add_sum_erase P _ hi, ← Finset.add_sum_erase P (fun j => f (node j)) hi, hrest,
    Function.update_self]
  omega

omit [LinearOrder V] in
/-- A move pays for what it sends out of what the party may still cost. -/
theorem price_moved (pt : Parts I S M K V) (fanout : ℕ) (node : I → S)
    (rest : Multiset (Packet I M)) (s' : S) (out : List (I × M)) (hi : i ∈ P) :
    price pt fanout P (moved node rest i s' out) + credit pt fanout (node i) =
      price pt fanout P ⟨node, rest⟩ + credit pt fanout s' + outPrice pt out := by
  have hsum := sum_moved (credit pt fanout) node s' hi
  unfold price outPrice moved emitted
  rw [Multiset.map_add, Multiset.sum_add, Multiset.map_coe, Multiset.sum_coe, List.map_map]
  dsimp only [Function.comp_def]
  omega

omit [LinearOrder V] [DecidableEq I] in
theorem price_cons (p : Packet I M) :
    price pt fanout P ⟨node, p ::ₘ rest⟩ =
      price pt fanout P ⟨node, rest⟩ + (pt.kind p.msg).weight := by
  unfold price
  rw [Multiset.map_cons, Multiset.sum_cons]
  dsimp only
  omega

omit [LinearOrder V] [DecidableEq I] in
theorem outPrice_le {w : ℕ} (h : ∀ e ∈ out, (pt.kind e.2).weight ≤ w) :
    outPrice pt out ≤ out.length * w := by
  unfold outPrice
  refine (List.sum_le_card_nsmul _ w fun x hx => ?_).trans ?_
  · obtain ⟨e, he, rfl⟩ := List.mem_map.mp hx
    exact h e he
  · rw [List.length_map, smul_eq_mul]

omit [LinearOrder V] [DecidableEq I] in
theorem Parts.Stays.credit_le {s : S} (h : pt.Stays s s') (fanout : ℕ) :
    credit pt fanout s' ≤ credit pt fanout s := by
  unfold credit
  have hleft := Nat.mul_le_mul_left (5 * fanout) h.left
  have hpending := h.pending
  omega

omit [DecidableEq I] in
/-- A version taken pays for telling the neighbours. -/
theorem Parts.Passes.credit_le {s : S} {src : Option I} {h : ℕ} {k : K} {v : V}
    (hpass : pt.Passes nbr fanout i src h k v s s' out) :
    credit pt fanout s' + outPrice pt out ≤ credit pt fanout s := by
  have hout : outPrice pt out ≤ out.length * 5 := outPrice_le fun e he => by
    rcases (hpass.sends e he).2 with hk | ⟨-, hk⟩
    · rw [hk]
      exact le_rfl
    · rw [hk]
      exact Nat.le_of_ble_eq_true rfl
  unfold credit
  have hleft := Nat.mul_le_mul_left (5 * fanout) hpass.left
  have hpending := hpass.pending
  have hlen := hpass.fanout
  rw [Nat.mul_succ] at hleft
  omega

omit [LinearOrder V] [DecidableEq I] in
theorem Parts.Asks.credit_le {s : S} (h : pt.Asks s s' out) :
    credit pt fanout s' + outPrice pt out ≤ credit pt fanout s := by
  have hout : outPrice pt out ≤ out.length * 3 := outPrice_le fun e he => by
    obtain ⟨k, v, hk, -⟩ := h.sends e he
    rw [hk]
    exact le_rfl
  unfold credit
  have hleft := Nat.mul_le_mul_left (5 * fanout) h.left
  have hpending := h.pending
  omega

omit [LinearOrder V] [DecidableEq I] in
theorem Parts.Notes.credit_le {s : S} {src : I} {k : K} {v : V} (h : pt.Notes src k v s s')
    (fanout : ℕ) :
    credit pt fanout s' ≤ credit pt fanout s + 4 := by
  unfold credit
  have hleft := Nat.mul_le_mul_left (5 * fanout) h.left
  have hpending := h.pending
  omega

end Price

theorem Inv.price_step (h : Inv pr net) (hstep : Step handle net net')
    (hrefused : ∀ i ∈ P, pr.refused (net'.node i) = pr.refused (net.node i)) :
    price pr.toParts fanout P net' < price pr.toParts fanout P net := by
  cases hstep with
  | deliver node rest p x =>
    have hp := h.flies p (Multiset.mem_cons_self p rest)
    have hdst : p.dst ∈ P := pr.inside hp.src hp.known
    have hgood : pr.Good p.dst (node p.dst) := h.good p.dst hdst
    have hknown := pr.symm hp.src hp.known
    have hsame := hrefused p.dst hdst
    change pr.refused (Function.update node p.dst _ p.dst) = pr.refused (node p.dst) at hsame
    rw [Function.update_self] at hsame
    have hprice := price_moved pr.toParts fanout node rest
      (handle p.dst (node p.dst) p.src p.msg x).1 (handle p.dst (node p.dst) p.src p.msg x).2 hdst
    unfold moved at hprice
    rw [price_cons]
    cases hk : pr.kind p.msg with
    | push k v n =>
      have hitem := (hp.push k v n hk).1
      rcases pr.push_does x hdst hgood hknown hk hitem hsame with hpass | ⟨-, hstay, hout, hlen⟩
      · have hcredit := hpass.credit_le
        simp only [Kind.weight]
        omega
      · have hcredit := hstay.credit_le fanout
        have hidle : outPrice pr.toParts (handle p.dst (node p.dst) p.src p.msg x).2 ≤ _ * 1 :=
          outPrice_le fun e he => by
            rw [(hout e he).2]
            exact le_rfl
        simp only [Kind.weight]
        omega
    | announce k v =>
      obtain ⟨-, hnote, hout⟩ := pr.announce_does x hdst hgood hknown hk (hp.announce k v hk).1
      have hcredit := hnote.credit_le fanout
      rw [hout] at hprice ⊢
      simp only [Kind.weight]
      change _ = _ + 0 at hprice
      omega
    | request k v =>
      obtain ⟨hitem, hhas⟩ := hp.request k v hk
      obtain ⟨-, hstay, m, v', hout, hm, -⟩ :=
        pr.request_does x hdst hgood hknown hk hitem hhas
      have hcredit := hstay.credit_le fanout
      have hanswer : outPrice pr.toParts (handle p.dst (node p.dst) p.src p.msg x).2 = 2 := by
        rw [hout]
        simp [outPrice, hm, Kind.weight]
      simp only [Kind.weight]
      omega
    | idle =>
      obtain ⟨-, hstay, hout⟩ := pr.idle_does x hdst hgood hknown hk
      have hcredit := hstay.credit_le fanout
      rw [hout] at hprice ⊢
      simp only [Kind.weight]
      change _ = _ + 0 at hprice
      omega
    | other => exact absurd hk hp.kind

theorem Inv.price_acts (h : Inv pr net) (hact : Act act P net net')
    (hrefused : ∀ i ∈ P, pr.refused (net'.node i) = pr.refused (net.node i)) :
    price pr.toParts fanout P net' ≤ price pr.toParts fanout P net := by
  cases hact with
  | @intro node flight i s' out hi hdo =>
    have hsame := hrefused i hi
    change pr.refused (Function.update node i s' i) = pr.refused (node i) at hsame
    rw [Function.update_self] at hsame
    have hprice := price_moved pr.toParts fanout node flight s' out hi
    unfold moved at hprice
    have hcredit : credit pr.toParts fanout s' + outPrice pr.toParts out ≤
        credit pr.toParts fanout (node i) := by
      have hgood : pr.Good i (node i) := h.good i hi
      rcases pr.act_does hi hgood hdo hsame with hask | ⟨k, v, -, hpass⟩
      · exact hask.credit_le
      · exact hpass.credit_le
    omega

/-- A run has no more deliveries than were paid for at its start. -/
theorem Inv.deliveries_le {n : ℕ} (h : Inv pr net) (hcard : P.card ≤ hops + 1)
    (hrun : Run handle act P n net net')
    (hrefused : ∀ i ∈ P, pr.refused (net'.node i) = pr.refused (net.node i)) :
    n + price pr.toParts fanout P net' ≤ price pr.toParts fanout P net := by
  induction hrun with
  | nil => omega
  | deliver hrun hstep ih =>
    have hmid := fun i hi => le_antisymm ((refused_step hstep i).trans (hrefused i hi).le)
      (hrun.refused pr i)
    have hpaid := (h.run hcard hrun hmid).price_step hstep fun i hi =>
      (hrefused i hi).trans (hmid i hi).symm
    have hrest := ih h hmid
    omega
  | act hrun hact ih =>
    have hmid := fun i hi => le_antisymm ((refused_acts hact i).trans (hrefused i hi).le)
      (hrun.refused pr i)
    have hpaid := (h.run hcard hrun hmid).price_acts hact fun i hi =>
      (hrefused i hi).trans (hmid i hi).symm
    exact (Nat.add_le_add_left hpaid _).trans (ih h hmid)

end LazyFlood
