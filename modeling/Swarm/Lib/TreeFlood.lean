import Swarm.Lib.Network

/-!
# TreeFlood along edges that may be cut

Parties push an item along their edges, each to all of them when it first gets the item, with one
hop less than it came with. A party that gets the item again tells the sender to cut the edge.

`Protocol` states this as a contract on a message handler. `Spread` holds along every order of
delivery. Parties that got the item are on levels, one hop apart, so a party that got it too late
to push on stands at the end of a line of as many parties as an item has hops. So when nothing is
in flight, the item is everywhere the edges lead, or at more parties than it has hops
(`Spread.reached`). An edge that brought the item to a new party is never cut, so the edges that
are left still lead to every party that has it (`Spread.joined`).
-/

namespace TreeFlood

open Network

/-- What a message is to the flood. -/
inductive Kind where
  | push (hops : ℕ)
  | cut
  | idle
  | other
  deriving DecidableEq

def Kind.isPush : Kind → Bool
  | .push _ => true
  | _ => false

theorem Kind.isPush_iff {k : Kind} : k.isPush = true ↔ ∃ h, k = .push h := by
  cases k <;> simp [isPush]

variable {I S M X : Type} [DecidableEq I]

/-- What a party does with an item it takes: it keeps its edges, may add the sender, and pushes the
item on once along every edge but the one to the sender, if there are hops left. -/
structure Taken (kind : M → Kind) (edges : S → List I) (src : I) (h : ℕ) (s s' : S)
    (out : List (I × M)) : Prop where
  keeps : ∀ j ∈ edges s, j ∈ edges s'
  adds : ∀ j ∈ edges s', j ∈ edges s ∨ j = src
  sends : ∀ e ∈ out, kind e.2 = .idle ∨ kind e.2 = .push (h - 1) ∧ 1 < h ∧ e.1 ∈ edges s
  pushes : 1 < h → ∀ j ∈ edges s, j ≠ src → ∃ m, (j, m) ∈ out ∧ kind m = .push (h - 1)
  once : ∀ j, out.countP (fun e => decide (e.1 = j) && (kind e.2).isPush) ≤ 1

/-- A handler that floods an item. -/
structure Protocol (handle : Handler I S M X) where
  kind : M → Kind
  edges : S → List I
  /-- The party has the item. -/
  Has : I → S → Prop
  /-- The party would take the item. -/
  Fresh : I → S → Prop
  fresh_not_has : ∀ {i s}, Fresh i s → ¬ Has i s
  push_fresh : ∀ {i s m h} src x, Fresh i s → kind m = .push h →
    Has i (handle i s src m x).1 ∧
      Taken kind edges src h s (handle i s src m x).1 (handle i s src m x).2
  push_has : ∀ {i s m h} src x, Has i s → kind m = .push h →
    Has i (handle i s src m x).1 ∧ edges (handle i s src m x).1 = edges s ∧
      ∀ e ∈ (handle i s src m x).2, e.1 = src ∧ kind e.2 = .cut
  cut_has : ∀ {i s m} src x, Has i s → kind m = .cut →
    Has i (handle i s src m x).1 ∧
      ∀ j, j ∈ edges (handle i s src m x).1 ↔ j ∈ edges s ∧ j ≠ src
  cut_sends : ∀ {i s m} src x, kind m = .cut → (handle i s src m x).2 = []
  idle_keeps : ∀ {i s m} src x, kind m = .idle →
    (Has i (handle i s src m x).1 ↔ Has i s) ∧ (Fresh i s → Fresh i (handle i s src m x).1) ∧
      edges (handle i s src m x).1 = edges s
  idle_sends : ∀ {i s m} src x, kind m = .idle → (handle i s src m x).2 = []

variable {handle : Handler I S M X}

namespace Protocol

/-- The packet pushes the item from `a` to `b`. -/
def pushes (pr : Protocol handle) (a b : I) (p : Packet I M) : Bool :=
  decide (p.src = a) && decide (p.dst = b) && (pr.kind p.msg).isPush

theorem pushes_iff {pr : Protocol handle} {a b : I} {p : Packet I M} :
    pr.pushes a b p = true ↔ p.src = a ∧ p.dst = b ∧ ∃ h, pr.kind p.msg = .push h := by
  simp [pushes, Kind.isPush_iff, and_assoc]

end Protocol

/-- What a packet in flight says about its ends, for an item that starts with `hops` hops. -/
structure Flies (pr : Protocol handle) (P : Finset I) (hops : ℕ) (depth : I → ℕ) (node : I → S)
    (p : Packet I M) : Prop where
  kind : pr.kind p.msg ≠ .other
  push : ∀ h, pr.kind p.msg = .push h → p.src ∈ P ∧ p.dst ∈ P ∧ pr.Has p.src (node p.src) ∧
    h + depth p.src = hops ∧ 1 ≤ h ∧
    (¬ pr.Has p.dst (node p.dst) → p.dst ∈ pr.edges (node p.src))
  cut : pr.kind p.msg = .cut → p.dst ∈ P ∧ pr.Has p.dst (node p.dst) ∧ pr.Has p.src (node p.src)

theorem Flies.of_idle {pr : Protocol handle} {P : Finset I} {hops : ℕ} {depth : I → ℕ}
    {node : I → S} {p : Packet I M} (h : pr.kind p.msg = .idle) :
    Flies pr P hops depth node p := by
  refine ⟨?_, fun k hk => ?_, fun hcut => ?_⟩
  · rw [h]
    exact Kind.noConfusion
  · rw [h] at hk
    cases hk
  · rw [h] at hcut
    cases hcut

theorem Flies.of_push {pr : Protocol handle} {P : Finset I} {hops : ℕ} {depth : I → ℕ}
    {node : I → S} {p : Packet I M} {k : ℕ} (h : pr.kind p.msg = .push k)
    (hpush : p.src ∈ P ∧ p.dst ∈ P ∧ pr.Has p.src (node p.src) ∧ k + depth p.src = hops ∧ 1 ≤ k ∧
      (¬ pr.Has p.dst (node p.dst) → p.dst ∈ pr.edges (node p.src))) :
    Flies pr P hops depth node p := by
  refine ⟨?_, fun k' hk => ?_, fun hcut => ?_⟩
  · rw [h]
    exact Kind.noConfusion
  · rw [h] at hk
    cases hk
    exact hpush
  · rw [h] at hcut
    cases hcut

/-- Where a party other than the origin got the item from. -/
structure Level (pr : Protocol handle) (P : Finset I) (depth : I → ℕ) (parent : I → I)
    (net : Net I S M) (i : I) : Prop where
  parent_mem : parent i ∈ P
  parent_has : pr.Has (parent i) (net.node (parent i))
  depth_eq : depth i = depth (parent i) + 1
  edge : i ∈ pr.edges (net.node (parent i))
  pushed : ∀ p ∈ net.flight, ¬ pr.pushes (parent i) i p = true
  uncut : ∀ p ∈ net.flight, p.src = i → p.dst = parent i → pr.kind p.msg ≠ .cut

/-- The item spreads among `P` from `origin`. `start` are the edges before the flood, `depth` and
`parent` say where each party first got the item from. -/
structure Spread (pr : Protocol handle) (P : Finset I) (origin : I) (hops : ℕ) (start : I → List I)
    (depth : I → ℕ) (parent : I → I) (net : Net I S M) : Prop where
  origin_mem : origin ∈ P
  origin_has : pr.Has origin (net.node origin)
  origin_depth : depth origin = 0
  inside : ∀ i ∈ P, ∀ j ∈ pr.edges (net.node i), j ∈ P
  waits : ∀ i ∈ P, pr.Has i (net.node i) ∨
    pr.Fresh i (net.node i) ∧ ∀ j ∈ start i, j ∈ pr.edges (net.node i)
  flies : ∀ p ∈ net.flight, Flies pr P hops depth net.node p
  level : ∀ i ∈ P, pr.Has i (net.node i) → i ≠ origin → Level pr P depth parent net i
  passed : ∀ i ∈ P, pr.Has i (net.node i) → depth i < hops → ∀ j ∈ start i,
    pr.Has j (net.node j) ∨ ∃ p ∈ net.flight, pr.pushes i j p = true
  once : ∀ i j, net.flight.countP (fun p => pr.pushes i j p = true) ≤ 1

namespace Spread

variable {pr : Protocol handle} {P : Finset I} {origin : I} {hops : ℕ} {start : I → List I}
  {depth : I → ℕ} {parent : I → I} {node node' : I → S} {rest new : Multiset (Packet I M)}
  {p : Packet I M}

/-! ## One delivery -/

/-- A delivery that brings the item to no new party. It may cut the edge it asks to cut, or answer
a push with a cut. -/
theorem settle (h : Spread pr P origin hops start depth parent ⟨node, p ::ₘ rest⟩)
    (hhas : ∀ i, pr.Has i (node' i) ↔ pr.Has i (node i))
    (hfresh : ∀ i, pr.Fresh i (node i) →
      pr.Fresh i (node' i) ∧ pr.edges (node' i) = pr.edges (node i))
    (hedges : ∀ i, ∀ j ∈ pr.edges (node' i), j ∈ pr.edges (node i))
    (hlost : ∀ i, ∀ j ∈ pr.edges (node i), j ∈ pr.edges (node' i) ∨
      pr.kind p.msg = .cut ∧ p.src = j ∧ p.dst = i)
    (hheld : ∀ k, pr.kind p.msg = .push k → pr.Has p.dst (node p.dst))
    (hnew : ∀ q ∈ new, pr.kind q.msg = .cut ∧ q.src = p.dst ∧ q.dst = p.src ∧
      ∃ k, pr.kind p.msg = .push k) :
    Spread pr P origin hops start depth parent ⟨node', rest + new⟩ := by
  have hp := h.flies p (Multiset.mem_cons_self p rest)
  refine
    { origin_mem := h.origin_mem
      origin_has := (hhas origin).mpr h.origin_has
      origin_depth := h.origin_depth
      inside := fun i hi j hj => h.inside i hi j (hedges i j hj)
      waits := fun i hi => ?_
      flies := fun q hq => ?_
      level := fun i hi hit horigin => ?_
      passed := fun i hi hit hdepth j hj => ?_
      once := fun i j => ?_ }
  · rcases h.waits i hi with hit | ⟨hit, hstart⟩
    · exact Or.inl ((hhas i).mpr hit)
    · obtain ⟨hit', heq⟩ := hfresh i hit
      refine Or.inr ⟨hit', fun j hj => ?_⟩
      rw [heq]
      exact hstart j hj
  · rcases Multiset.mem_add.mp hq with hold | hanswer
    · have hflies := h.flies q (Multiset.mem_cons_of_mem hold)
      refine ⟨hflies.kind, fun k hk => ?_, fun hcut => ?_⟩
      · obtain ⟨hsrc, hdst, hit, hhops, hpos, hedge⟩ := hflies.push k hk
        refine ⟨hsrc, hdst, (hhas _).mpr hit, hhops, hpos, fun hno => ?_⟩
        have hno' : ¬ pr.Has q.dst (node q.dst) := fun hit' => hno ((hhas _).mpr hit')
        rcases hlost _ _ (hedge hno') with hkept | ⟨hcut, hfrom, -⟩
        · exact hkept
        · -- who asks for a cut has the item
          exact absurd (hfrom ▸ (hp.cut hcut).2.2) hno'
      · obtain ⟨hdst, hit, hfrom⟩ := hflies.cut hcut
        exact ⟨hdst, (hhas _).mpr hit, (hhas _).mpr hfrom⟩
    · obtain ⟨hcut, hsrc, hdst, k, hk⟩ := hnew q hanswer
      obtain ⟨hmem, -, hit, -⟩ := hp.push k hk
      refine ⟨by rw [hcut]; exact Kind.noConfusion, fun k' hk' => ?_, fun _ => ?_⟩
      · rw [hcut] at hk'
        cases hk'
      · rw [hdst, hsrc]
        exact ⟨hmem, (hhas _).mpr hit, (hhas _).mpr (hheld k hk)⟩
  · have hlevel := h.level i hi ((hhas i).mp hit) horigin
    refine ⟨hlevel.parent_mem, (hhas _).mpr hlevel.parent_has, hlevel.depth_eq, ?_, ?_, ?_⟩
    · rcases hlost _ _ hlevel.edge with hkept | ⟨hcut, hsrc, hdst⟩
      · exact hkept
      · exact absurd hcut (hlevel.uncut p (Multiset.mem_cons_self p rest) hsrc hdst)
    · intro q hq hpush
      rcases Multiset.mem_add.mp hq with hold | hanswer
      · exact hlevel.pushed q (Multiset.mem_cons_of_mem hold) hpush
      · obtain ⟨-, -, k, hk⟩ := Protocol.pushes_iff.mp hpush
        rw [(hnew q hanswer).1] at hk
        cases hk
    · intro q hq hsrc hdst
      rcases Multiset.mem_add.mp hq with hold | hanswer
      · exact hlevel.uncut q (Multiset.mem_cons_of_mem hold) hsrc hdst
      · -- the push that brought the item is no longer in flight, so it is not the one answered
        obtain ⟨-, hfrom, hto, hk⟩ := hnew q hanswer
        have hpush : pr.pushes (parent i) i p = true :=
          Protocol.pushes_iff.mpr ⟨hto.symm.trans hdst, hfrom.symm.trans hsrc, hk⟩
        exact absurd hpush (hlevel.pushed p (Multiset.mem_cons_self p rest))
  · rcases h.passed i hi ((hhas i).mp hit) hdepth j hj with hgot | ⟨q, hq, hpush⟩
    · exact Or.inl ((hhas j).mpr hgot)
    · rcases Multiset.mem_cons.mp hq with rfl | hold
      · obtain ⟨-, hdst, k, hk⟩ := Protocol.pushes_iff.mp hpush
        exact Or.inl ((hhas j).mpr (hdst ▸ hheld k hk))
      · exact Or.inr ⟨q, Multiset.mem_add.mpr (Or.inl hold), hpush⟩
  · have hzero : new.countP (fun q => pr.pushes i j q = true) = 0 :=
      Multiset.countP_eq_zero.mpr fun q hq hpush => by
        obtain ⟨-, -, k, hk⟩ := Protocol.pushes_iff.mp hpush
        rw [(hnew q hq).1] at hk
        cases hk
    show (rest + new).countP _ ≤ 1
    rw [Multiset.countP_add, hzero, Nat.add_zero]
    exact (Multiset.countP_le_of_le _ (Multiset.le_cons_self rest p)).trans (h.once i j)

/-- What is asked of the party that gets the message. -/
theorem settle_update (h : Spread pr P origin hops start depth parent ⟨node, p ::ₘ rest⟩) {s : S}
    {out : List (I × M)} (hhas : pr.Has p.dst s ↔ pr.Has p.dst (node p.dst))
    (hfresh : pr.Fresh p.dst (node p.dst) →
      pr.Fresh p.dst s ∧ pr.edges s = pr.edges (node p.dst))
    (hedges : ∀ j ∈ pr.edges s, j ∈ pr.edges (node p.dst))
    (hlost : ∀ j ∈ pr.edges (node p.dst), j ∈ pr.edges s ∨ pr.kind p.msg = .cut ∧ p.src = j)
    (hheld : ∀ k, pr.kind p.msg = .push k → pr.Has p.dst (node p.dst))
    (hout : ∀ e ∈ out, pr.kind e.2 = .cut ∧ e.1 = p.src ∧ ∃ k, pr.kind p.msg = .push k) :
    Spread pr P origin hops start depth parent
      ⟨Function.update node p.dst s, rest + emitted p.dst out⟩ := by
  have hparty {Q : I → S → Prop} (hdst : Q p.dst s) (hother : ∀ i, Q i (node i)) :
      ∀ i, Q i (Function.update node p.dst s i) :=
    (Function.forall_update_iff node Q).mpr ⟨hdst, fun i _ => hother i⟩
  refine h.settle
    (hparty (Q := fun i t => pr.Has i t ↔ pr.Has i (node i)) hhas fun _ => Iff.rfl)
    (hparty (Q := fun i t => pr.Fresh i (node i) →
      pr.Fresh i t ∧ pr.edges t = pr.edges (node i)) hfresh fun _ hit => ⟨hit, rfl⟩)
    (hparty (Q := fun i t => ∀ j ∈ pr.edges t, j ∈ pr.edges (node i)) hedges fun _ _ hj => hj)
    (hparty (Q := fun i t => ∀ j ∈ pr.edges (node i), j ∈ pr.edges t ∨
      pr.kind p.msg = .cut ∧ p.src = j ∧ p.dst = i) ?_ fun _ _ hj => Or.inl hj)
    hheld fun q hq => ?_
  · intro j hj
    exact (hlost j hj).imp_right fun ⟨hcut, hsrc⟩ => ⟨hcut, hsrc, rfl⟩
  · obtain ⟨e, he, rfl⟩ := mem_emitted.mp hq
    obtain ⟨hcut, hsrc, hpush⟩ := hout e he
    exact ⟨hcut, rfl, hsrc, hpush⟩

/-- The pushes among what a party sends. -/
theorem countP_emitted (pr : Protocol handle) (i a b : I) (out : List (I × M)) :
    (emitted i out).countP (fun q => pr.pushes a b q = true) =
      if i = a then out.countP (fun e => decide (e.1 = b) && (pr.kind e.2).isPush) else 0 := by
  unfold emitted
  rw [Multiset.coe_countP, List.countP_map]
  split_ifs with hi
  · subst hi
    congr 1
    funext e
    simp [Protocol.pushes]
  · rw [List.countP_eq_zero]
    intro e _ hpush
    exact hi (Protocol.pushes_iff.mp (by simpa using hpush)).1

section Take

variable {k : ℕ} {s : S} {out : List (I × M)}
  (h : Spread pr P origin hops start depth parent ⟨node, p ::ₘ rest⟩)
  (hpush : pr.kind p.msg = .push k) (hfresh : pr.Fresh p.dst (node p.dst)) (hhas : pr.Has p.dst s)
  (htaken : Taken pr.kind pr.edges p.src k (node p.dst) s out)

include hfresh in
/-- Parties that have the item are others than the one that takes it. -/
theorem ne_taker {i : I} (hi : pr.Has i (node i)) : i ≠ p.dst :=
  fun heq => pr.fresh_not_has hfresh (heq ▸ hi)

include hfresh in
theorem has_take {i : I} (hi : pr.Has i (node i)) : pr.Has i (Function.update node p.dst s i) := by
  rw [Function.update_of_ne (ne_taker hfresh hi)]
  exact hi

include hfresh in
theorem depth_take {i : I} (hi : pr.Has i (node i)) (d : ℕ) :
    Function.update depth p.dst d i = depth i :=
  Function.update_of_ne (ne_taker hfresh hi) ..

include htaken in
theorem edge_take {i j : I} (hj : j ∈ pr.edges (node i)) :
    j ∈ pr.edges (Function.update node p.dst s i) := by
  by_cases hi : i = p.dst
  · rw [hi, Function.update_self]
    exact htaken.keeps j (hi ▸ hj)
  · rw [Function.update_of_ne hi]
    exact hj

include h hfresh in
/-- Nobody has heard from the party yet. -/
theorem unheard_taker {q : Packet I M} (hq : q ∈ p ::ₘ rest) (hsrc : q.src = p.dst) :
    pr.kind q.msg = .idle := by
  have hnot := pr.fresh_not_has hfresh
  have hflies := h.flies q hq
  cases hk : pr.kind q.msg with
  | push k' => exact absurd (hsrc ▸ (hflies.push k' hk).2.2.1) hnot
  | cut => exact absurd (hsrc ▸ (hflies.cut hk).2.2) hnot
  | idle => rfl
  | other => exact absurd hk hflies.kind

include h hpush hfresh hhas htaken in
theorem flies_take {q : Packet I M} (hq : q ∈ rest + emitted p.dst out) :
    Flies pr P hops (Function.update depth p.dst (depth p.src + 1)) (Function.update node p.dst s)
      q := by
  obtain ⟨-, hdst, -, hhops, -, -⟩ := (h.flies p (Multiset.mem_cons_self p rest)).push k hpush
  rcases Multiset.mem_add.mp hq with hold | hnew
  · have hflies := h.flies q (Multiset.mem_cons_of_mem hold)
    refine ⟨hflies.kind, fun k' hk' => ?_, fun hcut => ?_⟩
    · obtain ⟨hqsrc, hqdst, hit, hqhops, hqpos, hqedge⟩ := hflies.push k' hk'
      refine ⟨hqsrc, hqdst, has_take hfresh hit, ?_, hqpos, fun hno => ?_⟩
      · rw [depth_take hfresh hit]
        exact hqhops
      · exact edge_take htaken (hqedge fun hit' => hno (has_take hfresh hit'))
    · obtain ⟨hqdst, hit, hfrom⟩ := hflies.cut hcut
      exact ⟨hqdst, has_take hfresh hit, has_take hfresh hfrom⟩
  · obtain ⟨e, he, rfl⟩ := mem_emitted.mp hnew
    rcases htaken.sends e he with hidle | ⟨hforward, hlt, hmem⟩
    · exact .of_idle hidle
    · refine .of_push hforward ?_
      dsimp only
      rw [Function.update_self, Function.update_self]
      refine ⟨hdst, h.inside _ hdst _ hmem, hhas, by omega, by omega, fun _ => ?_⟩
      exact htaken.keeps _ hmem

include h hpush hfresh htaken in
/-- The new party is one level below the sender, and the others are where they were. -/
theorem level_take {i : I} (hi : i ∈ P) (hit : pr.Has i (Function.update node p.dst s i))
    (horigin : i ≠ origin) :
    Level pr P (Function.update depth p.dst (depth p.src + 1)) (Function.update parent p.dst p.src)
      ⟨Function.update node p.dst s, rest + emitted p.dst out⟩ i := by
  obtain ⟨hsrc, -, hsender, -, -, hedge⟩ :=
    (h.flies p (Multiset.mem_cons_self p rest)).push k hpush
  have hself := ne_taker hfresh hsender
  by_cases heq : i = p.dst
  · subst heq
    refine
      { parent_mem := ?_, parent_has := ?_, depth_eq := ?_, edge := ?_, pushed := fun q hq hqp => ?_
        uncut := fun q hq hqsrc hqdst => ?_ }
    · rwa [Function.update_self]
    · rw [Function.update_self]
      exact has_take hfresh hsender
    · rw [Function.update_self, Function.update_self, depth_take hfresh hsender]
    · rw [Function.update_self]
      exact edge_take htaken (hedge (pr.fresh_not_has hfresh))
    · -- at most one push along the edge was in flight, and it was this one
      rw [Function.update_self] at hqp
      rcases Multiset.mem_add.mp hq with hold | hnew
      · have hone := h.once p.src p.dst
        have hthis : pr.pushes p.src p.dst p = true := Protocol.pushes_iff.mpr ⟨rfl, rfl, k, hpush⟩
        have hrest : 0 < rest.countP (fun q => pr.pushes p.src p.dst q = true) :=
          Multiset.countP_pos.mpr ⟨q, hold, hqp⟩
        change (p ::ₘ rest).countP _ ≤ 1 at hone
        rw [Multiset.countP_cons_of_pos (p := fun q => pr.pushes p.src p.dst q = true) _ hthis]
          at hone
        omega
      · obtain ⟨e, -, rfl⟩ := mem_emitted.mp hnew
        exact hself (Protocol.pushes_iff.mp hqp).1.symm
    · rcases Multiset.mem_add.mp hq with hold | hnew
      · rw [unheard_taker h hfresh (Multiset.mem_cons_of_mem hold) hqsrc]
        exact Kind.noConfusion
      · obtain ⟨e, he, rfl⟩ := mem_emitted.mp hnew
        rcases htaken.sends e he with hidle | ⟨hforward, -⟩
        · rw [hidle]
          exact Kind.noConfusion
        · rw [hforward]
          exact Kind.noConfusion
  · rw [Function.update_of_ne heq] at hit
    have hlevel := h.level i hi hit horigin
    have hparent := ne_taker hfresh hlevel.parent_has
    have hsame : Function.update parent p.dst p.src i = parent i := Function.update_of_ne heq ..
    refine
      { parent_mem := ?_, parent_has := ?_, depth_eq := ?_, edge := ?_, pushed := fun q hq hqp => ?_
        uncut := fun q hq hqsrc hqdst => ?_ }
    · rw [hsame]
      exact hlevel.parent_mem
    · rw [hsame]
      exact has_take hfresh hlevel.parent_has
    · rw [hsame, depth_take hfresh hit, depth_take hfresh hlevel.parent_has]
      exact hlevel.depth_eq
    · rw [hsame]
      exact edge_take htaken hlevel.edge
    · rw [hsame] at hqp
      rcases Multiset.mem_add.mp hq with hold | hnew
      · exact hlevel.pushed q (Multiset.mem_cons_of_mem hold) hqp
      · obtain ⟨e, -, rfl⟩ := mem_emitted.mp hnew
        exact hparent (Protocol.pushes_iff.mp hqp).1.symm
    · rw [hsame] at hqdst
      rcases Multiset.mem_add.mp hq with hold | hnew
      · exact hlevel.uncut q (Multiset.mem_cons_of_mem hold) hqsrc hqdst
      · obtain ⟨e, -, rfl⟩ := mem_emitted.mp hnew
        exact absurd hqsrc (Ne.symm heq)

include h hpush hfresh hhas htaken in
theorem passed_take {i : I} (hi : i ∈ P) (hit : pr.Has i (Function.update node p.dst s i))
    (hdepth : Function.update depth p.dst (depth p.src + 1) i < hops) {j : I} (hj : j ∈ start i) :
    pr.Has j (Function.update node p.dst s j) ∨
      ∃ q ∈ rest + emitted p.dst out, pr.pushes i j q = true := by
  obtain ⟨-, hdst, hsender, hhops, -⟩ := (h.flies p (Multiset.mem_cons_self p rest)).push k hpush
  by_cases heq : i = p.dst
  · subst heq
    rw [Function.update_self] at hdepth
    have hmem : j ∈ pr.edges (node p.dst) := by
      rcases h.waits p.dst hdst with hgot | ⟨-, hstart⟩
      · exact absurd hgot (pr.fresh_not_has hfresh)
      · exact hstart j hj
    by_cases hjsrc : j = p.src
    · subst hjsrc
      exact Or.inl (has_take hfresh hsender)
    · obtain ⟨m, hm, hmk⟩ := htaken.pushes (by omega) j hmem hjsrc
      refine Or.inr ⟨⟨p.dst, j, m⟩, Multiset.mem_add.mpr (Or.inr ?_), ?_⟩
      · exact mem_emitted.mpr ⟨(j, m), hm, rfl⟩
      · exact Protocol.pushes_iff.mpr ⟨rfl, rfl, _, hmk⟩
  · rw [Function.update_of_ne heq] at hit hdepth
    rcases h.passed i hi hit hdepth j hj with hgot | ⟨q, hq, hqp⟩
    · exact Or.inl (has_take hfresh hgot)
    · rcases Multiset.mem_cons.mp hq with rfl | hold
      · obtain ⟨-, rfl, -⟩ := Protocol.pushes_iff.mp hqp
        refine Or.inl ?_
        rwa [Function.update_self]
      · exact Or.inr ⟨q, Multiset.mem_add.mpr (Or.inl hold), hqp⟩

include h hfresh htaken in
theorem once_take (i j : I) :
    (rest + emitted p.dst out).countP (fun q => pr.pushes i j q = true) ≤ 1 := by
  rw [Multiset.countP_add, countP_emitted]
  split_ifs with hi
  · have hzero : rest.countP (fun q => pr.pushes i j q = true) = 0 :=
      Multiset.countP_eq_zero.mpr fun q hq hqp => by
        obtain ⟨hqsrc, -, k', hk'⟩ := Protocol.pushes_iff.mp hqp
        rw [unheard_taker h hfresh (Multiset.mem_cons_of_mem hq) (hqsrc.trans hi.symm)] at hk'
        cases hk'
    rw [hzero, Nat.zero_add]
    exact htaken.once j
  · exact (Multiset.countP_le_of_le _ (Multiset.le_cons_self rest p)).trans (h.once i j)

include h hpush hfresh hhas htaken in
/-- A delivery that brings the item to a new party. -/
theorem take :
    Spread pr P origin hops start (Function.update depth p.dst (depth p.src + 1))
      (Function.update parent p.dst p.src)
      ⟨Function.update node p.dst s, rest + emitted p.dst out⟩ where
  origin_mem := h.origin_mem
  origin_has := has_take hfresh h.origin_has
  origin_depth := (depth_take hfresh h.origin_has _).trans h.origin_depth
  inside i hi j hj := by
    obtain ⟨hsrc, hdst, -⟩ := (h.flies p (Multiset.mem_cons_self p rest)).push k hpush
    dsimp only at hj
    by_cases heq : i = p.dst
    · rw [heq, Function.update_self] at hj
      rcases htaken.adds j hj with hold | rfl
      · exact h.inside p.dst hdst j hold
      · exact hsrc
    · rw [Function.update_of_ne heq] at hj
      exact h.inside i hi j hj
  waits i hi := by
    dsimp only
    by_cases heq : i = p.dst
    · subst heq
      rw [Function.update_self]
      exact Or.inl hhas
    · rw [Function.update_of_ne heq]
      exact h.waits i hi
  flies q hq := flies_take h hpush hfresh hhas htaken hq
  level i hi hit horigin := level_take h hpush hfresh htaken hi hit horigin
  passed i hi hit hdepth j hj := passed_take h hpush hfresh hhas htaken hi hit hdepth hj
  once := once_take h hfresh htaken

end Take

/-- Every delivery keeps the flood spreading. -/
theorem step {net net' : Net I S M} (h : Spread pr P origin hops start depth parent net)
    (hstep : Step handle net net') :
    ∃ depth' parent', Spread pr P origin hops start depth' parent' net' := by
  cases hstep with
  | deliver node rest p x =>
    have hp := h.flies p (Multiset.mem_cons_self p rest)
    cases hk : pr.kind p.msg with
    | push k =>
      obtain ⟨-, hdst, -⟩ := hp.push k hk
      rcases h.waits p.dst hdst with hit | ⟨hit, -⟩
      · obtain ⟨hhas, hedges, hsends⟩ := pr.push_has p.src x hit hk
        refine ⟨depth, parent, h.settle_update (iff_of_true hhas hit)
          (fun hfresh => absurd hit (pr.fresh_not_has hfresh)) (fun j hj => hedges ▸ hj)
          (fun j hj => Or.inl (hedges.symm ▸ hj)) (fun _ _ => hit) fun e he => ?_⟩
        exact ⟨(hsends e he).2, (hsends e he).1, k, hk⟩
      · obtain ⟨hhas, htaken⟩ := pr.push_fresh p.src x hit hk
        exact ⟨_, _, h.take hk hit hhas htaken⟩
    | cut =>
      obtain ⟨-, hit, -⟩ := hp.cut hk
      obtain ⟨hhas, hedges⟩ := pr.cut_has p.src x hit hk
      refine ⟨depth, parent, h.settle_update (iff_of_true hhas hit)
        (fun hfresh => absurd hit (pr.fresh_not_has hfresh)) (fun j hj => ((hedges j).mp hj).1)
        (fun j hj => ?_) (fun k' hk' => ?_) fun e he => ?_⟩
      · by_cases hsrc : j = p.src
        · exact Or.inr ⟨hk, hsrc.symm⟩
        · exact Or.inl ((hedges j).mpr ⟨hj, hsrc⟩)
      · rw [hk] at hk'
        cases hk'
      · rw [pr.cut_sends p.src x hk] at he
        cases he
    | idle =>
      obtain ⟨hhas, hfresh, hedges⟩ := pr.idle_keeps p.src x hk
      refine ⟨depth, parent, h.settle_update hhas (fun hit => ⟨hfresh hit, hedges⟩)
        (fun j hj => hedges ▸ hj) (fun j hj => Or.inl (hedges.symm ▸ hj)) (fun k' hk' => ?_)
        fun e he => ?_⟩
      · rw [hk] at hk'
        cases hk'
      · rw [pr.idle_sends p.src x hk] at he
        cases he
    | other => exact absurd hk hp.kind

/-! ## Whole floods -/

/-- The flood starts: the origin has the item and pushed it along all its edges. -/
theorem init {node : I → S} {out : List (I × M)} (horigin : origin ∈ P) (hhops : 1 ≤ hops)
    (hhas : pr.Has origin (node origin))
    (hfresh : ∀ i ∈ P, i ≠ origin → pr.Fresh i (node i))
    (hinside : ∀ i ∈ P, ∀ j ∈ pr.edges (node i), j ∈ P)
    (htaken : Taken pr.kind pr.edges origin (hops + 1) (node origin) (node origin) out) :
    Spread pr P origin hops (fun i => pr.edges (node i)) (fun _ => 0) id
      ⟨node, emitted origin out⟩ := by
  have honly : ∀ i ∈ P, pr.Has i (node i) → i = origin := by
    intro i hi hit
    by_contra hne
    exact pr.fresh_not_has (hfresh i hi hne) hit
  refine
    { origin_mem := horigin
      origin_has := hhas
      origin_depth := rfl
      inside := hinside
      waits := fun i hi => ?_
      flies := fun q hq => ?_
      level := fun i hi hit hne => absurd (honly i hi hit) hne
      passed := fun i hi hit _ j hj => ?_
      once := fun i j => ?_ }
  · by_cases hi' : i = origin
    · subst hi'
      exact Or.inl hhas
    · exact Or.inr ⟨hfresh i hi hi', fun _ hj => hj⟩
  · obtain ⟨e, he, rfl⟩ := mem_emitted.mp hq
    rcases htaken.sends e he with hidle | ⟨hpush, -, hmem⟩
    · exact .of_idle hidle
    · exact .of_push hpush
        ⟨horigin, hinside _ horigin _ hmem, hhas, rfl, hhops, fun _ => hmem⟩
  · obtain rfl := honly i hi hit
    by_cases hj' : j = i
    · subst hj'
      exact Or.inl hhas
    · obtain ⟨m, hm, hmk⟩ := htaken.pushes (by omega) j hj hj'
      exact Or.inr ⟨⟨i, j, m⟩, mem_emitted.mpr ⟨(j, m), hm, rfl⟩,
        Protocol.pushes_iff.mpr ⟨rfl, rfl, _, hmk⟩⟩
  · show (emitted origin out).countP _ ≤ 1
    rw [countP_emitted]
    split_ifs
    · exact htaken.once j
    · exact Nat.zero_le 1

variable {net : Net I S M}

open Classical in
/-- A party that has the item stands at the end of a line of parties that have it, one on each
level above. -/
theorem depth_lt_card (h : Spread pr P origin hops start depth parent net) {i : I} (hi : i ∈ P)
    (hit : pr.Has i (net.node i)) :
    depth i < (P.filter fun j => pr.Has j (net.node j)).card := by
  have hline : ∀ d j, j ∈ P → pr.Has j (net.node j) → depth j = d →
      ∀ c ≤ d, ∃ a ∈ P.filter (fun j => pr.Has j (net.node j)), depth a = c := by
    intro d
    induction d with
    | zero =>
      intro j hj hgot hd c hc
      exact ⟨j, Finset.mem_filter.mpr ⟨hj, hgot⟩, by omega⟩
    | succ d ih =>
      intro j hj hgot hd c hc
      rcases hc.lt_or_eq with hlt | heq
      · have hne : j ≠ origin := by
          rintro rfl
          rw [h.origin_depth] at hd
          omega
        have hlevel := h.level j hj hgot hne
        have hup := hlevel.depth_eq
        exact ih (parent j) hlevel.parent_mem hlevel.parent_has (by omega) c (by omega)
      · exact ⟨j, Finset.mem_filter.mpr ⟨hj, hgot⟩, by omega⟩
  have hsubset : Finset.range (depth i + 1) ⊆
      (P.filter fun j => pr.Has j (net.node j)).image depth := by
    intro c hc
    obtain ⟨a, ha, hac⟩ := hline (depth i) i hi hit rfl c (by
      have hlt := Finset.mem_range.mp hc
      omega)
    exact Finset.mem_image.mpr ⟨a, ha, hac⟩
  have hcard := (Finset.card_le_card hsubset).trans Finset.card_image_le
  rw [Finset.card_range] at hcard
  omega

/-- With nothing in flight, everyone the edges lead to has the item, if there are no more parties
than hops and one. -/
theorem reached (h : Spread pr P origin hops start depth parent net) (hquiet : net.flight = 0)
    (hstart : ∀ i ∈ P, ∀ j ∈ start i, j ∈ P) (hcard : P.card ≤ hops + 1) {j : I}
    (hreach : Relation.ReflTransGen (fun a b => b ∈ start a) origin j) :
    j ∈ P ∧ pr.Has j (net.node j) := by
  classical
  induction hreach with
  | refl => exact ⟨h.origin_mem, h.origin_has⟩
  | @tail a b _ hab ih =>
    obtain ⟨ha, hit⟩ := ih
    refine ⟨hstart a ha b hab, ?_⟩
    by_contra hno
    -- `b` is a party without the item, so at most as many as there are hops have it
    have hfew : (P.filter fun j => pr.Has j (net.node j)).card < P.card :=
      Finset.card_lt_card (Finset.filter_ssubset.mpr ⟨b, hstart a ha b hab, hno⟩)
    have hdepth := h.depth_lt_card ha hit
    rcases h.passed a ha hit (by omega) b hab with hgot | ⟨q, hq, -⟩
    · exact hno hgot
    · rw [hquiet] at hq
      exact absurd hq (Multiset.notMem_zero q)

/-- The edges that are left lead from the origin to everyone who has the item. -/
theorem joined (h : Spread pr P origin hops start depth parent net) {i : I} (hi : i ∈ P)
    (hit : pr.Has i (net.node i)) :
    Relation.ReflTransGen (fun a b => b ∈ pr.edges (net.node a)) origin i := by
  generalize hd : depth i = d
  induction d using Nat.strong_induction_on generalizing i with
  | _ d ih =>
    by_cases heq : i = origin
    · rw [heq]
    · have hlevel := h.level i hi hit heq
      have hup := hlevel.depth_eq
      exact (ih (depth (parent i)) (by omega) hlevel.parent_mem hlevel.parent_has rfl).tail
        hlevel.edge

end Spread

end TreeFlood
