import Swarm.Lib.LastWriter
import Swarm.Lib.Network

/-!
# Pulling by pages

Two parties hold last-writer views and bring each other up to date. A probe asks for what a party
holds beyond a cursor and shows what its sender held when it was sent. It is answered by nothing
when the two agree beyond the cursor, and otherwise by a page of values with, where the page stops
early, a cursor from which the receiver probes again.

`Protocol` states this as a contract on a message handler, for any encoding of probes and pages.
Under it, every value the other party started with is caught, or a frame in flight leads to it
(`Pulls`), whatever the order of delivery. So when nothing is in flight both views are the slot-wise
maximum of what there was (`Protocol.converges`).
-/

namespace PullSync

open LastWriter Network

variable {I S M X K V R C : Type} [DecidableEq I] [DecidableEq K] [LinearOrder R]

/-- A handler that pulls by pages over values in `pool`. -/
structure Protocol (handle : Handler I S M X) (key : V → K) (rank : V → R) (pool : Set V)
    (C : Type) where
  view : S → View K V
  /-- How many values were turned away for want of room. -/
  dropped : S → ℕ
  covers : C → K → Prop
  Good : S → Prop
  /-- The message probes from a cursor and was sent by a party with the view. -/
  Probe : M → C → View K V → Prop
  /-- The message brings values, and the cursor to go on from. -/
  Page : M → List V → Option C → Prop
  sound : ∀ {s k v}, Good s → view s k = some v → v ∈ pool ∧ key v = k
  probe_keeps : ∀ i src x {s m c snap}, Good s → Probe m c snap →
    Good (handle i s src m x).1 ∧ view (handle i s src m x).1 = view s ∧
      dropped (handle i s src m x).1 = dropped s
  probe_sends : ∀ i src x {s m c snap}, Good s → Probe m c snap → ∀ e ∈ (handle i s src m x).2,
    e.1 = src ∧ ((∃ c', Probe e.2 c' (view s)) ∨ ∃ vs next, Page e.2 vs next)
  probe_answers : ∀ i src x {s m c snap}, Good s → Probe m c snap →
    (∀ k, covers c k → snap k = view s k) ∨
      ∃ m' vs next, (src, m') ∈ (handle i s src m x).2 ∧ Page m' vs next ∧
        ∀ k v, view s k = some v → covers c k → v ∈ vs ∨ ∃ c', next = some c' ∧ covers c' k
  page_keeps : ∀ i src x {s m vs next}, Good s → Page m vs next →
    Good (handle i s src m x).1 ∧ dropped s ≤ dropped (handle i s src m x).1
  page_writes : ∀ i src x {s m vs next}, Good s → Page m vs next →
    dropped (handle i s src m x).1 = dropped s →
      view (handle i s src m x).1 = putAll key rank (view s) vs
  page_sends : ∀ i src x {s m vs next}, Good s → Page m vs next → ∀ e ∈ (handle i s src m x).2,
    e.1 = src ∧ ∃ c, Probe e.2 c (view (handle i s src m x).1)
  page_resumes : ∀ i src x {s m vs c}, Good s → Page m vs (some c) →
    ∃ m', (src, m') ∈ (handle i s src m x).2 ∧ Probe m' c (view (handle i s src m x).1)

variable {handle : Handler I S M X} {key : V → K} {rank : V → R} {pool : Set V}

/-- The view holds the value or a greater one in its slot. -/
def Caught (key : V → K) (rank : V → R) (f : View K V) (w : V) : Prop :=
  ∃ u, f (key w) = some u ∧ rank w ≤ rank u

omit [DecidableEq K] in
theorem Caught.mono {f g : View K V} (h : Below rank f g) {w : V} (hw : Caught key rank f w) :
    Caught key rank g w := by
  obtain ⟨u, hu, hle⟩ := hw
  obtain ⟨u', hu', hle'⟩ := h _ u hu
  exact ⟨u', hu', hle.trans hle'⟩

theorem caught_putAll (f : View K V) {vs : List V} {u w : V} (hu : u ∈ vs) (hkey : key u = key w)
    (hle : rank w ≤ rank u) : Caught key rank (putAll key rank f vs) w := by
  obtain ⟨x, hx, hux⟩ := rank_le_putAll key rank f hu
  exact ⟨x, hkey ▸ hx, hle.trans hux⟩

namespace Protocol

variable (pr : Protocol handle key rank pool C) {a b x y : I} {net net' : Net I S M}

/-- Both parties are in order, and what is in flight are probes and pages between them. -/
structure Sane (a b : I) (net : Net I S M) : Prop where
  good_left : pr.Good (net.node a)
  good_right : pr.Good (net.node b)
  between : ∀ p ∈ net.flight, (p.src = a ∧ p.dst = b) ∨ (p.src = b ∧ p.dst = a)
  kind : ∀ p ∈ net.flight,
    (∃ c snap, pr.Probe p.msg c snap) ∨ ∃ vs next, pr.Page p.msg vs next

/-- Delivering the packet brings `x` to `w`, or one step closer: it is a probe of `x` that covers
the slot, or a page for `x` with a value that beats `w` or a cursor that covers the slot. -/
inductive Leads (node : I → S) (x y : I) (w : V) (p : Packet I M) : Prop where
  | probe {c : C} {snap : View K V} (hsrc : p.src = x) (hdst : p.dst = y)
    (hmsg : pr.Probe p.msg c snap) (hsnap : Below rank snap (pr.view (node x)))
    (hcov : pr.covers c (key w))
  | value {vs : List V} {next : Option C} {u : V} (hsrc : p.src = y) (hdst : p.dst = x)
    (hmsg : pr.Page p.msg vs next) (hu : u ∈ vs) (hkey : key u = key w) (hle : rank w ≤ rank u)
  | cursor {vs : List V} {c : C} (hsrc : p.src = y) (hdst : p.dst = x)
    (hmsg : pr.Page p.msg vs (some c)) (hcov : pr.covers c (key w))

/-- `x` has caught each of the values, which `y` holds, or something in flight leads to it. -/
structure Pulls (x y : I) (W : Set V) (net : Net I S M) : Prop where
  held : ∀ w ∈ W, Caught key rank (pr.view (net.node y)) w
  pulled : ∀ w ∈ W, Caught key rank (pr.view (net.node x)) w ∨
    ∃ p ∈ net.flight, pr.Leads net.node x y w p

variable {pr}

/-! ## One delivery -/

omit [DecidableEq I] in
theorem Sane.dst_eq {node : I → S} {rest : Multiset (Packet I M)} {p : Packet I M}
    (h : pr.Sane a b ⟨node, p ::ₘ rest⟩) : p.dst = a ∨ p.dst = b :=
  (h.between p (Multiset.mem_cons_self p rest)).symm.imp And.right And.right

omit [DecidableEq I] in
theorem Sane.good_dst {node : I → S} {rest : Multiset (Packet I M)} {p : Packet I M}
    (h : pr.Sane a b ⟨node, p ::ₘ rest⟩) : pr.Good (node p.dst) := by
  rcases h.dst_eq with hd | hd
  · rw [hd]
    exact h.good_left
  · rw [hd]
    exact h.good_right

theorem Sane.step (h : pr.Sane a b net) (hstep : Step handle net net') :
    pr.Sane a b net' ∧ ∀ i, pr.dropped (net.node i) ≤ pr.dropped (net'.node i) := by
  cases hstep with
  | deliver node rest p x =>
    have hp := Multiset.mem_cons_self p rest
    have hdst := h.good_dst
    have hkeeps : pr.Good (handle p.dst (node p.dst) p.src p.msg x).1 ∧
        pr.dropped (node p.dst) ≤ pr.dropped (handle p.dst (node p.dst) p.src p.msg x).1 := by
      rcases h.kind p hp with ⟨c, snap, hmsg⟩ | ⟨vs, next, hmsg⟩
      · exact ⟨(pr.probe_keeps _ _ _ hdst hmsg).1, (pr.probe_keeps _ _ _ hdst hmsg).2.2.ge⟩
      · exact pr.page_keeps _ _ _ hdst hmsg
    have hgood : ∀ i, pr.Good (node i) → pr.Good (Function.update node p.dst
        (handle p.dst (node p.dst) p.src p.msg x).1 i) := by
      intro i hi
      by_cases he : i = p.dst
      · rw [he, Function.update_self]
        exact hkeeps.1
      · rwa [Function.update_of_ne he]
    have hsends : ∀ e ∈ (handle p.dst (node p.dst) p.src p.msg x).2, e.1 = p.src ∧
        ((∃ c snap, pr.Probe e.2 c snap) ∨ ∃ vs next, pr.Page e.2 vs next) := by
      intro e he
      rcases h.kind p hp with ⟨c, snap, hmsg⟩ | ⟨vs, next, hmsg⟩
      · obtain ⟨hsrc, hout⟩ := pr.probe_sends _ _ _ hdst hmsg e he
        exact ⟨hsrc, hout.imp_left fun ⟨c', hc'⟩ => ⟨c', _, hc'⟩⟩
      · obtain ⟨hsrc, c, hc⟩ := pr.page_sends _ _ _ hdst hmsg e he
        exact ⟨hsrc, Or.inl ⟨c, _, hc⟩⟩
    refine ⟨⟨hgood a h.good_left, hgood b h.good_right, fun q hq => ?_, fun q hq => ?_⟩,
      fun i => ?_⟩
    · rcases Multiset.mem_add.mp hq with hold | hnew
      · exact h.between q (Multiset.mem_cons_of_mem hold)
      · obtain ⟨e, he, rfl⟩ := mem_emitted.mp hnew
        rw [(hsends e he).1]
        exact (h.between p hp).symm.imp And.symm And.symm
    · rcases Multiset.mem_add.mp hq with hold | hnew
      · exact h.kind q (Multiset.mem_cons_of_mem hold)
      · obtain ⟨e, he, rfl⟩ := mem_emitted.mp hnew
        exact (hsends e he).2
    · show pr.dropped (node i) ≤ pr.dropped (Function.update node p.dst _ i)
      by_cases he : i = p.dst
      · rw [he, Function.update_self]
        exact hkeeps.2
      · rw [Function.update_of_ne he]

/-- A delivery that drops nothing lets the views grow. -/
theorem Sane.below (h : pr.Sane a b net) (hstep : Step handle net net')
    (hdrop : ∀ i, i = a ∨ i = b → pr.dropped (net'.node i) = pr.dropped (net.node i)) (i : I) :
    Below rank (pr.view (net.node i)) (pr.view (net'.node i)) := by
  cases hstep with
  | deliver node rest p x =>
    show Below rank (pr.view (node i)) (pr.view (Function.update node p.dst _ i))
    by_cases he : i = p.dst
    swap
    · rw [Function.update_of_ne he]
      exact Below.refl _
    have hd := hdrop p.dst h.dst_eq
    rw [show (Net.node ⟨Function.update node p.dst _, _⟩ p.dst) = _ from Function.update_self ..]
      at hd
    rw [he, Function.update_self]
    rcases h.kind p (Multiset.mem_cons_self p rest) with ⟨c, snap, hmsg⟩ | ⟨vs, next, hmsg⟩
    · rw [(pr.probe_keeps _ _ _ h.good_dst hmsg).2.1]
      exact Below.refl _
    · rw [pr.page_writes _ _ _ h.good_dst hmsg hd]
      exact below_putAll key rank _ _

/-- What a packet in flight leads to stays within reach when it is delivered. -/
theorem Leads.deliver {node : I → S} {rest : Multiset (Packet I M)} {p : Packet I M} {z : X}
    {w : V} (hxy : x ≠ y) (h : pr.Leads node x y w p) (hgood : pr.Good (node p.dst))
    (hdrop : pr.dropped (handle p.dst (node p.dst) p.src p.msg z).1 = pr.dropped (node p.dst))
    (hheld : Caught key rank (pr.view (node y)) w) :
    let node' := Function.update node p.dst (handle p.dst (node p.dst) p.src p.msg z).1
    Caught key rank (pr.view (node' x)) w ∨
      ∃ q ∈ rest + emitted p.dst (handle p.dst (node p.dst) p.src p.msg z).2,
        pr.Leads node' x y w q := by
  intro node'
  cases h with
  | probe hsrc hdst hmsg hsnap hcov =>
    subst hsrc hdst
    have hx : node' p.src = node p.src := Function.update_of_ne hxy _ _
    obtain ⟨u, hu, hle⟩ := hheld
    rcases pr.probe_answers p.dst p.src z hgood hmsg with
      hagree | ⟨m', vs, next, hmem, hpage, hall⟩
    · left
      rw [hx]
      exact Caught.mono hsnap ⟨u, (hagree _ hcov).trans hu, hle⟩
    · right
      refine ⟨⟨p.dst, p.src, m'⟩,
        Multiset.mem_add.mpr (Or.inr (mem_emitted.mpr ⟨_, hmem, rfl⟩)), ?_⟩
      rcases hall _ u hu hcov with hin | ⟨c', rfl, hc'⟩
      · exact .value rfl rfl hpage hin (pr.sound hgood hu).2 hle
      · exact .cursor rfl rfl hpage hc'
  | value hsrc hdst hmsg hu hkey hle =>
    subst hsrc hdst
    left
    rw [show node' p.dst = _ from Function.update_self .., pr.page_writes _ _ _ hgood hmsg hdrop]
    exact caught_putAll _ hu hkey hle
  | cursor hsrc hdst hmsg hcov =>
    subst hsrc hdst
    right
    obtain ⟨m', hmem, hprobe⟩ := pr.page_resumes p.dst p.src z hgood hmsg
    refine ⟨⟨p.dst, p.src, m'⟩, Multiset.mem_add.mpr (Or.inr (mem_emitted.mpr ⟨_, hmem, rfl⟩)),
      .probe rfl rfl hprobe ?_ hcov⟩
    rw [show node' p.dst = _ from Function.update_self ..]
    exact Below.refl _

theorem Pulls.step {W : Set V} (hxy : x ≠ y) (h : pr.Pulls x y W net) (hsane : pr.Sane a b net)
    (hstep : Step handle net net')
    (hdrop : ∀ i, i = a ∨ i = b → pr.dropped (net'.node i) = pr.dropped (net.node i)) :
    pr.Pulls x y W net' := by
  have hbelow := hsane.below hstep hdrop
  refine ⟨fun w hw => (h.held w hw).mono (hbelow y), fun w hw => ?_⟩
  rcases h.pulled w hw with hcaught | ⟨q, hq, hleads⟩
  · exact Or.inl (hcaught.mono (hbelow x))
  cases hstep with
  | deliver node rest p z =>
    rcases Multiset.mem_cons.mp hq with rfl | hrest
    · have hd := hdrop q.dst hsane.dst_eq
      rw [show (Net.node ⟨Function.update node q.dst _, _⟩ q.dst) = _ from
        Function.update_self ..] at hd
      exact hleads.deliver hxy hsane.good_dst hd (h.held w hw)
    · refine Or.inr ⟨q, Multiset.mem_add.mpr (Or.inl hrest), ?_⟩
      cases hleads with
      | probe hsrc hdst hmsg hsnap hcov =>
        exact .probe hsrc hdst hmsg (hsnap.trans (hbelow x)) hcov
      | value hsrc hdst hmsg hu hkey hle => exact .value hsrc hdst hmsg hu hkey hle
      | cursor hsrc hdst hmsg hcov => exact .cursor hsrc hdst hmsg hcov

/-! ## Runs -/

theorem Sane.run (h : pr.Sane a b net) (hrun : Relation.ReflTransGen (Step handle) net net') :
    pr.Sane a b net' ∧ ∀ i, pr.dropped (net.node i) ≤ pr.dropped (net'.node i) := by
  induction hrun with
  | refl => exact ⟨h, fun _ => le_rfl⟩
  | tail _ hstep ih =>
    obtain ⟨hsane, hle⟩ := ih.1.step hstep
    exact ⟨hsane, fun i => (ih.2 i).trans (hle i)⟩

theorem Pulls.run {W : Set V} (hxy : x ≠ y) (h : pr.Pulls x y W net) (hsane : pr.Sane a b net)
    (hrun : Relation.ReflTransGen (Step handle) net net')
    (hdrop : ∀ i, i = a ∨ i = b → pr.dropped (net'.node i) = pr.dropped (net.node i)) :
    pr.Pulls x y W net' := by
  induction hrun with
  | refl => exact h
  | tail hrun hstep ih =>
    -- counters only rise, so a run that ends where it began never dropped anything
    obtain ⟨hmid, hle⟩ := hsane.run hrun
    have hle' := (hmid.step hstep).2
    have heq := fun i hi => le_antisymm ((hle' i).trans (hdrop i hi).le) (hle i)
    exact (ih heq).step hxy hmid hstep fun i hi => (hdrop i hi).trans (heq i hi).symm

/-- The values a party holds. -/
def heldBy (pr : Protocol handle key rank pool C) (s : S) : Set V :=
  {w | pr.view s (key w) = some w}

omit [DecidableEq I] in
/-- At the start only the probe of `a` is in flight, and it covers every slot. -/
theorem pulls_start {node : I → S} {m : M} {c : C} (hprobe : pr.Probe m c (pr.view (node a)))
    (hall : ∀ k, pr.covers c k) :
    pr.Pulls a b (pr.heldBy (node b)) ⟨node, {⟨a, b, m⟩}⟩ where
  held w hw := ⟨w, hw, le_rfl⟩
  pulled _ _ := Or.inr ⟨_, Multiset.mem_singleton_self _,
    .probe rfl rfl hprobe (Below.refl _) (hall _)⟩

/-- After the first delivery `b` agrees with `a` or has a probe of its own in flight. -/
theorem pulls_back {node : I → S} {m : M} {z : X} (hab : a ≠ b) {c : C} {snap : View K V}
    (hgood : pr.Good (node b)) (hprobe : pr.Probe m c snap)
    (hback : pr.view (node a) = pr.view (node b) ∨
      ∃ m' c', (a, m') ∈ (handle b (node b) a m z).2 ∧ pr.Probe m' c' (pr.view (node b)) ∧
        ∀ k, pr.covers c' k) :
    pr.Pulls b a (pr.heldBy (node a))
      ⟨Function.update node b (handle b (node b) a m z).1,
        emitted b (handle b (node b) a m z).2⟩ := by
  have hview := (pr.probe_keeps b a z hgood hprobe).2.1
  refine ⟨fun w hw => ⟨w, ?_, le_rfl⟩, fun w hw => ?_⟩
  · show pr.view (Function.update node b _ a) _ = _
    rw [Function.update_of_ne hab]
    exact hw
  · rcases hback with hagree | ⟨m', c', hmem, hm', hall⟩
    · refine Or.inl ⟨w, ?_, le_rfl⟩
      show pr.view (Function.update node b _ b) _ = _
      rw [Function.update_self, hview, ← hagree]
      exact hw
    · refine Or.inr ⟨⟨b, a, m'⟩, mem_emitted.mpr ⟨_, hmem, rfl⟩, .probe rfl rfl hm' ?_ (hall _)⟩
      show Below rank _ (pr.view (Function.update node b _ b))
      rw [Function.update_self, hview]
      exact Below.refl _

omit [DecidableEq I] in
/-- What a party without anything in flight for it has caught. -/
theorem Pulls.caught {W : Set V} (h : pr.Pulls x y W net) (hquiet : net.flight = 0) {w : V}
    (hw : w ∈ W) : Caught key rank (pr.view (net.node x)) w := by
  refine (h.pulled w hw).resolve_right ?_
  rintro ⟨p, hp, -⟩
  rw [hquiet] at hp
  exact Multiset.notMem_zero p hp

/-- **Convergence.** Let `a` probe `b` for everything, let `b` then agree or probe back, and let
nothing be turned away. In whatever order frames are delivered, once none is in flight both parties
hold the slot-wise maximum of what the two held. -/
theorem converges (pr : Protocol handle key rank pool C) {node : I → S} {m : M} {c : C}
    (hab : a ≠ b) (ha : pr.Good (node a)) (hb : pr.Good (node b))
    (hpool : pool ⊆ pr.heldBy (node a) ∪ pr.heldBy (node b))
    (hprobe : pr.Probe m c (pr.view (node a))) (hall : ∀ k, pr.covers c k)
    (hback : ∀ z, pr.view (node a) = pr.view (node b) ∨
      ∃ m' c', (a, m') ∈ (handle b (node b) a m z).2 ∧ pr.Probe m' c' (pr.view (node b)) ∧
        ∀ k, pr.covers c' k)
    (hrun : Relation.ReflTransGen (Step handle) ⟨node, {⟨a, b, m⟩}⟩ net)
    (hquiet : net.flight = 0)
    (hdrop : ∀ i, i = a ∨ i = b → pr.dropped (net.node i) = pr.dropped (node i)) :
    Holds key rank pool (pr.view (net.node a)) ∧ Holds key rank pool (pr.view (net.node b)) := by
  have hsane : pr.Sane a b ⟨node, {⟨a, b, m⟩}⟩ :=
    { good_left := ha
      good_right := hb
      between := fun p hp => by
        rw [Multiset.mem_singleton.mp hp]
        exact Or.inl ⟨rfl, rfl⟩
      kind := fun p hp => by
        rw [Multiset.mem_singleton.mp hp]
        exact Or.inl ⟨c, _, hprobe⟩ }
  have hpull := (pulls_start (a := a) (b := b) hprobe hall).run hab hsane hrun hdrop
  -- the first delivery is that of the probe
  rcases hrun.cases_head with heq | ⟨mid, hstep, hrest⟩
  · rw [← heq] at hquiet
    exact absurd hquiet (Multiset.singleton_ne_zero _)
  obtain ⟨z, rfl⟩ := step_singleton hstep
  obtain ⟨hmid, hle⟩ := hsane.step hstep
  have hle' := (hmid.run hrest).2
  have hdrop' := fun i hi => le_antisymm ((hdrop i hi).le.trans (hle i)) (hle' i)
  have hpull' := (pulls_back hab hb hprobe (hback z)).run hab.symm hmid hrest hdrop'
  obtain ⟨hend, -⟩ := hmid.run hrest
  have hcaught : ∀ i, i = a ∨ i = b → ∀ w ∈ pool, Caught key rank (pr.view (net.node i)) w := by
    rintro i hi w hw
    rcases hi with rfl | rfl <;> rcases hpool hw with hwa | hwb
    · exact hpull'.held w hwa
    · exact hpull.caught hquiet hwb
    · exact hpull'.caught hquiet hwa
    · exact hpull.held w hwb
  exact ⟨⟨fun _ _ => pr.sound hend.good_left, hcaught a (Or.inl rfl)⟩,
    fun _ _ => pr.sound hend.good_right, hcaught b (Or.inr rfl)⟩

end Protocol

end PullSync
