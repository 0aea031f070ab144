import Swarm.Lib.PullSync

/-!
# Pulling among many

`PullSync` among any number of parties, all at once, with other messages in flight and parties that
act by themselves. Nothing of it may take anything out of a view.

A probe of the whole range brings its sender everything the other party holds, whatever else goes on
(`pulls`). In a round every party of a group probes its neighbours like that, unless it holds all
they hold, and at its end nothing of the exchange is left in flight within the group. With each
round at least one more party has caught a value, as long as neighbours lead to everyone
(`holders_rounds`). So as many rounds as there are other parties bring it everywhere
(`caught_rounds`).
-/

namespace PullSync

open LastWriter Network

variable {I S M X K V R C : Type} [DecidableEq I] [DecidableEq K] [LinearOrder R]
  {handle : Handler I S M X} {key : V → K} {rank : V → R} {pool : Set V}

/-- A party moves and sends: it is delivered a message, or it acts. -/
inductive Move (handle : Handler I S M X) (act : I → S → S → List (I × M) → Prop) :
    Net I S M → I → List (I × M) → Net I S M → Prop where
  | deliver (node : I → S) (rest : Multiset (Packet I M)) (p : Packet I M) (x : X) :
    Move handle act ⟨node, p ::ₘ rest⟩ p.dst (handle p.dst (node p.dst) p.src p.msg x).2
      ⟨Function.update node p.dst (handle p.dst (node p.dst) p.src p.msg x).1,
        rest + emitted p.dst (handle p.dst (node p.dst) p.src p.msg x).2⟩
  | act (node : I → S) (flight : Multiset (Packet I M)) {i : I} {s' : S} {out : List (I × M)}
    (h : act i (node i) s' out) :
    Move handle act ⟨node, flight⟩ i out ⟨Function.update node i s', flight + emitted i out⟩

/-- When a party asks another for everything, which messages belong to such an exchange, and when
there is nothing to ask for. -/
structure Terms (S M : Type) where
  asks : S → M → Prop
  talk : M → Prop
  /-- The second party holds all that the first one does. -/
  even : S → S → Prop

/-- A run, with who asked whom or had nothing to ask for. -/
inductive Run (handle : Handler I S M X) (act : I → S → S → List (I × M) → Prop) (tm : Terms S M)
    (net : Net I S M) : List (I × I) → Net I S M → Prop where
  | nil : Run handle act tm net [] net
  | move {net' net'' : Net I S M} {log : List (I × I)} {i : I} {out : List (I × M)} :
    Run handle act tm net log net' → Move handle act net' i out net'' → (ps : List I) →
    (∀ j ∈ ps, ∃ m, (j, m) ∈ out ∧ tm.asks (net''.node i) m) →
    Run handle act tm net (log ++ ps.map fun j => (i, j)) net''
  | note {net' : Net I S M} {log : List (I × I)} (i j : I) : Run handle act tm net log net' →
    tm.even (net'.node j) (net'.node i) → Run handle act tm net (log ++ [(i, j)]) net'

/-- Every party of the group asks each of its neighbours or has nothing to ask for, and at the end
no message of the exchange is in flight between members. -/
def Round (handle : Handler I S M X) (act : I → S → S → List (I × M) → Prop) (tm : Terms S M)
    (P : Finset I) (nbr : I → I → Prop) (net net' : Net I S M) : Prop :=
  ∃ log, Run handle act tm net log net' ∧ (∀ x ∈ P, ∀ y ∈ P, nbr x y → (x, y) ∈ log) ∧
    ∀ p ∈ net'.flight, p.src ∈ P → p.dst ∈ P → ¬ tm.talk p.msg

/-- So many rounds one after the other. -/
inductive Rounds (handle : Handler I S M X) (act : I → S → S → List (I × M) → Prop)
    (tm : Terms S M) (P : Finset I) (nbr : I → I → Prop) (net : Net I S M) :
    ℕ → Net I S M → Prop where
  | nil : Rounds handle act tm P nbr net 0 net
  | snoc {n : ℕ} {net' net'' : Net I S M} : Rounds handle act tm P nbr net n net' →
    Round handle act tm P nbr net' net'' → Rounds handle act tm P nbr net (n + 1) net''

/-- What else the parties send each other and what they do by themselves. A party in order handles
every fair message, and sends fair messages only. -/
structure Gossip (pr : Protocol handle key rank pool C) (act : I → S → S → List (I × M) → Prop)
    (tm : Terms S M) where
  Inv : S → Prop
  Fair : M → Prop
  good : ∀ {s}, Inv s → pr.Good s
  fair_keeps : ∀ i src x {s m}, Inv s → Fair m →
    Inv (handle i s src m x).1 ∧ pr.dropped s ≤ pr.dropped (handle i s src m x).1
  fair_grows : ∀ i src x {s m}, Inv s → Fair m →
    pr.dropped (handle i s src m x).1 = pr.dropped s →
      Below rank (pr.view s) (pr.view (handle i s src m x).1)
  fair_sends : ∀ i src x {s m}, Inv s → Fair m → ∀ e ∈ (handle i s src m x).2, Fair e.2
  act_keeps : ∀ {i s s' out}, Inv s → act i s s' out → Inv s' ∧ pr.dropped s ≤ pr.dropped s'
  act_grows : ∀ {i s s' out}, Inv s → act i s s' out → pr.dropped s' = pr.dropped s →
    Below rank (pr.view s) (pr.view s')
  act_sends : ∀ {i s s' out}, Inv s → act i s s' out → ∀ e ∈ out, Fair e.2
  asks_probe : ∀ {s m}, Inv s → tm.asks s m → ∃ c, pr.Probe m c (pr.view s) ∧ ∀ k, pr.covers c k
  probe_talks : ∀ {m c snap}, pr.Probe m c snap → tm.talk m
  page_talks : ∀ {m vs next}, pr.Page m vs next → tm.talk m
  even_below : ∀ {s s'}, tm.even s s' → Below rank (pr.view s) (pr.view s')

variable {act : I → S → S → List (I × M) → Prop} {tm : Terms S M}
  {pr : Protocol handle key rank pool C} {P : Finset I} {a b x y : I} {net net' net'' : Net I S M}

/-- Deliveries in which nobody is noted to ask. -/
theorem Run.steps {log : List (I × I)} (hrun : Run handle act tm net log net')
    (hsteps : Relation.ReflTransGen (Step handle) net' net'') :
    Run handle act tm net log net'' := by
  induction hsteps with
  | refl => exact hrun
  | tail _ hstep ih =>
    cases hstep with
    | deliver node rest p z =>
      have hmove := ih.move (.deliver node rest p z) [] (fun j hj => (nomatch hj))
      rwa [List.map_nil, List.append_nil] at hmove

namespace Gossip

variable (g : Gossip pr act tm)

/-- The parties are in order, and what is in flight is fair. -/
structure Sane (net : Net I S M) : Prop where
  inv : ∀ i, g.Inv (net.node i)
  fair : ∀ p ∈ net.flight, g.Fair p.msg

variable {g}

/-! ## One move -/

section Move

variable {node : I → S} {rest : Multiset (Packet I M)} {p : Packet I M} {i : I} {s' : S}
  {out : List (I × M)}

/-- The net when a party has moved on to `s'` and sent `out`. -/
theorem Sane.moved (h : g.Sane ⟨node, rest⟩) (hinv : g.Inv s') (hout : ∀ e ∈ out, g.Fair e.2) :
    g.Sane ⟨Function.update node i s', rest + emitted i out⟩ where
  inv j := by
    show g.Inv (Function.update node i s' j)
    by_cases hij : j = i
    · subst hij
      rwa [Function.update_self]
    · rw [Function.update_of_ne hij]
      exact h.inv j
  fair q hq := by
    rcases Multiset.mem_add.mp hq with hold | hnew
    · exact h.fair q hold
    · obtain ⟨e, he, rfl⟩ := mem_emitted.mp hnew
      exact hout e he

omit [DecidableEq I] in
theorem Sane.of_cons (h : g.Sane ⟨node, p ::ₘ rest⟩) : g.Sane ⟨node, rest⟩ :=
  ⟨h.inv, fun q hq => h.fair q (Multiset.mem_cons_of_mem hq)⟩

theorem Sane.move (h : g.Sane net) (hmove : Move handle act net i out net') :
    g.Sane net' ∧ ∀ j, pr.dropped (net.node j) ≤ pr.dropped (net'.node j) := by
  have hle : ∀ (node : I → S) (i : I) (s' : S), pr.dropped (node i) ≤ pr.dropped s' → ∀ j,
      pr.dropped (node j) ≤ pr.dropped (Function.update node i s' j) := by
    intro node i s' hs j
    by_cases hij : j = i
    · subst hij
      rwa [Function.update_self]
    · rw [Function.update_of_ne hij]
  cases hmove with
  | deliver node rest p z =>
    have hinv : g.Inv (node p.dst) := h.inv p.dst
    have hfair := h.fair p (Multiset.mem_cons_self p rest)
    obtain ⟨hkept, hdrop⟩ := g.fair_keeps p.dst p.src z hinv hfair
    exact ⟨h.of_cons.moved hkept (g.fair_sends p.dst p.src z hinv hfair), hle node _ _ hdrop⟩
  | @act node flight _ s' _ hact =>
    have hinv : g.Inv (node i) := h.inv i
    obtain ⟨hkept, hdrop⟩ := g.act_keeps hinv hact
    exact ⟨h.moved hkept (g.act_sends hinv hact), hle node _ _ hdrop⟩

/-- A party that turned nothing away holds all it held. -/
theorem Sane.below (h : g.Sane net) (hmove : Move handle act net i out net') {j : I}
    (hdrop : pr.dropped (net'.node j) = pr.dropped (net.node j)) :
    Below rank (pr.view (net.node j)) (pr.view (net'.node j)) := by
  by_cases hij : j = i
  swap
  · cases hmove with
    | deliver node rest p z =>
      show Below rank (pr.view (node j)) (pr.view (Function.update node p.dst _ j))
      rw [Function.update_of_ne hij]
      exact Below.refl _
    | @act node flight _ s' _ hact =>
      show Below rank (pr.view (node j)) (pr.view (Function.update node i s' j))
      rw [Function.update_of_ne hij]
      exact Below.refl _
  subst hij
  cases hmove with
  | deliver node rest p z =>
    change pr.dropped (Function.update node p.dst _ p.dst) = _ at hdrop
    show Below rank (pr.view (node p.dst)) (pr.view (Function.update node p.dst _ p.dst))
    rw [Function.update_self] at hdrop ⊢
    exact g.fair_grows p.dst p.src z (h.inv p.dst) (h.fair p (Multiset.mem_cons_self p rest)) hdrop
  | @act node flight _ s' _ hact =>
    change pr.dropped (Function.update node j s' j) = _ at hdrop
    show Below rank (pr.view (node j)) (pr.view (Function.update node j s' j))
    rw [Function.update_self] at hdrop ⊢
    exact g.act_grows (h.inv j) hact hdrop

omit [DecidableEq I] in
/-- What a packet leads to it leads to after a move of someone else's. -/
theorem leads_mono {node' : I → S} {w : V} {q : Packet I M} (h : pr.Leads node x y w q)
    (hbelow : Below rank (pr.view (node x)) (pr.view (node' x))) : pr.Leads node' x y w q := by
  cases h with
  | probe hsrc hdst hmsg hsnap hcov => exact .probe hsrc hdst hmsg (hsnap.trans hbelow) hcov
  | value hsrc hdst hmsg hu hkey hle => exact .value hsrc hdst hmsg hu hkey hle
  | cursor hsrc hdst hmsg hcov => exact .cursor hsrc hdst hmsg hcov

omit [DecidableEq I] in
theorem leads_ends {w : V} {q : Packet I M} (h : pr.Leads node x y w q) :
    (q.src = x ∧ q.dst = y) ∨ (q.src = y ∧ q.dst = x) := by
  cases h with
  | probe hsrc hdst => exact Or.inl ⟨hsrc, hdst⟩
  | value hsrc hdst => exact Or.inr ⟨hsrc, hdst⟩
  | cursor hsrc hdst => exact Or.inr ⟨hsrc, hdst⟩

omit [DecidableEq I] in
theorem leads_talks (g : Gossip pr act tm) {w : V} {q : Packet I M}
    (h : pr.Leads node x y w q) : tm.talk q.msg := by
  cases h with
  | probe _ _ hmsg => exact g.probe_talks hmsg
  | value _ _ hmsg => exact g.page_talks hmsg
  | cursor _ _ hmsg => exact g.page_talks hmsg

theorem pulls_move {W : Set V} (hxy : x ≠ y) (h : pr.Pulls x y W net) (hsane : g.Sane net)
    (hmove : Move handle act net i out net')
    (hx : pr.dropped (net'.node x) = pr.dropped (net.node x))
    (hy : pr.dropped (net'.node y) = pr.dropped (net.node y)) : pr.Pulls x y W net' := by
  have hbelow := hsane.below hmove hx
  refine ⟨fun w hw => (h.held w hw).mono (hsane.below hmove hy), fun w hw => ?_⟩
  rcases h.pulled w hw with hcaught | ⟨q, hq, hleads⟩
  · exact Or.inl (hcaught.mono hbelow)
  cases hmove with
  | deliver node rest p z =>
    rcases Multiset.mem_cons.mp hq with rfl | hrest
    · have hd : pr.dropped (Function.update node q.dst
          (handle q.dst (node q.dst) q.src q.msg z).1 q.dst) = pr.dropped (node q.dst) := by
        rcases leads_ends hleads with ⟨-, hdst⟩ | ⟨-, hdst⟩
        · rw [← hdst] at hy
          exact hy
        · rw [← hdst] at hx
          exact hx
      rw [Function.update_self] at hd
      exact hleads.deliver hxy (g.good (hsane.inv q.dst)) hd (h.held w hw)
    · exact Or.inr ⟨q, Multiset.mem_add.mpr (Or.inl hrest), leads_mono hleads hbelow⟩
  | act node flight hact =>
    exact Or.inr ⟨q, Multiset.mem_add.mpr (Or.inl hq), leads_mono hleads hbelow⟩

end Move

/-! ## Runs -/

variable {log : List (I × I)}

theorem Sane.run (h : g.Sane net) (hrun : Run handle act tm net log net') :
    g.Sane net' ∧ ∀ i, pr.dropped (net.node i) ≤ pr.dropped (net'.node i) := by
  induction hrun with
  | nil => exact ⟨h, fun _ => le_rfl⟩
  | move _ hmove _ _ ih =>
    obtain ⟨hsane, hle⟩ := ih.1.move hmove
    exact ⟨hsane, fun i => (ih.2 i).trans (hle i)⟩
  | note _ _ _ _ ih => exact ih

/-- Counters only rise, so a run that ends where it began never dropped anything. -/
theorem Sane.undropped (h : g.Sane net) (hrun : Run handle act tm net log net') {i : I}
    {out : List (I × M)} (hmove : Move handle act net' i out net'') {j : I}
    (hdrop : pr.dropped (net''.node j) = pr.dropped (net.node j)) :
    pr.dropped (net'.node j) = pr.dropped (net.node j) ∧
      pr.dropped (net''.node j) = pr.dropped (net'.node j) := by
  obtain ⟨hmid, hle⟩ := h.run hrun
  have hle' := (hmid.move hmove).2
  have heq := le_antisymm ((hle' j).trans hdrop.le) (hle j)
  exact ⟨heq, hdrop.trans heq.symm⟩

theorem Sane.below_run (h : g.Sane net) (hrun : Run handle act tm net log net') {i : I}
    (hdrop : pr.dropped (net'.node i) = pr.dropped (net.node i)) :
    Below rank (pr.view (net.node i)) (pr.view (net'.node i)) := by
  induction hrun with
  | nil => exact Below.refl _
  | move hrun hmove _ _ ih =>
    obtain ⟨hmid, hlast⟩ := h.undropped hrun hmove hdrop
    exact (ih hmid).trans ((h.run hrun).1.below hmove hlast)
  | note _ _ _ _ ih => exact ih hdrop

/-- Whoever asked or had nothing to ask for has caught what the other party held at the start, or
something in flight leads to it. -/
theorem pulls (h : g.Sane net) (hrun : Run handle act tm net log net')
    (hx : pr.dropped (net'.node x) = pr.dropped (net.node x))
    (hy : pr.dropped (net'.node y) = pr.dropped (net.node y)) (hxy : x ≠ y)
    (hasked : (x, y) ∈ log) : pr.Pulls x y (pr.heldBy (net.node y)) net' := by
  induction hrun with
  | nil => cases hasked
  | @move net' net'' log i out hrun hmove ps hps ih =>
    obtain ⟨hmidx, hlastx⟩ := h.undropped hrun hmove hx
    obtain ⟨hmidy, hlasty⟩ := h.undropped hrun hmove hy
    rcases List.mem_append.mp hasked with hearlier | hnow
    · exact pulls_move hxy (ih hmidx hmidy hearlier) (h.run hrun).1 hmove hlastx hlasty
    obtain ⟨j, hj, heq⟩ := List.mem_map.mp hnow
    cases heq
    obtain ⟨m, hm, hask⟩ := hps y hj
    have hrun' := hrun.move hmove ps hps
    obtain ⟨c, hprobe, hall⟩ := g.asks_probe ((h.run hrun').1.inv x) hask
    have hheld : ∀ w ∈ pr.heldBy (net.node y), Caught key rank (pr.view (net''.node y)) w :=
      fun w hw => Caught.mono (h.below_run hrun' hy) ⟨w, hw, le_rfl⟩
    refine ⟨hheld, fun w _ => Or.inr ⟨⟨x, y, m⟩, ?_, .probe rfl rfl hprobe (Below.refl _) (hall _)⟩⟩
    cases hmove with
    | deliver => exact Multiset.mem_add.mpr (Or.inr (mem_emitted.mpr ⟨_, hm, rfl⟩))
    | act => exact Multiset.mem_add.mpr (Or.inr (mem_emitted.mpr ⟨_, hm, rfl⟩))
  | @note net' log i j hrun heven ih =>
    rcases List.mem_append.mp hasked with hearlier | hnow
    · exact ih hx hy hearlier
    cases List.mem_singleton.mp hnow
    have hheld : ∀ w ∈ pr.heldBy (net.node y), Caught key rank (pr.view (net'.node y)) w :=
      fun w hw => Caught.mono (h.below_run hrun hy) ⟨w, hw, le_rfl⟩
    exact ⟨hheld, fun w hw => Or.inl ((hheld w hw).mono (g.even_below heven))⟩

end Gossip

/-! ## Rounds -/

open Classical in
/-- The parties that have caught a value. -/
noncomputable def holders (pr : Protocol handle key rank pool C) (P : Finset I) (node : I → S)
    (w : V) : Finset I :=
  P.filter fun i => Caught key rank (pr.view (node i)) w

omit [DecidableEq I] in
theorem mem_holders {node : I → S} {w : V} {i : I} :
    i ∈ holders pr P node w ↔ i ∈ P ∧ Caught key rank (pr.view (node i)) w := by
  classical
  unfold holders
  rw [Finset.mem_filter]

namespace Gossip

variable {g : Gossip pr act tm} {nbr : I → I → Prop} {w : V} {n : ℕ}

/-- A party that caught a value brings it to whoever asks it. -/
theorem caught_round (h : g.Sane net) (hround : Round handle act tm P nbr net net')
    (hdrop : ∀ i ∈ P, pr.dropped (net'.node i) = pr.dropped (net.node i)) (hx : x ∈ P)
    (hy : y ∈ P) (hxy : x = y ∨ nbr x y) (hcaught : Caught key rank (pr.view (net.node y)) w) :
    Caught key rank (pr.view (net'.node x)) w := by
  obtain ⟨log, hrun, hasked, hquiet⟩ := hround
  by_cases heq : x = y
  · subst heq
    exact hcaught.mono (h.below_run hrun (hdrop x hx))
  obtain ⟨u, hu, hle⟩ := hcaught
  have hkey := (pr.sound (g.good (h.inv y)) hu).2
  have hheld : u ∈ pr.heldBy (net.node y) := by
    show pr.view (net.node y) (key u) = some u
    rwa [hkey]
  have hpulls := pulls h hrun (hdrop x hx) (hdrop y hy) heq
    (hasked x hx y hy (hxy.resolve_left heq))
  rcases hpulls.pulled u hheld with ⟨u', hu', hle'⟩ | ⟨q, hq, hleads⟩
  · exact ⟨u', hkey ▸ hu', hle.trans hle'⟩
  · have hends : q.src ∈ P ∧ q.dst ∈ P := by
      rcases leads_ends hleads with ⟨hsrc, hdst⟩ | ⟨hsrc, hdst⟩
      · rw [hsrc, hdst]
        exact ⟨hx, hy⟩
      · rw [hsrc, hdst]
        exact ⟨hy, hx⟩
    exact absurd (leads_talks g hleads) (hquiet q hq hends.1 hends.2)

/-- Each round adds a party, unless no neighbour asks one that has the value. -/
theorem holders_round (h : g.Sane net) (hround : Round handle act tm P nbr net net')
    (hdrop : ∀ i ∈ P, pr.dropped (net'.node i) = pr.dropped (net.node i))
    (hjoined : ∀ x ∈ P, ∀ y ∈ P, Relation.ReflTransGen (fun a b => a ∈ P ∧ b ∈ P ∧ nbr a b) x y)
    (hsome : (holders pr P net.node w).Nonempty) :
    min (holders pr P net.node w).card.succ P.card ≤ (holders pr P net'.node w).card := by
  have hsub : holders pr P net.node w ⊆ holders pr P net'.node w := by
    intro i hi
    obtain ⟨hP, hcaught⟩ := mem_holders.mp hi
    exact mem_holders.mpr ⟨hP, caught_round h hround hdrop hP hP (Or.inl rfl) hcaught⟩
  by_cases hall : ∀ x ∈ P, x ∈ holders pr P net.node w
  · refine (min_le_right _ _).trans (Finset.card_le_card fun x hx => hsub (hall x hx))
  · push Not at hall
    obtain ⟨x, hx, hout⟩ := hall
    obtain ⟨y, hy⟩ := hsome
    -- on the way from `x` to `y` someone asks a party that has it
    have hcross : ∃ a b, a ∈ P ∧ nbr a b ∧ a ∉ holders pr P net.node w ∧
        b ∈ holders pr P net.node w := by
      have hpath := hjoined x hx y (mem_holders.mp hy).1
      induction hpath using Relation.ReflTransGen.head_induction_on with
      | refl => exact absurd hy hout
      | @head a b hab _ ih =>
        by_cases hb : b ∈ holders pr P net.node w
        · exact ⟨a, b, hab.1, hab.2.2, hout, hb⟩
        · exact ih hab.2.1 hb
    obtain ⟨a, b, ha, hab, hno, hb⟩ := hcross
    obtain ⟨hbP, hcaught⟩ := mem_holders.mp hb
    have hnew : a ∈ holders pr P net'.node w :=
      mem_holders.mpr ⟨ha, caught_round h hround hdrop ha hbP (Or.inr hab) hcaught⟩
    refine (min_le_left _ _).trans (Finset.card_lt_card ⟨hsub, fun hback => hno (hback hnew)⟩)

theorem Sane.rounds (h : g.Sane net) (hrounds : Rounds handle act tm P nbr net n net') :
    g.Sane net' ∧ ∀ i, pr.dropped (net.node i) ≤ pr.dropped (net'.node i) := by
  induction hrounds with
  | nil => exact ⟨h, fun _ => le_rfl⟩
  | snoc _ hround ih =>
    obtain ⟨log, hrun, -⟩ := hround
    obtain ⟨hsane, hle⟩ := ih.1.run hrun
    exact ⟨hsane, fun i => (ih.2 i).trans (hle i)⟩

/-- After so many rounds so many parties have caught a value. -/
theorem holders_rounds (h : g.Sane net) (hrounds : Rounds handle act tm P nbr net n net')
    (hdrop : ∀ i ∈ P, pr.dropped (net'.node i) = pr.dropped (net.node i))
    (hjoined : ∀ x ∈ P, ∀ y ∈ P, Relation.ReflTransGen (fun a b => a ∈ P ∧ b ∈ P ∧ nbr a b) x y)
    (hsome : (holders pr P net.node w).Nonempty) :
    min (n + 1) P.card ≤ (holders pr P net'.node w).card := by
  induction hrounds with
  | nil => exact (min_le_left _ _).trans (Finset.card_pos.mpr hsome)
  | snoc hrounds hround ih =>
    obtain ⟨log, hrun, -⟩ := id hround
    obtain ⟨hmid, hle⟩ := h.rounds hrounds
    have hle' := (hmid.run hrun).2
    have heq := fun i hi => le_antisymm ((hle' i).trans (hdrop i hi).le) (hle i)
    have hlast := fun i hi => (hdrop i hi).trans (heq i hi).symm
    have hbefore := ih heq
    obtain ⟨y, hy⟩ := hsome
    have hpos : 0 < P.card := Finset.card_pos.mpr ⟨y, (mem_holders.mp hy).1⟩
    have hmore := holders_round (w := w) hmid hround hlast hjoined
      (Finset.card_pos.mp (by omega))
    omega

/-- **Everything reaches everyone.** When neighbours lead to everyone and nothing is turned away,
rounds as many as there are other parties bring every party what any of them held at the start. -/
theorem caught_rounds (h : g.Sane net) (hrounds : Rounds handle act tm P nbr net n net')
    (hdrop : ∀ i ∈ P, pr.dropped (net'.node i) = pr.dropped (net.node i))
    (hjoined : ∀ x ∈ P, ∀ y ∈ P, Relation.ReflTransGen (fun a b => a ∈ P ∧ b ∈ P ∧ nbr a b) x y)
    (hn : P.card ≤ n + 1) (hx : x ∈ P) (hy : y ∈ P)
    (hcaught : Caught key rank (pr.view (net.node y)) w) :
    Caught key rank (pr.view (net'.node x)) w := by
  have hcard := holders_rounds h hrounds hdrop hjoined ⟨y, mem_holders.mpr ⟨hy, hcaught⟩⟩
  have hall : holders pr P net'.node w = P := by
    refine Finset.eq_of_subset_of_card_le (fun i hi => (mem_holders.mp hi).1) ?_
    omega
  rw [← hall] at hx
  exact (mem_holders.mp hx).2

end Gossip

end PullSync
