import Mathlib.Algebra.Order.Group.Multiset
import Mathlib.Algebra.Order.Ring.Unbundled.Rat
import Mathlib.Tactic.FinCases
import Swarm.Topics
import Swarm.Lib.FiniteMap
import Swarm.Lib.SliceHeap
import Swarm.Lib.SortSlice
import Swarm.Lib.Words

/-!
# The simulated network

`sim.Mesh` runs nodes against a virtual clock. A step moves the clock by one, lets every node act in
the order of ids, schedules what they send over the edges, and hands over the frames whose time has
come. Frames wait in a `container/heap` ordered by delivery time.

Times are 64-bit words: a delay that does not fit wraps, and `Intn` panics where twice the jitter
does not fit. As long as the edges can be timed (`Edge.Fits`), no step panics, and whatever the
nodes do, the mesh takes care of frames as a network should. What the nodes put out over edges
without loss is scheduled, each frame as often as it was put out and within the latency and jitter
of its edge, and what arrives in a step is, with multiplicities, what was scheduled for that time,
each frame in the hands of its target once (`frames_arrive_once`).
-/

namespace Swarm.Sim

open SliceHeap

/-! ## The code -/

abbrev NodeID : Type := Bytes

structure Frame where
  sender : NodeID
  target : NodeID
  body : Bytes
deriving DecidableEq

/-- A directed link. The loss is a probability. -/
structure Edge where
  sender : NodeID
  target : NodeID
  latencyMs : Int64
  jitterMs : Int64
  lossPct : ℚ

/-- A frame scheduled for delivery, at a time in milliseconds of the virtual clock. -/
structure PendingFrame where
  deliveryAt : Int64
  frame : Frame
deriving DecidableEq

/-- `pendingHeap.Less`. -/
def pendingLess : PendingFrame → PendingFrame → Bool := byKey PendingFrame.deliveryAt

/-- `rand.Rand` over states `G`. `Intn` panics unless its argument is positive. -/
structure Rng (G : Type) where
  intn : Int64 → G → Int64 × G
  float64 : G → ℚ × G
  intn_range : ∀ n g, 0 < n → 0 ≤ (intn n g).1 ∧ (intn n g).1 < n

/-- The methods of the `Node` interface that the mesh calls, over states `S`: frames put out and an
error, and an error. -/
structure NodeMethods (S : Type) where
  step : Int64 → S → (List Frame × Option Bytes) × S
  receive : Int64 → Frame → S → Option Bytes × S

structure Mesh (S G : Type) where
  nodes : FMap NodeID S
  edges : FMap NodeID (FMap NodeID Edge)
  pendingFrames : List PendingFrame
  now : Int64
  rng : G

structure StepSummary where
  now : Int64
  framesSent : ℕ := 0
  framesDelivered : ℕ := 0
  framesInFlight : ℕ := 0
  errors : List Bytes := []

section Code

variable {S G : Type} (b : NodeMethods S) (R : Rng G)

def newMesh (rng : G) : Mesh S G := ⟨∅, ∅, [], 0, rng⟩

def Mesh.addNode (m : Mesh S G) (id : NodeID) (s : S) : Mesh S G :=
  { m with nodes := m.nodes.insert id s }

def Mesh.addEdge (m : Mesh S G) (e : Edge) : Mesh S G :=
  let out : FMap NodeID Edge := (m.edges.lookup e.sender).getD ∅
  { m with edges := m.edges.insert e.sender (out.insert e.target e) }

def Mesh.nodeIDs (m : Mesh S G) : List NodeID := sortSlice (fun a b => decide (a < b)) m.nodes.keys

def Mesh.fullMesh (m : Mesh S G) (latencyMs jitterMs : Int64) (lossPct : ℚ) : Mesh S G :=
  let ids := m.nodeIDs
  ids.foldl (fun m a => ids.foldl (fun m b =>
    if a = b then m else m.addEdge ⟨a, b, latencyMs, jitterMs, lossPct⟩) m) m

/-- `m.edges[from][to]`. -/
def Mesh.edge (m : Mesh S G) (sender target : NodeID) : Option Edge :=
  (m.edges.lookup sender).bind fun out => out.lookup target

/-- Whether the edge loses the next frame. No number is drawn where there is no loss. -/
def drawLoss (e : Edge) (g : G) : Bool × G :=
  if 0 < e.lossPct then (decide ((R.float64 g).1 < e.lossPct), (R.float64 g).2) else (false, g)

def atLeastOne (delay : Int64) : Int64 := if delay < 1 then 1 else delay

/-- The latency, give or take the jitter, and at least one; nothing where `Intn` panics. -/
def drawDelay (e : Edge) (g : G) : Option (Int64 × G) :=
  if 0 < e.jitterMs then
    let n := 2 * e.jitterMs + 1
    if n ≤ 0 then none
    else some (atLeastOne (e.latencyMs + ((R.intn n g).1 - e.jitterMs)), (R.intn n g).2)
  else some (atLeastOne e.latencyMs, g)

/-- `sendFrame`, which panics where the delay cannot be drawn. -/
def Mesh.sendFrame (now : Int64) (m : Mesh S G) (f : Frame) : Option (Mesh S G) :=
  match m.edge f.sender f.target with
  | none => some m
  | some e =>
    let loss := drawLoss R e m.rng
    if loss.1 = true then some { m with rng := loss.2 }
    else
      (drawDelay R e loss.2).map fun delay =>
        { m with rng := delay.2
                 pendingFrames := push pendingLess m.pendingFrames ⟨now + delay.1, f⟩ }

/-- One node acts, and the mesh schedules what it put out. -/
def Mesh.fireNode (now : Int64) (p : StepSummary × Mesh S G) (id : NodeID) :
    Option (StepSummary × Mesh S G) :=
  match p.2.nodes.lookup id with
  | none => some p
  | some s =>
    let r := b.step now s
    (r.1.1.foldlM (Mesh.sendFrame R now) { p.2 with nodes := p.2.nodes.insert id r.2 }).map
      fun m =>
        ({ p.1 with
            errors := p.1.errors ++
              (r.1.2.map fun err => utf8 "step " ++ id ++ utf8 ": " ++ err).toList
            framesSent := p.1.framesSent + r.1.1.length }, m)

/-- The first half of `Step`. -/
def Mesh.fire (m : Mesh S G) : Option (StepSummary × Mesh S G) :=
  m.nodeIDs.foldlM (Mesh.fireNode b R (m.now + 1)) (⟨m.now + 1, 0, 0, 0, []⟩,
    { m with now := m.now + 1 })

/-- The second half of `Step`: a frame for an unknown node is dropped. -/
def Mesh.deliverDue (now : Int64) : ℕ → StepSummary × Mesh S G → StepSummary × Mesh S G
  | 0, p => p
  | fuel + 1, p =>
    match p.2.pendingFrames with
    | [] => p
    | head :: _ =>
      if now < head.deliveryAt then p
      else
        let m := { p.2 with pendingFrames := (pop pendingLess p.2.pendingFrames).2 }
        match m.nodes.lookup head.frame.target with
        | none => deliverDue now fuel (p.1, m)
        | some s =>
          let r := b.receive now head.frame s
          deliverDue now fuel
            ({ p.1 with
                errors := p.1.errors ++ (r.1.map fun err => utf8 "recv " ++ head.frame.target ++
                  utf8 "<-" ++ head.frame.sender ++ utf8 ": " ++ err).toList
                framesDelivered := p.1.framesDelivered + 1 },
              { m with nodes := m.nodes.insert head.frame.target r.2 })

def Mesh.step (m : Mesh S G) : Option (StepSummary × Mesh S G) :=
  (m.fire b R).map fun p =>
    let q := Mesh.deliverDue b (m.now + 1) p.2.pendingFrames.length p
    ({ q.1 with framesInFlight := q.2.pendingFrames.length }, q.2)

/-- `Run` with `left` steps left after `i`. -/
def Mesh.runFrom (maxSteps : Int64) (predicate : Mesh S G → Bool) :
    ℕ → Int64 → Mesh S G → Option ((Int64 × Option Bytes) × Mesh S G)
  | 0, _, m => some ((maxSteps, some (utf8 "sim: maxSteps reached without convergence")), m)
  | left + 1, i, m =>
    if predicate m = true then some ((i, none), m)
    else (m.step b R).bind fun q => runFrom maxSteps predicate left (i + 1) q.2

def Mesh.run (m : Mesh S G) (maxSteps : Int64) (predicate : Mesh S G → Bool) :
    Option ((Int64 × Option Bytes) × Mesh S G) :=
  Mesh.runFrom b R maxSteps predicate maxSteps.toInt.toNat 0 m

end Code

variable {S G : Type} {b : NodeMethods S} {R : Rng G}

/-! ## Edges -/

section Edges

variable {latencyMs jitterMs : Int64} {lossPct : ℚ}

theorem edge_addEdge (m : Mesh S G) (e : Edge) (x y : NodeID) :
    (m.addEdge e).edge x y = if x = e.sender ∧ y = e.target then some e else m.edge x y := by
  unfold Mesh.edge Mesh.addEdge
  dsimp only
  rw [FMap.lookup_insert_eq]
  by_cases hx : x = e.sender
  · rw [if_pos hx, Option.bind_some, FMap.lookup_insert_eq, hx]
    by_cases hy : y = e.target
    · rw [if_pos hy, if_pos ⟨rfl, hy⟩]
    · rw [if_neg hy, if_neg fun h => hy h.2]
      cases m.edges.lookup e.sender with
      | none => rfl
      | some out => rfl
  · rw [if_neg hx, if_neg fun h => hx h.1]

/-- One round of the inner loop of `FullMesh`. -/
theorem edge_fullMesh_row (ids : List NodeID) (a x y : NodeID) (m : Mesh S G) :
    (ids.foldl (fun m c => if a = c then m
        else m.addEdge ⟨a, c, latencyMs, jitterMs, lossPct⟩) m).edge x y =
      if x = a ∧ y ∈ ids ∧ y ≠ a then some ⟨x, y, latencyMs, jitterMs, lossPct⟩
      else m.edge x y := by
  induction ids generalizing m with
  | nil => exact (if_neg fun h => List.not_mem_nil h.2.1).symm
  | cons c ids ih =>
    rw [List.foldl_cons, ih]
    by_cases hrow : x = a ∧ y ∈ ids ∧ y ≠ a
    · rw [if_pos hrow, if_pos ⟨hrow.1, List.mem_cons_of_mem c hrow.2.1, hrow.2.2⟩]
    rw [if_neg hrow]
    by_cases hac : a = c
    · rw [if_pos hac, if_neg]
      rintro ⟨hx, hy, hne⟩
      rcases List.mem_cons.mp hy with rfl | hy
      · exact hne hac.symm
      · exact hrow ⟨hx, hy, hne⟩
    · rw [if_neg hac, edge_addEdge]
      dsimp only
      by_cases hnew : x = a ∧ y = c
      · rw [if_pos hnew, if_pos ⟨hnew.1, List.mem_cons.mpr (.inl hnew.2),
          fun h => hac (h.symm.trans hnew.2)⟩, hnew.1, hnew.2]
      · rw [if_neg hnew, if_neg]
        rintro ⟨hx, hy, hne⟩
        rcases List.mem_cons.mp hy with hy | hy
        · exact hnew ⟨hx, hy⟩
        · exact hrow ⟨hx, hy, hne⟩

/-- `FullMesh` leaves one edge with the given properties from every node to every other, and no edge
it found elsewhere changes. -/
theorem edge_fullMesh (m : Mesh S G) (x y : NodeID) :
    (m.fullMesh latencyMs jitterMs lossPct).edge x y =
      if x ∈ m.nodeIDs ∧ y ∈ m.nodeIDs ∧ y ≠ x then
        some ⟨x, y, latencyMs, jitterMs, lossPct⟩
      else m.edge x y := by
  unfold Mesh.fullMesh
  dsimp only
  generalize m.nodeIDs = ids
  have hrows : ∀ (rows : List NodeID) (m : Mesh S G),
      (rows.foldl (fun m a => ids.foldl (fun m c => if a = c then m
        else m.addEdge ⟨a, c, latencyMs, jitterMs, lossPct⟩) m) m).edge x y =
      if x ∈ rows ∧ y ∈ ids ∧ y ≠ x then some ⟨x, y, latencyMs, jitterMs, lossPct⟩
      else m.edge x y := by
    intro rows
    induction rows with
    | nil => exact fun m => (if_neg fun h => List.not_mem_nil h.1).symm
    | cons a rows ih =>
      intro m
      rw [List.foldl_cons, ih, edge_fullMesh_row]
      by_cases hlater : x ∈ rows ∧ y ∈ ids ∧ y ≠ x
      · rw [if_pos hlater, if_pos ⟨List.mem_cons_of_mem a hlater.1, hlater.2⟩]
      · rw [if_neg hlater]
        refine if_congr ⟨?_, ?_⟩ rfl rfl
        · rintro ⟨rfl, hy, hne⟩
          exact ⟨List.mem_cons_self, hy, hne⟩
        · rintro ⟨hx, hy, hne⟩
          rcases List.mem_cons.mp hx with rfl | hx
          · exact ⟨rfl, hy, hne⟩
          · exact absurd ⟨hx, hy, hne⟩ hlater
  exact hrows ids m

end Edges

/-! ## Delays -/

/-- The shortest a frame takes over an edge. -/
def Edge.least (e : Edge) : ℤ := max 1 (e.latencyMs.toInt - max e.jitterMs.toInt 0)

/-- The longest a frame takes over an edge. -/
def Edge.bound (e : Edge) : ℤ := max 1 (e.latencyMs.toInt + max e.jitterMs.toInt 0)

/-- The edge can be timed until the clock shows `t`: neither twice the jitter nor a delay nor a time
of delivery leaves the 64 bits. -/
structure Edge.Fits (e : Edge) (t : ℤ) : Prop where
  jitter : e.jitterMs.toInt < 2 ^ 62
  least : -2 ^ 63 ≤ e.latencyMs.toInt - max e.jitterMs.toInt 0
  bound : t + e.bound < 2 ^ 63

theorem Edge.one_le_least (e : Edge) : 1 ≤ e.least := le_max_left _ _

theorem Edge.one_le_bound (e : Edge) : 1 ≤ e.bound := le_max_left _ _

theorem toInt_atLeastOne (d : Int64) : (atLeastOne d).toInt = max 1 d.toInt := by
  unfold atLeastOne
  have hone : (1 : Int64).toInt = 1 := rfl
  split_ifs with h
  · rw [Int64.lt_iff_toInt_lt] at h
    omega
  · rw [not_lt, Int64.le_iff_toInt_le] at h
    omega

/-- Where the edge can be timed a delay is drawn, between the shortest and the longest. -/
theorem drawDelay_spec {e : Edge} {t : ℤ} (h : e.Fits t) (ht : 0 ≤ t) (R : Rng G) (g : G) :
    ∃ d g', drawDelay R e g = some (d, g') ∧ e.least ≤ d.toInt ∧ d.toInt ≤ e.bound := by
  obtain ⟨hjit, hleast, hbound⟩ := h
  have hzero : (0 : Int64).toInt = 0 := rfl
  have hone : (1 : Int64).toInt = 1 := rfl
  have htwo : (2 : Int64).toInt = 2 := rfl
  unfold Edge.bound at hbound
  unfold drawDelay Edge.least Edge.bound
  by_cases hpos : 0 < e.jitterMs
  · have hj : 0 < e.jitterMs.toInt := Int64.lt_iff_toInt_lt.mp hpos
    have htwice : (2 * e.jitterMs).toInt = 2 * e.jitterMs.toInt :=
      Words.toInt_mul (by rw [htwo]; omega) (by rw [htwo]; omega)
    have hn : (2 * e.jitterMs + 1).toInt = 2 * e.jitterMs.toInt + 1 := by
      rw [Words.toInt_add (by omega) (by omega), htwice, hone]
    have hnpos : 0 < 2 * e.jitterMs + 1 := by
      rw [Int64.lt_iff_toInt_lt, hn]
      omega
    obtain ⟨hdraw, hdraw'⟩ := R.intn_range _ g hnpos
    rw [Int64.le_iff_toInt_le] at hdraw
    rw [Int64.lt_iff_toInt_lt, hn] at hdraw'
    rw [if_pos hpos, if_neg (not_le.mpr hnpos)]
    refine ⟨_, _, rfl, ?_⟩
    generalize (R.intn (2 * e.jitterMs + 1) g).1 = v at *
    have hoff : (v - e.jitterMs).toInt = v.toInt - e.jitterMs.toInt :=
      Words.toInt_sub (by omega) (by omega)
    have hsum : (e.latencyMs + (v - e.jitterMs)).toInt =
        e.latencyMs.toInt + (v.toInt - e.jitterMs.toInt) := by
      rw [Words.toInt_add (by omega) (by omega), hoff]
    rw [toInt_atLeastOne, hsum]
    omega
  · have hj : e.jitterMs.toInt ≤ 0 := Int64.le_iff_toInt_le.mp (not_lt.mp hpos)
    rw [if_neg hpos]
    refine ⟨_, _, rfl, ?_⟩
    rw [toInt_atLeastOne]
    omega

/-! ## Sending -/

/-- The frame goes over an edge without loss. -/
def Mesh.lossless (m : Mesh S G) (f : Frame) : Bool :=
  match m.edge f.sender f.target with
  | none => false
  | some e => decide (e.lossPct ≤ 0)

/-- The frame was timed by its edge, from `now` on. -/
def Mesh.OnTime (m : Mesh S G) (now : Int64) (p : PendingFrame) : Prop :=
  ∃ e, m.edge p.frame.sender p.frame.target = some e ∧
    now.toInt + e.least ≤ p.deliveryAt.toInt ∧ p.deliveryAt.toInt ≤ now.toInt + e.bound

/-- What sending `fs` at `now` does to a mesh: some of the frames are scheduled, each once and in
time, and all of those that go over an edge without loss are. -/
structure Sends (now : Int64) (fs : List Frame) (m m' : Mesh S G) : Prop where
  edges : m'.edges = m.edges
  clock : m'.now = m.now
  heap : IsHeap PendingFrame.deliveryAt m.pendingFrames →
    IsHeap PendingFrame.deliveryAt m'.pendingFrames
  adds : ∃ new, m'.pendingFrames.Perm (new ++ m.pendingFrames) ∧
    (new.map PendingFrame.frame).Subperm fs ∧
    ((new.map PendingFrame.frame).filter m.lossless).Perm (fs.filter m.lossless) ∧
    ∀ p ∈ new, m.OnTime now p

/-- The edges can be timed until the clock shows `T`. -/
structure Mesh.Timed (T : ℤ) (m : Mesh S G) : Prop where
  limit : T < 2 ^ 63
  clock : 0 ≤ m.now.toInt
  edges : ∀ a c e, m.edge a c = some e → e.Fits T

section Sends

variable {now : Int64} {T : ℤ} {fs fs' : List Frame} {m m' m'' : Mesh S G} {p : PendingFrame}

theorem Mesh.OnTime.later (h : m.OnTime now p) : now < p.deliveryAt := by
  obtain ⟨e, -, hleast, -⟩ := h
  rw [Int64.lt_iff_toInt_lt]
  have := e.one_le_least
  omega

theorem edge_congr (h : m'.edges = m.edges) (a c : NodeID) : m'.edge a c = m.edge a c := by
  unfold Mesh.edge
  rw [h]

theorem lossless_congr (h : m'.edges = m.edges) : m'.lossless = m.lossless := by
  unfold Mesh.lossless
  simp only [edge_congr h]

theorem onTime_congr (h : m'.edges = m.edges) : m'.OnTime now p ↔ m.OnTime now p := by
  unfold Mesh.OnTime
  simp only [edge_congr h]

theorem Sends.refl (now : Int64) (m : Mesh S G) : Sends now [] m m :=
  ⟨rfl, rfl, id, [], .refl _, .refl _, .refl _, fun _ h => absurd h List.not_mem_nil⟩

theorem Sends.trans (h : Sends now fs m m') (h' : Sends now fs' m' m'') :
    Sends now (fs ++ fs') m m'' := by
  refine ⟨h'.edges.trans h.edges, h'.clock.trans h.clock, fun hh => h'.heap (h.heap hh), ?_⟩
  obtain ⟨new, hperm, hsub, hall, htime⟩ := h.adds
  obtain ⟨new', hperm', hsub', hall', htime'⟩ := h'.adds
  rw [lossless_congr h.edges] at hall'
  refine ⟨new' ++ new, ?_, ?_, ?_, List.forall_mem_append.mpr ⟨fun p hp => ?_, htime⟩⟩
  · rw [List.append_assoc]
    exact hperm'.trans (hperm.append_left new')
  · rw [List.map_append]
    exact (hsub'.append hsub).trans List.perm_append_comm.subperm
  · rw [List.map_append, List.filter_append, List.filter_append]
    exact (hall'.append hall).trans List.perm_append_comm
  · exact (onTime_congr h.edges).mp (htime' p hp)

theorem Mesh.Timed.congr (h : m.Timed T) (hedges : m'.edges = m.edges) (hclock : m'.now = m.now) :
    m'.Timed T :=
  ⟨h.limit, hclock ▸ h.clock, fun a c e he => h.edges a c e ((edge_congr hedges a c).symm.trans he)⟩

/-- Where the edges can be timed, no frame makes the mesh panic. -/
theorem sendFrame_spec (hm : m.Timed T) (hnow : 0 ≤ now.toInt) (hT : now.toInt ≤ T) (f : Frame) :
    ∃ m', m.sendFrame R now f = some m' ∧ Sends now [f] m m' ∧ m'.nodes = m.nodes := by
  unfold Mesh.sendFrame
  cases he : m.edge f.sender f.target with
  | none =>
    refine ⟨m, rfl, ⟨rfl, rfl, id, [], .refl _, List.nil_subperm, ?_,
      fun _ h => absurd h List.not_mem_nil⟩, rfl⟩
    have hno : m.lossless f = false := by rw [Mesh.lossless, he]
    rw [List.filter_singleton, hno]
    exact .refl _
  | some e =>
    dsimp only
    split_ifs with hlost
    · refine ⟨_, rfl, ⟨rfl, rfl, id, [], .refl _, List.nil_subperm, ?_,
        fun _ h => absurd h List.not_mem_nil⟩, rfl⟩
      have hno : m.lossless f = false := by
        rw [Mesh.lossless, he]
        refine decide_eq_false fun hloss => ?_
        rw [drawLoss, if_neg (not_lt.mpr hloss)] at hlost
        cases hlost
      rw [List.filter_singleton, hno]
      exact .refl _
    · have hfit := hm.edges _ _ e he
      obtain ⟨d, g', hdraw, hleast, hbound⟩ :=
        drawDelay_spec hfit (hnow.trans hT) R (drawLoss R e m.rng).2
      have hlimit := hfit.bound
      have hpos := e.one_le_least
      have htime : (now + d).toInt = now.toInt + d.toInt := Words.toInt_add (by omega) (by omega)
      rw [hdraw]
      refine ⟨_, rfl, ⟨rfl, rfl, fun hh => isHeap_push hh _, [⟨now + d, f⟩],
        perm_push pendingLess m.pendingFrames _, .refl _, .refl _, fun p hp => ?_⟩, rfl⟩
      rw [List.mem_singleton.mp hp]
      refine ⟨e, he, ?_⟩
      dsimp only
      omega

theorem sendFrames_spec (hm : m.Timed T) (hnow : 0 ≤ now.toInt) (hT : now.toInt ≤ T)
    (fs : List Frame) :
    ∃ m', fs.foldlM (Mesh.sendFrame R now) m = some m' ∧ Sends now fs m m' ∧
      m'.nodes = m.nodes := by
  induction fs generalizing m with
  | nil => exact ⟨m, rfl, Sends.refl now m, rfl⟩
  | cons f fs ih =>
    obtain ⟨m₁, hsend, hsends, hnodes⟩ := sendFrame_spec (R := R) hm hnow hT f
    obtain ⟨m₂, hrest, hsends', hnodes'⟩ := ih (hm.congr hsends.edges hsends.clock)
    refine ⟨m₂, ?_, hsends.trans hsends', hnodes'.trans hnodes⟩
    rw [List.foldlM_cons, hsend]
    exact hrest

end Sends

/-! ## The first half of a step -/

/-- What a node puts out when it acts. -/
def Mesh.outOf (b : NodeMethods S) (m : Mesh S G) (now : Int64) (id : NodeID) : List Frame :=
  ((m.nodes.lookup id).map fun s => (b.step now s).1.1).getD []

/-- What the nodes put out in the next step. -/
def Mesh.outs (b : NodeMethods S) (m : Mesh S G) : List Frame :=
  m.nodeIDs.flatMap (m.outOf b (m.now + 1))

section Fire

variable {now : Int64} {T : ℤ}

theorem fireNode_spec {p : StepSummary × Mesh S G} (hm : p.2.Timed T) (hnow : 0 ≤ now.toInt)
    (hT : now.toInt ≤ T) (id : NodeID) :
    ∃ q, Mesh.fireNode b R now p id = some q ∧ Sends now (p.2.outOf b now id) p.2 q.2 ∧
      ∀ j, q.2.nodes.lookup j =
        if j = id then (p.2.nodes.lookup j).map fun s => (b.step now s).2
        else p.2.nodes.lookup j := by
  unfold Mesh.fireNode Mesh.outOf
  cases hs : p.2.nodes.lookup id with
  | none =>
    refine ⟨p, rfl, Sends.refl now p.2, fun j => ?_⟩
    split_ifs with hj
    · rw [hj, hs]
      rfl
    · rfl
  | some s =>
    -- scheduling does not look at the nodes
    obtain ⟨m', hsend, ⟨hedges, hclock, hheap, hadds⟩, hnodes⟩ := sendFrames_spec (R := R)
      (m := { p.2 with nodes := p.2.nodes.insert id (b.step now s).2 })
      ⟨hm.limit, hm.clock, hm.edges⟩ hnow hT (b.step now s).1.1
    dsimp only
    rw [hsend]
    refine ⟨_, rfl, ⟨hedges, hclock, hheap, hadds⟩, fun j => ?_⟩
    dsimp only
    rw [hnodes, FMap.lookup_insert_eq]
    split_ifs with hj
    · rw [hj, hs]
      rfl
    · rfl

/-- The nodes of a list act one after another, none of them twice. -/
theorem fireNodes_spec {ids : List NodeID} (hids : ids.Nodup) {p : StepSummary × Mesh S G}
    (hm : p.2.Timed T) (hnow : 0 ≤ now.toInt) (hT : now.toInt ≤ T) :
    ∃ q, ids.foldlM (Mesh.fireNode b R now) p = some q ∧
      Sends now (ids.flatMap (p.2.outOf b now)) p.2 q.2 ∧
      ∀ j, q.2.nodes.lookup j =
        if j ∈ ids then (p.2.nodes.lookup j).map fun s => (b.step now s).2
        else p.2.nodes.lookup j := by
  induction ids generalizing p with
  | nil => exact ⟨p, rfl, Sends.refl now p.2, fun j => (if_neg List.not_mem_nil).symm⟩
  | cons id ids ih =>
    obtain ⟨hnot, hnodup⟩ := List.nodup_cons.mp hids
    obtain ⟨p₁, hfire, hsends, hlookup⟩ := fireNode_spec (b := b) (R := R) hm hnow hT id
    obtain ⟨q, hrest, hsends', hlookup'⟩ := ih hnodup (hm.congr hsends.edges hsends.clock)
    refine ⟨q, by rw [List.foldlM_cons, hfire]; exact hrest, ?_, fun j => ?_⟩
    · have hout : ids.flatMap (p₁.2.outOf b now) = ids.flatMap (p.2.outOf b now) := by
        refine List.flatMap_congr fun j hj => ?_
        unfold Mesh.outOf
        have hne : j ≠ id := fun heq => hnot (heq ▸ hj)
        rw [hlookup, if_neg hne]
      rw [hout] at hsends'
      rw [List.flatMap_cons]
      exact hsends.trans hsends'
    · rw [hlookup', hlookup]
      by_cases hj : j = id
      · subst hj
        rw [if_neg hnot, if_pos rfl, if_pos List.mem_cons_self]
      · rw [if_neg hj]
        refine if_congr ?_ rfl rfl
        rw [List.mem_cons, or_iff_right hj]

theorem mem_nodeIDs {m : Mesh S G} {id : NodeID} :
    id ∈ m.nodeIDs ↔ ∃ s, m.nodes.lookup id = some s := by
  unfold Mesh.nodeIDs
  rw [SortSlice.mem_iff]
  exact FMap.mem_keys

theorem nodup_nodeIDs (m : Mesh S G) : m.nodeIDs.Nodup :=
  (SortSlice.perm _ _).nodup_iff.mpr m.nodes.keys_nodup

theorem Mesh.Timed.toInt_succ {m : Mesh S G} (h : m.Timed T) (hT : m.now.toInt + 1 ≤ T) :
    (m.now + 1).toInt = m.now.toInt + 1 := by
  have hlimit := h.limit
  have hclock := h.clock
  exact Words.toInt_add (by show _ ≤ m.now.toInt + 1; omega) (by show m.now.toInt + 1 < _; omega)

theorem fire_spec {m : Mesh S G} (hm : m.Timed T) (hT : m.now.toInt + 1 ≤ T) :
    ∃ p, m.fire b R = some p ∧
      Sends (m.now + 1) (m.outs b) { m with now := m.now + 1 } p.2 ∧
      ∀ j, p.2.nodes.lookup j = (m.nodes.lookup j).map fun s => (b.step (m.now + 1) s).2 := by
  have hsucc := hm.toInt_succ hT
  have hclock := hm.clock
  have hnow : 0 ≤ (m.now + 1).toInt := by omega
  have htimed : ({ m with now := m.now + 1 } : Mesh S G).Timed T :=
    ⟨hm.limit, by dsimp only; omega, hm.edges⟩
  obtain ⟨p, hfire, hsends, hlookup⟩ := fireNodes_spec (b := b) (R := R) (nodup_nodeIDs m)
    (p := (⟨m.now + 1, 0, 0, 0, []⟩, { m with now := m.now + 1 })) htimed hnow (by omega)
  refine ⟨p, hfire, hsends, fun j => (hlookup j).trans ?_⟩
  dsimp only
  split_ifs with hj
  · rfl
  · rw [mem_nodeIDs, ← Option.ne_none_iff_exists', not_not] at hj
    rw [hj]
    rfl

end Fire

/-! ## The second half of a step -/

/-- A frame in the hands of its target, if there is one. -/
def receiveFrame (b : NodeMethods S) (now : Int64) (nodes : FMap NodeID S) (p : PendingFrame) :
    FMap NodeID S :=
  match nodes.lookup p.frame.target with
  | none => nodes
  | some s => nodes.insert p.frame.target (b.receive now p.frame s).2

/-- The frames for a node. -/
def framesFor (id : NodeID) (ps : List PendingFrame) : List PendingFrame :=
  ps.filter fun p => p.frame.target == id

/-- A node receives frames one after another. -/
def receiveAll (b : NodeMethods S) (now : Int64) (ps : List PendingFrame) (s : S) : S :=
  ps.foldl (fun s p => (b.receive now p.frame s).2) s

/-- The heap once the nodes have acted. -/
def Mesh.fired (b : NodeMethods S) (R : Rng G) (m : Mesh S G) : List PendingFrame :=
  match m.fire b R with
  | none => []
  | some p => p.2.pendingFrames

/-- The frames whose time comes in the next step, in the order of delivery. -/
def Mesh.arrivals (b : NodeMethods S) (R : Rng G) (m : Mesh S G) : List PendingFrame :=
  (popWhile pendingLess (fun p => decide (p.deliveryAt ≤ m.now + 1)) (m.fired b R).length
    (m.fired b R)).1

/-- What a step schedules. -/
def Mesh.scheduled (b : NodeMethods S) (R : Rng G) (m : Mesh S G) : Multiset PendingFrame :=
  Multiset.ofList (m.fired b R) - Multiset.ofList m.pendingFrames

section Deliver

variable {now : Int64}

theorem deliverDue_snd (fuel : ℕ) (p : StepSummary × Mesh S G) :
    (Mesh.deliverDue b now fuel p).2 =
      { p.2 with
        pendingFrames := (popWhile pendingLess (fun q => decide (q.deliveryAt ≤ now)) fuel
          p.2.pendingFrames).2
        nodes := (popWhile pendingLess (fun q => decide (q.deliveryAt ≤ now)) fuel
          p.2.pendingFrames).1.foldl (receiveFrame b now) p.2.nodes } := by
  induction fuel generalizing p with
  | zero => rfl
  | succ fuel ih =>
    unfold Mesh.deliverDue
    cases hp : p.2.pendingFrames with
    | nil =>
      show p.2 = { p.2 with pendingFrames := [] }
      rw [← hp]
    | cons head rest =>
      dsimp only
      unfold popWhile
      by_cases hdue : now < head.deliveryAt
      · rw [if_pos hdue, if_neg (by rw [decide_eq_true_iff]; exact not_le.mpr hdue), ← hp]
        rfl
      · rw [if_neg hdue, if_pos (decide_eq_true (not_lt.mp hdue)), ← hp]
        dsimp only
        rw [List.foldl_cons]
        cases hs : p.2.nodes.lookup head.frame.target with
        | none =>
          dsimp only
          rw [ih]
          dsimp only
          rw [receiveFrame, hs]
        | some s =>
          dsimp only
          rw [ih]
          dsimp only
          rw [receiveFrame, hs]

theorem lookup_receiveFrame (nodes : FMap NodeID S) (p : PendingFrame) (id : NodeID) :
    (receiveFrame b now nodes p).lookup id =
      if p.frame.target = id then (nodes.lookup id).map fun s => (b.receive now p.frame s).2
      else nodes.lookup id := by
  unfold receiveFrame
  split
  · rename_i hnone
    split_ifs with hid
    · rw [← hid, hnone]
      rfl
    · rfl
  · rename_i s hs
    rw [FMap.lookup_insert_eq]
    by_cases hid : p.frame.target = id
    · rw [if_pos hid.symm, if_pos hid, ← hid, hs]
      rfl
    · rw [if_neg (Ne.symm hid), if_neg hid]

theorem lookup_receiveFrames (ps : List PendingFrame) (nodes : FMap NodeID S) (id : NodeID) :
    (ps.foldl (receiveFrame b now) nodes).lookup id = (nodes.lookup id).map
      (receiveAll b now (framesFor id ps)) := by
  induction ps generalizing nodes with
  | nil => exact Option.map_id'.symm
  | cons p ps ih =>
    rw [List.foldl_cons, ih, lookup_receiveFrame]
    by_cases hid : p.frame.target = id
    · have hcons : framesFor id (p :: ps) = p :: framesFor id ps :=
        List.filter_cons_of_pos (beq_iff_eq.mpr hid)
      rw [hcons, if_pos hid, Option.map_map]
      rfl
    · have hcons : framesFor id (p :: ps) = framesFor id ps :=
        List.filter_cons_of_neg fun h => hid (beq_iff_eq.mp h)
      rw [hcons, if_neg hid]

/-- What is left of a step once the nodes have acted. -/
theorem step_of_fire {m : Mesh S G} {p : StepSummary × Mesh S G} (h : m.fire b R = some p) :
    ∃ q, m.step b R = some q ∧ q.2 = { p.2 with
      pendingFrames := (popWhile pendingLess (fun q => decide (q.deliveryAt ≤ m.now + 1))
        p.2.pendingFrames.length p.2.pendingFrames).2
      nodes := (m.arrivals b R).foldl (receiveFrame b (m.now + 1)) p.2.nodes } := by
  have hfired : m.fired b R = p.2.pendingFrames := by rw [Mesh.fired, h]
  unfold Mesh.step Mesh.arrivals
  rw [h, hfired]
  exact ⟨_, rfl, deliverDue_snd _ p⟩

end Deliver

/-! ## A step -/

/-- Between steps the frames in flight form a heap, and all of them are for later. -/
structure Timely (m : Mesh S G) : Prop where
  heap : IsHeap PendingFrame.deliveryAt m.pendingFrames
  later : ∀ p ∈ m.pendingFrames, m.now < p.deliveryAt

/-- What a step does to a mesh. It takes off exactly what is due, hands it to the nodes after they
have acted, and schedules what they put out: nothing more often than that, all that goes over an
edge without loss, and in time. -/
structure Stepped (b : NodeMethods S) (R : Rng G) (m m' : Mesh S G) : Prop where
  clock : m'.now = m.now + 1
  edges : m'.edges = m.edges
  timely : Timely m'
  nodes : ∀ id, m'.nodes.lookup id = (m.nodes.lookup id).map fun s =>
    receiveAll b (m.now + 1) (framesFor id (m.arrivals b R)) (b.step (m.now + 1) s).2
  arrivals : Multiset.ofList (m.arrivals b R) =
    (Multiset.ofList m.pendingFrames).filter (fun p => p.deliveryAt = m.now + 1)
  pending : Multiset.ofList m'.pendingFrames =
    (Multiset.ofList m.pendingFrames + m.scheduled b R).filter (fun p => m.now + 1 < p.deliveryAt)
  outs : (m.scheduled b R).map PendingFrame.frame ≤ Multiset.ofList (m.outs b)
  lossless : ((m.scheduled b R).map PendingFrame.frame).filter (fun f => m.lossless f = true) =
    (Multiset.ofList (m.outs b)).filter fun f => m.lossless f = true
  onTime : ∀ p ∈ m.scheduled b R, m.OnTime (m.now + 1) p

section Step

variable {m m' : Mesh S G} {T : ℤ} {p : PendingFrame}

/-- What is scheduled after the nodes have sent `fs`. -/
theorem scheduled_eq {q : StepSummary × Mesh S G} (h : m.fire b R = some q)
    {new : List PendingFrame} (hperm : q.2.pendingFrames.Perm (new ++ m.pendingFrames)) :
    m.scheduled b R = Multiset.ofList new := by
  unfold Mesh.scheduled Mesh.fired
  rw [h, Multiset.coe_eq_coe.mpr hperm, ← Multiset.coe_add]
  exact add_tsub_cancel_right _ _

/-- If one part of a multiset meets a predicate and the rest does not, it is what meets it. -/
theorem eq_filter_of_add_eq {α : Type} {P : α → Prop} [DecidablePred P] {x y z : Multiset α}
    (h : x + y = z) (hx : ∀ a ∈ x, P a) (hy : ∀ a ∈ y, ¬ P a) : x = z.filter P := by
  rw [← h, Multiset.filter_add, Multiset.filter_eq_self.mpr hx, Multiset.filter_eq_nil.mpr hy,
    add_zero]

/-- The time of a frame that is for later and due in the next step is the next one. -/
theorem due_iff (hsucc : (m.now + 1).toInt = m.now.toInt + 1) (hlater : m.now < p.deliveryAt) :
    p.deliveryAt ≤ m.now + 1 ↔ p.deliveryAt = m.now + 1 := by
  rw [Int64.lt_iff_toInt_lt] at hlater
  rw [Int64.le_iff_toInt_le, ← Int64.toInt_inj, hsucc]
  omega

/-- **A step.** Where the edges can be timed a step does not panic. -/
theorem Timely.step (h : Timely m) (hm : m.Timed T) (hT : m.now.toInt + 1 ≤ T) :
    ∃ q, m.step b R = some q ∧ Stepped b R m q.2 := by
  have hsucc := hm.toInt_succ hT
  obtain ⟨p, hfire, hsends, hlookup⟩ := fire_spec (b := b) (R := R) hm hT
  obtain ⟨new, hperm, hsub, hall, htime⟩ := hsends.adds
  obtain ⟨q, hstep, heq⟩ := step_of_fire hfire
  have hfired : m.fired b R = p.2.pendingFrames := by rw [Mesh.fired, hfire]
  have hsched : m.scheduled b R = Multiset.ofList new := scheduled_eq hfire hperm
  have hlate : ∀ p ∈ Multiset.ofList new, ¬ p.deliveryAt ≤ m.now + 1 :=
    fun p hp => not_le.mpr (htime p (Multiset.mem_coe.mp hp)).later
  obtain ⟨due, rest, hpop, -, hdue, hrest, hstay, hsplit⟩ :=
    popWhile_due (hsends.heap h.heap) le_rfl (m.now + 1)
  have harr : m.arrivals b R = due := by
    unfold Mesh.arrivals
    rw [hfired]
    exact congrArg Prod.fst hpop
  have hpend : q.2.pendingFrames = rest := by
    rw [heq]
    exact congrArg Prod.snd hpop
  have hclock : q.2.now = m.now + 1 := by
    rw [heq]
    exact hsends.clock
  have htotal : Multiset.ofList due + Multiset.ofList rest =
      Multiset.ofList m.pendingFrames + m.scheduled b R := by
    rw [hsched, Multiset.coe_add, Multiset.coe_add, Multiset.coe_eq_coe]
    exact hsplit.trans (hperm.trans List.perm_append_comm)
  refine ⟨q, hstep, hclock, ?_, ⟨hpend ▸ hrest, fun p hp => ?_⟩, fun id => ?_, ?_, ?_, ?_, ?_, ?_⟩
  · rw [heq]
    exact hsends.edges
  · rw [hclock]
    exact hstay p (hpend ▸ hp)
  · rw [heq]
    dsimp only
    rw [lookup_receiveFrames, hlookup, Option.map_map]
    rfl
  · rw [harr, eq_filter_of_add_eq htotal hdue fun p hp => not_le.mpr (hstay p hp),
      Multiset.filter_add, hsched, Multiset.filter_eq_nil.mpr hlate, add_zero]
    exact Multiset.filter_congr fun p hp => due_iff hsucc (h.later p (Multiset.mem_coe.mp hp))
  · rw [hpend]
    exact eq_filter_of_add_eq ((add_comm _ _).trans htotal) hstay
      fun p hp => not_lt.mpr (hdue p hp)
  · rw [hsched, Multiset.map_coe, Multiset.coe_le]
    exact hsub
  · rw [hsched, Multiset.map_coe, Multiset.filter_coe, Multiset.filter_coe, Multiset.coe_eq_coe]
    simp only [Bool.decide_eq_true]
    exact hall
  · intro p hp
    rw [hsched] at hp
    exact htime p (Multiset.mem_coe.mp hp)

theorem Stepped.arrival_mem (h : Stepped b R m m') (hp : p ∈ m.arrivals b R) :
    p ∈ m.pendingFrames := by
  rw [← Multiset.mem_coe, h.arrivals] at hp
  exact Multiset.mem_coe.mp (Multiset.mem_of_mem_filter hp)

/-- What was in flight arrives if it is due and stays if not. -/
theorem Stepped.arrives_or_stays (h : Stepped b R m m') (ht : Timely m)
    (hsucc : (m.now + 1).toInt = m.now.toInt + 1) (hp : p ∈ m.pendingFrames) :
    p ∈ m.arrivals b R ∨ p ∈ m'.pendingFrames := by
  by_cases hdue : p.deliveryAt ≤ m.now + 1
  · left
    rw [← Multiset.mem_coe, h.arrivals, Multiset.mem_filter]
    exact ⟨hp, (due_iff hsucc (ht.later p hp)).mp hdue⟩
  · right
    rw [← Multiset.mem_coe, h.pending, Multiset.mem_filter, Multiset.mem_add]
    exact ⟨Or.inl hp, not_le.mp hdue⟩

/-- What stays in flight was in flight before or was put out in the step. -/
theorem Stepped.stays (h : Stepped b R m m') (hp : p ∈ m'.pendingFrames) :
    p ∈ m.pendingFrames ∨ p.frame ∈ m.outs b := by
  rw [← Multiset.mem_coe, h.pending] at hp
  rcases Multiset.mem_add.mp (Multiset.mem_of_mem_filter hp) with hold | hnew
  · exact Or.inl (Multiset.mem_coe.mp hold)
  · refine Or.inr (Multiset.mem_coe.mp ?_)
    exact Multiset.mem_of_le h.outs (Multiset.mem_map_of_mem _ hnew)

/-- What is put out over an edge without loss is in flight after the step, and in time. -/
theorem Stepped.keeps (h : Stepped b R m m') {f : Frame} (hf : f ∈ m.outs b) {e : Edge}
    (he : m.edge f.sender f.target = some e) (hloss : e.lossPct ≤ 0) :
    ∃ p ∈ m'.pendingFrames, p.frame = f ∧
      p.deliveryAt.toInt ≤ (m.now + 1).toInt + e.bound := by
  have hlossless : m.lossless f = true := by
    rw [Mesh.lossless, he]
    exact decide_eq_true hloss
  have hmem : f ∈ ((m.scheduled b R).map PendingFrame.frame).filter
      (fun f => m.lossless f = true) := by
    rw [h.lossless, Multiset.mem_filter]
    exact ⟨hf, hlossless⟩
  obtain ⟨p, hp, rfl⟩ := Multiset.mem_map.mp (Multiset.mem_of_mem_filter hmem)
  have htime := h.onTime p hp
  refine ⟨p, ?_, rfl, ?_⟩
  · rw [← Multiset.mem_coe, h.pending, Multiset.mem_filter, Multiset.mem_add]
    exact ⟨Or.inr hp, htime.later⟩
  · obtain ⟨e', he', -, hbound⟩ := htime
    rw [he] at he'
    cases he'
    exact hbound

theorem mem_outs {f : Frame} :
    f ∈ m.outs b ↔ ∃ id s, m.nodes.lookup id = some s ∧ f ∈ (b.step (m.now + 1) s).1.1 := by
  unfold Mesh.outs
  rw [List.mem_flatMap]
  constructor
  · rintro ⟨id, hid, hf⟩
    obtain ⟨s, hs⟩ := mem_nodeIDs.mp hid
    unfold Mesh.outOf at hf
    rw [hs] at hf
    exact ⟨id, s, hs, hf⟩
  · rintro ⟨id, s, hs, hf⟩
    refine ⟨id, mem_nodeIDs.mpr ⟨s, hs⟩, ?_⟩
    unfold Mesh.outOf
    rw [hs]
    exact hf

end Step

/-! ## Runs -/

/-- What a harness does with a mesh: set it up, call methods of a node between steps, step. -/
inductive MeshOp (S : Type) where
  | addNode (id : NodeID) (s : S)
  | addEdge (e : Edge)
  | call (id : NodeID) (method : S → S)
  | step

def MeshOp.exec (b : NodeMethods S) (R : Rng G) (m : Mesh S G) : MeshOp S → Option (Mesh S G)
  | .addNode id s => some (m.addNode id s)
  | .addEdge e => some (m.addEdge e)
  | .call id method =>
    match m.nodes.lookup id with
    | none => some m
    | some s => some { m with nodes := m.nodes.insert id (method s) }
  | .step => (m.step b R).map Prod.snd

/-- The mesh after a run, unless a step panics. -/
def runMesh (b : NodeMethods S) (R : Rng G) (m : Mesh S G) (ops : List (MeshOp S)) :
    Option (Mesh S G) :=
  ops.foldlM (MeshOp.exec b R) m

/-- By how much an operation moves the clock. -/
def MeshOp.ticks : MeshOp S → ℕ
  | .step => 1
  | _ => 0

/-- The number of steps in a run. -/
def steps (ops : List (MeshOp S)) : ℕ := (ops.map MeshOp.ticks).sum

/-- The edge that is added can be timed. -/
def MeshOp.Fits (T : ℤ) : MeshOp S → Prop
  | .addEdge e => e.Fits T
  | _ => True

/-- What an operation schedules. -/
def MeshOp.schedules (b : NodeMethods S) (R : Rng G) (m : Mesh S G) :
    MeshOp S → Multiset PendingFrame
  | .step => m.scheduled b R
  | _ => 0

/-- What the steps of a run schedule. -/
def scheduledIn (b : NodeMethods S) (R : Rng G) : Mesh S G → List (MeshOp S) →
    Multiset PendingFrame
  | _, [] => 0
  | m, op :: ops =>
    op.schedules b R m +
      match op.exec b R m with
      | none => 0
      | some m' => scheduledIn b R m' ops

section Runs

variable {m m' : Mesh S G} {op : MeshOp S} {ops : List (MeshOp S)} {T : ℤ} {p : PendingFrame}

theorem steps_cons (op : MeshOp S) (ops : List (MeshOp S)) :
    steps (op :: ops) = op.ticks + steps ops := by
  unfold steps
  rw [List.map_cons, List.sum_cons]

theorem MeshOp.ticks_le_one (op : MeshOp S) : op.ticks ≤ 1 := by
  cases op with
  | addNode => exact Nat.zero_le 1
  | addEdge => exact Nat.zero_le 1
  | call => exact Nat.zero_le 1
  | step => exact le_rfl

theorem steps_append (ops ops' : List (MeshOp S)) :
    steps (ops ++ ops') = steps ops + steps ops' := by
  unfold steps
  rw [List.map_append, List.sum_append]

theorem runMesh_cons (m : Mesh S G) (op : MeshOp S) (ops : List (MeshOp S)) :
    runMesh b R m (op :: ops) = (op.exec b R m).bind fun m' => runMesh b R m' ops :=
  List.foldlM_cons

theorem runMesh_append (m : Mesh S G) (ops ops' : List (MeshOp S)) :
    runMesh b R m (ops ++ ops') = (runMesh b R m ops).bind fun m' => runMesh b R m' ops' :=
  List.foldlM_append

/-- Between steps the frames in flight and the clock stay, and the edges are as before or added. -/
theorem exec_of_ne_step (hop : op ≠ .step) :
    ∃ m', op.exec b R m = some m' ∧ m'.pendingFrames = m.pendingFrames ∧ m'.now = m.now ∧
      op.ticks = 0 ∧ op.schedules b R m = 0 ∧
      (m.Timed T → op.Fits T → m'.Timed T) := by
  cases op with
  | addNode => exact ⟨_, rfl, rfl, rfl, rfl, rfl, fun hm _ => ⟨hm.limit, hm.clock, hm.edges⟩⟩
  | addEdge e =>
    refine ⟨_, rfl, rfl, rfl, rfl, rfl, fun hm hfit => ⟨hm.limit, hm.clock, fun a c e' he => ?_⟩⟩
    rw [edge_addEdge] at he
    split_ifs at he
    · cases he
      exact hfit
    · exact hm.edges a c e' he
  | call id method =>
    unfold MeshOp.exec
    dsimp only
    split
    · exact ⟨_, rfl, rfl, rfl, rfl, rfl, fun hm _ => ⟨hm.limit, hm.clock, hm.edges⟩⟩
    · exact ⟨_, rfl, rfl, rfl, rfl, rfl, fun hm _ => ⟨hm.limit, hm.clock, hm.edges⟩⟩
  | step => exact absurd rfl hop

/-- What an operation does to frames and clock. -/
structure Executed (b : NodeMethods S) (R : Rng G) (T : ℤ) (op : MeshOp S) (m m' : Mesh S G) :
    Prop where
  timely : Timely m'
  timed : m'.Timed T
  clock : m'.now.toInt = m.now.toInt + op.ticks
  pending : Multiset.ofList m'.pendingFrames =
    (Multiset.ofList m.pendingFrames + op.schedules b R m).filter
      fun p => m'.now < p.deliveryAt

theorem Timely.exec (h : Timely m) (hm : m.Timed T) (hop : op.Fits T)
    (hT : m.now.toInt + op.ticks ≤ T) :
    ∃ m', op.exec b R m = some m' ∧ Executed b R T op m m' := by
  by_cases hstep : op = .step
  · subst hstep
    have hsucc := hm.toInt_succ hT
    obtain ⟨q, hq, hs⟩ := h.step (b := b) (R := R) hm hT
    refine ⟨q.2, by rw [MeshOp.exec, hq]; rfl, hs.timely, ⟨hm.limit, ?_, fun a c e he => ?_⟩, ?_,
      ?_⟩
    · rw [hs.clock, hsucc]
      have := hm.clock
      omega
    · exact hm.edges a c e ((edge_congr hs.edges a c).symm.trans he)
    · rw [hs.clock, hsucc]
      rfl
    · rw [hs.clock, hs.pending]
      rfl
  · obtain ⟨m', hexec, hpend, hnow, hticks, hsched, htimed⟩ :=
      exec_of_ne_step (b := b) (R := R) (m := m) (T := T) hstep
    refine ⟨m', hexec, ⟨hpend ▸ h.heap, fun p hp => ?_⟩, htimed hm hop, ?_, ?_⟩
    · rw [hnow]
      exact h.later p (hpend ▸ hp)
    · rw [hnow, hticks]
      exact (add_zero _).symm
    · rw [hpend, hnow, hsched, add_zero, Multiset.filter_eq_self.mpr h.later]

/-- In flight is what was scheduled and is not due: no frame is lost, made up or kept back. -/
theorem Timely.run (h : Timely m) (hm : m.Timed T) (hops : ∀ op ∈ ops, op.Fits T)
    (hT : m.now.toInt + steps ops ≤ T) :
    ∃ m', runMesh b R m ops = some m' ∧ Timely m' ∧ m'.Timed T ∧
      m'.now.toInt = m.now.toInt + steps ops ∧
      Multiset.ofList m'.pendingFrames =
        (Multiset.ofList m.pendingFrames + scheduledIn b R m ops).filter
          fun p => m'.now < p.deliveryAt := by
  induction ops generalizing m with
  | nil =>
    refine ⟨m, rfl, h, hm, (add_zero _).symm, ?_⟩
    rw [scheduledIn, add_zero, Multiset.filter_eq_self.mpr h.later]
  | cons op ops ih =>
    obtain ⟨hop, hops⟩ := List.forall_mem_cons.mp hops
    rw [steps_cons] at hT
    push_cast at hT
    obtain ⟨m₁, hexec, hdone⟩ := h.exec (b := b) (R := R) hm hop (by omega)
    have hclock := hdone.clock
    obtain ⟨m', hrun, ht, hm', hnow, hpend⟩ := ih hdone.timely hdone.timed hops (by omega)
    refine ⟨m', by rw [runMesh_cons, hexec]; exact hrun, ht, hm', ?_, ?_⟩
    · rw [steps_cons]
      push_cast
      omega
    · have hsched : scheduledIn b R m (op :: ops) =
          op.schedules b R m + scheduledIn b R m₁ ops := by
        rw [scheduledIn, hexec]
      have hle : m₁.now ≤ m'.now := by
        rw [Int64.le_iff_toInt_le]
        omega
      rw [hpend, hdone.pending, hsched, Multiset.filter_add, Multiset.filter_filter, ← add_assoc,
        Multiset.filter_add _ (_ + op.schedules b R m)]
      refine congrArg (· + _) (Multiset.filter_congr fun p _ => and_iff_left_of_imp fun hp => ?_)
      exact hle.trans_lt hp

/-- A frame in flight arrives in the step that reaches its time. -/
theorem Timely.arrives (h : Timely m) (hm : m.Timed T) (hops : ∀ op ∈ ops, op.Fits T)
    (hT : m.now.toInt + steps ops ≤ T) (hp : p ∈ m.pendingFrames)
    (hdue : p.deliveryAt.toInt ≤ m.now.toInt + steps ops) :
    ∃ front back m₁, ops = front ++ .step :: back ∧ runMesh b R m front = some m₁ ∧
      p ∈ m₁.arrivals b R := by
  induction ops generalizing m with
  | nil =>
    have hlater := Int64.lt_iff_toInt_lt.mp (h.later p hp)
    have hzero : steps ([] : List (MeshOp S)) = 0 := rfl
    omega
  | cons op ops ih =>
    obtain ⟨hop, hops⟩ := List.forall_mem_cons.mp hops
    rw [steps_cons] at hT hdue
    push_cast at hT hdue
    obtain ⟨m₁, hexec, hdone⟩ := h.exec (b := b) (R := R) hm hop (by omega)
    have hclock := hdone.clock
    by_cases hnow : op = .step ∧ p ∈ m.arrivals b R
    · obtain ⟨rfl, harr⟩ := hnow
      exact ⟨[], ops, m, rfl, rfl, harr⟩
    · have hstay : p ∈ m₁.pendingFrames := by
        by_cases hstep : op = .step
        · subst hstep
          have hone : ((MeshOp.step : MeshOp S).ticks : ℤ) = 1 := rfl
          have hnext : m.now.toInt + 1 ≤ T := by omega
          obtain ⟨q, hq, hs⟩ := h.step (b := b) (R := R) hm hnext
          rw [MeshOp.exec, hq] at hexec
          cases hexec
          refine (hs.arrives_or_stays h (hm.toInt_succ hnext) hp).resolve_left ?_
          exact fun harr => hnow ⟨rfl, harr⟩
        · obtain ⟨m', hexec', hpend, -⟩ :=
            exec_of_ne_step (b := b) (R := R) (m := m) (T := T) hstep
          rw [hexec] at hexec'
          cases hexec'
          rwa [hpend]
      obtain ⟨front, back, m₂, rfl, hrun, harr⟩ :=
        ih hdone.timely hdone.timed hops (by omega) hstay (by omega)
      exact ⟨op :: front, back, m₂, rfl, by rw [runMesh_cons, hexec]; exact hrun, harr⟩

/-- If the predicate holds after a number of steps that `Run` gets to, `Run` returns without an
error by then. -/
theorem runFrom_returns {predicate : Mesh S G → Bool} (maxSteps : Int64) {k left : ℕ}
    (hk : k < left) (hrun : runMesh b R m (List.replicate k .step) = some m')
    (hpred : predicate m' = true) (i : Int64) :
    ∃ j ≤ k, ∃ m₁, Mesh.runFrom b R maxSteps predicate left i m =
        some ((i + Int64.ofNat j, none), m₁) ∧
      predicate m₁ = true ∧ runMesh b R m (List.replicate j .step) = some m₁ := by
  induction left generalizing k i m with
  | zero => exact absurd hk (Nat.not_lt_zero k)
  | succ left ih =>
    unfold Mesh.runFrom
    by_cases hnow : predicate m = true
    · rw [if_pos hnow]
      refine ⟨0, Nat.zero_le k, m, ?_, hnow, rfl⟩
      rw [show Int64.ofNat 0 = 0 from rfl, Int64.add_zero]
    rw [if_neg hnow]
    cases k with
    | zero =>
      cases hrun
      exact absurd hpred hnow
    | succ k =>
      rw [List.replicate_succ, runMesh_cons] at hrun
      obtain ⟨m₁, hexec, hrest⟩ := Option.bind_eq_some_iff.mp hrun
      obtain ⟨q, hstep, rfl⟩ := Option.map_eq_some_iff.mp hexec
      obtain ⟨j, hj, m₂, hfrom, hm₂, hreach⟩ := ih (Nat.lt_of_succ_lt_succ hk) hrest (i + 1)
      refine ⟨j + 1, Nat.succ_le_succ hj, m₂, ?_, hm₂, ?_⟩
      · rw [hstep, Option.bind_some, hfrom, Int64.ofNat_add, Int64.add_assoc,
          Int64.add_comm (Int64.ofNat j)]
        rfl
      · rw [List.replicate_succ, runMesh_cons, hexec]
        exact hreach

theorem run_returns {predicate : Mesh S G → Bool} {maxSteps : Int64} {k : ℕ}
    (hk : k < maxSteps.toInt) (hrun : runMesh b R m (List.replicate k .step) = some m')
    (hpred : predicate m' = true) :
    ∃ j ≤ k, ∃ m₁, m.run b R maxSteps predicate = some ((Int64.ofNat j, none), m₁) ∧
      predicate m₁ = true ∧ runMesh b R m (List.replicate j .step) = some m₁ := by
  have hfuel : k < maxSteps.toInt.toNat := by omega
  obtain ⟨j, hj, m₁, hfrom, hm₁, hreach⟩ := runFrom_returns maxSteps hfuel hrun hpred 0
  exact ⟨j, hj, m₁, by rw [Mesh.run, hfrom, Int64.zero_add], hm₁, hreach⟩

end Runs

theorem timely_newMesh (g : G) : Timely (newMesh g : Mesh S G) :=
  ⟨isHeap_nil, fun _ hp => absurd hp List.not_mem_nil⟩

theorem timed_newMesh (g : G) {T : ℤ} (hT : T < 2 ^ 63) : (newMesh g : Mesh S G).Timed T :=
  ⟨hT, le_refl 0, fun a c e he => by cases he⟩

/-- However the nodes behave and the harness drives them, as long as the edges it adds can be timed
up to the next step: the run and the step do not panic, and the clock shows the number of steps.
What arrives in the step is with multiplicities what the run has scheduled for that time, every node
receives its part of it after it has acted, and what stays in flight is what the run has scheduled
for later. What the step schedules is no more than what the nodes put out in it, all of what they
put out over edges without loss, and each frame between the shortest and the longest delay of its
edge. -/
theorem frames_arrive_once (b : NodeMethods S) (R : Rng G) (g : G) (ops : List (MeshOp S))
    (hclock : (steps ops : ℤ) + 1 < 2 ^ 63) (hops : ∀ op ∈ ops, op.Fits (steps ops + 1)) :
    ∃ m q, runMesh b R (newMesh g) ops = some m ∧ m.step b R = some q ∧
      m.now.toInt = steps ops ∧
      Multiset.ofList (m.arrivals b R) = (scheduledIn b R (newMesh g) ops).filter
        (fun p => p.deliveryAt = m.now + 1) ∧
      (∀ id, q.2.nodes.lookup id = (m.nodes.lookup id).map fun s =>
        receiveAll b (m.now + 1) (framesFor id (m.arrivals b R)) (b.step (m.now + 1) s).2) ∧
      Multiset.ofList q.2.pendingFrames =
        (scheduledIn b R (newMesh g) ops + m.scheduled b R).filter
          (fun p => m.now + 1 < p.deliveryAt) ∧
      (m.scheduled b R).map PendingFrame.frame ≤ Multiset.ofList (m.outs b) ∧
      ((m.scheduled b R).map PendingFrame.frame).filter (fun f => m.lossless f = true) =
        (Multiset.ofList (m.outs b)).filter (fun f => m.lossless f = true) ∧
      ∀ p ∈ m.scheduled b R, ∃ e, m.edge p.frame.sender p.frame.target = some e ∧
        m.now.toInt + 1 + e.least ≤ p.deliveryAt.toInt ∧
        p.deliveryAt.toInt ≤ m.now.toInt + 1 + e.bound := by
  have hstart : (newMesh g : Mesh S G).now.toInt = 0 := rfl
  obtain ⟨m, hrun, ht, hm, hnow, hpend⟩ := (timely_newMesh g).run (b := b) (R := R)
    (timed_newMesh g hclock) hops (by omega)
  rw [hstart, zero_add] at hnow
  have hT : m.now.toInt + 1 ≤ steps ops + 1 := by omega
  have hsucc := hm.toInt_succ hT
  have hpend : Multiset.ofList m.pendingFrames =
      (scheduledIn b R (newMesh g) ops).filter fun p => m.now < p.deliveryAt :=
    hpend.trans (congrArg _ (zero_add _))
  obtain ⟨q, hstep, hs⟩ := ht.step (b := b) (R := R) hm hT
  refine ⟨m, q, hrun, hstep, hnow, ?_, hs.nodes, ?_, hs.outs, hs.lossless, fun p hp => ?_⟩
  · rw [hs.arrivals, hpend, Multiset.filter_filter]
    refine Multiset.filter_congr fun p _ => and_iff_left_of_imp fun heq => ?_
    rw [heq, Int64.lt_iff_toInt_lt, hsucc]
    omega
  · rw [hs.pending, hpend, Multiset.filter_add, Multiset.filter_filter, Multiset.filter_add]
    refine congrArg (· + _) (Multiset.filter_congr fun p _ => and_iff_left_of_imp fun hlt => ?_)
    rw [Int64.lt_iff_toInt_lt, hsucc] at hlt
    rw [Int64.lt_iff_toInt_lt]
    omega
  · rw [← hsucc]
    exact hs.onTime p hp

/-- Dice that always show nothing. -/
def still : Rng Unit where
  intn _ g := (0, g)
  float64 g := (0, g)
  intn_range _ _ hn := ⟨le_refl 0, hn⟩

/-- A node that sends the same frame in every step. -/
def pinging : NodeMethods (List Frame) where
  step _ s := ((s, none), s)
  receive _ _ s := (none, s)

def ping : Frame := ⟨[1], [2], [42]⟩

/-- A node pings another one over an edge of two milliseconds, for two steps. -/
def pingOps : List (MeshOp (List Frame)) :=
  [.addNode [1] [ping], .addNode [2] [], .addEdge ⟨[1], [2], 2, 0, 0⟩, .step, .step]

/-- The ping of the first step arrives in the third one. -/
theorem ping_arrives : ∃ m q, runMesh pinging still (newMesh ()) pingOps = some m ∧
    m.step pinging still = some q ∧
    Multiset.ofList (m.arrivals pinging still) = {⟨3, ping⟩} := by
  have hfits : ∀ op ∈ pingOps, op.Fits (steps pingOps + 1) := by
    intro op hop
    fin_cases hop
    · trivial
    · trivial
    · exact ⟨by decide, by decide, by decide⟩
    · trivial
    · trivial
  obtain ⟨m, q, hrun, hstep, hnow, harr, -⟩ :=
    frames_arrive_once pinging still () pingOps (by decide) hfits
  have hnext : m.now + 1 = 3 := by
    rw [show m.now = 2 from Int64.toInt_inj.mp hnow]
    rfl
  refine ⟨m, q, hrun, hstep, harr.trans ?_⟩
  rw [hnext]
  decide +kernel

end Swarm.Sim
