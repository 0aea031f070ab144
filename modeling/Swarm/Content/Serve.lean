import Swarm.Content.Fetch
import Swarm.Content.Pending
import Swarm.Topics

/-!
# Requests and responses between nodes

A node asks a holder for content with a `ContentFetchRequest`, the holder answers with a
`ContentFetchResponse`, and the node hands the response to the call whose id it carries, whoever
sent it. The network may lose, repeat and reorder both.

1. The ids of a node's calls count up, so an id names the call (`Numbered`).
2. A request in flight carries the id and the hash of a call of its sender to its target, and a
   response in flight is the answer of that target to it (`FetchInv`).
3. The channels of `requestFromHolder` carry nothing else (`OnlyCarries`), and as long as handlers
   send in time each call receives what carries its id.

So a call receives the answer of the holder it asked to the hash it asked for, and where providers
are honest a response without an error passes the check of `Fetch` (`response_answers_call`).
-/

namespace Swarm

/-! ## The code -/

/-- The message `ContentFetchRequest`. -/
structure FetchRequest where
  requestID : UInt64
  hash : Bytes

/-- `err.Error()`. -/
def ContentErr.text : ContentErr → Bytes
  | .errNoHolders => utf8 "swarm: no holders for content hash"
  | .errHashMismatch => utf8 "swarm: fetched content hash mismatch"
  | .new text => utf8 text

/-- `handleFetchRequest`: the response it sends back. -/
def handleFetchRequest (provider : Option ContentProvider) (req : FetchRequest) : FetchResponse :=
  if req.hash.length ≠ 32 then
    { requestID := req.requestID, error := utf8 "invalid hash length" }
  else
    match provider with
    | none => { requestID := req.requestID, error := utf8 "no local provider" }
    | some provider =>
      if provider.has req.hash = false then
        { requestID := req.requestID, error := utf8 "not held" }
      else
        match provider.read req.hash with
        | .error err => { requestID := req.requestID, error := err.text }
        | .ok body => { requestID := req.requestID, body := body }

/-- The content side of a node, with the arguments of its calls of `requestFromHolder`. -/
structure ContentNode where
  pending : PendingState := {}
  asks : List (NodeID × Bytes) := []
  provider : Option ContentProvider := none

/-- Nodes, and the requests (with sender and target) and responses (with target) sent so far. -/
structure FetchNet where
  node : NodeID → ContentNode := fun _ => {}
  requests : List (NodeID × NodeID × FetchRequest) := []
  responses : List (NodeID × FetchResponse) := []

/-- A call begins, one of the steps inside a node, the send of a registered call, and a message that
arrives: any that was sent, at any time and any number of times. -/
inductive FetchAct where
  | ask (i holder : NodeID) (hash : Bytes)
  | own (i : NodeID) (a : PendingAct)
  | transmit (i : NodeID) (j : ℕ)
  | serve (k : ℕ)
  | deliver (k : ℕ)
  | setProvider (i : NodeID) (provider : Option ContentProvider)

/-- The steps of a call and of a handler after its lookup. -/
def PendingAct.internal : PendingAct → Bool
  | .request => false
  | .lookup _ => false
  | _ => true

def FetchNet.setNode (w : FetchNet) (i : NodeID) (n : ContentNode) : FetchNet :=
  { w with node := Function.update w.node i n }

def FetchAct.step (w : FetchNet) : FetchAct → FetchNet
  | .ask i holder hash =>
    w.setNode i { w.node i with
      pending := (w.node i).pending.request
      asks := (w.node i).asks ++ [(holder, hash)] }
  | .own i a =>
    if a.internal = true then
      w.setNode i { w.node i with pending := a.step (w.node i).pending }
    else w
  | .transmit i j =>
    match (w.node i).pending.requests[j]?, (w.node i).asks[j]? with
    | some (.waiting id _), some (holder, hash) =>
      { w with requests := w.requests ++ [(i, holder, ⟨id, hash⟩)] }
    | _, _ => w
  | .serve k =>
    match w.requests[k]? with
    | some (i, holder, req) =>
      { w with responses :=
          w.responses ++ [(i, handleFetchRequest (w.node holder).provider req)] }
    | none => w
  | .deliver k =>
    match w.responses[k]? with
    | some (i, resp) =>
      w.setNode i { w.node i with pending := (w.node i).pending.lookup resp }
    | none => w
  | .setProvider i provider => w.setNode i { w.node i with provider := provider }

def runFetch (acts : List FetchAct) : FetchNet := acts.foldl FetchAct.step {}

/-! ## Ids -/

/-- The id of a call that is not done with it. -/
def RequestAt.id? : RequestAt → Option UInt64
  | .allocated id => some id
  | .took id _ => some id
  | .waiting id _ => some id
  | .closing id _ => some id
  | .deregistered id _ => some id
  | _ => none

/-- Calls are numbered from one on. -/
structure Numbered (st : PendingState) : Prop where
  count : st.reqCount = UInt64.ofNat st.requests.length
  ids : ∀ (j : ℕ) (p : RequestAt) (id : UInt64), st.requests[j]? = some p → p.id? = some id →
    id = UInt64.ofNat (j + 1)

section Pending

variable {st st' : PendingState} {P Q : FetchResponse → Prop}

theorem Numbered.of_set (h : Numbered st) {j : ℕ} {p q : RequestAt}
    (hj : st.requests[j]? = some p) (hcount : st'.reqCount = st.reqCount)
    (hreq : st'.requests = st.requests.set j q)
    (hid : ∀ id, q.id? = some id → p.id? = some id) : Numbered st' := by
  refine ⟨by rw [hcount, hreq, List.length_set, h.count], fun i r id hi hr => ?_⟩
  rw [hreq] at hi
  rcases request_set_cases hi with ⟨rfl, rfl⟩ | ⟨-, hold⟩
  · exact h.ids i p id hj (hid id hr)
  · exact h.ids i r id hold hr

theorem Numbered.request (h : Numbered st) : Numbered st.request := by
  refine ⟨?_, fun i r id hi hr => ?_⟩
  · show st.reqCount + 1 = UInt64.ofNat (st.requests ++ [_]).length
    rw [List.length_append, h.count]
    exact (UInt64.ofNat_add _ _).symm
  · have hi' : (st.requests ++ [RequestAt.allocated (st.reqCount + 1)])[i]? = some r := hi
    rw [List.getElem?_append] at hi'
    split_ifs at hi' with hlt
    · exact h.ids i r id hi' hr
    · have hr' := List.mem_singleton.mp (List.mem_of_getElem? hi')
      have hlen : i - st.requests.length < 1 := by
        simpa using (List.getElem?_eq_some_iff.mp hi').1
      have hi₀ : i = st.requests.length := by omega
      rw [hr'] at hr
      rw [← Option.some.inj hr, h.count, hi₀]
      exact (UInt64.ofNat_add _ _).symm

theorem Numbered.step (h : Numbered st) (a : PendingAct) : Numbered (a.step st) := by
  cases a with
  | request => exact h.request
  | get j pooled =>
    show Numbered (st.get j pooled)
    unfold PendingState.get
    split
    · rename_i hj
      cases pooled with
      | some ch =>
        dsimp only
        split_ifs
        · exact h.of_set hj rfl rfl fun id hid => hid
        · exact h
      | none => exact h.of_set hj rfl rfl fun id hid => hid
    · exact h
  | register j =>
    show Numbered (st.register j)
    unfold PendingState.register
    split
    · rename_i hj
      exact h.of_set hj rfl rfl fun id hid => hid
    · exact h
  | receive j =>
    show Numbered (st.receive j)
    unfold PendingState.receive
    split
    · rename_i hj
      split
      · exact h.of_set hj rfl rfl fun id hid => hid
      · exact h
    · exact h
  | giveUp j =>
    show Numbered (st.giveUp j)
    unfold PendingState.giveUp
    split
    · rename_i hj
      exact h.of_set hj rfl rfl fun id hid => hid
    · exact h
  | deregister j =>
    show Numbered (st.deregister j)
    unfold PendingState.deregister
    split
    · rename_i hj
      exact h.of_set hj rfl rfl fun id hid => hid
    · exact h
  | drain j =>
    show Numbered (st.drain j)
    unfold PendingState.drain
    split
    · rename_i hj
      exact h.of_set hj rfl rfl fun id hid => by cases hid
    · exact h
  | put j =>
    show Numbered (st.put j)
    unfold PendingState.put
    split
    · rename_i hj
      exact h.of_set hj rfl rfl fun id hid => by cases hid
    · exact h
  | lookup resp =>
    show Numbered (st.lookup resp)
    unfold PendingState.lookup
    split
    · exact ⟨h.count, h.ids⟩
    · exact h
  | send k =>
    show Numbered (st.send k)
    unfold PendingState.send
    split
    · split
      · exact ⟨h.count, h.ids⟩
      · exact ⟨h.count, h.ids⟩
    · exact h

/-! ## What the channels carry -/

/-- Handlers, channels and calls hold responses with a property only. -/
structure OnlyCarries (P : FetchResponse → Prop) (st : PendingState) : Prop where
  handlers : ∀ ch resp, some (ch, resp) ∈ st.handlers → P resp
  chans : ∀ resp, some resp ∈ st.chans → P resp
  received : ∀ e ∈ st.received, P e.2

theorem OnlyCarries.mono (h : OnlyCarries P st) (hle : ∀ resp, P resp → Q resp) :
    OnlyCarries Q st :=
  ⟨fun ch resp hr => hle resp (h.handlers ch resp hr), fun resp hr => hle resp (h.chans resp hr),
    fun e he => hle e.2 (h.received e he)⟩

/-- Emptying a handler or a channel adds nothing. -/
theorem mem_set_none {α : Type} {l : List (Option α)} {k : ℕ} {x : α}
    (h : some x ∈ l.set k none) : some x ∈ l :=
  (List.mem_or_eq_of_mem_set h).resolve_right fun heq => by cases heq

theorem OnlyCarries.step (h : OnlyCarries P st) (a : PendingAct)
    (ha : ∀ resp, a = .lookup resp → P resp) : OnlyCarries P (a.step st) := by
  cases a with
  | request => exact ⟨h.handlers, h.chans, h.received⟩
  | get j pooled =>
    show OnlyCarries P (st.get j pooled)
    unfold PendingState.get
    split
    · cases pooled with
      | some ch =>
        dsimp only
        split_ifs
        · exact ⟨h.handlers, h.chans, h.received⟩
        · exact h
      | none =>
        refine ⟨h.handlers, fun resp hr => ?_, h.received⟩
        rcases List.mem_append.mp hr with hold | hnew
        · exact h.chans resp hold
        · cases List.mem_singleton.mp hnew
    · exact h
  | register j =>
    show OnlyCarries P (st.register j)
    unfold PendingState.register
    split
    · exact ⟨h.handlers, h.chans, h.received⟩
    · exact h
  | receive j =>
    show OnlyCarries P (st.receive j)
    unfold PendingState.receive
    split
    · split
      · rename_i resp hch
        refine ⟨h.handlers, fun resp' hr => h.chans resp' (mem_set_none hr), fun e he => ?_⟩
        rcases List.mem_append.mp he with hold | hnew
        · exact h.received e hold
        · rw [List.mem_singleton.mp hnew]
          exact h.chans resp (List.mem_of_getElem? hch)
      · exact h
    · exact h
  | giveUp j =>
    show OnlyCarries P (st.giveUp j)
    unfold PendingState.giveUp
    split
    · exact ⟨h.handlers, h.chans, h.received⟩
    · exact h
  | deregister j =>
    show OnlyCarries P (st.deregister j)
    unfold PendingState.deregister
    split
    · exact ⟨h.handlers, h.chans, h.received⟩
    · exact h
  | drain j =>
    show OnlyCarries P (st.drain j)
    unfold PendingState.drain
    split
    · exact ⟨h.handlers, fun resp hr => h.chans resp (mem_set_none hr), h.received⟩
    · exact h
  | put j =>
    show OnlyCarries P (st.put j)
    unfold PendingState.put
    split
    · exact ⟨h.handlers, h.chans, h.received⟩
    · exact h
  | lookup resp =>
    show OnlyCarries P (st.lookup resp)
    unfold PendingState.lookup
    split
    · refine ⟨fun ch resp' hr => ?_, h.chans, h.received⟩
      rcases List.mem_append.mp hr with hold | hnew
      · exact h.handlers ch resp' hold
      · cases List.mem_singleton.mp hnew
        exact ha resp rfl
    · exact h
  | send k =>
    show OnlyCarries P (st.send k)
    unfold PendingState.send
    split
    · rename_i ch resp hk
      split
      · refine ⟨fun c r hr => h.handlers c r (mem_set_none hr), fun r hr => ?_, h.received⟩
        rcases List.mem_or_eq_of_mem_set hr with hold | heq
        · exact h.chans r hold
        · rw [Option.some.inj heq]
          exact h.handlers ch resp (List.mem_of_getElem? hk)
      · exact ⟨fun c r hr => h.handlers c r (mem_set_none hr), h.chans, h.received⟩
    · exact h

theorem length_requests (st : PendingState) {a : PendingAct} (ha : a ≠ .request) :
    (a.step st).requests.length = st.requests.length := by
  have heff := pendingEffect st a
  generalize a.step st = st' at heff ⊢
  cases heff with
  | requested => exact absurd rfl ha
  | idle => rfl
  | sent => rfl
  | gotPooled => exact List.length_set ..
  | gotNew => exact List.length_set ..
  | moved => exact List.length_set ..
  | received => exact List.length_set ..
  | drained => exact List.length_set ..
  | put => exact List.length_set ..

end Pending

/-! ## The network -/

/-- A response to one of the calls: the answer of the holder asked, with a provider it had. -/
def Answers (had : NodeID → Option ContentProvider → Prop) (asks : List (NodeID × Bytes))
    (resp : FetchResponse) : Prop :=
  ∃ (j : ℕ) (holder : NodeID) (hash : Bytes) (provider : Option ContentProvider),
    asks[j]? = some (holder, hash) ∧ resp.requestID = UInt64.ofNat (j + 1) ∧
      had holder provider ∧ resp = handleFetchRequest provider ⟨resp.requestID, hash⟩

/-- What holds of one node. -/
structure ContentNode.Sound (had : NodeID → Option ContentProvider → Prop) (n : ContentNode) :
    Prop where
  owned : Owned n.pending
  clean : Clean n.pending
  matched : Matched n.pending
  numbered : Numbered n.pending
  aligned : n.asks.length = n.pending.requests.length
  carries : OnlyCarries (Answers had n.asks) n.pending

/-- What holds of the network: requests are those of calls, and responses answer them. -/
structure FetchInv (had : NodeID → Option ContentProvider → Prop) (w : FetchNet) : Prop where
  sound : ∀ i, (w.node i).Sound had
  provider : ∀ i, had i (w.node i).provider
  requests : ∀ i holder req, (i, holder, req) ∈ w.requests →
    ∃ j, (w.node i).asks[j]? = some (holder, req.hash) ∧ req.requestID = UInt64.ofNat (j + 1)
  responses : ∀ i resp, (i, resp) ∈ w.responses → Answers had (w.node i).asks resp

/-- Handlers send in time at every node. -/
def FetchInTime (w : FetchNet) : FetchAct → Prop
  | .own i a => SendsInTime (w.node i).pending a
  | _ => True

section Net

variable {had : NodeID → Option ContentProvider → Prop} {w : FetchNet} {n : ContentNode}
  {asks asks' : List (NodeID × Bytes)} {resp : FetchResponse}

theorem requestID_handleFetchRequest (provider : Option ContentProvider) (req : FetchRequest) :
    (handleFetchRequest provider req).requestID = req.requestID := by
  unfold handleFetchRequest
  split_ifs
  · rfl
  · split
    · rfl
    · split_ifs
      · rfl
      · split
        · rfl
        · rfl

/-- Further calls leave the earlier ones. -/
theorem getElem?_of_extends (h : asks <+: asks') {j : ℕ} {e : NodeID × Bytes}
    (hj : asks[j]? = some e) : asks'[j]? = some e := by
  obtain ⟨more, rfl⟩ := h
  rw [List.getElem?_append_left (List.getElem?_eq_some_iff.mp hj).1, hj]

theorem Answers.mono (h : asks <+: asks') (ha : Answers had asks resp) :
    Answers had asks' resp := by
  obtain ⟨j, holder, hash, provider, hj, hrest⟩ := ha
  exact ⟨j, holder, hash, provider, getElem?_of_extends h hj, hrest⟩

/-- A step inside a node, or the lookup of an answer. -/
theorem ContentNode.Sound.step (h : n.Sound had) {a : PendingAct} (ha : a ≠ .request)
    (hlookup : ∀ resp, a = .lookup resp → Answers had n.asks resp)
    (htime : SendsInTime n.pending a) : Sound had { n with pending := a.step n.pending } where
  owned := h.owned.step a
  clean := (clean_step_iff n.pending a h.clean).mpr htime
  matched := matched_step a h.owned h.clean h.matched
  numbered := h.numbered.step a
  aligned := h.aligned.trans (length_requests n.pending ha).symm
  carries := h.carries.step a hlookup

/-- A new call. -/
theorem ContentNode.Sound.ask (h : n.Sound had) (holder : NodeID) (hash : Bytes) :
    Sound had { n with
      pending := n.pending.request
      asks := n.asks ++ [(holder, hash)] } where
  owned := h.owned.step .request
  clean := (clean_step_iff n.pending .request h.clean).mpr trivial
  matched := matched_step .request h.owned h.clean h.matched
  numbered := h.numbered.request
  aligned := by
    show (n.asks ++ [_]).length = (n.pending.requests ++ [_]).length
    rw [List.length_append, List.length_append, h.aligned]
    rfl
  carries := by
    refine (h.carries.step .request fun resp heq => by cases heq).mono fun resp hr => ?_
    exact hr.mono (List.prefix_append _ _)

/-- One node moves on and keeps its calls. -/
theorem FetchInv.setNode (h : FetchInv had w) (i : NodeID) (hn : n.Sound had)
    (hprov : had i n.provider) (hasks : (w.node i).asks <+: n.asks) :
    FetchInv had (w.setNode i n) := by
  have hkeep : ∀ k, (w.node k).asks <+: ((w.setNode i n).node k).asks := by
    intro k
    by_cases hk : k = i
    · subst hk
      show _ <+: (Function.update w.node k n k).asks
      rwa [Function.update_self]
    · show _ <+: (Function.update w.node i n k).asks
      rw [Function.update_of_ne hk]
  refine ⟨fun k => ?_, fun k => ?_, fun k holder req hreq => ?_, fun k resp hresp => ?_⟩
  · by_cases hk : k = i
    · subst hk
      show (Function.update w.node k n k).Sound had
      rwa [Function.update_self]
    · show (Function.update w.node i n k).Sound had
      rw [Function.update_of_ne hk]
      exact h.sound k
  · by_cases hk : k = i
    · subst hk
      show had k (Function.update w.node k n k).provider
      rwa [Function.update_self]
    · show had k (Function.update w.node i n k).provider
      rw [Function.update_of_ne hk]
      exact h.provider k
  · obtain ⟨j, hj, hid⟩ := h.requests k holder req hreq
    exact ⟨j, getElem?_of_extends (hkeep k) hj, hid⟩
  · exact (h.responses k resp hresp).mono (hkeep k)

theorem FetchInv.step (h : FetchInv had w) {a : FetchAct} (htime : FetchInTime w a)
    (hprov : ∀ i provider, a = .setProvider i provider → had i provider) :
    FetchInv had (a.step w) := by
  cases a with
  | ask i holder hash =>
    exact h.setNode i ((h.sound i).ask holder hash) (h.provider i) (List.prefix_append _ _)
  | own i a =>
    unfold FetchAct.step
    dsimp only
    split_ifs with hint
    · refine h.setNode i ((h.sound i).step ?_ ?_ htime) (h.provider i) (List.prefix_refl _)
      · rintro rfl
        cases hint
      · rintro resp rfl
        cases hint
    · exact h
  | transmit i j =>
    unfold FetchAct.step
    dsimp only
    split
    · -- the call is registered under its number
      rename_i id ch holder hash hreq hask
      refine ⟨h.sound, h.provider, fun k holder' req hmem => ?_, h.responses⟩
      rcases List.mem_append.mp hmem with hold | hnew
      · exact h.requests k holder' req hold
      · cases List.mem_singleton.mp hnew
        exact ⟨j, hask, (h.sound i).numbered.ids j _ id hreq rfl⟩
    · exact h
  | serve k =>
    unfold FetchAct.step
    dsimp only
    split
    · rename_i i holder req hreq
      refine ⟨h.sound, h.provider, h.requests, fun i' resp hmem => ?_⟩
      rcases List.mem_append.mp hmem with hold | hnew
      · exact h.responses i' resp hold
      · cases List.mem_singleton.mp hnew
        obtain ⟨j, hj, hid⟩ := h.requests i holder req (List.mem_of_getElem? hreq)
        refine ⟨j, holder, req.hash, (w.node holder).provider, hj, ?_, h.provider holder, ?_⟩
        · rw [requestID_handleFetchRequest, hid]
        · rw [requestID_handleFetchRequest]
    · exact h
  | deliver k =>
    unfold FetchAct.step
    dsimp only
    split
    · rename_i i resp hresp
      refine h.setNode i ((h.sound i).step (a := .lookup resp) (fun heq => by cases heq) ?_
        trivial) (h.provider i) (List.prefix_refl _)
      intro resp' heq
      cases heq
      exact h.responses i resp (List.mem_of_getElem? hresp)
    · exact h
  | setProvider i provider =>
    exact h.setNode i ⟨(h.sound i).owned, (h.sound i).clean, (h.sound i).matched,
      (h.sound i).numbered, (h.sound i).aligned, (h.sound i).carries⟩ (hprov i provider rfl)
      (List.prefix_refl _)

theorem FetchInv.start (hnone : ∀ i, had i none) : FetchInv had {} where
  sound _ :=
    { owned := .empty
      clean := fun ch resp hch => by cases hch
      matched := fun e he => absurd he List.not_mem_nil
      numbered := ⟨rfl, fun j p id hj => by cases hj⟩
      aligned := rfl
      carries := ⟨fun _ _ hr => absurd hr List.not_mem_nil, fun _ hr => absurd hr List.not_mem_nil,
        fun _ he => absurd he List.not_mem_nil⟩ }
  provider := hnone
  requests _ _ _ hreq := absurd hreq List.not_mem_nil
  responses _ _ hresp := absurd hresp List.not_mem_nil

theorem FetchInv.run {acts : List FetchAct} (h : FetchInv had w)
    (htime : Runs.StepsMeet FetchAct.step FetchInTime w acts)
    (hprov : ∀ i provider, .setProvider i provider ∈ acts → had i provider) :
    FetchInv had (acts.foldl FetchAct.step w) := by
  induction acts generalizing w with
  | nil => exact h
  | cons a acts ih =>
    refine ih (h.step htime.1 fun i provider heq => ?_) htime.2 fun i provider hmem => ?_
    · exact hprov i provider (heq ▸ List.mem_cons_self)
    · exact hprov i provider (List.mem_cons_of_mem a hmem)

end Net

/-! ## End to end -/

/-- A provider that reads what hashes to the hash, and says why it does not. -/
structure ContentProvider.Honest (cr : Crypto) (p : ContentProvider) : Prop where
  reads : ∀ hash body, p.read hash = .ok body → cr.sha256 body = hash
  explains : ∀ hash err, p.read hash = .error err → err.text ≠ []

theorem fetchTexts_ne_nil : utf8 "invalid hash length" ≠ [] ∧ utf8 "no local provider" ≠ [] ∧
    utf8 "not held" ≠ [] := by
  decide

/-- The response of a node with an honest provider carries an error or verifies. -/
theorem response_verifies {cr : Crypto} {provider : Option ContentProvider} {req : FetchRequest}
    (hp : ∀ p, provider = some p → p.Honest cr)
    (herr : (handleFetchRequest provider req).error = []) :
    verifyContentHash cr req.hash (handleFetchRequest provider req).body = true := by
  obtain ⟨hinvalid, hnone, hnot⟩ := fetchTexts_ne_nil
  unfold handleFetchRequest at herr ⊢
  by_cases hlen : req.hash.length ≠ 32
  · rw [if_pos hlen] at herr
    exact absurd herr hinvalid
  rw [if_neg hlen] at herr ⊢
  cases provider with
  | none => exact absurd herr hnone
  | some p =>
    dsimp only at herr ⊢
    by_cases hhas : p.has req.hash = false
    · rw [if_pos hhas] at herr
      exact absurd herr hnot
    rw [if_neg hhas] at herr ⊢
    cases hread : p.read req.hash with
    | error err =>
      rw [hread] at herr
      exact absurd herr ((hp p rfl).explains req.hash err hread)
    | ok body => exact beq_iff_eq.mpr ((hp p rfl).reads req.hash body hread)

/-- However requests and responses of any number of nodes are lost, repeated and reordered, and
however providers are exchanged meanwhile: if handlers send in time and providers are honest, what a
call of `requestFromHolder` receives is the answer of the holder it asked, with a provider that node
had, to the hash it asked for, and it carries an error or passes the check of `Fetch`. -/
theorem response_answers_call (cr : Crypto) (acts : List FetchAct)
    (htime : Runs.StepsMeet FetchAct.step FetchInTime {} acts)
    (hhonest : ∀ i p, .setProvider i (some p) ∈ acts → p.Honest cr)
    (i : NodeID) (id : UInt64) (resp : FetchResponse)
    (hresp : (id, resp) ∈ ((runFetch acts).node i).pending.received) :
    ∃ (j : ℕ) (holder : NodeID) (hash : Bytes) (provider : Option ContentProvider),
      ((runFetch acts).node i).asks[j]? = some (holder, hash) ∧ id = UInt64.ofNat (j + 1) ∧
        (provider = none ∨ .setProvider holder provider ∈ acts) ∧
        resp = handleFetchRequest provider ⟨id, hash⟩ ∧
        (resp.error = [] → verifyContentHash cr hash resp.body = true) := by
  have hinv : FetchInv (fun k p => p = none ∨ .setProvider k p ∈ acts) (runFetch acts) :=
    (FetchInv.start fun _ => Or.inl rfl).run htime fun k p hmem => Or.inr hmem
  have hnode := hinv.sound i
  obtain ⟨j, holder, hash, provider, hask, hid, hhad, heq⟩ := hnode.carries.received _ hresp
  have hmatch : resp.requestID = id := hnode.matched _ hresp
  dsimp only at hid heq
  rw [hmatch] at hid heq
  refine ⟨j, holder, hash, provider, hask, hid, hhad, heq, fun herr => ?_⟩
  rw [heq] at herr ⊢
  refine response_verifies (fun p hp => hhonest holder p ?_) herr
  rw [hp] at hhad
  exact hhad.resolve_left fun h => by cases h

/-- A provider of one blob. -/
def ContentProvider.ofBlob (cr : Crypto) (blob : Bytes) : ContentProvider where
  has hash := hash == cr.sha256 blob
  read hash := if hash = cr.sha256 blob then .ok blob else .error (.new "gone")

theorem honest_ofBlob (cr : Crypto) (blob : Bytes) :
    (ContentProvider.ofBlob cr blob).Honest cr where
  reads hash body h := by
    unfold ContentProvider.ofBlob at h
    dsimp only at h
    split_ifs at h with heq
    · rw [← Except.ok.inj h, heq]
  explains hash err h := by
    unfold ContentProvider.ofBlob at h
    dsimp only at h
    split_ifs at h
    · rw [← Except.error.inj h]
      decide

/-- One node asks another for a blob and receives it. -/
def oneFetch : List FetchAct :=
  [.setProvider [2] (some (.ofBlob .inClear [7])), .ask [1] [2] (Crypto.inClear.sha256 [7]),
    .own [1] (.get 0 none), .own [1] (.register 0), .transmit [1] 0, .serve 0, .deliver 0,
    .own [1] (.send 0), .own [1] (.receive 0)]

theorem oneFetch_received : ((runFetch oneFetch).node [1]).pending.received =
    [(1, { requestID := 1, body := [7] })] := by
  decide

theorem oneFetch_inTime : Runs.StepsMeet FetchAct.step FetchInTime {} oneFetch := by
  refine ⟨trivial, trivial, trivial, trivial, trivial, trivial, trivial, ?_, trivial, trivial⟩
  intro ch resp hhandler _
  have hhandler' : some (some (0, ({ requestID := 1, body := [7] } : FetchResponse))) =
      some (some (ch, resp)) := hhandler
  cases hhandler'
  exact ⟨0, .waiting 1 0, rfl, rfl⟩

theorem oneFetch_answers_call :
    ∃ (j : ℕ) (holder : NodeID) (hash : Bytes) (provider : Option ContentProvider),
      ((runFetch oneFetch).node [1]).asks[j]? = some (holder, hash) ∧
        1 = UInt64.ofNat (j + 1) ∧ (provider = none ∨ .setProvider holder provider ∈ oneFetch) ∧
        ({ requestID := 1, body := [7] } : FetchResponse) =
          handleFetchRequest provider ⟨1, hash⟩ ∧
        (([] : Bytes) = [] → verifyContentHash .inClear hash [7] = true) := by
  refine response_answers_call .inClear oneFetch oneFetch_inTime (fun i p hmem => ?_) [1] 1
    { requestID := 1, body := [7] } ?_
  · rcases List.mem_cons.mp hmem with heq | hrest
    · cases heq
      exact honest_ofBlob .inClear [7]
    · simp at hrest
  · rw [oneFetch_received]
    exact List.mem_singleton_self _

end Swarm
