import Swarm.Lib.FiniteMap
import Swarm.Lib.Runs
import Swarm.Record

/-!
# Fetch requests and their responses

`requestFromHolder` and `handleFetchResponse` of `content_impl.go` as a run of their atomic steps,
for any number of requests and handlers. A request takes a channel of capacity one from the pool,
registers it under its id, waits, and in its deferred function deregisters, drains the channel and
returns it to the pool. A handler looks the channel of a response up and sends on it later.

Between the two steps of a handler the request may drain its channel and another request may take
it. As long as no handler sends that late, what is in a channel is addressed to the request that
holds it (`clean_step_iff`), and every request receives responses to its own id only.
-/

namespace Swarm

/-- The message `ContentFetchResponse`. -/
structure FetchResponse where
  requestID : UInt64
  body : Bytes := []
  error : Bytes := []
  deriving DecidableEq

/-- Where a call of `requestFromHolder` is. The deferred function runs from `closing` on. -/
inductive RequestAt where
  | allocated (id : UInt64)
  | took (id : UInt64) (ch : ℕ)
  | waiting (id : UInt64) (ch : ℕ)
  | closing (id : UInt64) (ch : ℕ)
  | deregistered (id : UInt64) (ch : ℕ)
  | drained (ch : ℕ)
  | done
  deriving DecidableEq

/-- The channels with their buffers, the pool, and the calls in progress. A handler is kept from its
lookup to its send. What each request received is recorded with the request's id; no step reads
it. -/
structure PendingState where
  reqCount : UInt64 := 0
  requests : List RequestAt := []
  pending : FMap UInt64 ℕ := ∅
  chans : List (Option FetchResponse) := []
  chanPool : List ℕ := []
  handlers : List (Option (ℕ × FetchResponse)) := []
  received : List (UInt64 × FetchResponse) := []

/-- The atomic steps. `get` names the pooled channel it is given, or makes a new one; `giveUp` is a
failed send or the end of the context. -/
inductive PendingAct where
  | request
  | get (j : ℕ) (pooled : Option ℕ)
  | register (j : ℕ)
  | receive (j : ℕ)
  | giveUp (j : ℕ)
  | deregister (j : ℕ)
  | drain (j : ℕ)
  | put (j : ℕ)
  | lookup (resp : FetchResponse)
  | send (h : ℕ)

namespace PendingState

/-- `reqCount.Add(1)`. -/
def request (st : PendingState) : PendingState :=
  { st with
    reqCount := st.reqCount + 1
    requests := st.requests ++ [.allocated (st.reqCount + 1)] }

/-- `chanPool.Get()`. -/
def get (st : PendingState) (j : ℕ) (pooled : Option ℕ) : PendingState :=
  match st.requests[j]? with
  | some (.allocated id) =>
    match pooled with
    | some ch =>
      if ch ∈ st.chanPool then
        { st with
          requests := st.requests.set j (.took id ch)
          chanPool := st.chanPool.erase ch }
      else st
    | none =>
      { st with
        requests := st.requests.set j (.took id st.chans.length)
        chans := st.chans ++ [none] }
  | _ => st

/-- The channel is entered into `pending`. -/
def register (st : PendingState) (j : ℕ) : PendingState :=
  match st.requests[j]? with
  | some (.took id ch) =>
    { st with
      requests := st.requests.set j (.waiting id ch)
      pending := st.pending.insert id ch }
  | _ => st

/-- The select finds a response. -/
def receive (st : PendingState) (j : ℕ) : PendingState :=
  match st.requests[j]? with
  | some (.waiting id ch) =>
    match st.chans[ch]? with
    | some (some resp) =>
      { st with
        requests := st.requests.set j (.closing id ch)
        chans := st.chans.set ch none
        received := st.received ++ [(id, resp)] }
    | _ => st
  | _ => st

/-- The send of the request fails, or the context ends. -/
def giveUp (st : PendingState) (j : ℕ) : PendingState :=
  match st.requests[j]? with
  | some (.waiting id ch) => { st with requests := st.requests.set j (.closing id ch) }
  | _ => st

def deregister (st : PendingState) (j : ℕ) : PendingState :=
  match st.requests[j]? with
  | some (.closing id ch) =>
    { st with
      requests := st.requests.set j (.deregistered id ch)
      pending := st.pending.erase id }
  | _ => st

/-- The buffer is emptied, if there is something in it. -/
def drain (st : PendingState) (j : ℕ) : PendingState :=
  match st.requests[j]? with
  | some (.deregistered _ ch) =>
    { st with
      requests := st.requests.set j (.drained ch)
      chans := st.chans.set ch none }
  | _ => st

/-- `chanPool.Put(ch)`. -/
def put (st : PendingState) (j : ℕ) : PendingState :=
  match st.requests[j]? with
  | some (.drained ch) =>
    { st with
      requests := st.requests.set j .done
      chanPool := ch :: st.chanPool }
  | _ => st

/-- `handleFetchResponse` looks the channel up; a response nobody waits for is dropped. -/
def lookup (st : PendingState) (resp : FetchResponse) : PendingState :=
  match st.pending.lookup resp.requestID with
  | some ch => { st with handlers := st.handlers ++ [some (ch, resp)] }
  | none => st

/-- `handleFetchResponse` sends; a full buffer drops the response. -/
def send (st : PendingState) (h : ℕ) : PendingState :=
  match st.handlers[h]? with
  | some (some (ch, resp)) =>
    match st.chans[ch]? with
    | some none =>
      { st with
        handlers := st.handlers.set h none
        chans := st.chans.set ch (some resp) }
    | _ => { st with handlers := st.handlers.set h none }
  | _ => st

end PendingState

/-- The state after a step; a step that is not enabled does nothing. -/
def PendingAct.step (st : PendingState) : PendingAct → PendingState
  | .request => st.request
  | .get j pooled => st.get j pooled
  | .register j => st.register j
  | .receive j => st.receive j
  | .giveUp j => st.giveUp j
  | .deregister j => st.deregister j
  | .drain j => st.drain j
  | .put j => st.put j
  | .lookup resp => st.lookup resp
  | .send h => st.send h

/-- A run from the start of the topic. -/
def runPending (acts : List PendingAct) : PendingState := acts.foldl PendingAct.step {}

/-! ## Who holds a channel -/

/-- The channel a request has, from the pool until it is returned. -/
def RequestAt.chan : RequestAt → Option ℕ
  | .allocated _ => none
  | .took _ ch => some ch
  | .waiting _ ch => some ch
  | .closing _ ch => some ch
  | .deregistered _ ch => some ch
  | .drained ch => some ch
  | .done => none

/-- The id and the channel of a request that has not drained it. -/
def RequestAt.holds : RequestAt → Option (UInt64 × ℕ)
  | .took id ch => some (id, ch)
  | .waiting id ch => some (id, ch)
  | .closing id ch => some (id, ch)
  | .deregistered id ch => some (id, ch)
  | _ => none

theorem RequestAt.chan_of_holds {p : RequestAt} {id : UInt64} {ch : ℕ}
    (h : p.holds = some (id, ch)) : p.chan = some ch := by
  cases p <;> cases h <;> rfl

/-- A request with the id holds the channel and has not drained it. -/
def Holds (st : PendingState) (ch : ℕ) (id : UInt64) : Prop :=
  ∃ (j : ℕ) (p : RequestAt), st.requests[j]? = some p ∧ p.holds = some (id, ch)

/-- What is in a channel is addressed to the request that holds it. -/
def Clean (st : PendingState) : Prop :=
  ∀ (ch : ℕ) (resp : FetchResponse), st.chans[ch]? = some (some resp) → Holds st ch resp.requestID

/-- A handler that sends into an empty channel does so while a request with the id of its response
holds the channel. -/
def SendsInTime (st : PendingState) : PendingAct → Prop
  | .send h => ∀ ch resp, st.handlers[h]? = some (some (ch, resp)) →
      st.chans[ch]? = some none → Holds st ch resp.requestID
  | _ => True

/-- Channels have one owner: a request, or the pool. -/
structure Owned (st : PendingState) : Prop where
  one : ∀ (i j : ℕ) (p q : RequestAt) (ch : ℕ), st.requests[i]? = some p → p.chan = some ch →
    st.requests[j]? = some q → q.chan = some ch → i = j
  out : ∀ (i : ℕ) (p : RequestAt) (ch : ℕ), st.requests[i]? = some p → p.chan = some ch →
    ch ∉ st.chanPool ∧ ch < st.chans.length
  pooled : ∀ ch ∈ st.chanPool, ch < st.chans.length
  nodup : st.chanPool.Nodup

/-! ## What a step can do -/

/-- The effect of a step on requests, channels and pool. -/
inductive PendingEffect (st : PendingState) : PendingAct → PendingState → Prop
  | idle {a : PendingAct} (hs : List (Option (ℕ × FetchResponse)))
      (hno : ∀ h ch resp, a = .send h → st.handlers[h]? = some (some (ch, resp)) →
        st.chans[ch]? ≠ some none) :
      PendingEffect st a { st with handlers := hs }
  | requested : PendingEffect st .request st.request
  | gotPooled {j ch : ℕ} {id : UInt64} (hj : st.requests[j]? = some (.allocated id))
      (hch : ch ∈ st.chanPool) :
      PendingEffect st (.get j (some ch))
        { st with
          requests := st.requests.set j (.took id ch)
          chanPool := st.chanPool.erase ch }
  | gotNew {j : ℕ} {id : UInt64} (hj : st.requests[j]? = some (.allocated id)) :
      PendingEffect st (.get j none)
        { st with
          requests := st.requests.set j (.took id st.chans.length)
          chans := st.chans ++ [none] }
  | moved {a : PendingAct} {j : ℕ} {p q : RequestAt} (m : FMap UInt64 ℕ)
      (ha : ∀ h, a ≠ .send h) (hj : st.requests[j]? = some p) (hholds : q.holds = p.holds)
      (hchan : q.chan = p.chan) :
      PendingEffect st a { st with requests := st.requests.set j q, pending := m }
  | received {j ch : ℕ} {id : UInt64} {resp : FetchResponse}
      (hj : st.requests[j]? = some (.waiting id ch)) (hch : st.chans[ch]? = some (some resp)) :
      PendingEffect st (.receive j)
        { st with
          requests := st.requests.set j (.closing id ch)
          chans := st.chans.set ch none
          received := st.received ++ [(id, resp)] }
  | drained {j ch : ℕ} {id : UInt64} (hj : st.requests[j]? = some (.deregistered id ch)) :
      PendingEffect st (.drain j)
        { st with
          requests := st.requests.set j (.drained ch)
          chans := st.chans.set ch none }
  | put {j ch : ℕ} (hj : st.requests[j]? = some (.drained ch)) :
      PendingEffect st (.put j)
        { st with
          requests := st.requests.set j .done
          chanPool := ch :: st.chanPool }
  | sent {h ch : ℕ} {resp : FetchResponse} (hh : st.handlers[h]? = some (some (ch, resp)))
      (hch : st.chans[ch]? = some none) :
      PendingEffect st (.send h)
        { st with
          handlers := st.handlers.set h none
          chans := st.chans.set ch (some resp) }

/-- Nothing happens. -/
theorem PendingEffect.refl {st : PendingState} {a : PendingAct} (ha : ∀ h, a ≠ .send h) :
    PendingEffect st a st :=
  .idle st.handlers fun h _ _ heq => absurd heq (ha h)

theorem pendingEffect (st : PendingState) (a : PendingAct) : PendingEffect st a (a.step st) := by
  cases a with
  | request => exact .requested
  | get j pooled =>
    show PendingEffect st _ (st.get j pooled)
    unfold PendingState.get
    split
    · rename_i hj
      cases pooled with
      | some ch =>
        dsimp only
        split_ifs with hch
        · exact .gotPooled hj hch
        · exact .refl (by simp)
      | none => exact .gotNew hj
    · exact .refl (by simp)
  | register j =>
    show PendingEffect st _ (st.register j)
    unfold PendingState.register
    split
    · rename_i hj
      exact .moved _ (by simp) hj rfl rfl
    · exact .refl (by simp)
  | receive j =>
    show PendingEffect st _ (st.receive j)
    unfold PendingState.receive
    split
    · rename_i hj
      split
      · rename_i hch
        exact .received hj hch
      · exact .refl (by simp)
    · exact .refl (by simp)
  | giveUp j =>
    show PendingEffect st _ (st.giveUp j)
    unfold PendingState.giveUp
    split
    · rename_i hj
      exact .moved st.pending (by simp) hj rfl rfl
    · exact .refl (by simp)
  | deregister j =>
    show PendingEffect st _ (st.deregister j)
    unfold PendingState.deregister
    split
    · rename_i hj
      exact .moved _ (by simp) hj rfl rfl
    · exact .refl (by simp)
  | drain j =>
    show PendingEffect st _ (st.drain j)
    unfold PendingState.drain
    split
    · rename_i hj
      exact .drained hj
    · exact .refl (by simp)
  | put j =>
    show PendingEffect st _ (st.put j)
    unfold PendingState.put
    split
    · rename_i hj
      exact .put hj
    · exact .refl (by simp)
  | lookup resp =>
    show PendingEffect st _ (st.lookup resp)
    unfold PendingState.lookup
    split
    · exact .idle _ (by simp)
    · exact .refl (by simp)
  | send h =>
    show PendingEffect st _ (st.send h)
    unfold PendingState.send
    split
    · rename_i ch resp hh
      split
      · rename_i hch
        exact .sent hh hch
      · rename_i hch
        refine .idle _ ?_
        intro h' ch' resp' heq hh'
        cases heq
        rw [hh] at hh'
        cases hh'
        exact hch
    · rename_i hh
      refine .idle st.handlers ?_
      intro h' ch' resp' heq hh'
      cases heq
      exact absurd hh' (hh ch' resp')

/-! ## What is in the channels -/

/-- A request moves on and keeps what it holds. -/
theorem Holds.of_set {st st' : PendingState} {j ch : ℕ} {id : UInt64} {p q : RequestAt}
    (h : Holds st ch id) (hj : st.requests[j]? = some p)
    (hset : st'.requests = st.requests.set j q)
    (hpq : p.holds = some (id, ch) → q.holds = some (id, ch)) : Holds st' ch id := by
  obtain ⟨i, r, hi, hr⟩ := h
  rcases eq_or_ne j i with rfl | hne
  · rw [hj] at hi
    cases hi
    refine ⟨j, q, ?_, hpq hr⟩
    rw [hset]
    exact List.getElem?_set_self (List.getElem?_eq_some_iff.mp hj).1
  · refine ⟨i, r, ?_, hr⟩
    rw [hset, List.getElem?_set_ne hne]
    exact hi

/-- A response that is still there when a channel was emptied is in another one. -/
theorem getElem?_set_none {chans : List (Option FetchResponse)} {ch c : ℕ} {resp : FetchResponse}
    (h : (chans.set ch none)[c]? = some (some resp)) : ch ≠ c ∧ chans[c]? = some (some resp) := by
  rw [List.getElem?_set] at h
  split_ifs at h with heq hlt
  · cases h
  · exact ⟨heq, h⟩

/-- **Channels stay clean exactly when handlers send in time.** -/
theorem clean_step_iff (st : PendingState) (a : PendingAct) (h : Clean st) :
    Clean (a.step st) ↔ SendsInTime st a := by
  have heff := pendingEffect st a
  generalize a.step st = st' at heff ⊢
  cases heff with
  | idle hs hno =>
    refine iff_of_true h ?_
    cases a with
    | send i =>
      intro ch resp hi hch
      exact absurd hch (hno i ch resp rfl hi)
    | _ => trivial
  | requested =>
    refine iff_of_true ?_ trivial
    intro ch resp hch
    obtain ⟨j, p, hj, hp⟩ := h ch resp hch
    refine ⟨j, p, ?_, hp⟩
    show (st.requests ++ [_])[j]? = some p
    rw [List.getElem?_append_left (List.getElem?_eq_some_iff.mp hj).1]
    exact hj
  | gotPooled hj _ =>
    refine iff_of_true ?_ trivial
    intro ch resp hch
    exact (h ch resp hch).of_set hj rfl fun hp => (by cases hp)
  | gotNew hj =>
    refine iff_of_true ?_ trivial
    intro ch resp hch
    have hold : st.chans[ch]? = some (some resp) := by
      have hch' : (st.chans ++ [none])[ch]? = some (some resp) := hch
      rw [List.getElem?_append] at hch'
      split_ifs at hch' with hlt
      · exact hch'
      · cases List.mem_singleton.mp (List.mem_of_getElem? hch')
    exact (h ch resp hold).of_set hj rfl fun hp => (by cases hp)
  | moved m ha hj hholds hchan =>
    refine iff_of_true ?_ ?_
    · intro ch resp hch
      exact (h ch resp hch).of_set hj rfl fun hp => hholds.trans hp
    · cases a with
      | send i => exact absurd rfl (ha i)
      | _ => trivial
  | received hj _ =>
    refine iff_of_true ?_ trivial
    intro ch resp hch
    exact (h ch resp (getElem?_set_none hch).2).of_set hj rfl id
  | drained hj =>
    refine iff_of_true ?_ trivial
    intro ch resp hch
    obtain ⟨hne, hold⟩ := getElem?_set_none hch
    refine (h ch resp hold).of_set hj rfl fun hp => ?_
    cases hp
    exact absurd rfl hne
  | put hj =>
    refine iff_of_true ?_ trivial
    intro ch resp hch
    exact (h ch resp hch).of_set hj rfl fun hp => (by cases hp)
  | sent hh hch =>
    rename_i i ch resp
    constructor
    · intro hclean ch' resp' hh' _
      rw [hh] at hh'
      cases hh'
      exact hclean ch resp (List.getElem?_set_self (List.getElem?_eq_some_iff.mp hch).1)
    · intro htime ch' resp' hch'
      have hch'' : (st.chans.set ch (some resp))[ch']? = some (some resp') := hch'
      rcases eq_or_ne ch ch' with rfl | hne
      · rw [List.getElem?_set_self (List.getElem?_eq_some_iff.mp hch).1] at hch''
        cases hch''
        exact htime ch resp hh hch
      · rw [List.getElem?_set_ne hne] at hch''
        exact h ch' resp' hch''

/-! ## Whose channels they are -/

/-- The requests after one of them moved on. -/
theorem request_set_cases {requests : List RequestAt} {i j : ℕ} {q r : RequestAt}
    (h : (requests.set j q)[i]? = some r) : i = j ∧ r = q ∨ i ≠ j ∧ requests[i]? = some r := by
  rw [List.getElem?_set] at h
  split_ifs at h with heq hlt
  · exact Or.inl ⟨heq.symm, (Option.some.inj h).symm⟩
  · exact Or.inr ⟨fun hij => heq hij.symm, h⟩

namespace Owned

variable {st st' : PendingState} {j : ℕ} {p q : RequestAt}

/-- The owners stay when every request keeps its channel. -/
theorem of_same (h : Owned st)
    (hreq : ∀ (i : ℕ) (r : RequestAt) (ch : ℕ), st'.requests[i]? = some r → r.chan = some ch →
      ∃ r' : RequestAt, st.requests[i]? = some r' ∧ r'.chan = some ch)
    (hpool : st'.chanPool = st.chanPool) (hlen : st.chans.length = st'.chans.length) :
    Owned st' where
  one i k r r' ch hi hr hk hr' := by
    obtain ⟨s, hs, hsch⟩ := hreq i r ch hi hr
    obtain ⟨s', hs', hsch'⟩ := hreq k r' ch hk hr'
    exact h.one i k s s' ch hs hsch hs' hsch'
  out i r ch hi hr := by
    obtain ⟨s, hs, hsch⟩ := hreq i r ch hi hr
    rw [hpool, ← hlen]
    exact h.out i s ch hs hsch
  pooled ch hch := by
    rw [hpool] at hch
    rw [← hlen]
    exact h.pooled ch hch
  nodup := by
    rw [hpool]
    exact h.nodup

/-- A request moves on and keeps its channel. -/
theorem of_set (h : Owned st) (hj : st.requests[j]? = some p) (hchan : q.chan = p.chan)
    (hset : st'.requests = st.requests.set j q) (hpool : st'.chanPool = st.chanPool)
    (hlen : st.chans.length = st'.chans.length) : Owned st' := by
  refine h.of_same ?_ hpool hlen
  intro i r ch hi hr
  rw [hset] at hi
  rcases request_set_cases hi with ⟨rfl, rfl⟩ | ⟨-, hold⟩
  · exact ⟨p, hj, hchan.symm.trans hr⟩
  · exact ⟨r, hold, hr⟩

/-- A request takes a channel that no request has. -/
theorem of_take (h : Owned st) {id : UInt64} {ch : ℕ}
    (hfree : ∀ (i : ℕ) (r : RequestAt), st.requests[i]? = some r → r.chan ≠ some ch)
    (hset : st'.requests = st.requests.set j (.took id ch))
    (hpool : ∀ c, c ∈ st'.chanPool ↔ c ∈ st.chanPool ∧ c ≠ ch) (hnodup : st'.chanPool.Nodup)
    (hch : ch < st'.chans.length) (hlen : st.chans.length ≤ st'.chans.length) : Owned st' where
  one i k r r' c hi hr hk hr' := by
    rw [hset] at hi hk
    rcases request_set_cases hi with ⟨rfl, rfl⟩ | ⟨-, hold⟩
    · rcases request_set_cases hk with ⟨rfl, rfl⟩ | ⟨-, hold⟩
      · rfl
      · cases hr
        exact absurd hr' (hfree k r' hold)
    · rcases request_set_cases hk with ⟨rfl, rfl⟩ | ⟨-, hold'⟩
      · cases hr'
        exact absurd hr (hfree i r hold)
      · exact h.one i k r r' c hold hr hold' hr'
  out i r c hi hr := by
    rw [hset] at hi
    rcases request_set_cases hi with ⟨rfl, rfl⟩ | ⟨-, hi⟩
    · cases hr
      exact ⟨fun hmem => ((hpool ch).mp hmem).2 rfl, hch⟩
    · obtain ⟨hout, hlt⟩ := h.out i r c hi hr
      exact ⟨fun hmem => hout ((hpool c).mp hmem).1, by omega⟩
  pooled c hc := by
    have hlt := h.pooled c ((hpool c).mp hc).1
    omega
  nodup := hnodup

theorem step (h : Owned st) (a : PendingAct) : Owned (a.step st) := by
  have heff := pendingEffect st a
  generalize a.step st = st' at heff ⊢
  cases heff with
  | idle hs hno => exact h.of_same (fun i r ch hi hr => ⟨r, hi, hr⟩) rfl rfl
  | requested =>
    refine h.of_same ?_ rfl rfl
    intro i r ch hi hr
    have hi' : (st.requests ++ [RequestAt.allocated (st.reqCount + 1)])[i]? = some r := hi
    rw [List.getElem?_append] at hi'
    split_ifs at hi' with hlt
    · exact ⟨r, hi', hr⟩
    · cases List.mem_singleton.mp (List.mem_of_getElem? hi')
      cases hr
  | gotPooled hj hch =>
    rename_i ch id
    refine h.of_take (fun i r hi hr => (h.out i r ch hi hr).1 hch) rfl ?_ (h.nodup.erase ch)
      (h.pooled ch hch) le_rfl
    intro c
    rw [h.nodup.mem_erase_iff]
    exact and_comm
  | gotNew hj =>
    have hlt : ∀ c, c ∈ st.chanPool → c ≠ st.chans.length := by
      intro c hc
      have := h.pooled c hc
      omega
    refine h.of_take ?_ rfl ?_ h.nodup ?_ ?_
    · intro i r hi hr
      have := (h.out i r _ hi hr).2
      omega
    · exact fun c => ⟨fun hc => ⟨hc, hlt c hc⟩, fun hc => hc.1⟩
    · show _ < (st.chans ++ [none]).length
      simp
    · show _ ≤ (st.chans ++ [none]).length
      simp
  | moved m ha hj hholds hchan => exact h.of_set hj hchan rfl rfl rfl
  | received hj hch =>
    refine h.of_set hj ?_ rfl rfl (List.length_set ..).symm
    rfl
  | drained hj =>
    refine h.of_set hj ?_ rfl rfl (List.length_set ..).symm
    rfl
  | put hj =>
    rename_i j ch
    have hkeep : ∀ (i : ℕ) (r : RequestAt) (c : ℕ), (st.requests.set j .done)[i]? = some r →
        r.chan = some c → i ≠ j ∧ st.requests[i]? = some r := by
      intro i r c hi hr
      rcases request_set_cases hi with ⟨-, rfl⟩ | hold
      · cases hr
      · exact hold
    obtain ⟨hout, hlt⟩ := h.out j _ ch hj rfl
    refine ⟨?_, ?_, ?_, List.nodup_cons.mpr ⟨hout, h.nodup⟩⟩
    · intro i k r r' c hi hr hk hr'
      exact h.one i k r r' c (hkeep i r c hi hr).2 hr (hkeep k r' c hk hr').2 hr'
    · intro i r c hi hr
      obtain ⟨hne, hold⟩ := hkeep i r c hi hr
      refine ⟨?_, (h.out i r c hold hr).2⟩
      intro hmem
      rcases List.mem_cons.mp hmem with rfl | hpool
      · exact hne (h.one i j r _ c hold hr hj rfl)
      · exact (h.out i r c hold hr).1 hpool
    · intro c hc
      rcases List.mem_cons.mp hc with rfl | hpool
      · exact hlt
      · exact h.pooled c hpool
  | sent hh hch =>
    exact h.of_same (fun i r ch hi hr => ⟨r, hi, hr⟩) rfl (List.length_set ..).symm

theorem empty : Owned {} where
  one i j p q ch hi := by
    cases hi
  out i p ch hi := by
    cases hi
  pooled ch hch := by
    cases hch
  nodup := List.nodup_nil

end Owned

/-! ## No cross-talk -/

/-- Every response was received by a request with its id. -/
def Matched (st : PendingState) : Prop := ∀ e ∈ st.received, e.2.requestID = e.1

/-- Out of a clean channel a request receives its own response. -/
theorem matched_step {st : PendingState} (a : PendingAct) (ho : Owned st) (hc : Clean st)
    (h : Matched st) : Matched (a.step st) := by
  have heff := pendingEffect st a
  generalize a.step st = st' at heff ⊢
  cases heff with
  | received hj hch =>
    rename_i j ch id resp
    intro e he
    rcases List.mem_append.mp he with hold | hnew
    · exact h e hold
    · cases List.mem_singleton.mp hnew
      -- the request that the response is addressed to holds the same channel
      obtain ⟨i, p, hi, hp⟩ := hc ch resp hch
      have heq : i = j := ho.one i j p _ ch hi (RequestAt.chan_of_holds hp) hj rfl
      rw [heq, hj] at hi
      cases hi
      cases hp
      rfl
  | _ => exact h

/-- **No cross-talk when handlers send in time.** Along every interleaving of any number of requests
and handlers, what is in a channel is addressed to the request that holds it exactly when no handler
sends on a channel after the request with the id of its response has drained it; and then every
request receives only responses to its own id. -/
theorem no_cross_talk (acts : List PendingAct) :
    (Runs.StatesMeet PendingAct.step Clean {} acts ↔
      Runs.StepsMeet PendingAct.step SendsInTime {} acts) ∧
    (Runs.StepsMeet PendingAct.step SendsInTime {} acts →
      ∀ e ∈ (runPending acts).received, e.2.requestID = e.1) := by
  have hclean : Clean {} := by
    intro ch resp hch
    cases hch
  constructor
  · exact Runs.statesMeet_iff_stepsMeet (fun st a h => clean_step_iff st a h) hclean acts
  · intro hsteps
    have hend := hsteps.invariant (P := fun st => Owned st ∧ Clean st ∧ Matched st)
      (fun st a h htime => ⟨h.1.step a, (clean_step_iff st a h.2.1).mpr htime,
        matched_step a h.1 h.2.1 h.2.2⟩)
      ⟨.empty, hclean, fun e he => (by cases he)⟩
    exact hend.2.2

/-- A handler looks up the channel of the first request and sends on it when the second one has
taken it. -/
def lateSend : List PendingAct :=
  [.request, .get 0 none, .register 0, .lookup { requestID := 1, body := [7] }, .giveUp 0,
    .deregister 0, .drain 0, .put 0, .request, .get 1 (some 0), .register 1, .send 0, .receive 1]

theorem late_send_crosses :
    (runPending lateSend).received = [(2, { requestID := 1, body := [7] })] := by
  decide

end Swarm
