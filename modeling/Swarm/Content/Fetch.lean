import Swarm.Content.Manifest

/-!
# Fetching content

`Fetch` and `FetchBlob` of `content_impl.go`. Everything outside the two functions is given per
call: the holders in the index, the provider, what each holder answers, when the context ends and
what the writer returns. `Fetch` returns bytes of the requested digest only (`fetch_ok`), so against
any holders `FetchBlob` writes the published chunks in order and nothing else.
-/

namespace Swarm

/-- The errors of the content functions; `new` carries the text of `errors.New`, and the errors of
peers, contexts and writers. -/
inductive ContentErr where
  | errNoHolders
  | errHashMismatch
  | new (text : String)
  deriving DecidableEq

/-- The part of `ContentProvider` that `Fetch` uses. -/
structure ContentProvider where
  has : Bytes → Bool
  read : Bytes → Except ContentErr Bytes

/-- What one call of `Fetch` meets: the holders, the provider, what `requestFromHolder` returns for
a holder, and the error of the context after that. -/
structure FetchCall where
  holders : List NodeID := []
  provider : Option ContentProvider := none
  request : NodeID → Except ContentErr Bytes := fun _ => .error (.new "")
  ctxErr : NodeID → Option ContentErr := fun _ => none

/-- `verifyContentHash`. -/
def verifyContentHash (cr : Crypto) (hash body : Bytes) : Bool := cr.sha256 body == hash

/-- The local provider's answer, if there is one. -/
def FetchCall.readLocal (call : FetchCall) (hash : Bytes) : Option Bytes :=
  match call.provider with
  | none => none
  | some provider => if provider.has hash then (provider.read hash).toOption else none

/-- The loop of `Fetch` over the holders. -/
def fetchLoop (cr : Crypto) (self : NodeID) (call : FetchCall) (hash : Bytes) :
    Option ContentErr → List NodeID → Except ContentErr Bytes
  | lastErr, [] => .error (lastErr.getD .errNoHolders)
  | lastErr, holder :: holders =>
    if holder = self then
      match call.readLocal hash with
      | some body =>
        if verifyContentHash cr hash body then .ok body
        else fetchLoop cr self call hash lastErr holders
      | none => fetchLoop cr self call hash lastErr holders
    else
      match call.request holder with
      | .ok body =>
        if verifyContentHash cr hash body then .ok body
        else
          match call.ctxErr holder with
          | some err => .error err
          | none => fetchLoop cr self call hash (some .errHashMismatch) holders
      | .error lastErr =>
        match call.ctxErr holder with
        | some err => .error err
        | none => fetchLoop cr self call hash (some lastErr) holders

/-- `Fetch`. -/
def fetch (cr : Crypto) (self : NodeID) (call : FetchCall) (hash : Bytes) :
    Except ContentErr Bytes :=
  if call.holders = [] then .error .errNoHolders
  else fetchLoop cr self call hash none call.holders

/-- What the writer and the progress callback have seen, and what the hasher was given. -/
structure BlobState where
  written : List Bytes := []
  progress : List (UInt64 × UInt64) := []
  hashed : Bytes := []
  received : UInt64 := 0

/-- What one call of `FetchBlob` meets: its fetches in order, the error of the context before each
chunk, and the error of each write. -/
structure BlobCall where
  fetches : ℕ → FetchCall
  ctxErr : ℕ → Option ContentErr := fun _ => none
  write : ℕ → Option ContentErr := fun _ => none

/-- The loop of `FetchBlob` from chunk `n` on. -/
def fetchChunks (cr : Crypto) (self : NodeID) (w : BlobCall) (progress : Bool) (total : UInt64) :
    List Bytes → ℕ → BlobState → BlobState × Option ContentErr
  | [], _, st => (st, none)
  | chunkHash :: rest, n, st =>
    match w.ctxErr n with
    | some err => (st, some err)
    | none =>
      if chunkHash.length ≠ 32 then
        (st, some (.new "swarm: manifest chunk hash length invalid"))
      else
        match fetch cr self (w.fetches (n + 1)) chunkHash with
        | .error err => (st, some err)
        | .ok body =>
          let st := { st with hashed := st.hashed ++ body }
          match w.write n with
          | some err => (st, some err)
          | none =>
            let received := st.received + UInt64.ofNat body.length
            fetchChunks cr self w progress total rest (n + 1)
              { st with
                written := st.written ++ [body]
                received := received
                progress :=
                  if progress then st.progress ++ [(received, total)] else st.progress }

/-- `FetchBlob`, with the state of the writer at its return. -/
def fetchBlob (cr : Crypto) (pb : Marshaller Manifest) (self : NodeID) (w : BlobCall)
    (out progress : Bool) (manifestHash : Bytes) : BlobState × Option ContentErr :=
  if out = false then ({}, some (.new "swarm: FetchBlob requires non-nil out writer"))
  else
    match fetch cr self (w.fetches 0) manifestHash with
    | .error err => ({}, some err)
    | .ok manifestBody =>
      match pb.unmarshal manifestBody with
      | none => ({}, some (.new "swarm: malformed manifest body"))
      | some manifest =>
        if verifyManifestSig cr manifest = false then
          ({}, some (.new "swarm: manifest signature verification failed"))
        else if manifest.blobHash.length ≠ 32 then
          ({}, some (.new "swarm: manifest blob_hash length invalid"))
        else
          match fetchChunks cr self w progress manifest.totalSize manifest.chunks 0 {} with
          | (st, some err) => (st, some err)
          | (st, none) =>
            if cr.sha256 st.hashed ≠ manifest.blobHash then (st, some .errHashMismatch)
            else (st, none)

/-! ## One fetch -/

/-- The bytes a holder comes up with. -/
def FetchCall.answer (call : FetchCall) (self : NodeID) (hash : Bytes) (holder : NodeID) :
    Option Bytes :=
  if holder = self then call.readLocal hash else (call.request holder).toOption

/-- The bytes that any of the holders may come up with. -/
def FetchCall.answers (call : FetchCall) (self : NodeID) : Set Bytes :=
  {body | ∃ hash holder, call.answer self hash holder = some body}

/-- Some holder has the content, and the context is alive until it is asked. -/
def FetchCall.Serves (cr : Crypto) (self : NodeID) (call : FetchCall) (hash : Bytes) : Prop :=
  ∃ front holder back, call.holders = front ++ holder :: back ∧
    (∀ h ∈ front, call.ctxErr h = none) ∧
    ∃ body, call.answer self hash holder = some body ∧ cr.sha256 body = hash

/-- One turn of the loop: the holder's bytes if they have the digest, otherwise the end of the
context or the next holder. -/
theorem fetchLoop_cons (cr : Crypto) (self : NodeID) (call : FetchCall) (hash : Bytes)
    (lastErr : Option ContentErr) (holder : NodeID) (holders : List NodeID) :
    (∃ body, call.answer self hash holder = some body ∧ cr.sha256 body = hash ∧
      fetchLoop cr self call hash lastErr (holder :: holders) = .ok body) ∨
    (∀ body, call.answer self hash holder = some body → cr.sha256 body ≠ hash) ∧
      ((∃ err, call.ctxErr holder = some err ∧
        fetchLoop cr self call hash lastErr (holder :: holders) = .error err) ∨
      ∃ lastErr', fetchLoop cr self call hash lastErr (holder :: holders) =
        fetchLoop cr self call hash lastErr' holders) := by
  unfold FetchCall.answer
  rw [fetchLoop]
  by_cases hself : holder = self
  · simp only [hself, if_true]
    cases call.readLocal hash with
    | none => exact Or.inr ⟨by simp, Or.inr ⟨lastErr, rfl⟩⟩
    | some body =>
      by_cases hv : cr.sha256 body = hash
      · exact Or.inl ⟨body, rfl, hv, by simp [verifyContentHash, hv]⟩
      · exact Or.inr ⟨by simpa using hv, Or.inr ⟨lastErr, by simp [verifyContentHash, hv]⟩⟩
  · simp only [hself, if_false]
    cases call.request holder with
    | error err =>
      refine Or.inr ⟨by simp [Except.toOption], ?_⟩
      cases call.ctxErr holder with
      | some e => exact Or.inl ⟨e, rfl, rfl⟩
      | none => exact Or.inr ⟨some err, rfl⟩
    | ok body =>
      by_cases hv : cr.sha256 body = hash
      · exact Or.inl ⟨body, rfl, hv, by simp [verifyContentHash, hv]⟩
      · refine Or.inr ⟨by simpa [Except.toOption] using hv, ?_⟩
        cases call.ctxErr holder with
        | some e => exact Or.inl ⟨e, rfl, by simp [verifyContentHash, hv]⟩
        | none => exact Or.inr ⟨some .errHashMismatch, by simp [verifyContentHash, hv]⟩

section

variable {cr : Crypto} {self : NodeID} {call : FetchCall} {hash body : Bytes}

theorem fetchLoop_ok {lastErr : Option ContentErr} {holders : List NodeID}
    (h : fetchLoop cr self call hash lastErr holders = .ok body) :
    cr.sha256 body = hash ∧ body ∈ call.answers self := by
  induction holders generalizing lastErr with
  | nil => cases h
  | cons holder holders ih =>
    rcases fetchLoop_cons cr self call hash lastErr holder holders with
      ⟨b, hb, hdigest, heq⟩ | ⟨-, ⟨err, -, heq⟩ | ⟨lastErr', heq⟩⟩
    · rw [heq] at h
      cases h
      exact ⟨hdigest, hash, holder, hb⟩
    · rw [heq] at h
      cases h
    · rw [heq] at h
      exact ih h

/-- `Fetch` returns bytes of the digest, from one of the holders. -/
theorem fetch_ok (h : fetch cr self call hash = .ok body) :
    cr.sha256 body = hash ∧ body ∈ call.answers self := by
  unfold fetch at h
  split_ifs at h
  exact fetchLoop_ok h

/-- The loop gets to a holder that has the content. -/
theorem fetchLoop_served {lastErr : Option ContentErr} {front back : List NodeID} {holder : NodeID}
    (hfront : ∀ h ∈ front, call.ctxErr h = none)
    (hbody : ∃ body, call.answer self hash holder = some body ∧ cr.sha256 body = hash) :
    ∃ body, fetchLoop cr self call hash lastErr (front ++ holder :: back) = .ok body := by
  induction front generalizing lastErr with
  | nil =>
    rcases fetchLoop_cons cr self call hash lastErr holder back with
      ⟨b, -, -, heq⟩ | ⟨hno, -⟩
    · exact ⟨b, heq⟩
    · obtain ⟨body, hanswer, hdigest⟩ := hbody
      exact absurd hdigest (hno body hanswer)
  | cons first front ih =>
    rcases fetchLoop_cons cr self call hash lastErr first (front ++ holder :: back) with
      ⟨b, -, -, heq⟩ | ⟨-, ⟨err, hctx, -⟩ | ⟨lastErr', heq⟩⟩
    · exact ⟨b, heq⟩
    · rw [hfront first List.mem_cons_self] at hctx
      cases hctx
    · rw [List.cons_append, heq]
      exact ih fun h hmem => hfront h (List.mem_cons_of_mem _ hmem)

theorem fetch_served (h : call.Serves cr self hash) :
    ∃ body, fetch cr self call hash = .ok body := by
  obtain ⟨front, holder, back, hholders, hfront, hbody⟩ := h
  unfold fetch
  rw [if_neg (by rw [hholders]; simp), hholders]
  exact fetchLoop_served hfront hbody

end

/-! ## A whole blob -/

section

variable {cr : Crypto} {self : NodeID} {w : BlobCall} (progress : Bool) (total : UInt64)

/-- Bytes of a chunk's digest are the chunk. -/
theorem fetch_eq_of_collisionFree {S : Set Bytes} {call : FetchCall} {content body : Bytes}
    (hS : cr.CollisionFreeOn S) (hcontent : content ∈ S) (hanswers : call.answers self ⊆ S)
    (h : fetch cr self call (cr.sha256 content) = .ok body) : body = content := by
  obtain ⟨hdigest, hmem⟩ := fetch_ok h
  exact hS (hanswers hmem) hcontent hdigest

/-- **The loop writes the chunks in order.** Against any holders the loop over the digests of `cs`
has written the first `j` of them when it returns, all of them if it returns without an error. -/
theorem fetchChunks_writes {S : Set Bytes} (hS : cr.CollisionFreeOn S)
    (hanswers : ∀ n, (w.fetches n).answers self ⊆ S) (cs : List Bytes) (hcs : ∀ c ∈ cs, c ∈ S)
    (n : ℕ) (st : BlobState) :
    ∃ j, (fetchChunks cr self w progress total (cs.map cr.sha256) n st).1.written =
        st.written ++ cs.take j ∧
      ((fetchChunks cr self w progress total (cs.map cr.sha256) n st).2 = none →
        (fetchChunks cr self w progress total (cs.map cr.sha256) n st).1.written =
          st.written ++ cs ∧
        (fetchChunks cr self w progress total (cs.map cr.sha256) n st).1.hashed =
          st.hashed ++ cs.flatten) := by
  induction cs generalizing n st with
  | nil => exact ⟨0, by simp [fetchChunks], by simp [fetchChunks]⟩
  | cons c cs ih =>
    rw [List.map_cons, fetchChunks]
    cases w.ctxErr n with
    | some err => exact ⟨0, by simp, by simp⟩
    | none =>
      dsimp only
      rw [if_neg (by rw [not_not]; exact cr.sha256_length c)]
      cases hfetch : fetch cr self (w.fetches (n + 1)) (cr.sha256 c) with
      | error err => exact ⟨0, by simp, by simp⟩
      | ok body =>
        have hbody : body = c :=
          fetch_eq_of_collisionFree hS (hcs c List.mem_cons_self) (hanswers (n + 1)) hfetch
        subst hbody
        dsimp only
        cases w.write n with
        | some err => exact ⟨0, by simp, by simp⟩
        | none =>
          dsimp only
          obtain ⟨j, hwritten, hdone⟩ := ih (fun x hx => hcs x (List.mem_cons_of_mem _ hx)) (n + 1)
            { written := st.written ++ [body]
              progress := if progress then
                st.progress ++ [(st.received + UInt64.ofNat body.length, total)] else st.progress
              hashed := st.hashed ++ body
              received := st.received + UInt64.ofNat body.length }
          refine ⟨j + 1, ?_, ?_⟩
          · rw [hwritten]
            simp
          · intro hnone
            obtain ⟨hw, hh⟩ := hdone hnone
            rw [hw, hh]
            simp

/-- Served in every fetch, with the context and the writer in order, the loop ends without an
error. -/
theorem fetchChunks_served (hctx : ∀ n, w.ctxErr n = none) (hwrite : ∀ n, w.write n = none)
    (cs : List Bytes) (n : ℕ) (st : BlobState)
    (hserved : ∀ i c, cs[i]? = some c → (w.fetches (n + 1 + i)).Serves cr self (cr.sha256 c)) :
    (fetchChunks cr self w progress total (cs.map cr.sha256) n st).2 = none := by
  induction cs generalizing n st with
  | nil => rfl
  | cons c cs ih =>
    obtain ⟨body, hbody⟩ := fetch_served (hserved 0 c rfl)
    rw [List.map_cons, fetchChunks, hctx n]
    dsimp only
    rw [if_neg (by rw [not_not]; exact cr.sha256_length c)]
    rw [show n + 1 + 0 = n + 1 from rfl] at hbody
    rw [hbody, hwrite n]
    dsimp only
    refine ih (n + 1) _ ?_
    intro i x hx
    have hnext := hserved (i + 1) x (by simpa using hx)
    rwa [show n + 1 + (i + 1) = n + 1 + 1 + i by omega] at hnext

variable {pb : Marshaller Manifest} {body : Bytes} {size : ℕ} {sm : SignedManifest} {m : Manifest}

/-- Once the manifest was fetched, `FetchBlob` is the loop over its chunks, or the loop with a
digest that does not match. -/
theorem fetchBlob_eq (hpb : pb.RoundTrips) (hp : Publishes cr pb body size sm m)
    (hfetch : fetch cr self (w.fetches 0) sm.manifestHash = .ok sm.manifestBytes) :
    fetchBlob cr pb self w true progress sm.manifestHash =
      match fetchChunks cr self w progress m.totalSize (sm.chunks.map cr.sha256) 0 {} with
      | (st, some err) => (st, some err)
      | (st, none) =>
        if cr.sha256 st.hashed ≠ cr.sha256 body then (st, some .errHashMismatch)
        else (st, none) := by
  unfold fetchBlob
  rw [if_neg (by simp), hfetch]
  dsimp only
  rw [hpb m _ hp.marshalled]
  dsimp only
  rw [if_neg (by rw [hp.signed]; simp), hp.blobHash,
    if_neg (by rw [not_not]; exact cr.sha256_length body), hp.chunkHashes]

/-- Against any holders `FetchBlob` has written the first chunks when it returns. -/
theorem fetchBlob_writes (hpb : pb.RoundTrips) (hp : Publishes cr pb body size sm m) {S : Set Bytes}
    (hS : cr.CollisionFreeOn S) (hanswers : ∀ n, (w.fetches n).answers self ⊆ S)
    (hmanifest : sm.manifestBytes ∈ S) (hchunks : ∀ c ∈ sm.chunks, c ∈ S) :
    ∃ j, (fetchBlob cr pb self w true progress sm.manifestHash).1.written = sm.chunks.take j ∧
      ((fetchBlob cr pb self w true progress sm.manifestHash).2 = none →
        (fetchBlob cr pb self w true progress sm.manifestHash).1.written = sm.chunks) := by
  cases hfetch : fetch cr self (w.fetches 0) sm.manifestHash with
  | error err => exact ⟨0, by simp [fetchBlob, hfetch], by simp [fetchBlob, hfetch]⟩
  | ok manifestBody =>
    have hbytes : manifestBody = sm.manifestBytes := by
      rw [hp.manifestHash] at hfetch
      exact fetch_eq_of_collisionFree hS hmanifest (hanswers 0) hfetch
    rw [hbytes] at hfetch
    rw [fetchBlob_eq progress hpb hp hfetch]
    obtain ⟨j, hwritten, hdone⟩ :=
      fetchChunks_writes progress m.totalSize hS hanswers sm.chunks hchunks 0 {}
    generalize fetchChunks cr self w progress m.totalSize (sm.chunks.map cr.sha256) 0 {} = run
      at hwritten hdone ⊢
    obtain ⟨st, err⟩ := run
    refine ⟨j, ?_, ?_⟩
    · cases err with
      | some err => exact hwritten
      | none =>
        dsimp only
        split_ifs <;> exact hwritten
    · cases err with
      | some err =>
        intro hnone
        cases hnone
      | none =>
        intro _
        dsimp only
        split_ifs <;> exact (hdone rfl).1

/-- Served in every fetch, `FetchBlob` returns without an error. -/
theorem fetchBlob_served (hpb : pb.RoundTrips) (hp : Publishes cr pb body size sm m)
    (hsize : 0 < size) {S : Set Bytes} (hS : cr.CollisionFreeOn S)
    (hanswers : ∀ n, (w.fetches n).answers self ⊆ S) (hmanifest : sm.manifestBytes ∈ S)
    (hchunks : ∀ c ∈ sm.chunks, c ∈ S) (hctx : ∀ n, w.ctxErr n = none)
    (hwrite : ∀ n, w.write n = none) (hfirst : (w.fetches 0).Serves cr self sm.manifestHash)
    (hserved : ∀ i c, sm.chunks[i]? = some c → (w.fetches (i + 1)).Serves cr self (cr.sha256 c)) :
    (fetchBlob cr pb self w true progress sm.manifestHash).2 = none := by
  obtain ⟨manifestBody, hfetch⟩ := fetch_served hfirst
  have hbytes : manifestBody = sm.manifestBytes := by
    rw [hp.manifestHash] at hfetch
    exact fetch_eq_of_collisionFree hS hmanifest (hanswers 0) hfetch
  rw [hbytes] at hfetch
  rw [fetchBlob_eq progress hpb hp hfetch]
  obtain ⟨j, -, hdone⟩ :=
    fetchChunks_writes progress m.totalSize hS hanswers sm.chunks hchunks 0 {}
  have hnone : (fetchChunks cr self w progress m.totalSize (sm.chunks.map cr.sha256) 0 {}).2 =
      none := by
    refine fetchChunks_served progress m.totalSize hctx hwrite sm.chunks 0 {} ?_
    intro i c hc
    have hi := hserved i c hc
    rwa [show i + 1 = 0 + 1 + i by omega] at hi
  generalize fetchChunks cr self w progress m.totalSize (sm.chunks.map cr.sha256) 0 {} = run
    at hdone hnone ⊢
  obtain ⟨st, err⟩ := run
  cases hnone
  dsimp only
  -- the hasher was given the chunks, which make up the body
  have hhashed : st.hashed = body := by
    have hflat := (hdone rfl).2
    rw [hp.chunks, Chunks.flatten_split hsize] at hflat
    exact hflat
  rw [if_neg (by rw [hhashed]; simp)]

end

/-- A body of three bytes in chunks of two. -/
def sampleManifest : Manifest := signedManifest .inClear 0 [1, 2, 3] 2 [] [] [7]

/-- The first holder of the first chunk lies. -/
def sampleBlobCall : BlobCall where
  fetches
    | 0 => { holders := [[1]], request := fun _ => .ok [0x0a] }
    | 1 => { holders := [[1], [2]], request := fun h => if h = [1] then .ok [9] else .ok [1, 2] }
    | 2 => { holders := [[2]], request := fun _ => .ok [3] }
    | _ => {}

/-- What the publisher gets for it. -/
def samplePublished : SignedManifest :=
  { manifestBytes := [0x0a]
    manifestHash := checksum [0x0a]
    chunkHashes := [checksum [1, 2], checksum [3]]
    chunks := [[1, 2], [3]] }

theorem sampleBlobCall_answers (n : ℕ) :
    (sampleBlobCall.fetches n).answers [] ⊆ {body | body ∈ [[0x0a], [9], [1, 2], [3]]} := by
  rintro body ⟨hash, holder, hanswer⟩
  unfold FetchCall.answer at hanswer
  split_ifs at hanswer
  · match n, hanswer with
    | 0, h => cases h
    | 1, h => cases h
    | 2, h => cases h
    | n + 3, h => cases h
  · match n, hanswer with
    | 0, h =>
      cases h
      decide
    | 1, h =>
      have h' : (if holder = [1] then Except.ok [9] else Except.ok [1, 2] :
          Except ContentErr Bytes).toOption = some body := h
      split_ifs at h' <;> cases h' <;> decide
    | 2, h =>
      cases h
      decide
    | n + 3, h => cases h

end Swarm
