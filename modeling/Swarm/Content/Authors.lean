import Swarm.Content.Holders

/-!
# Who speaks for a holder

`onAdvertRecord` enters the holder an advert names in its body and falls back to the author of the
record only when the body names none. Nothing compares the two, so any node can enter another node
as a holder, or take it out again.

`adverts_speak_iff` compares a run on all records with the run on those of one author. They agree
on that author for every sequence over a set of records exactly when no record of the set from
another author names it to an effect.
-/

namespace Swarm

/-- The record is an advert of the hash for the holder. -/
def Names (pb : Marshaller ContentAdvert) (hash : Digest) (id : NodeID) (r : Record) : Prop :=
  ∃ a, readAdvert pb r = some a ∧ a.hash = hash ∧ a.holder = id

/-- And the advert has not expired. -/
def Vouches (pb : Marshaller ContentAdvert) (now : Int64) (hash : Digest) (id : NodeID)
    (r : Record) : Prop :=
  ∃ a, readAdvert pb r = some a ∧ a.hash = hash ∧ a.holder = id ∧ now < a.expiresAt

/-- The index after the records were delivered under a clock that stands still. -/
def indexAt (pb : Marshaller ContentAdvert) (now : Int64) (recs : List Record) : HolderIndex :=
  indexAfter pb ∅ (recs.map fun r => (now, r))

variable {pb : Marshaller ContentAdvert} {now : Int64} {hash : Digest} {id : NodeID}

theorem Vouches.names {r : Record} (h : Vouches pb now hash id r) : Names pb hash id r := by
  obtain ⟨a, ha, hhash, hid, -⟩ := h
  exact ⟨a, ha, hhash, hid⟩

theorem indexAt_concat (recs : List Record) (r : Record) :
    indexAt pb now (recs ++ [r]) = onAdvertRecord pb now (indexAt pb now recs) r := by
  unfold indexAt indexAfter
  rw [List.map_append, List.foldl_append]
  rfl

/-- One delivery: an advert that names the entry decides it, any other leaves it. -/
theorem shows_step (holders : HolderIndex) (r : Record) :
    (onAdvertRecord pb now holders r).Shows now hash id ↔
      Vouches pb now hash id r ∨ (¬ Names pb hash id r ∧ holders.Shows now hash id) := by
  cases ha : readAdvert pb r with
  | none =>
    have hno : ¬ Names pb hash id r := fun ⟨a, h, _⟩ => by rw [ha] at h; cases h
    have hsame : onAdvertRecord pb now holders r = holders := by
      unfold onAdvertRecord
      rw [ha]
    rw [hsame, or_iff_right fun h => hno h.names, and_iff_right hno]
  | some a =>
    rw [shows_onAdvertRecord le_rfl ha]
    unfold Vouches Names
    rw [ha]
    simp only [Option.some.injEq, exists_eq_left']
    by_cases hnamed : hash = a.hash ∧ id = a.holder
    · obtain ⟨rfl, rfl⟩ := hnamed
      simp
    · have hno : ¬ (a.hash = hash ∧ a.holder = id) := fun h => hnamed ⟨h.1.symm, h.2.symm⟩
      rw [if_neg hnamed, or_iff_right fun h => hno ⟨h.1, h.2.1⟩, and_iff_right hno]

theorem not_shows_nil : ¬ (indexAt pb now []).Shows now hash id := fun ⟨_, h, _⟩ => (nomatch h)

/-- Without a record that vouches for the holder it is not shown. -/
theorem not_shows_indexAt {recs : List Record} (h : ∀ r ∈ recs, ¬ Vouches pb now hash id r) :
    ¬ (indexAt pb now recs).Shows now hash id := by
  induction recs using List.reverseRecOn with
  | nil => exact not_shows_nil
  | append_singleton recs r ih =>
    rw [indexAt_concat, shows_step]
    rintro (hvouch | ⟨-, hold⟩)
    · exact h r (List.mem_append_right _ (List.mem_singleton_self r)) hvouch
    · exact ih (fun r' hr' => h r' (List.mem_append_left _ hr')) hold

/-- **Who speaks for a holder.** For every set of records: over every sequence of them, delivered
under a clock that stands still, whether `Holders` names a node is settled by that node's own
records alone, exactly when every record of another author that names the node is a withdrawal or
has expired, and none of the node's own records vouches for it then. -/
theorem adverts_speak_iff (pb : Marshaller ContentAdvert) (now : Int64) (records : Set Record)
    (id : NodeID) (hash : Digest) :
    (∀ recs : List Record, (∀ r ∈ recs, r ∈ records) →
      (id ∈ (holdersOf now (indexAt pb now recs) hash).1 ↔
        id ∈ (holdersOf now (indexAt pb now (recs.filter fun r => r.nodeID = id)) hash).1)) ↔
    ∀ r ∈ records, r.nodeID ≠ id → Names pb hash id r →
      ¬ Vouches pb now hash id r ∧
        ∀ own ∈ records, own.nodeID = id → ¬ Vouches pb now hash id own := by
  have hshow : ∀ holders : HolderIndex,
      id ∈ (holdersOf now holders hash).1 ↔ holders.Shows now hash id := fun _ => mem_holdersOf
  simp only [hshow]
  constructor
  · intro h r hr hother hnames
    -- delivered alone it would enter the node
    have hdead : ¬ Vouches pb now hash id r := by
      intro hvouch
      have hone := h [r] (List.forall_mem_singleton.mpr hr)
      rw [List.filter_cons_of_neg (by simpa using hother)] at hone
      exact not_shows_nil (hone.mp ((shows_step _ r).mpr (Or.inl hvouch)))
    -- and after a record that vouches it would take the node out
    refine ⟨hdead, fun own hown hauthor hvouch => ?_⟩
    have htwo := h [own, r] (List.forall_mem_cons.mpr ⟨hown, List.forall_mem_singleton.mpr hr⟩)
    rw [List.filter_cons_of_pos (by simpa using hauthor),
      List.filter_cons_of_neg (by simpa using hother)] at htwo
    rcases (shows_step _ r).mp (htwo.mpr ((shows_step _ own).mpr (Or.inl hvouch))) with
      hr' | ⟨hno, -⟩
    · exact hdead hr'
    · exact hno hnames
  · intro h recs
    induction recs using List.reverseRecOn with
    | nil => exact fun _ => Iff.rfl
    | append_singleton recs r ih =>
      intro hmem
      have hr := hmem r (List.mem_append_right _ (List.mem_singleton_self r))
      have hrecs : ∀ r' ∈ recs, r' ∈ records := fun r' hr' => hmem r' (List.mem_append_left _ hr')
      by_cases hauthor : r.nodeID = id
      · have hkept : (recs ++ [r]).filter (fun r => decide (r.nodeID = id)) =
            recs.filter (fun r => decide (r.nodeID = id)) ++ [r] := by
          simp [hauthor]
        rw [hkept, indexAt_concat, indexAt_concat, shows_step, shows_step, ih hrecs]
      · have hdropped : (recs ++ [r]).filter (fun r => decide (r.nodeID = id)) =
            recs.filter (fun r => decide (r.nodeID = id)) := by
          simp [hauthor]
        rw [hdropped, indexAt_concat, shows_step]
        by_cases hnames : Names pb hash id r
        · obtain ⟨hdead, hown⟩ := h r hr hauthor hnames
          refine iff_of_false (by simp [hdead, hnames]) (not_shows_indexAt fun own hmem' => ?_)
          obtain ⟨hin, hid⟩ := List.mem_filter.mp hmem'
          exact hown own (hrecs own hin) (by simpa using hid)
        · rw [or_iff_right fun h => hnames h.names, and_iff_right hnames, ih hrecs]

/-- An advert of node 2 for node 1, valid at time 1. -/
def forgedAdvert : ContentAdvert :=
  { hash := List.replicate 32 1, holder := [1], expiresAt := 2, size := 0 }

/-- The record node 2 publishes it in. -/
def forgedRecord : Record := { topic := topicContentAdvert, nodeID := [2], hlc := 5, body := [7] }

/-- Node 1 published nothing and is a holder. -/
theorem forged_holder_shown :
    [1] ∈ (holdersOf 1 (indexAt (.single forgedAdvert [7]) 1 [forgedRecord]) (digestOf 1)).1 ∧
    [1] ∉ (holdersOf 1 (indexAt (.single forgedAdvert [7]) 1
      ([forgedRecord].filter fun r => r.nodeID = [1])) (digestOf 1)).1 := by
  decide

end Swarm
