import Mathlib.Data.Finset.Card
import Mathlib.Data.List.AList
import Swarm.Lib.Words

/-!
# Finite maps with a size and a range loop

`FMap K V` is Mathlib's `AList` at a constant value type. Two operations of a mutable hash map
are missing there and are added here: the number of entries, and the loop that visits every
entry and keeps, rewrites or deletes it (`rangeUpdate`).

`lookup_rangeUpdate` says what such a loop leaves at each key, and `filter_values_perm` that the
values of a map are determined, up to order, by what it answers.
-/

/-- A finite map from `K` to `V`. -/
abbrev FMap (K V : Type) : Type := AList (fun _ : K => V)

namespace FMap

variable {K V : Type}

/-- The number of entries. -/
def len (m : FMap K V) : ℕ := m.entries.length

/-- The values, in the order the map lists its entries. -/
def values (m : FMap K V) : List V := m.entries.map Sigma.snd

@[simp] theorem len_empty : len (∅ : FMap K V) = 0 := rfl

theorem length_values (m : FMap K V) : m.values.length = m.len := List.length_map _

theorem nodup_filter_keys (m : FMap K V) (f : V → Bool) :
    ((m.entries.filter fun e => f e.2).map Sigma.fst).Nodup :=
  (List.filter_sublist.map Sigma.fst).nodup m.nodupKeys

section Count

variable {m m' : FMap K V} (p : K → Bool)

theorem len_eq_countP_keys (m : FMap K V) : m.len = m.keys.countP fun _ => true := by
  rw [List.countP_true]
  exact (List.length_map _).symm

theorem countP_keys_mono (h : m.keys ⊆ m'.keys) : m.keys.countP p ≤ m'.keys.countP p :=
  (m.keys_nodup.subperm h).countP_le p

theorem len_mono (h : m.keys ⊆ m'.keys) : m.len ≤ m'.len := by
  rw [len_eq_countP_keys, len_eq_countP_keys]
  exact countP_keys_mono _ h

theorem countP_keys_congr (h : ∀ k, k ∈ m'.keys ↔ k ∈ m.keys) :
    m'.keys.countP p = m.keys.countP p :=
  ((List.perm_ext_iff_of_nodup m'.keys_nodup m.keys_nodup).mpr h).countP_eq p

/-- One more key counts once. -/
theorem countP_keys_add {a : K} (hnew : a ∉ m.keys) (h : ∀ k, k ∈ m'.keys ↔ k = a ∨ k ∈ m.keys) :
    m'.keys.countP p = m.keys.countP p + if p a then 1 else 0 := by
  have hperm : m'.keys.Perm (a :: m.keys) :=
    (List.perm_ext_iff_of_nodup m'.keys_nodup (List.nodup_cons.mpr ⟨hnew, m.keys_nodup⟩)).mpr
      fun k => (h k).trans List.mem_cons.symm
  rw [hperm.countP_eq, List.countP_cons]

end Count

variable [DecidableEq K]

theorem lookup_eq_some_iff {m : FMap K V} {k : K} {v : V} :
    m.lookup k = some v ↔ (⟨k, v⟩ : (_ : K) × V) ∈ m.entries :=
  List.mem_dlookup_iff m.nodupKeys

theorem mem_values {m : FMap K V} {v : V} : v ∈ m.values ↔ ∃ k, m.lookup k = some v := by
  unfold values
  rw [List.mem_map]
  constructor
  · rintro ⟨⟨k, w⟩, hmem, rfl⟩
    exact ⟨k, lookup_eq_some_iff.mpr hmem⟩
  · rintro ⟨k, hk⟩
    exact ⟨⟨k, v⟩, lookup_eq_some_iff.mp hk, rfl⟩

theorem lookup_insert_eq (m : FMap K V) (a k : K) (v : V) :
    (m.insert a v).lookup k = if k = a then some v else m.lookup k := by
  by_cases h : k = a
  · subst h
    rw [if_pos rfl]
    exact AList.lookup_insert m
  · rw [if_neg h]
    exact AList.lookup_insert_ne h

theorem lookup_erase_eq (m : FMap K V) (a k : K) :
    (m.erase a).lookup k = if k = a then none else m.lookup k := by
  by_cases h : k = a
  · subst h
    rw [if_pos rfl]
    exact AList.lookup_erase k m
  · rw [if_neg h]
    exact AList.lookup_erase_ne h

theorem mem_keys {m : FMap K V} {k : K} : k ∈ m.keys ↔ ∃ v, m.lookup k = some v := by
  rw [← AList.mem_keys, ← AList.lookup_isSome, Option.isSome_iff_exists]

/-- The keys whose value passes a test. -/
theorem mem_filter_keys {m : FMap K V} {f : V → Bool} {k : K} :
    k ∈ (m.entries.filter fun e => f e.2).map Sigma.fst ↔
      ∃ v, m.lookup k = some v ∧ f v = true := by
  rw [List.mem_map]
  constructor
  · rintro ⟨⟨k', v⟩, he, rfl⟩
    obtain ⟨hmem, hf⟩ := List.mem_filter.mp he
    exact ⟨v, lookup_eq_some_iff.mpr hmem, hf⟩
  · rintro ⟨v, hv, hf⟩
    exact ⟨⟨k, v⟩, List.mem_filter.mpr ⟨lookup_eq_some_iff.mp hv, hf⟩, rfl⟩

theorem not_mem_keys {m : FMap K V} {k : K} : k ∉ m.keys ↔ m.lookup k = none := by
  rw [mem_keys, ← Option.ne_none_iff_exists', not_not]

theorem len_insert_new {m : FMap K V} {a : K} (h : m.lookup a = none) (v : V) :
    FMap.len (m.insert a v) = m.len + 1 := by
  rw [len_eq_countP_keys, len_eq_countP_keys]
  exact countP_keys_add _ (not_mem_keys.mpr h) fun _ => AList.mem_insert m

theorem len_insert_old {m : FMap K V} {a : K} (h : a ∈ m.keys) (v : V) :
    FMap.len (m.insert a v) = m.len := by
  rw [len_eq_countP_keys, len_eq_countP_keys]
  refine countP_keys_congr _ fun k => (AList.mem_insert m).trans ?_
  exact or_iff_right_of_imp fun hk => hk ▸ h

theorem erase_insert (m : FMap K V) (a : K) (v : V) : (m.insert a v).erase a = m.erase a := by
  apply AList.ext
  exact List.kerase_cons_eq rfl

omit [DecidableEq K] in
theorem len_eq_zero {m : FMap K V} : m.len = 0 ↔ m = ∅ := by
  constructor
  · exact fun h => AList.ext (List.eq_nil_of_length_eq_zero h)
  · rintro rfl
    rfl

theorem len_eq_card_keys (m : FMap K V) : m.len = m.keys.toFinset.card := by
  rw [List.toFinset_card_of_nodup m.keys_nodup]
  exact (List.length_map _).symm

theorem eq_empty_of_lookup {m : FMap K V} (h : ∀ k, m.lookup k = none) : m = ∅ := by
  refine AList.ext (List.eq_nil_iff_forall_not_mem.mpr ?_)
  rintro ⟨k, v⟩ hmem
  rw [← lookup_eq_some_iff, h k] at hmem
  cases hmem

/-- Maps whose answers agree once filtered list the same filtered values up to order. -/
theorem filter_values_perm {keep keep' : V → Bool} {m m' : FMap K V}
    (h : ∀ k, (m.lookup k).filter keep = (m'.lookup k).filter keep') :
    (m.values.filter keep).Perm (m'.values.filter keep') := by
  have hentries :
      (m.entries.filter fun e => keep e.2).Perm (m'.entries.filter fun e => keep' e.2) := by
    refine (List.perm_ext_iff_of_nodup (m.nodupKeys.nodup.filter _)
      (m'.nodupKeys.nodup.filter _)).mpr ?_
    rintro ⟨k, v⟩
    simp only [List.mem_filter, ← lookup_eq_some_iff]
    rw [← Option.filter_eq_some_iff, ← Option.filter_eq_some_iff, h k]
  have := hentries.map Sigma.snd
  unfold values
  rwa [List.filter_map, List.filter_map]

/-- Values that name their own key are listed without repetition of keys. -/
theorem nodup_map_values {m : FMap K V} {f : V → K} (h : ∀ k v, m.lookup k = some v → f v = k) :
    (m.values.map f).Nodup := by
  have heq : m.values.map f = m.keys := by
    unfold values AList.keys List.keys
    rw [List.map_map]
    exact List.map_congr_left fun e he => h e.1 e.2 (lookup_eq_some_iff.mpr he)
  rw [heq]
  exact m.keys_nodup

/-! ## The range loop -/

/-- Visit every entry; `f` gives what stays in its place, `none` deletes it. -/
def rangeUpdate (f : K → V → Option V) (m : FMap K V) : FMap K V where
  entries := m.entries.filterMap fun e => (f e.1 e.2).map fun v => ⟨e.1, v⟩
  nodupKeys := by
    have hsub : (m.entries.filterMap fun e =>
        (f e.1 e.2).map fun v => (⟨e.1, v⟩ : (_ : K) × V)).keys.Sublist m.entries.keys := by
      generalize m.entries = l
      induction l with
      | nil => exact List.Sublist.refl _
      | cons e l ih =>
        cases hf : f e.1 e.2 with
        | none =>
          rw [List.filterMap_cons_none (by rw [hf]; rfl), List.keys_cons]
          exact ih.trans (List.sublist_cons_self _ _)
        | some v =>
          rw [List.filterMap_cons_some (by rw [hf]; rfl), List.keys_cons, List.keys_cons]
          exact ih.cons_cons _
    exact hsub.nodup m.nodupKeys

/-- What the loop leaves at a key is what `f` makes of the entry there. -/
theorem lookup_rangeUpdate (f : K → V → Option V) (m : FMap K V) (k : K) :
    (m.rangeUpdate f).lookup k = (m.lookup k).bind (f k) := by
  refine Option.ext fun v => ?_
  show (m.rangeUpdate f).lookup k = some v ↔ (m.lookup k).bind (f k) = some v
  rw [lookup_eq_some_iff, Option.bind_eq_some_iff]
  unfold rangeUpdate
  simp only [List.mem_filterMap, Option.map_eq_some_iff]
  constructor
  · rintro ⟨⟨k', w⟩, hmem, v', hf, heq⟩
    cases heq
    exact ⟨w, lookup_eq_some_iff.mpr hmem, hf⟩
  · rintro ⟨w, hw, hf⟩
    exact ⟨⟨k, w⟩, lookup_eq_some_iff.mp hw, v, hf, rfl⟩

theorem len_rangeUpdate_le (f : K → V → Option V) (m : FMap K V) :
    (m.rangeUpdate f).len ≤ m.len := by
  refine len_mono fun k hk => ?_
  obtain ⟨v, hv⟩ := mem_keys.mp hk
  rw [lookup_rangeUpdate, Option.bind_eq_some_iff] at hv
  obtain ⟨w, hw, -⟩ := hv
  exact mem_keys.mpr ⟨w, hw⟩

end FMap
