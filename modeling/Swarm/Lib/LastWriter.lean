import Mathlib.Data.Set.Insert
import Mathlib.Tactic.SplitIfs
import Swarm.Lib.Words

/-!
# Last-writer-wins views

A view gives each slot at most one value. Writing a value to its slot keeps the greater of the
two by `rank` (`put`), so a view only ever grows in the order `Below`.

`Holds S f` says that `f` is the slot-wise maximum of the values in `S`. Writing keeps it
(`Holds.put`), so the view reached by any list of writes holds the maxima of that list
(`holds_putAll`); where a slot and a rank pin down a value (`Pinned`), such a view is unique
(`Holds.unique`) and the order and multiplicity of the writes are forgotten.

`Forward f g` is the order of a single step: a slot that changed took a value of greater rank.
`Pruned drop f g` compares writing everything with dropping first and writing what is left: `g`
lacks a value of `f` only where `f` holds one that is to be dropped.
-/

namespace LastWriter

/-- At most one value per slot. -/
abbrev View (K V : Type) : Type := K → Option V

variable {K V R : Type} [LinearOrder R] (key : V → K) (rank : V → R)

/-- The value a slot keeps when `v` is written over what it holds. -/
def winner (cur : Option V) (v : V) : V :=
  match cur with
  | none => v
  | some c => if rank c < rank v then v else c

/-- Slot for slot, `g` holds a value of at least the rank of the one in `f`. -/
def Below (f g : View K V) : Prop :=
  ∀ k v, f k = some v → ∃ w, g k = some w ∧ rank v ≤ rank w

/-- No two values of `S` share both slot and rank. -/
def Pinned (S : Set V) : Prop :=
  ∀ v ∈ S, ∀ w ∈ S, key v = key w → rank v = rank w → v = w

/-- `f` is the slot-wise maximum of `S`. -/
structure Holds (S : Set V) (f : View K V) : Prop where
  /-- Every value held comes from `S` and sits in its own slot. -/
  sound : ∀ k v, f k = some v → v ∈ S ∧ key v = k
  /-- Every value of `S` is matched or beaten in its slot. -/
  complete : ∀ v ∈ S, ∃ w, f (key v) = some w ∧ rank v ≤ rank w

section Winner

theorem winner_eq_or (cur : Option V) (v : V) :
    winner rank cur v = v ∨ cur = some (winner rank cur v) := by
  cases cur with
  | none => exact Or.inl rfl
  | some c =>
    show (if rank c < rank v then v else c) = v ∨ some c = some (if rank c < rank v then v else c)
    split_ifs with h
    · exact Or.inl rfl
    · exact Or.inr rfl

theorem rank_le_winner (cur : Option V) (v : V) : rank v ≤ rank (winner rank cur v) := by
  cases cur with
  | none => exact le_rfl
  | some c =>
    show rank v ≤ rank (if rank c < rank v then v else c)
    split_ifs with h
    · exact le_rfl
    · exact not_lt.mp h

theorem rank_cur_le_winner (c v : V) : rank c ≤ rank (winner rank (some c) v) := by
  show rank c ≤ rank (if rank c < rank v then v else c)
  split_ifs with h
  · exact h.le
  · exact le_rfl

end Winner

variable {key rank}

/-! ## The order of views -/

theorem Below.refl (f : View K V) : Below rank f f := fun _ v hv => ⟨v, hv, le_rfl⟩

theorem Below.trans {f g h : View K V} (hfg : Below rank f g) (hgh : Below rank g h) :
    Below rank f h := by
  intro k v hv
  obtain ⟨w, hw, hvw⟩ := hfg k v hv
  obtain ⟨x, hx, hwx⟩ := hgh k w hw
  exact ⟨x, hx, hvw.trans hwx⟩

/-- A slot that took a value of greater rank than the one it held. -/
def Advances (rank : V → R) (cur next : Option V) : Prop :=
  ∃ w, next = some w ∧ ∀ v, cur = some v → rank v < rank w

/-- Every slot is as it was or advanced. -/
def Forward (rank : V → R) (f g : View K V) : Prop := ∀ k, g k = f k ∨ Advances rank (f k) (g k)

theorem Advances.ne {cur next : Option V} (h : Advances rank cur next) : next ≠ cur := by
  obtain ⟨w, rfl, hlt⟩ := h
  exact fun heq => lt_irrefl _ (hlt w heq.symm)

theorem Forward.below {f g : View K V} (h : Forward rank f g) : Below rank f g := by
  intro k v hv
  rcases h k with heq | ⟨w, hw, hlt⟩
  · exact ⟨v, heq.trans hv, le_rfl⟩
  · exact ⟨w, hw, (hlt v hv).le⟩

/-! ## Maxima -/

/-- The value a maximal view holds is the greatest of its slot. -/
theorem Holds.le_of_key {S : Set V} {f : View K V} (h : Holds key rank S f) {k : K} {v w : V}
    (hv : f k = some v) (hw : w ∈ S) (hk : key w = k) : rank w ≤ rank v := by
  obtain ⟨x, hx, hle⟩ := h.complete w hw
  rw [hk, hv] at hx
  cases hx
  exact hle

theorem Holds.eq_some {S : Set V} {f : View K V} (h : Holds key rank S f)
    (hp : Pinned key rank S) {v : V} (hv : v ∈ S)
    (hmax : ∀ w ∈ S, key w = key v → rank w ≤ rank v) : f (key v) = some v := by
  obtain ⟨w, hw, hle⟩ := h.complete v hv
  obtain ⟨hwS, hkw⟩ := h.sound _ w hw
  rw [hw, hp w hwS v hv hkw (le_antisymm (hmax w hwS hkw) hle)]

/-- What a maximal view holds, slot by slot. -/
theorem Holds.eq_some_iff {S : Set V} {f : View K V} (h : Holds key rank S f)
    (hp : Pinned key rank S) {k : K} {v : V} :
    f k = some v ↔ v ∈ S ∧ key v = k ∧ ∀ w ∈ S, key w = k → rank w ≤ rank v := by
  constructor
  · intro hv
    obtain ⟨hmem, hk⟩ := h.sound k v hv
    exact ⟨hmem, hk, fun w hw hkw => h.le_of_key hv hw hkw⟩
  · rintro ⟨hmem, rfl, hmax⟩
    exact h.eq_some hp hmem hmax

/-- Slot-wise maxima of one set agree in the ranks they hold. -/
theorem Holds.map_rank_eq {S : Set V} {f g : View K V} (hf : Holds key rank S f)
    (hg : Holds key rank S g) (k : K) : (f k).map rank = (g k).map rank := by
  have hmatch : ∀ {f g : View K V}, Holds key rank S f → Holds key rank S g →
      ∀ v, f k = some v → ∃ w, g k = some w ∧ rank v = rank w := by
    intro f g hf hg v hv
    obtain ⟨hvS, rfl⟩ := hf.sound k v hv
    obtain ⟨w, hw, hle⟩ := hg.complete v hvS
    obtain ⟨hwS, hkw⟩ := hg.sound _ w hw
    exact ⟨w, hw, le_antisymm hle (hf.le_of_key hv hwS hkw)⟩
  cases hfk : f k with
  | some v =>
    obtain ⟨w, hw, hrank⟩ := hmatch hf hg v hfk
    rw [hw, Option.map_some, Option.map_some, hrank]
  | none =>
    cases hgk : g k with
    | none => rfl
    | some w =>
      obtain ⟨v, hv, -⟩ := hmatch hg hf w hgk
      rw [hfk] at hv
      cases hv

/-- A pinned set has one slot-wise maximum. -/
theorem Holds.unique {S : Set V} {f g : View K V} (hf : Holds key rank S f)
    (hg : Holds key rank S g) (hp : Pinned key rank S) : f = g := by
  funext k
  have hrank := hf.map_rank_eq hg k
  cases hfk : f k with
  | some v =>
    rw [hfk, Option.map_some, eq_comm, Option.map_eq_some_iff] at hrank
    obtain ⟨w, hgk, heq⟩ := hrank
    obtain ⟨hv, hkv⟩ := hf.sound k v hfk
    obtain ⟨hw, hkw⟩ := hg.sound k w hgk
    rw [hgk, hp v hv w hw (hkv.trans hkw.symm) heq.symm]
  | none =>
    rw [hfk, Option.map_none, eq_comm, Option.map_eq_none_iff] at hrank
    exact hrank.symm

theorem Holds.congr {S T : Set V} {f : View K V} (h : Holds key rank S f) (hST : S = T) :
    Holds key rank T f := hST ▸ h

theorem holds_empty : Holds key rank (∅ : Set V) (fun _ => none) where
  sound _ _ h := by cases h
  complete _ h := absurd h (Set.notMem_empty _)

/-! ## Writing -/

section Write

variable [DecidableEq K]

variable (key rank) in
/-- Write `v` to its slot. -/
def put (f : View K V) (v : V) : View K V :=
  Function.update f (key v) (some (winner rank (f (key v)) v))

variable (key rank) in
/-- Write the values of a list, first to last. -/
def putAll (f : View K V) (l : List V) : View K V := l.foldl (put key rank) f

theorem put_self (f : View K V) (v : V) :
    put key rank f v (key v) = some (winner rank (f (key v)) v) := Function.update_self _ _ _

theorem put_of_ne (f : View K V) (v : V) {k : K} (h : k ≠ key v) : put key rank f v k = f k :=
  Function.update_of_ne h _ _

variable (key rank) in
theorem below_put (f : View K V) (v : V) : Below rank f (put key rank f v) := by
  intro k c hc
  by_cases hk : k = key v
  · subst hk
    exact ⟨_, put_self f v, by rw [hc]; exact rank_cur_le_winner rank c v⟩
  · exact ⟨c, by rw [put_of_ne f v hk, hc], le_rfl⟩

/-- Writing one more value keeps a view maximal. -/
theorem Holds.put {S : Set V} {f : View K V} (h : Holds key rank S f) (v : V) :
    Holds key rank (insert v S) (LastWriter.put key rank f v) where
  sound k w hw := by
    by_cases hk : k = key v
    · subst hk
      rw [put_self] at hw
      cases hw
      rcases winner_eq_or rank (f (key v)) v with he | he
      · rw [he]; exact ⟨Set.mem_insert _ _, rfl⟩
      · exact ⟨Set.mem_insert_of_mem _ (h.sound _ _ he).1, (h.sound _ _ he).2⟩
    · rw [put_of_ne f v hk] at hw
      exact ⟨Set.mem_insert_of_mem _ (h.sound k w hw).1, (h.sound k w hw).2⟩
  complete w hw := by
    rcases Set.mem_insert_iff.mp hw with rfl | hw
    · exact ⟨_, put_self f w, rank_le_winner rank _ w⟩
    · obtain ⟨x, hx, hle⟩ := h.complete w hw
      obtain ⟨y, hy, hxy⟩ := below_put key rank f v _ x hx
      exact ⟨y, hy, hle.trans hxy⟩

theorem Holds.putAll {S : Set V} {f : View K V} (h : Holds key rank S f) (l : List V) :
    Holds key rank (S ∪ {v | v ∈ l}) (LastWriter.putAll key rank f l) := by
  induction l generalizing S f with
  | nil => exact h.congr (by ext x; simp)
  | cons v l ih => exact (ih (h.put v)).congr (by ext x; simp [or_assoc, or_comm, or_left_comm])

/-- The view a list of writes reaches holds the maxima of the list. -/
theorem holds_putAll (l : List V) :
    Holds key rank {v | v ∈ l} (putAll key rank (fun _ => none) l) :=
  (holds_empty.putAll l).congr (Set.empty_union _)

variable (key rank) in
theorem below_putAll (f : View K V) (l : List V) : Below rank f (putAll key rank f l) := by
  induction l generalizing f with
  | nil => exact Below.refl f
  | cons v l ih => exact (below_put key rank f v).trans (ih _)

variable (key rank) in
/-- A list of writes matches or beats each value written. -/
theorem rank_le_putAll (f : View K V) {l : List V} {v : V} (hv : v ∈ l) :
    ∃ w, putAll key rank f l (key v) = some w ∧ rank v ≤ rank w := by
  induction l generalizing f with
  | nil => cases hv
  | cons u l ih =>
    rcases List.mem_cons.mp hv with rfl | hmem
    · obtain ⟨w, hw, hle⟩ := below_putAll key rank (put key rank f v) l _ _ (put_self f v)
      exact ⟨w, hw, (rank_le_winner rank _ v).trans hle⟩
    · exact ih (put key rank f u) hmem

/-! ## One value for each slot -/

theorem putAll_of_forall_ne (f : View K V) {l : List V} {k : K} (h : ∀ v ∈ l, key v ≠ k) :
    putAll key rank f l k = f k := by
  induction l generalizing f with
  | nil => rfl
  | cons u l ih =>
    have hrest := ih (put key rank f u) fun v hv => h v (List.mem_cons_of_mem _ hv)
    exact hrest.trans (put_of_ne f u fun hk => h u List.mem_cons_self hk.symm)

/-- Writing one value to a slot, however often. -/
theorem putAll_of_unique (f : View K V) {l : List V} {v : V} (hv : v ∈ l)
    (h : ∀ w ∈ l, key w = key v → w = v) :
    putAll key rank f l (key v) = some (winner rank (f (key v)) v) := by
  induction l generalizing f with
  | nil => cases hv
  | cons u l ih =>
    have hl : ∀ w ∈ l, key w = key v → w = v := fun w hw => h w (List.mem_cons_of_mem _ hw)
    by_cases hmem : v ∈ l
    · refine (ih (put key rank f u) hmem hl).trans (congrArg some ?_)
      by_cases hk : key u = key v
      · obtain rfl := h u List.mem_cons_self hk
        rw [put_self]
        exact if_neg (not_lt.mpr (rank_le_winner rank _ u))
      · rw [put_of_ne f u fun hk' => hk hk'.symm]
    · obtain rfl := (List.mem_cons.mp hv).resolve_right hmem
      have hrest : putAll key rank (put key rank f v) l (key v) = _ :=
        putAll_of_forall_ne _ fun w hw hk => hmem (hl w hw hk ▸ hw)
      exact hrest.trans (put_self f v)

/-- Lists of the same values, one for each slot, write the same. -/
theorem putAll_congr (f : View K V) {l l' : List V} (hsame : ∀ v, v ∈ l ↔ v ∈ l')
    (hpin : ∀ v ∈ l, ∀ w ∈ l, key w = key v → w = v) :
    putAll key rank f l = putAll key rank f l' := by
  funext k
  by_cases hk : ∃ v ∈ l, key v = k
  · obtain ⟨v, hv, rfl⟩ := hk
    rw [putAll_of_unique f hv (hpin v hv), putAll_of_unique f ((hsame v).mp hv)]
    exact fun w hw => hpin v hv w ((hsame w).mpr hw)
  · push Not at hk
    rw [putAll_of_forall_ne f hk, putAll_of_forall_ne f fun v hv => hk v ((hsame v).mpr hv)]

/-! ## Dropping old values -/

/-- Slot for slot, `g` holds the value of `f` if that one is kept. Where `f` holds a value to be
dropped, `g` holds nothing or a kept value of at most its rank. -/
def Pruned (rank : V → R) (drop : V → Bool) (f g : View K V) : Prop :=
  ∀ k, (f k = none ∧ g k = none) ∨
    ∃ w, f k = some w ∧
      ((drop w = false ∧ g k = some w) ∨
        (drop w = true ∧ ∀ v, g k = some v → drop v = false ∧ rank v ≤ rank w))

omit [DecidableEq K] in
theorem pruned_filter (drop : V → Bool) (f : View K V) :
    Pruned rank drop f fun k => (f k).filter fun v => !drop v := by
  intro k
  dsimp only
  cases hf : f k with
  | none => exact Or.inl ⟨rfl, rfl⟩
  | some w =>
    refine Or.inr ⟨w, rfl, ?_⟩
    cases hd : drop w with
    | false => exact Or.inl ⟨rfl, Option.filter_some_pos (by rw [hd]; rfl)⟩
    | true =>
      refine Or.inr ⟨rfl, fun v hv => ?_⟩
      rw [Option.filter_some_neg (by rw [hd]; decide)] at hv
      cases hv

/-- A value to be dropped is written on the one side only. -/
theorem Pruned.put_drop {drop : V → Bool} {f g : View K V} (h : Pruned rank drop f g) {v : V}
    (hv : drop v = true) : Pruned rank drop (LastWriter.put key rank f v) g := by
  intro k
  by_cases hk : k = key v
  · subst hk
    rw [put_self]
    refine Or.inr ⟨_, rfl, ?_⟩
    rcases h (key v) with ⟨hf, hg⟩ | ⟨w, hf, hcase⟩
    · rw [hf, hg]
      exact Or.inr ⟨hv, fun _ hx => (nomatch hx)⟩
    · rw [hf]
      show _ ∨ (drop (if rank w < rank v then v else w) = true ∧ _)
      rcases hcase with ⟨hkeep, hg⟩ | ⟨hdrop, hg⟩
      · by_cases hlt : rank w < rank v
        · refine Or.inr ⟨by rw [if_pos hlt]; exact hv, fun x hx => ?_⟩
          rw [hg] at hx
          cases hx
          exact ⟨hkeep, rank_cur_le_winner rank w v⟩
        · exact Or.inl ⟨by rw [winner, if_neg hlt]; exact hkeep,
            by rw [winner, if_neg hlt]; exact hg⟩
      · refine Or.inr ⟨by split_ifs <;> assumption, fun x hx => ?_⟩
        exact ⟨(hg x hx).1, (hg x hx).2.trans (rank_cur_le_winner rank w v)⟩
  · rw [put_of_ne f v hk]
    exact h k

/-- A kept value is written on both sides. -/
theorem Pruned.put_keep {drop : V → Bool} {f g : View K V} (h : Pruned rank drop f g) {v : V}
    (hv : drop v = false) :
    Pruned rank drop (LastWriter.put key rank f v) (LastWriter.put key rank g v) := by
  intro k
  by_cases hk : k = key v
  · subst hk
    rw [put_self, put_self]
    refine Or.inr ⟨_, rfl, ?_⟩
    rcases h (key v) with ⟨hf, hg⟩ | ⟨w, hf, hcase⟩
    · rw [hf, hg]
      exact Or.inl ⟨hv, rfl⟩
    · rw [hf]
      rcases hcase with ⟨hkeep, hg⟩ | ⟨hdrop, hg⟩
      · rw [hg]
        refine Or.inl ⟨?_, rfl⟩
        rcases winner_eq_or rank (some w) v with he | he
        · rw [he]; exact hv
        · rw [← Option.some.inj he]; exact hkeep
      · by_cases hlt : rank w < rank v
        · -- the written value outranks what was dropped, hence what is left there
          have hwin : winner rank (g (key v)) v = v := by
            cases hgv : g (key v) with
            | none => rfl
            | some x => exact if_pos ((hg x hgv).2.trans_lt hlt)
          rw [hwin, show winner rank (some w) v = v from if_pos hlt]
          exact Or.inl ⟨hv, rfl⟩
        · rw [show winner rank (some w) v = w from if_neg hlt]
          refine Or.inr ⟨hdrop, fun x hx => ?_⟩
          cases hx
          rcases winner_eq_or rank (g (key v)) v with he | he
          · rw [he]; exact ⟨hv, not_lt.mp hlt⟩
          · exact hg _ he
  · rw [put_of_ne f v hk, put_of_ne g v hk]
    exact h k

/-- Writing a list, and writing what is kept of it. -/
theorem Pruned.putAll {drop : V → Bool} {f g : View K V} (h : Pruned rank drop f g) (l : List V) :
    Pruned rank drop (LastWriter.putAll key rank f l)
      (LastWriter.putAll key rank g (l.filter fun v => !drop v)) := by
  induction l generalizing f g with
  | nil => exact h
  | cons v l ih =>
    cases hv : drop v with
    | true =>
      rw [List.filter_cons_of_neg (by rw [hv]; decide)]
      exact ih (h.put_drop hv)
    | false =>
      rw [List.filter_cons_of_pos (by rw [hv]; rfl)]
      exact ih (h.put_keep hv)

omit [DecidableEq K] in
/-- If a value that is dropped takes with it every shown value of at most its rank in the slot, both
sides show the same. -/
theorem Pruned.filter_eq {drop : V → Bool} {f g : View K V} (h : Pruned rank drop f g)
    {shown : V → Bool} {k : K}
    (hdrop : ∀ v w, g k = some v → f k = some w → rank v ≤ rank w → drop w = true →
      shown v = true → drop v = true) :
    (f k).filter (fun v => !drop v && shown v) = (g k).filter shown := by
  rcases h k with ⟨hf, hg⟩ | ⟨w, hf, ⟨hkeep, hg⟩ | ⟨hd, hg⟩⟩
  · rw [hf, hg]
    rfl
  · rw [hf, hg]
    simp [Option.filter, hkeep]
  · rw [hf]
    cases hgk : g k with
    | none => simp [Option.filter, hd]
    | some v =>
      obtain ⟨hkept, hle⟩ := hg v hgk
      have hshown : shown v = false := by
        by_contra hne
        rw [hdrop v w hgk hf hle hd (Bool.not_eq_false _ ▸ hne)] at hkept
        cases hkept
      simp [Option.filter, hd, hshown]

end Write

end LastWriter
