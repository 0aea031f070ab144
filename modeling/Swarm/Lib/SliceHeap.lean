import Mathlib.Algebra.Order.Sub.Basic
import Mathlib.Data.List.Basic
import Mathlib.Data.Nat.SuccPred
import Mathlib.Tactic.SplitIfs

/-!
# Heaps in a slice

The binary heap of Go's `container/heap`: a slice in which the parent of index `k` is at
`(k - 1) / 2` and is not greater. `push` appends and moves the new element up, `pop` swaps the first
element with the last one, moves the new first element down and takes the last one off.

While an element moves, the order holds everywhere but around it: `UpTo f j` leaves out the pair of
`j` and its parent, `DownTo f i` the pairs of `i` and its children. Both also know that the parent
of the hole is not above the children of the hole, so that a swap moves the hole on.
-/

namespace SliceHeap

variable {α R : Type}

/-! ## The code -/

/-- Exchange two elements. -/
def swap (l : List α) (i j : ℕ) : List α :=
  match l[i]?, l[j]? with
  | some x, some y => (l.set i y).set j x
  | _, _ => l

/-- Whether the element at `i` goes before that at `j`. -/
def lessAt (less : α → α → Bool) (l : List α) (i j : ℕ) : Bool :=
  match l[i]?, l[j]? with
  | some x, some y => less x y
  | _, _ => false

/-- `up`, with as many rounds as the index. -/
def up (less : α → α → Bool) : ℕ → ℕ → List α → List α
  | 0, _, l => l
  | fuel + 1, j, l =>
    let i := (j - 1) / 2
    if i = j ∨ lessAt less l j i = false then l else up less fuel i (swap l i j)

/-- The child of `i` to compare with: the right one where it goes before the left one. -/
def child (less : α → α → Bool) (n i : ℕ) (l : List α) : ℕ :=
  let j₁ := 2 * i + 1
  if j₁ + 1 < n ∧ lessAt less l (j₁ + 1) j₁ = true then j₁ + 1 else j₁

/-- `down` within the first `n` elements, with as many rounds as elements. -/
def down (less : α → α → Bool) (n : ℕ) : ℕ → ℕ → List α → List α
  | 0, _, l => l
  | fuel + 1, i, l =>
    let j := child less n i l
    if n ≤ 2 * i + 1 ∨ lessAt less l j i = false then l else down less n fuel j (swap l i j)

/-- `heap.Push`. -/
def push (less : α → α → Bool) (l : List α) (x : α) : List α :=
  up less l.length l.length (l ++ [x])

/-- `heap.Pop`: the element taken off and the rest. -/
def pop (less : α → α → Bool) (l : List α) : Option α × List α :=
  let n := l.length - 1
  let l' := down less n n 0 (swap l 0 n)
  (l'.getLast?, l'.dropLast)

/-- Pop as long as the first element passes a test: what was taken off, in order, and the rest. -/
def popWhile (less : α → α → Bool) (go : α → Bool) : ℕ → List α → List α × List α
  | fuel + 1, x :: l =>
    if go x = true then
      let r := popWhile less go fuel (pop less (x :: l)).2
      (x :: r.1, r.2)
    else ([], x :: l)
  | _, l => ([], l)

/-! ## Order on indices -/

section Exchange

variable {T : Type} {f : ℕ → T} {i j : ℕ}

def exchange (f : ℕ → T) (i j : ℕ) : ℕ → T :=
  fun k => if k = i then f j else if k = j then f i else f k

theorem exchange_left (f : ℕ → T) (i j : ℕ) : exchange f i j i = f j := if_pos rfl

theorem exchange_right (f : ℕ → T) (i j : ℕ) : exchange f i j j = f i := by
  unfold exchange
  rw [if_pos (rfl : j = j)]
  split_ifs with h
  · rw [h]
  · rfl

theorem exchange_of_ne {k : ℕ} (hi : k ≠ i) (hj : k ≠ j) : exchange f i j k = f k := by
  unfold exchange
  rw [if_neg hi, if_neg hj]

end Exchange

section Order

variable {T : Type} [LinearOrder T] {f : ℕ → T} {i j : ℕ}

/-- No element is below its parent. -/
def Ordered (f : ℕ → T) : Prop := ∀ k, 0 < k → f ((k - 1) / 2) ≤ f k

structure UpTo (f : ℕ → T) (j : ℕ) : Prop where
  others : ∀ k, 0 < k → k ≠ j → f ((k - 1) / 2) ≤ f k
  around : ∀ k, 0 < k → (k - 1) / 2 = j → 0 < j → f ((j - 1) / 2) ≤ f k

structure DownTo (f : ℕ → T) (i : ℕ) : Prop where
  others : ∀ k, 0 < k → (k - 1) / 2 ≠ i → f ((k - 1) / 2) ≤ f k
  around : ∀ k, 0 < k → (k - 1) / 2 = i → 0 < i → f ((i - 1) / 2) ≤ f k

/-- Where the moving element is not below its parent the heap is in order. -/
theorem UpTo.ordered (h : UpTo f j) (hj : 0 < j → f ((j - 1) / 2) ≤ f j) : Ordered f := by
  intro k hk
  by_cases hkj : k = j
  · subst hkj
    exact hj hk
  · exact h.others k hk hkj

theorem UpTo.exchange (h : UpTo f j) (hj : 0 < j) (hlt : f j < f ((j - 1) / 2)) :
    UpTo (exchange f ((j - 1) / 2) j) ((j - 1) / 2) := by
  generalize hi : (j - 1) / 2 = i at hlt ⊢
  have hij : i < j := by omega
  refine ⟨fun k hk hki => ?_, fun k hk hpk hpos => ?_⟩
  · by_cases hkj : k = j
    · subst hkj
      rw [hi, exchange_left, exchange_right]
      exact hlt.le
    rw [exchange_of_ne hki hkj]
    by_cases hpi : (k - 1) / 2 = i
    · have hle := h.others k hk hkj
      rw [hpi] at hle ⊢
      rw [exchange_left]
      exact hlt.le.trans hle
    by_cases hpj : (k - 1) / 2 = j
    · have hle := h.around k hk hpj hj
      rw [hpj, exchange_right, ← hi]
      exact hle
    · rw [exchange_of_ne hpi hpj]
      exact h.others k hk hkj
  · have hup := h.others i hpos hij.ne
    rw [exchange_of_ne (by omega) (by omega)]
    by_cases hkj : k = j
    · subst hkj
      rw [exchange_right]
      exact hup
    · have hle := h.others k hk hkj
      rw [hpk] at hle
      rw [exchange_of_ne (by omega) hkj]
      exact hup.trans hle

/-- Where no child of the moving element is below it the heap is in order. -/
theorem DownTo.ordered (h : DownTo f i) (hi : ∀ k, 0 < k → (k - 1) / 2 = i → f i ≤ f k) :
    Ordered f := by
  intro k hk
  by_cases hki : (k - 1) / 2 = i
  · rw [hki]
    exact hi k hk hki
  · exact h.others k hk hki

theorem DownTo.exchange (h : DownTo f i) (hj : 0 < j) (hpj : (j - 1) / 2 = i) (hlt : f j < f i)
    (hmin : ∀ k, 0 < k → (k - 1) / 2 = i → f j ≤ f k) : DownTo (exchange f i j) j := by
  refine ⟨fun k hk hkj => ?_, fun k hk hpk _ => ?_⟩
  · by_cases hpi : (k - 1) / 2 = i
    · rw [hpi, exchange_left]
      by_cases hk' : k = j
      · subst hk'
        rw [exchange_right]
        exact hlt.le
      · rw [exchange_of_ne (by omega) hk']
        exact hmin k hk hpi
    rw [exchange_of_ne hpi hkj]
    by_cases hki : k = i
    · subst hki
      rw [exchange_left]
      exact h.around j hj hpj hk
    · rw [exchange_of_ne hki (fun hk' => hpi (hk' ▸ hpj))]
      exact h.others k hk hpi
  · rw [hpj, exchange_left, exchange_of_ne (by omega) (by omega)]
    have hle := h.others k hk (by omega)
    rwa [hpk] at hle

/-- The first element is the least. -/
theorem Ordered.le (h : Ordered f) (k : ℕ) : f 0 ≤ f k := by
  induction k using Nat.strong_induction_on with
  | _ k ih =>
    rcases Nat.eq_zero_or_pos k with rfl | hk
    · exact le_rfl
    · exact (ih ((k - 1) / 2) (by omega)).trans (h k hk)

end Order

/-! ## Slices -/

section Swap

variable {l : List α} {i j : ℕ}

theorem swap_eq (hi : i < l.length) (hj : j < l.length) :
    swap l i j = (l.set i l[j]).set j l[i] := by
  unfold swap
  rw [List.getElem?_eq_getElem hi, List.getElem?_eq_getElem hj]

theorem length_swap (l : List α) (i j : ℕ) : (swap l i j).length = l.length := by
  unfold swap
  split
  · rw [List.length_set, List.length_set]
  · rfl

theorem perm_swap (l : List α) (i j : ℕ) : (swap l i j).Perm l := by
  by_cases h : i < l.length ∧ j < l.length
  · rw [swap_eq h.1 h.2]
    exact List.set_set_perm h.1 h.2
  · unfold swap
    split
    · rename_i x y hx hy
      exact absurd ⟨(List.getElem?_eq_some_iff.mp hx).1, (List.getElem?_eq_some_iff.mp hy).1⟩ h
    · exact List.Perm.refl l

theorem getElem?_swap (hi : i < l.length) (hj : j < l.length) (k : ℕ) :
    (swap l i j)[k]? = if k = i then l[j]? else if k = j then l[i]? else l[k]? := by
  rw [swap_eq hi hj, List.getElem?_set, List.getElem?_set, List.length_set]
  by_cases hkj : j = k
  · subst hkj
    rw [if_pos rfl, if_pos hj, if_pos rfl, List.getElem?_eq_getElem hi,
      List.getElem?_eq_getElem hj]
    split_ifs with hji
    · subst hji
      rfl
    · rfl
  · rw [if_neg hkj, if_neg (Ne.symm hkj)]
    by_cases hki : i = k
    · subst hki
      rw [if_pos rfl, if_pos hi, if_pos rfl, List.getElem?_eq_getElem hj]
    · rw [if_neg hki, if_neg (Ne.symm hki)]

end Swap

section KeyAt

variable {key : α → R} {l : List α}

/-- The key at an index, above all keys behind the end. -/
def keyAt (key : α → R) (l : List α) (k : ℕ) : WithTop R :=
  match l[k]? with
  | some x => key x
  | none => ⊤

theorem keyAt_of_le {k : ℕ} (h : l.length ≤ k) : keyAt key l k = ⊤ := by
  unfold keyAt
  rw [List.getElem?_eq_none h]

theorem keyAt_of_lt {k : ℕ} (h : k < l.length) : keyAt key l k = key l[k] := by
  unfold keyAt
  rw [List.getElem?_eq_getElem h]

theorem keyAt_swap {i j : ℕ} (hi : i < l.length) (hj : j < l.length) :
    keyAt key (swap l i j) = exchange (keyAt key l) i j := by
  funext k
  unfold keyAt exchange
  rw [getElem?_swap hi hj]
  split_ifs <;> rfl

theorem keyAt_concat (l : List α) (x : α) {k : ℕ} (h : k < l.length) :
    keyAt key (l ++ [x]) k = keyAt key l k := by
  unfold keyAt
  rw [List.getElem?_append_left h]

end KeyAt

section Keys

variable [LinearOrder R] {key : α → R} {l : List α}

/-- A slice in heap order. -/
def IsHeap (key : α → R) (l : List α) : Prop := Ordered (keyAt key l)

/-- Go before by key. -/
def byKey (key : α → R) (x y : α) : Bool := decide (key x < key y)

theorem isHeap_nil : IsHeap key ([] : List α) := by
  intro k _
  rw [keyAt_of_le (l := []) (k := k) (Nat.zero_le k)]
  exact le_top

theorem lessAt_eq_true_iff {i j : ℕ} (hi : i < l.length) (hj : j < l.length) :
    lessAt (byKey key) l i j = true ↔ keyAt key l i < keyAt key l j := by
  unfold lessAt byKey
  rw [keyAt_of_lt hi, keyAt_of_lt hj, List.getElem?_eq_getElem hi, List.getElem?_eq_getElem hj,
    WithTop.coe_lt_coe]
  exact decide_eq_true_iff

theorem lessAt_eq_false_iff {i j : ℕ} (hi : i < l.length) (hj : j < l.length) :
    lessAt (byKey key) l i j = false ↔ keyAt key l j ≤ keyAt key l i := by
  rw [Bool.eq_false_iff, ne_eq, lessAt_eq_true_iff hi hj, not_lt]

/-! ## Moving up -/

theorem perm_up (less : α → α → Bool) (fuel j : ℕ) (l : List α) : (up less fuel j l).Perm l := by
  induction fuel generalizing j l with
  | zero => exact List.Perm.refl l
  | succ fuel ih =>
    unfold up
    dsimp only
    split_ifs
    · exact List.Perm.refl l
    · exact (ih _ _).trans (perm_swap l _ _)

theorem isHeap_up {fuel j : ℕ} (hfuel : j ≤ fuel) (hj : j < l.length)
    (h : UpTo (keyAt key l) j) : IsHeap key (up (byKey key) fuel j l) := by
  induction fuel generalizing j l with
  | zero => exact h.ordered fun hpos => by omega
  | succ fuel ih =>
    unfold up
    dsimp only
    split_ifs with hstop
    · refine h.ordered fun hpos => ?_
      rcases hstop with hroot | hle
      · omega
      · exact (lessAt_eq_false_iff hj (by omega)).mp hle
    · obtain ⟨hne, hlt⟩ := not_or.mp hstop
      have hpos : 0 < j := by omega
      have hi : (j - 1) / 2 < l.length := by omega
      rw [Bool.not_eq_false, lessAt_eq_true_iff hj hi] at hlt
      refine ih (by omega) (by rwa [length_swap]) ?_
      rw [keyAt_swap hi hj]
      exact h.exchange hpos hlt

theorem perm_push (less : α → α → Bool) (l : List α) (x : α) :
    (push less l x).Perm (x :: l) :=
  (perm_up less _ _ _).trans (List.perm_append_singleton x l)

theorem isHeap_push (h : IsHeap key l) (x : α) : IsHeap key (push (byKey key) l x) := by
  have hlen : (l ++ [x]).length = l.length + 1 := by simp
  refine isHeap_up le_rfl (by omega) ⟨fun k hk hkj => ?_, fun k hk hpk _ => ?_⟩
  · rcases Nat.lt_or_ge k (l.length + 1) with hlt | hge
    · rw [keyAt_concat l x (by omega), keyAt_concat l x (by omega)]
      exact h k hk
    · rw [keyAt_of_le (l := l ++ [x]) (k := k) (by omega)]
      exact le_top
  · rw [keyAt_of_le (l := l ++ [x]) (k := k) (by omega)]
    exact le_top

/-! ## Moving down -/

theorem perm_down (less : α → α → Bool) (n fuel i : ℕ) (l : List α) :
    (down less n fuel i l).Perm l := by
  induction fuel generalizing i l with
  | zero => exact List.Perm.refl l
  | succ fuel ih =>
    unfold down
    dsimp only
    split_ifs
    · exact List.Perm.refl l
    · exact (ih _ _).trans (perm_swap l _ _)

theorem child_cases (less : α → α → Bool) (n i : ℕ) (l : List α) :
    (child less n i l = 2 * i + 1 + 1 ∧ 2 * i + 1 + 1 < n ∧
        lessAt less l (2 * i + 1 + 1) (2 * i + 1) = true) ∨
      (child less n i l = 2 * i + 1 ∧
        (2 * i + 1 + 1 < n → lessAt less l (2 * i + 1 + 1) (2 * i + 1) = false)) := by
  unfold child
  dsimp only
  split_ifs with hright
  · exact .inl ⟨rfl, hright⟩
  · exact .inr ⟨rfl, fun hlt => Bool.eq_false_iff.mpr fun hless => hright ⟨hlt, hless⟩⟩

theorem child_lt {less : α → α → Bool} {n i : ℕ} {l : List α} (hi : 2 * i + 1 < n) :
    child less n i l < n := by
  rcases child_cases less n i l with ⟨hj, hlt, -⟩ | ⟨hj, -⟩
  · rw [hj]
    exact hlt
  · rw [hj]
    exact hi

theorem parent_child (less : α → α → Bool) (n i : ℕ) (l : List α) :
    0 < child less n i l ∧ (child less n i l - 1) / 2 = i := by
  rcases child_cases less n i l with ⟨hj, -⟩ | ⟨hj, -⟩
  · omega
  · omega

/-- The child to compare with is not above the other one. -/
theorem child_le {i : ℕ} (hi : 2 * i + 1 < l.length) {k : ℕ} (hk : 0 < k)
    (hpk : (k - 1) / 2 = i) :
    keyAt key l (child (byKey key) l.length i l) ≤ keyAt key l k := by
  rcases child_cases (byKey key) l.length i l with ⟨hj, hlt, hless⟩ | ⟨hj, hless⟩
  · rw [lessAt_eq_true_iff hlt hi] at hless
    rcases (show k = 2 * i + 1 ∨ k = 2 * i + 1 + 1 by omega) with rfl | rfl
    · rw [hj]
      exact hless.le
    · rw [hj]
  · rcases (show k = 2 * i + 1 ∨ k = 2 * i + 1 + 1 by omega) with rfl | rfl
    · rw [hj]
    · rw [hj]
      by_cases hlt : 2 * i + 1 + 1 < l.length
      · exact (lessAt_eq_false_iff hlt hi).mp (hless hlt)
      · rw [keyAt_of_le (l := l) (k := 2 * i + 1 + 1) (by omega)]
        exact le_top

theorem isHeap_down {fuel i : ℕ} (hfuel : l.length ≤ i + fuel) (hi : i ≤ l.length)
    (h : DownTo (keyAt key l) i) : IsHeap key (down (byKey key) l.length fuel i l) := by
  induction fuel generalizing i l with
  | zero =>
    refine h.ordered fun k hk hpk => ?_
    rw [keyAt_of_le (l := l) (k := k) (by omega)]
    exact le_top
  | succ fuel ih =>
    unfold down
    dsimp only
    have hpar := parent_child (byKey key) l.length i l
    split_ifs with hstop
    · refine h.ordered fun k hk hpk => ?_
      rcases Nat.lt_or_ge (2 * i + 1) l.length with hin | hleaf
      · have hle := hstop.resolve_left (by omega)
        rw [lessAt_eq_false_iff (child_lt hin) (by omega)] at hle
        exact hle.trans (child_le hin hk hpk)
      · rw [keyAt_of_le (l := l) (k := k) (by omega)]
        exact le_top
    · obtain ⟨hin, hlt⟩ := not_or.mp hstop
      have hil : i < l.length := by omega
      have hin : 2 * i + 1 < l.length := by omega
      have hjl : child (byKey key) l.length i l < l.length := child_lt hin
      rw [Bool.not_eq_false, lessAt_eq_true_iff hjl hil] at hlt
      have hnext := ih (l := swap l i (child (byKey key) l.length i l))
        (i := child (byKey key) l.length i l) (by rw [length_swap]; omega)
        (by rw [length_swap]; omega) (by
          rw [keyAt_swap hil hjl]
          exact h.exchange hpar.1 hpar.2 hlt fun k hk hpk => child_le hin hk hpk)
      rwa [length_swap] at hnext

/-! ## Taking off the first -/

theorem swap_concat {t : List α} (x : α) {i j : ℕ} (hi : i < t.length) (hj : j < t.length) :
    swap (t ++ [x]) i j = swap t i j ++ [x] := by
  have hlen : (t ++ [x]).length = t.length + 1 := by simp
  rw [swap_eq hi hj, swap_eq (by omega) (by omega), List.getElem_append_left hi,
    List.getElem_append_left hj, List.set_append_left _ _ hi,
    List.set_append_left _ _ (by rwa [List.length_set])]

theorem lessAt_concat {less : α → α → Bool} {t : List α} (x : α) {i j : ℕ} (hi : i < t.length)
    (hj : j < t.length) : lessAt less (t ++ [x]) i j = lessAt less t i j := by
  unfold lessAt
  rw [List.getElem?_append_left hi, List.getElem?_append_left hj]

theorem child_concat (less : α → α → Bool) (i : ℕ) (t : List α) (x : α) :
    child less t.length i (t ++ [x]) = child less t.length i t := by
  unfold child
  dsimp only
  by_cases hlt : 2 * i + 1 + 1 < t.length
  · rw [lessAt_concat x hlt (by omega)]
  · rw [if_neg fun h => hlt h.1, if_neg fun h => hlt h.1]

/-- An element behind the first `n` stays where it is. -/
theorem down_concat (less : α → α → Bool) (fuel i : ℕ) (t : List α) (x : α) :
    down less t.length fuel i (t ++ [x]) = down less t.length fuel i t ++ [x] := by
  induction fuel generalizing i t with
  | zero => rfl
  | succ fuel ih =>
    unfold down
    dsimp only
    rw [child_concat]
    by_cases hleaf : t.length ≤ 2 * i + 1
    · rw [if_pos (.inl hleaf), if_pos (.inl hleaf)]
    have hjl : child less t.length i t < t.length := child_lt (by omega)
    rw [lessAt_concat x hjl (by omega)]
    split_ifs
    · rfl
    · rw [swap_concat x (by omega) hjl]
      have hnext := ih (child less t.length i t) (swap t i (child less t.length i t))
      rwa [length_swap] at hnext

/-- The slice before the new first element moves down: the last element in front, the first one
behind. -/
theorem swap_ends (x : α) (m : List α) (y : α) :
    swap (x :: (m ++ [y])) 0 (m.length + 1) = (y :: m) ++ [x] := by
  rw [swap_eq (by simp) (by simp)]
  simp

theorem downTo_front {x y : α} {m : List α} (h : IsHeap key (x :: (m ++ [y]))) :
    DownTo (keyAt key (y :: m)) 0 := by
  refine ⟨fun k hk hpk => ?_, fun k hk hpk hpos => absurd hpos (lt_irrefl 0)⟩
  rcases Nat.lt_or_ge k (m.length + 1) with hlt | hge
  · -- both indices are behind the first, where the slice is as before
    have hold : ∀ n, 0 < n → n < m.length + 1 →
        keyAt key (y :: m) n = keyAt key (x :: (m ++ [y])) n := by
      intro n hn hnm
      obtain ⟨n, rfl⟩ := Nat.exists_eq_add_of_lt hn
      unfold keyAt
      rw [Nat.zero_add, List.getElem?_cons_succ, List.getElem?_cons_succ,
        List.getElem?_append_left (by omega)]
    rw [hold k hk hlt, hold _ (by omega) (by omega)]
    exact h k hk
  · rw [keyAt_of_le (l := y :: m) (k := k) (by rw [List.length_cons]; omega)]
    exact le_top

/-- `pop` on a heap that is not empty takes the first element off, and a heap of the others
remains. -/
theorem pop_cons {x : α} {l : List α} (h : IsHeap key (x :: l)) :
    ∃ l', pop (byKey key) (x :: l) = (some x, l') ∧ IsHeap key l' ∧ l'.Perm l := by
  rcases List.eq_nil_or_concat l with rfl | ⟨m, y, rfl⟩
  · exact ⟨[], rfl, isHeap_nil, List.Perm.refl []⟩
  · rw [List.concat_eq_append] at h ⊢
    have hlen : (x :: (m ++ [y])).length - 1 = (y :: m).length := by simp
    refine ⟨down (byKey key) (y :: m).length (y :: m).length 0 (y :: m), ?_, ?_, ?_⟩
    · unfold pop
      dsimp only
      rw [hlen, List.length_cons, swap_ends, ← List.length_cons (a := y), down_concat,
        List.getLast?_concat, List.dropLast_concat]
    · exact isHeap_down (by omega) (Nat.zero_le _) (downTo_front h)
    · exact (perm_down _ _ _ _ _).trans (List.perm_append_singleton y m).symm

/-- The first element of a heap has the least key. -/
theorem IsHeap.head_le {x : α} {l : List α} (h : IsHeap key (x :: l)) {y : α}
    (hy : y ∈ x :: l) : key x ≤ key y := by
  obtain ⟨k, hk, rfl⟩ := List.getElem_of_mem hy
  have hle := Ordered.le h k
  rw [keyAt_of_lt hk, keyAt_of_lt (Nat.zero_lt_succ _)] at hle
  exact WithTop.coe_le_coe.mp hle

/-- What is due by `t` leaves in the order of keys, and a heap of what is not due remains. -/
theorem popWhile_due {fuel : ℕ} {l : List α} (h : IsHeap key l) (hfuel : l.length ≤ fuel) (t : R) :
    ∃ due rest, popWhile (byKey key) (fun x => decide (key x ≤ t)) fuel l = (due, rest) ∧
      due.Pairwise (fun x y => key x ≤ key y) ∧ (∀ x ∈ due, key x ≤ t) ∧ IsHeap key rest ∧
      (∀ x ∈ rest, t < key x) ∧ (due ++ rest).Perm l := by
  induction fuel generalizing l with
  | zero =>
    obtain rfl := List.eq_nil_of_length_eq_zero (Nat.le_zero.mp hfuel)
    exact ⟨[], [], rfl, .nil, fun _ hx => absurd hx List.not_mem_nil, isHeap_nil,
      fun _ hx => absurd hx List.not_mem_nil, .refl []⟩
  | succ fuel ih =>
    cases l with
    | nil =>
      exact ⟨[], [], rfl, .nil, fun _ hx => absurd hx List.not_mem_nil, isHeap_nil,
        fun _ hx => absurd hx List.not_mem_nil, .refl []⟩
    | cons x l =>
      unfold popWhile
      by_cases hx : key x ≤ t
      · obtain ⟨l', hpop, hheap, hperm⟩ := pop_cons h
        have hlen : l'.length ≤ fuel := by
          rw [hperm.length_eq]
          exact Nat.le_of_succ_le_succ hfuel
        obtain ⟨due, rest, heq, hsorted, hdue, hrest, hlate, hall⟩ := ih hheap hlen
        rw [if_pos (decide_eq_true hx), hpop, heq]
        refine ⟨x :: due, rest, rfl, List.pairwise_cons.mpr ⟨fun y hy => ?_, hsorted⟩,
          List.forall_mem_cons.mpr ⟨hx, hdue⟩, hrest, hlate, (hall.trans hperm).cons x⟩
        have hmem : y ∈ l := (hall.trans hperm).subset (List.mem_append_left rest hy)
        exact h.head_le (List.mem_cons_of_mem x hmem)
      · rw [if_neg (fun hd => hx (of_decide_eq_true hd))]
        refine ⟨[], x :: l, rfl, .nil, fun _ hy => absurd hy List.not_mem_nil, h, fun y hy => ?_,
          .refl _⟩
        exact (not_le.mp hx).trans_le (h.head_le hy)

end Keys

end SliceHeap
