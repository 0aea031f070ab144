import Mathlib.Algebra.Order.Group.Defs
import Mathlib.Algebra.Order.Sub.Basic
import Mathlib.Data.List.Basic
import Mathlib.Data.List.Induction
import Mathlib.Order.Lattice

/-!
# Sliding windows

A queue with room for `cap` elements takes elements stamped with a time. An offer first drops, from
the front of the queue, what is older than `span` before it, stops at the first element that is not,
and then takes the new element if there is room.

When the stamps do not decrease the queue is the part of the accepted elements that lies in the
last `span` (`Sliding.queue_eq`): dropping a front is filtering, since the queue is sorted. So in no
closed interval of length `span` are more than `cap` elements accepted, and a refusal shows that
`cap` were accepted in the `span` before it.
-/

namespace SlidingWindow

variable {α T : Type} [LinearOrder T]

/-- In a sorted list the elements below a cutoff are a front. -/
theorem dropWhile_lt_eq_filter {time : α → T} {l : List α}
    (hl : l.Pairwise fun x y => time x ≤ time y) (cutoff : T) :
    (l.dropWhile fun x => decide (time x < cutoff)) =
      l.filter fun x => decide (cutoff ≤ time x) := by
  induction l with
  | nil => rfl
  | cons a l ih =>
    obtain ⟨hal, hl⟩ := List.pairwise_cons.mp hl
    by_cases ha : time a < cutoff
    · rw [List.dropWhile_cons_of_pos (by simpa using ha),
        List.filter_cons_of_neg (by simpa using ha), ih hl]
    · have hall : ∀ x ∈ a :: l, decide (cutoff ≤ time x) = true := by
        intro x hx
        rw [decide_eq_true_iff]
        rcases List.mem_cons.mp hx with rfl | hx
        · exact not_lt.mp ha
        · exact (not_lt.mp ha).trans (hal x hx)
      rw [List.dropWhile_cons_of_neg (by simpa using ha), List.filter_eq_self.mpr hall]

/-- What was accepted so far, oldest first, and what of it is queued. -/
structure Log (α : Type) where
  accepted : List α := []
  queue : List α := []

variable [AddCommGroup T] (time : α → T) (cap : ℕ) (span : T)

/-- The queue an offer of `e` finds once the old front is dropped. -/
def kept (queue : List α) (e : α) : List α :=
  queue.dropWhile fun x => decide (time x < time e - span)

/-- Whether an offer is taken. -/
def takes (queue : List α) (e : α) : Bool := decide ((kept time span queue e).length < cap)

/-- An offer. -/
def offer (g : Log α) (e : α) : Log α :=
  if takes time cap span g.queue e then
    { accepted := g.accepted ++ [e], queue := kept time span g.queue e ++ [e] }
  else { g with queue := kept time span g.queue e }

/-- The elements with a stamp in a closed interval. -/
def within (a b : T) (l : List α) : List α := l.filter fun e => decide (a ≤ time e ∧ time e ≤ b)

/-- The log of offers stamped up to `top`. -/
structure Sliding (top : T) (g : Log α) : Prop where
  sorted : g.accepted.Pairwise fun x y => time x ≤ time y
  stamped : ∀ e ∈ g.accepted, time e ≤ top
  queue_eq : ∃ cutoff ≤ top - span, g.queue = g.accepted.filter fun e => decide (cutoff ≤ time e)
  room : g.queue.length ≤ cap
  windows : ∀ t, (within time t (t + span) g.accepted).length ≤ cap

variable {time cap span}

theorem sliding_empty (top : T) : Sliding time cap span top {} where
  sorted := List.Pairwise.nil
  stamped _ he := absurd he List.not_mem_nil
  queue_eq := ⟨top - span, le_rfl, rfl⟩
  room := Nat.zero_le cap
  windows _ := Nat.zero_le cap

namespace Sliding

variable {top top' : T} {g : Log α} {e : α}

theorem length_kept_le (h : Sliding time cap span top g) :
    (kept time span g.queue e).length ≤ cap :=
  (List.dropWhile_sublist _).length_le.trans h.room

variable [IsOrderedAddMonoid T]

theorem mono (h : Sliding time cap span top g) (htop : top ≤ top') :
    Sliding time cap span top' g where
  sorted := h.sorted
  stamped x hx := (h.stamped x hx).trans htop
  queue_eq := by
    obtain ⟨cutoff, hcut, hqueue⟩ := h.queue_eq
    exact ⟨cutoff, hcut.trans (sub_le_sub_right htop span), hqueue⟩
  room := h.room
  windows := h.windows

/-- What an offer finds in the queue is what was accepted in the `span` before it. -/
theorem kept_eq (h : Sliding time cap span top g) (he : top ≤ time e) :
    kept time span g.queue e = g.accepted.filter fun x => decide (time e - span ≤ time x) := by
  obtain ⟨cutoff, hcut, hqueue⟩ := h.queue_eq
  have hsorted : g.queue.Pairwise fun x y => time x ≤ time y := by
    rw [hqueue]
    exact h.sorted.sublist List.filter_sublist
  have hlater : cutoff ≤ time e - span := hcut.trans (sub_le_sub_right he span)
  unfold kept
  rw [dropWhile_lt_eq_filter hsorted, hqueue, List.filter_filter]
  refine List.filter_congr fun x _ => ?_
  by_cases hx : time e - span ≤ time x
  · simp [hx, hlater.trans hx]
  · simp [hx]

theorem kept_eq_within (h : Sliding time cap span top g) (he : top ≤ time e) :
    kept time span g.queue e = within time (time e - span) (time e) g.accepted := by
  rw [h.kept_eq he]
  refine List.filter_congr fun x hx => ?_
  simp [(h.stamped x hx).trans he]

/-- An offer that is refused finds `cap` elements accepted in the `span` before it. -/
theorem refused (h : Sliding time cap span top g) (he : top ≤ time e)
    (hno : takes time cap span g.queue e = false) :
    (within time (time e - span) (time e) g.accepted).length = cap := by
  unfold takes at hno
  rw [decide_eq_false_iff_not, not_lt] at hno
  rw [← h.kept_eq_within he]
  exact le_antisymm h.length_kept_le hno

/-- A window that holds an element just taken holds less than `cap` others. -/
theorem windows_append (h : Sliding time cap span top g) (he : top ≤ time e)
    (hyes : takes time cap span g.queue e = true) (t : T) :
    (within time t (t + span) (g.accepted ++ [e])).length ≤ cap := by
  have hroom : (kept time span g.queue e).length < cap := of_decide_eq_true hyes
  unfold within
  rw [List.filter_append, List.length_append]
  by_cases hin : t ≤ time e ∧ time e ≤ t + span
  · -- the others in the window are no older than `span` before `e`, so the queue holds them
    have hsub : (g.accepted.filter fun x => decide (t ≤ time x ∧ time x ≤ t + span)).length ≤
        (kept time span g.queue e).length := by
      rw [h.kept_eq he]
      refine (List.monotone_filter_right _ fun x hx => ?_).length_le
      rw [decide_eq_true_iff] at hx ⊢
      exact (sub_le_iff_le_add.mpr hin.2).trans hx.1
    rw [List.filter_cons_of_pos (by simpa using hin), List.filter_nil, List.length_singleton]
    omega
  · rw [List.filter_cons_of_neg (by simpa using hin), List.filter_nil, List.length_nil]
    exact h.windows t

/-- An offer that is not stamped before the ones so far. -/
theorem offer (hspan : 0 ≤ span) (h : Sliding time cap span top g) (he : top ≤ time e) :
    Sliding time cap span (time e) (offer time cap span g e) := by
  unfold SlidingWindow.offer
  split_ifs with hyes
  · have hcut : time e - span ≤ time e := sub_le_self _ hspan
    refine ⟨?_, ?_, ⟨time e - span, le_rfl, ?_⟩, ?_, h.windows_append he hyes⟩
    · refine List.pairwise_append.mpr ⟨h.sorted, List.pairwise_singleton _ _, ?_⟩
      intro x hx y hy
      rw [List.mem_singleton.mp hy]
      exact (h.stamped x hx).trans he
    · intro x hx
      rcases List.mem_append.mp hx with hx | hx
      · exact (h.stamped x hx).trans he
      · exact (congrArg time (List.mem_singleton.mp hx)).le
    · rw [List.filter_append, ← h.kept_eq he, List.filter_cons_of_pos (by simpa using hcut),
        List.filter_nil]
    · have hroom : (kept time span g.queue e).length < cap := of_decide_eq_true hyes
      rw [List.length_append, List.length_singleton]
      omega
  · exact ⟨h.sorted, fun x hx => (h.stamped x hx).trans he,
      ⟨time e - span, le_rfl, h.kept_eq he⟩, h.length_kept_le, h.windows⟩

end Sliding

variable [IsOrderedAddMonoid T]

/-- Every run of offers with stamps that do not decrease. -/
theorem sliding_run (hspan : 0 ≤ span) {l : List α} (hl : l.Pairwise fun x y => time x ≤ time y)
    {top : T} (htop : ∀ e ∈ l, time e ≤ top) :
    Sliding time cap span top (l.foldl (offer time cap span) {}) := by
  -- from the end of the run: the last stamp bounds the ones before it
  induction l using List.reverseRecOn generalizing top with
  | nil => exact sliding_empty top
  | append_singleton l e ih =>
    obtain ⟨hfront, -, hlast⟩ := List.pairwise_append.mp hl
    have hbefore : ∀ x ∈ l, time x ≤ time e := fun x hx => hlast x hx e List.mem_cons_self
    rw [List.foldl_append]
    exact ((ih hfront hbefore).offer hspan le_rfl).mono
      (htop e (List.mem_append_right l List.mem_cons_self))

theorem exists_sliding_run (hspan : 0 ≤ span) {l : List α}
    (hl : l.Pairwise fun x y => time x ≤ time y) :
    ∃ top, Sliding time cap span top (l.foldl (offer time cap span) {}) := by
  have htop : ∃ top, ∀ e ∈ l, time e ≤ top := by
    induction l with
    | nil => exact ⟨0, fun _ he => absurd he List.not_mem_nil⟩
    | cons a l ih =>
      obtain ⟨top, htop⟩ := ih (List.pairwise_cons.mp hl).2
      exact ⟨max (time a) top, List.forall_mem_cons.mpr
        ⟨le_max_left _ _, fun e he => (htop e he).trans (le_max_right _ _)⟩⟩
  obtain ⟨top, htop⟩ := htop
  exact ⟨top, sliding_run hspan hl htop⟩

end SlidingWindow
