import Mathlib.Data.Nat.Digits.Lemmas
import Mathlib.Logic.Encodable.Basic

/-!
# Wire formats given from outside

A `Marshaller` is an encoder that may refuse a message, with its reader. `RoundTrips` and `Accepts`
are the two things a program may rely on: that what was written reads back, and which messages are
written at all. `ofTable` and `single` know the messages of a table and one message, `numbered`
writes the number of a message in an enumeration.
-/

/-- An encoder that may refuse a message, and a reader that may refuse bytes. -/
structure Marshaller (α : Type) where
  marshal : α → Option (List UInt8)
  unmarshal : List UInt8 → Option α

namespace Marshaller

variable {α : Type}

/-- Reading undoes writing. -/
def RoundTrips (c : Marshaller α) : Prop := ∀ a b, c.marshal a = some b → c.unmarshal b = some a

/-- The two are inverse on the messages that are well formed, and no other message is written. -/
structure Accepts (c : Marshaller α) (ok : α → Bool) : Prop where
  inverse : ∀ a, ok a = true → ∃ b, c.marshal a = some b ∧ c.unmarshal b = some a
  refuses : ∀ a, ok a = false → c.marshal a = none

theorem Accepts.isSome_marshal_iff {c : Marshaller α} {ok : α → Bool} (h : c.Accepts ok) (a : α) :
    (c.marshal a).isSome = true ↔ ok a = true := by
  constructor
  · intro hsome
    by_contra hno
    rw [h.refuses a (by simpa using hno)] at hsome
    cases hsome
  · intro hok
    obtain ⟨b, hb, -⟩ := h.inverse a hok
    rw [hb]
    rfl

/-- The marshaller that knows the messages of a table. -/
def ofTable [DecidableEq α] (table : List (α × List UInt8)) : Marshaller α where
  marshal a := (table.find? fun e => e.1 == a).map Prod.snd
  unmarshal b := (table.find? fun e => e.2 == b).map Prod.fst

theorem ofTable_roundTrips [DecidableEq α] {table : List (α × List UInt8)}
    (h : (table.map Prod.snd).Nodup) : (ofTable table).RoundTrips := by
  intro a b hab
  obtain ⟨e, he, rfl⟩ := Option.map_eq_some_iff.mp hab
  have hmem := List.mem_of_find?_eq_some he
  have hkey : e.1 = a := by simpa using List.find?_some he
  have hfound : (table.find? fun e' => e'.2 == e.2).isSome := by
    rw [List.find?_isSome]
    exact ⟨e, hmem, beq_self_eq_true _⟩
  obtain ⟨e', he'⟩ := Option.isSome_iff_exists.mp hfound
  have hsnd : e'.2 = e.2 := by simpa using List.find?_some he'
  have heq : e' = e := List.inj_on_of_nodup_map h (List.mem_of_find?_eq_some he') hmem hsnd
  show (table.find? fun e' => e'.2 == e.2).map Prod.fst = some a
  rw [he', heq, ← hkey]
  rfl

/-- The marshaller that knows one message. -/
def single [DecidableEq α] (a : α) (b : List UInt8) : Marshaller α where
  marshal x := if x = a then some b else none
  unmarshal y := if y = b then some a else none

theorem marshal_single [DecidableEq α] (a : α) (b : List UInt8) :
    (single a b).marshal a = some b := if_pos rfl

theorem single_roundTrips [DecidableEq α] (a : α) (b : List UInt8) :
    (single a b).RoundTrips := by
  intro x y h
  unfold single at h ⊢
  dsimp only at h ⊢
  split_ifs at h with hx
  cases h
  rw [if_pos rfl, hx]

/-- The bytes of a number, the least significant first. -/
def natBytes (n : ℕ) : List UInt8 := (Nat.digits 256 n).map UInt8.ofNat

/-- The number with the given bytes. -/
def ofNatBytes (b : List UInt8) : ℕ := Nat.ofDigits 256 (b.map UInt8.toNat)

theorem ofNatBytes_natBytes (n : ℕ) : ofNatBytes (natBytes n) = n := by
  have hdigits : (Nat.digits 256 n).map (UInt8.toNat ∘ UInt8.ofNat) = Nat.digits 256 n := by
    refine (List.map_congr_left ?_).trans (List.map_id _)
    intro d hd
    have hlt : d < 256 := Nat.digits_lt_base (by omega) hd
    rw [Function.comp_apply, UInt8.toNat_ofNat']
    exact Nat.mod_eq_of_lt hlt
  unfold ofNatBytes natBytes
  rw [List.map_map, hdigits, Nat.ofDigits_digits]

/-- The marshaller that writes the number of a message. -/
def numbered [Encodable α] (ok : α → Bool) : Marshaller α where
  marshal a := if ok a then some (natBytes (Encodable.encode a)) else none
  unmarshal b := (Encodable.decode (ofNatBytes b)).filter ok

theorem numbered_accepts [Encodable α] (ok : α → Bool) : (numbered ok).Accepts ok where
  inverse a hok := by
    refine ⟨natBytes (Encodable.encode a), if_pos hok, ?_⟩
    show (Encodable.decode (ofNatBytes (natBytes (Encodable.encode a)))).filter ok = some a
    rw [ofNatBytes_natBytes, Encodable.encodek]
    simp [hok]
  refuses a hno := by
    show (if ok a then _ else none) = none
    rw [if_neg (by simp [hno])]

end Marshaller
