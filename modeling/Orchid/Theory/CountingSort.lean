/-
# Theory.CountingSort -- the slots of a counting sort

A counting sort knows from a first pass how many items each key has.  It gives item
`i` the slot `slot keys i`: the number of items with a smaller key, and then the
number of earlier items with the same key.  Every item gets a slot of its own below
the number of items (`slot_lt`, `slot_injective`), so every slot is filled
(`exists_slot`); the items of one key fill one interval in their own order
(`slot_interval`, `slot_lt_slot`).

`start_eq_sum` is the prefix sum the first pass computes, for keys below a bound.
-/
import Mathlib.Data.Fintype.EquivFin
import Mathlib.Data.List.Count
import Mathlib.Order.Defs.LinearOrder
import Mathlib.Algebra.BigOperators.Group.List.Basic
import Mathlib.Algebra.Order.Group.Nat
import Mathlib.Algebra.GroupWithZero.Nat
import Mathlib.Tactic.Common

namespace Orchid.Theory

set_option autoImplicit false

universe u

namespace CountingSort

variable {κ : Type u} [LinearOrder κ]

/-- The number of items with a smaller key. -/
def start (keys : List κ) (c : κ) : Nat := keys.countP (· < c)

/-- Where item `i` goes. -/
def slot (keys : List κ) (i : Nat) : Nat :=
  match keys[i]? with
  | none => keys.length
  | some c => start keys c + (keys.take i).count c

theorem slot_of_getElem? {keys : List κ} {i : Nat} {c : κ} (here : keys[i]? = some c) :
    slot keys i = start keys c + (keys.take i).count c := by
  rw [slot, here]

/-- The interval of a key. -/
theorem start_add_count (keys : List κ) (c : κ) :
    start keys c + keys.count c = keys.countP (· ≤ c) := by
  induction keys with
  | nil => rfl
  | cons d keys ih =>
      rw [start, List.count, List.countP_cons, List.countP_cons, List.countP_cons, ← ih, start, List.count]
      rcases lt_trichotomy d c with below | rfl | above
      · simp [below, below.le, below.ne]
        omega
      · simp
        omega
      · simp [not_lt_of_gt above, not_le_of_gt above, above.ne']

theorem start_add_count_le_length (keys : List κ) (c : κ) :
    start keys c + keys.count c ≤ keys.length := by
  rw [start_add_count]
  exact List.countP_le_length

/-- The interval of a key ends before that of a greater one. -/
theorem start_add_count_le_start (keys : List κ) {c d : κ} (less : c < d) :
    start keys c + keys.count c ≤ start keys d := by
  rw [start_add_count, start]
  refine List.countP_mono_left fun x _ small => ?_
  simp only [decide_eq_true_eq] at small ⊢
  exact lt_of_le_of_lt small less

theorem count_take_lt {keys : List κ} {i : Nat} {c : κ} (here : keys[i]? = some c) {j : Nat}
    (before : i < j) : (keys.take i).count c < (keys.take j).count c := by
  have upTo : (keys.take (i + 1)).count c = (keys.take i).count c + 1 := by
    rw [List.take_add_one, here, List.count_append]
    simp
  have grown : (keys.take (i + 1)).count c ≤ (keys.take j).count c :=
    (List.take_prefix_take_left before).sublist.count_le c
  omega

theorem count_take_lt_count {keys : List κ} {i : Nat} {c : κ} (here : keys[i]? = some c) :
    (keys.take i).count c < keys.count c := by
  have below : i < keys.length := (List.getElem?_eq_some_iff.1 here).1
  have := count_take_lt here below
  rwa [List.take_length] at this

/-- An item's slot lies in the interval of its key. -/
theorem slot_mem {keys : List κ} {i : Nat} {c : κ} (here : keys[i]? = some c) :
    start keys c ≤ slot keys i ∧ slot keys i < start keys c + keys.count c := by
  have := count_take_lt_count here
  rw [slot_of_getElem? here]
  omega

theorem slot_lt {keys : List κ} {i : Nat} (below : i < keys.length) : slot keys i < keys.length := by
  obtain ⟨-, inside⟩ := slot_mem (List.getElem?_eq_getElem below)
  exact lt_of_lt_of_le inside (start_add_count_le_length keys _)

/-- Items of one key keep their order. -/
theorem slot_lt_slot {keys : List κ} {i j : Nat} {c : κ} (here : keys[i]? = some c)
    (there : keys[j]? = some c) (before : i < j) : slot keys i < slot keys j := by
  rw [slot_of_getElem? here, slot_of_getElem? there]
  exact Nat.add_lt_add_left (count_take_lt here before) _

/-- Items of smaller keys come first. -/
theorem slot_lt_slot_of_lt {keys : List κ} {i j : Nat} {c d : κ} (here : keys[i]? = some c)
    (there : keys[j]? = some d) (less : c < d) : slot keys i < slot keys j := by
  have first := (slot_mem here).2
  have second := (slot_mem there).1
  exact lt_of_lt_of_le (lt_of_lt_of_le first (start_add_count_le_start keys less)) second

theorem slot_injective {keys : List κ} {i j : Nat} (hi : i < keys.length) (hj : j < keys.length)
    (same : slot keys i = slot keys j) : i = j := by
  have here := List.getElem?_eq_getElem hi
  have there := List.getElem?_eq_getElem hj
  rcases lt_trichotomy keys[i] keys[j] with less | equal | more
  · exact absurd same (slot_lt_slot_of_lt here there less).ne
  · rw [← equal] at there
    rcases Nat.lt_trichotomy i j with before | rfl | after
    · exact absurd same (slot_lt_slot here there before).ne
    · rfl
    · exact absurd same (slot_lt_slot there here after).ne'
  · exact absurd same (slot_lt_slot_of_lt there here more).ne'

/-- No slot stays empty. -/
theorem exists_slot {keys : List κ} {s : Nat} (below : s < keys.length) :
    ∃ i, i < keys.length ∧ slot keys i = s := by
  let place : Fin keys.length → Fin keys.length := fun i => ⟨slot keys i, slot_lt i.isLt⟩
  have injective : Function.Injective place := fun i j same =>
    Fin.ext (slot_injective i.isLt j.isLt (congrArg Fin.val same))
  obtain ⟨i, same⟩ := Finite.surjective_of_injective injective ⟨s, below⟩
  exact ⟨i, i.isLt, congrArg Fin.val same⟩

/-- The slots of a key's items are its interval. -/
theorem slot_interval (keys : List κ) (c : κ) (s : Nat) :
    (∃ i, keys[i]? = some c ∧ slot keys i = s) ↔ start keys c ≤ s ∧ s < start keys c + keys.count c := by
  constructor
  · rintro ⟨i, here, rfl⟩
    exact slot_mem here
  · rintro ⟨above, below⟩
    obtain ⟨i, inside, rfl⟩ := exists_slot (lt_of_lt_of_le below (start_add_count_le_length keys c))
    have here := List.getElem?_eq_getElem inside
    obtain ⟨above', below'⟩ := slot_mem here
    rcases lt_trichotomy keys[i] c with less | equal | more
    · have := start_add_count_le_start keys less
      omega
    · exact ⟨i, equal ▸ here, rfl⟩
    · have := start_add_count_le_start keys more
      omega

/-! ## The first pass -/

/-- The prefix sum of the counts. -/
theorem start_eq_sum (keys : List Nat) (c : Nat) :
    start keys c = ((List.range c).map fun k => keys.count k).sum := by
  induction c with
  | zero => simp [start]
  | succ c ih =>
      have whole := start_add_count keys c
      have shift : keys.countP (· ≤ c) = start keys (c + 1) := by
        rw [start]
        refine List.countP_congr fun x _ => ?_
        rw [decide_eq_true_iff, decide_eq_true_iff]
        exact Nat.lt_succ_iff.symm
      rw [List.range_succ, List.map_append, List.sum_append, ← ih, ← shift, ← whole]
      simp

end CountingSort

end Orchid.Theory
