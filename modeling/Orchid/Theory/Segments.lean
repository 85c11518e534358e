/-
# Theory.Segments -- consecutive segments of given sizes

Segments of sizes `ks` are placed one after another; segment `g` starts at
`start ks g`.  Every position below the total lies in exactly one segment at
exactly one place (`exists_segment`, `segment_unique`).  `spread f` is the table
that holds, at place `j` of segment `g`, the value `f` computes from the segment's
number, its start, its size and the place; `getElem?_spread` reads it back.
-/
import Mathlib.Algebra.BigOperators.Group.List.Basic
import Mathlib.Algebra.Order.Group.Nat
import Mathlib.Algebra.GroupWithZero.Nat

namespace Orchid.Theory

set_option autoImplicit false

universe u

section Segments

/-- Where a segment starts. -/
def start (ks : List Nat) (g : Nat) : Nat := (ks.take g).sum

@[simp] theorem start_zero (ks : List Nat) : start ks 0 = 0 := by simp [start]

@[simp] theorem start_cons_succ (k : Nat) (ks : List Nat) (g : Nat) :
    start (k :: ks) (g + 1) = k + start ks g := by
  simp [start]

theorem start_succ {ks : List Nat} {g k : Nat} (here : ks[g]? = some k) :
    start ks (g + 1) = start ks g + k := by
  rw [start, List.take_add_one, here, List.sum_append, Option.toList_some, List.sum_singleton, start]

theorem start_mono (ks : List Nat) {g g' : Nat} (le : g ≤ g') : start ks g ≤ start ks g' := by
  obtain ⟨d, rfl⟩ := Nat.exists_eq_add_of_le le
  rw [start, start, List.take_add, List.sum_append]
  exact Nat.le_add_right _ _

theorem start_le_sum (ks : List Nat) (g : Nat) : start ks g ≤ ks.sum := by
  have whole : (ks.take g).sum + (ks.drop g).sum = ks.sum := by
    rw [← List.sum_append, List.take_append_drop]
  unfold start
  omega

/-- A place of a segment lies below the total. -/
theorem start_add_lt {ks : List Nat} {g k j : Nat} (here : ks[g]? = some k) (below : j < k) :
    start ks g + j < ks.sum := by
  have next := start_succ here
  have := start_le_sum ks (g + 1)
  omega

theorem exists_segment {ks : List Nat} {i : Nat} (below : i < ks.sum) :
    ∃ g k j, ks[g]? = some k ∧ j < k ∧ i = start ks g + j := by
  induction ks generalizing i with
  | nil => exact absurd below (by simp)
  | cons k ks ih =>
      rw [List.sum_cons] at below
      by_cases first : i < k
      · exact ⟨0, k, i, rfl, first, by simp⟩
      · obtain ⟨g, k', j, here, inside, place⟩ := ih (i := i - k) (by omega)
        exact ⟨g + 1, k', j, by simpa using here, inside, by rw [start_cons_succ]; omega⟩

theorem segment_unique {ks : List Nat} {g g' k k' j j' : Nat} (here : ks[g]? = some k)
    (here' : ks[g']? = some k') (below : j < k) (below' : j' < k')
    (same : start ks g + j = start ks g' + j') : g = g' ∧ j = j' := by
  have next := start_succ here
  have next' := start_succ here'
  rcases Nat.lt_trichotomy g g' with before | rfl | after
  · have := start_mono ks (Nat.succ_le_of_lt before)
    simp only [Nat.succ_eq_add_one] at this
    omega
  · exact ⟨rfl, by omega⟩
  · have := start_mono ks (Nat.succ_le_of_lt after)
    simp only [Nat.succ_eq_add_one] at this
    omega

/-- A place of a list of lists in their concatenation. -/
theorem getElem?_flatten_start {α : Type u} {xss : List (List α)} {i : Nat} {xs : List α}
    (here : xss[i]? = some xs) {j : Nat} (below : j < xs.length) :
    xss.flatten[start (xss.map List.length) i + j]? = xs[j]? := by
  induction xss generalizing i with
  | nil => exact absurd here (by simp)
  | cons ys xss ih =>
      rw [List.flatten_cons, List.map_cons]
      cases i with
      | zero =>
          obtain rfl : ys = xs := by simpa using here
          rw [start_zero, Nat.zero_add, List.getElem?_append_left below]
      | succ i =>
          have shift : ys.length + start (xss.map List.length) i + j - ys.length =
              start (xss.map List.length) i + j := by omega
          rw [start_cons_succ, List.getElem?_append_right (by omega), shift,
            ih (by simpa using here)]

variable {α : Type u} (f : Nat → Nat → Nat → Nat → α)

/-- The table of all segments; `g` and `o` are the number and the start of the
first one. -/
def spread (g o : Nat) : List Nat → List α
  | [] => []
  | k :: ks => (List.range k).map (f g o k) ++ spread (g + 1) (o + k) ks

theorem length_spread (ks : List Nat) (g o : Nat) : (spread f g o ks).length = ks.sum := by
  induction ks generalizing g o with
  | nil => rfl
  | cons k ks ih => simp [spread, ih]

theorem getElem?_spread {ks : List Nat} {i k j : Nat} (here : ks[i]? = some k) (below : j < k)
    (g o : Nat) : (spread f g o ks)[start ks i + j]? = some (f (g + i) (o + start ks i) k j) := by
  induction ks generalizing g o i with
  | nil => exact absurd here (by simp)
  | cons k' ks ih =>
      cases i with
      | zero =>
          obtain rfl : k' = k := by simpa using here
          rw [start_zero, Nat.zero_add, spread, List.getElem?_append_left (by simpa using below)]
          simp [below]
      | succ i =>
          have shift : k' + start ks i + j - k' = start ks i + j := by omega
          rw [start_cons_succ, spread, List.getElem?_append_right (by simp; omega), List.length_map,
            List.length_range, shift, ih (by simpa using here)]
          congr 2 <;> omega

theorem spread_append (ks ks' : List Nat) (g o : Nat) :
    spread f g o (ks ++ ks') = spread f g o ks ++ spread f (g + ks.length) (o + ks.sum) ks' := by
  induction ks generalizing g o with
  | nil => simp [spread]
  | cons k ks ih =>
      rw [List.cons_append, spread, spread, ih, List.append_assoc, List.length_cons, List.sum_cons]
      congr 3 <;> omega

end Segments

end Orchid.Theory
