/-
# Theory.CounterWalk -- a cursor advanced by the loop counter

A loop that counts `k` from zero up and moves its cursor by `k` before each round visits
the cells at distance 0, 1, 3, 6, ... from where it began (`walkCells`).  The cells next to
each other are what it visits only if there are at most two (`walkCells_perm_iff`): with a
third round it leaves the range (`exists_far_cell`).
-/
import Orchid.Theory.Outcome
import Mathlib.Data.List.Perm.Basic

namespace Orchid.Theory

set_option autoImplicit false

universe u v

section CounterWalk

variable {ε : Type u} {β : Type v}

/-- `for (; left > 0; k++, left--) { cur += k; visit(cur); }` -/
def counterWalk (visit : Nat → Except ε β) : (cur k left : Nat) → Except ε (List β)
  | _, _, 0 => .ok []
  | cur, k, left + 1 => do
      let first ← visit (cur + k)
      let rest ← counterWalk visit (cur + k) (k + 1) left
      return first :: rest

/-- The cells the loop visits. -/
def walkCells : (cur k left : Nat) → List Nat
  | _, _, 0 => []
  | cur, k, left + 1 => (cur + k) :: walkCells (cur + k) (k + 1) left

theorem counterWalk_eq (visit : Nat → Except ε β) (cur k left : Nat) :
    counterWalk visit cur k left = (walkCells cur k left).mapM visit := by
  induction left generalizing cur k with
  | zero => rfl
  | succ left ih => rw [counterWalk, walkCells, List.mapM_cons, ih]

/-- What the visits say about the walk, if a visit knows its cell. -/
theorem counterWalk_ok {visit : Nat → Except ε β} {key : β → Nat} (known : ∀ p v, visit p = .ok v → key v = p)
    {cur k left : Nat} {visits : List β} (ran : counterWalk visit cur k left = .ok visits) :
    visits.map key = walkCells cur k left ∧ ∀ v ∈ visits, visit (key v) = .ok v := by
  rw [counterWalk_eq, mapM_ok_iff] at ran
  generalize walkCells cur k left = cells at ran
  induction ran with
  | nil => exact ⟨rfl, fun v impossible => nomatch impossible⟩
  | @cons p v _ _ visited _ ih =>
      have cell := known p v visited
      refine ⟨by rw [List.map_cons, cell, ih.1], fun other member => ?_⟩
      rcases List.mem_cons.1 member with rfl | later
      · rw [cell]
        exact visited
      · exact ih.2 other later

theorem counterWalk_total {visit : Nat → Except ε β} {cur k left : Nat}
    (each : ∀ p ∈ walkCells cur k left, ∃ v, visit p = .ok v) : ∃ visits, counterWalk visit cur k left = .ok visits := by
  rw [counterWalk_eq]
  exact mapM_total each

/-! ## Where the walk gets -/

/-- Every round moves on by at least one cell after the first. -/
theorem exists_cell (cur k left : Nat) : ∃ p ∈ walkCells cur k (left + 1), cur + k + left ≤ p := by
  induction left generalizing cur k with
  | zero => exact ⟨cur + k, List.mem_cons_self .., Nat.le_refl _⟩
  | succ left ih =>
      obtain ⟨p, member, far⟩ := ih (cur + k) (k + 1)
      exact ⟨p, List.mem_cons_of_mem _ member, by omega⟩

/-- The third round and all later ones skip cells. -/
theorem exists_far_cell {base n : Nat} (many : 3 ≤ n) : ∃ p ∈ walkCells base 0 n, base + n ≤ p := by
  obtain ⟨m, rfl⟩ := Nat.exists_eq_add_of_le' many
  obtain ⟨p, member, far⟩ := exists_cell (base + 0 + 1) 2 m
  exact ⟨p, List.mem_cons_of_mem _ (List.mem_cons_of_mem _ member), by omega⟩

theorem walkCells_eq_range' {base n : Nat} (few : n ≤ 2) : walkCells base 0 n = List.range' base n := by
  match n, few with
  | 0, _ => rfl
  | 1, _ => rfl
  | 2, _ => rfl

/-- **When the walk visits the cells next to each other**, in whatever order. -/
theorem walkCells_perm_iff {base n : Nat} : (walkCells base 0 n).Perm (List.range' base n) ↔ n ≤ 2 := by
  constructor
  · intro same
    by_contra many
    obtain ⟨p, member, far⟩ := @exists_far_cell base n (by omega)
    have near := List.mem_range'_1.1 (same.mem_iff.1 member)
    omega
  · intro few
    rw [walkCells_eq_range' few]

end CounterWalk

end Orchid.Theory
