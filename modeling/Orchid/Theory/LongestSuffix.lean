/-
# Theory.LongestSuffix -- the longest suffix of a word inside a prefix-closed set

A keyword automaton remembers, of the text it has read, only the longest suffix
that some keyword begins with.  `longest P w` is that suffix for an arbitrary
decidable set `P` of words; the one law that makes it a *state* is
`longest_append`: when `P` is closed under left factors, reading more text after
`w` and after `longest P w` leads to the same place.

`fail P u` is the longest proper suffix of `u` in `P` and `chain P w` lists all
suffixes of `w` in `P`, longest first, so the chain of a word of `P` is the word
followed by the chain of its failure word (`chain_cons`).
-/
import Mathlib.Data.List.Infix

namespace Orchid.Theory

set_option autoImplicit false

universe u

section LongestSuffix

variable {α : Type u}

/-- `P` holds the empty word and every left factor of its words. -/
structure LeftClosed (P : List α → Prop) : Prop where
  nil : P []
  left : ∀ {u v : List α}, P (u ++ v) → P u

variable (P : List α → Prop) [DecidablePred P]

/-- The longest suffix of a word that lies in `P` (the empty word if none does). -/
def longest : List α → List α
  | [] => []
  | a :: w => if P (a :: w) then a :: w else longest w

/-- The longest proper suffix in `P`. -/
def fail (u : List α) : List α := longest P u.tail

/-- All suffixes of a word that lie in `P`, longest first. -/
def chain (w : List α) : List (List α) := w.tails.filter fun v => decide (P v)

@[simp] theorem longest_nil : longest P [] = [] := rfl

theorem longest_of_mem {w : List α} (member : P w) : longest P w = w := by
  cases w with
  | nil => rfl
  | cons a w => simp [longest, member]

theorem longest_cons_of_not_mem {a : α} {w : List α} (outside : ¬ P (a :: w)) :
    longest P (a :: w) = longest P w := by
  simp [longest, outside]

theorem longest_suffix (w : List α) : longest P w <:+ w := by
  induction w with
  | nil => exact List.suffix_rfl
  | cons a w ih =>
      by_cases member : P (a :: w)
      · rw [longest_of_mem P member]
      · rw [longest_cons_of_not_mem P member]
        exact ih.trans (List.suffix_cons a w)

theorem length_longest_le (w : List α) : (longest P w).length ≤ w.length :=
  (longest_suffix P w).length_le

theorem length_fail_lt {u : List α} (nonempty : u ≠ []) : (fail P u).length < u.length := by
  cases u with
  | nil => exact absurd rfl nonempty
  | cons a u => exact Nat.lt_succ_of_le (length_longest_le P u)

theorem chain_nil : chain P [] = if P [] then [[]] else [] := by
  by_cases member : P [] <;> simp [chain, member]

theorem chain_cons_of_not_mem {a : α} {w : List α} (outside : ¬ P (a :: w)) :
    chain P (a :: w) = chain P w := by
  simp [chain, outside]

/-- A word has the suffix chain of its longest suffix. -/
theorem chain_longest (w : List α) : chain P (longest P w) = chain P w := by
  induction w with
  | nil => rfl
  | cons a w ih =>
      by_cases member : P (a :: w)
      · rw [longest_of_mem P member]
      · rw [longest_cons_of_not_mem P member, chain_cons_of_not_mem P member, ih]

/-- The chain of a non-empty word of `P` is the word, then the chain of its
failure word. -/
theorem chain_cons {u : List α} (member : P u) (nonempty : u ≠ []) :
    chain P u = u :: chain P (fail P u) := by
  cases u with
  | nil => exact absurd rfl nonempty
  | cons a u =>
      rw [fail, List.tail_cons, chain_longest]
      simp [chain, member]

theorem mem_chain {v w : List α} : v ∈ chain P w ↔ v <:+ w ∧ P v := by
  simp [chain]

variable {P}

theorem longest_mem (closed : LeftClosed P) (w : List α) : P (longest P w) := by
  induction w with
  | nil => exact closed.nil
  | cons a w ih =>
      by_cases member : P (a :: w)
      · rwa [longest_of_mem P member]
      · rwa [longest_cons_of_not_mem P member]

/-- **Reading on from the longest suffix is reading on from the word.** -/
theorem longest_append (closed : LeftClosed P) (w x : List α) :
    longest P (longest P w ++ x) = longest P (w ++ x) := by
  induction w with
  | nil => rfl
  | cons a w ih =>
      by_cases member : P (a :: w)
      · rw [longest_of_mem P member]
      · have outside : ¬ P (a :: (w ++ x)) := fun h =>
          member (closed.left (show P ((a :: w) ++ x) from h))
        rw [longest_cons_of_not_mem P member, ih, List.cons_append,
          longest_cons_of_not_mem P outside]

/-- The failure word of an extension: extend the failure word instead. -/
theorem fail_append {u : List α} (closed : LeftClosed P) (nonempty : u ≠ []) (x : List α) :
    fail P (u ++ x) = longest P (fail P u ++ x) := by
  rw [fail, List.tail_append_of_ne_nil nonempty, fail, longest_append closed]

/-- Where a word of `P` has no extension by `c` in `P`, the step on `c` is the
step of its failure word. -/
theorem longest_snoc_of_not_mem {u : List α} {c : α} (closed : LeftClosed P)
    (nonempty : u ≠ []) (outside : ¬ P (u ++ [c])) :
    longest P (u ++ [c]) = longest P (fail P u ++ [c]) := by
  cases u with
  | nil => exact absurd rfl nonempty
  | cons a u =>
      rw [List.cons_append] at outside ⊢
      rw [longest_cons_of_not_mem P outside, fail, List.tail_cons, longest_append closed]

end LongestSuffix

end Orchid.Theory
