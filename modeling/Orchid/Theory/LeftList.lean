/-
# Theory.LeftList -- left-recursive lists of a grammar

`LeftList R` is the nonterminal `list : list item | item`: `R` says which words an item
derives and what its value is, a list derives the words of its items one after another.
`LeftList?` also allows the list that has not begun.

A parser that works off one item at a time works off the list (`LeftList.run`).
-/
import Orchid.Theory.Outcome

namespace Orchid.Theory

set_option autoImplicit false

universe u v w

section LeftList

variable {τ : Type u} {β : Type v} {R : List τ → β → Prop}

inductive LeftList (R : List τ → β → Prop) : List τ → List β → Prop where
  | one {word value} : R word value → LeftList R word [value]
  | snoc {words values word value} :
      LeftList R words values → R word value → LeftList R (words ++ word) (values ++ [value])

theorem LeftList.ne_nil {words : List τ} {values : List β} (list : LeftList R words values) : values ≠ [] := by
  cases list <;> simp

/-- The items read so far, which may be none. -/
def LeftList? (R : List τ → β → Prop) (words : List τ) (values : List β) : Prop :=
  (words = [] ∧ values = []) ∨ LeftList R words values

theorem LeftList?.nil : LeftList? R [] [] := Or.inl ⟨rfl, rfl⟩

theorem LeftList?.snoc {words word : List τ} {values : List β} {value : β} (list : LeftList? R words values)
    (item : R word value) : LeftList? R (words ++ word) (values ++ [value]) := by
  rcases list with ⟨rfl, rfl⟩ | list
  · exact Or.inr (LeftList.one item)
  · exact Or.inr (list.snoc item)

theorem LeftList?.of_ne_nil {words : List τ} {values : List β} (list : LeftList? R words values)
    (nonempty : values ≠ []) : LeftList R words values := by
  rcases list with ⟨-, rfl⟩ | list
  · exact absurd rfl nonempty
  · exact list

/-- A nonempty list of words with their values. -/
theorem leftList_flatten {words : List (List τ)} {values : List β} (items : List.Forall₂ R words values)
    (nonempty : values ≠ []) : LeftList R words.flatten values := by
  have all : ∀ (words : List (List τ)) (values : List β), List.Forall₂ R words values →
      ∀ {before : List τ} {done : List β}, LeftList? R before done →
        LeftList? R (before ++ words.flatten) (done ++ values) := by
    intro words values items
    induction items with
    | nil =>
        intro before done list
        simpa using list
    | cons head tail ih =>
        intro before done list
        simpa using ih (list.snoc head)
  exact (all words values items LeftList?.nil).of_ne_nil nonempty

/-- **Working off a list.**  If an item takes the parser from the values built so far to
the values with its own behind, or to the error of its action, a list takes it through
all its items. -/
theorem LeftList.run {ε : Type w} {γ δ : Type v} {action : β → Except ε γ}
    {parse : List γ → List τ → Except ε δ}
    (item : ∀ {word value}, R word value → ∀ built rest,
      parse built (word ++ rest) = action value >>= fun new => parse (built ++ [new]) rest)
    {words : List τ} {values : List β} (list : LeftList R words values) :
    ∀ built rest, parse built (words ++ rest) = values.mapM action >>= fun new => parse (built ++ new) rest := by
  induction list with
  | one head =>
      intro built rest
      rw [item head, List.mapM_cons, List.mapM_nil]
      cases action _ <;> rfl
  | snoc list head ih =>
      intro built rest
      rw [List.append_assoc, ih, List.mapM_append]
      cases done : List.mapM action _ with
      | error trap => rfl
      | ok values =>
          show parse (built ++ values) _ = _
          rw [item head, List.mapM_cons, List.mapM_nil]
          cases action _ with
          | error trap => rfl
          | ok new =>
              show parse (built ++ values ++ [new]) rest = parse (built ++ (values ++ [new])) rest
              rw [List.append_assoc]

end LeftList

end Orchid.Theory
