/-
# Theory.Alternatives -- many expressions side by side

`alts e es` puts expressions with positions of their own side by side.  A word leads in
it where it leads in one of them (`reach_alts`).  `rankOf` numbers the positions by
their expressions; followers keep the number, and the first positions are in its order.

`ended e z` marks the end of an expression with a position that nothing reads: the words
that lead there are those of the expression (`reach_ended`), and if all positions can be read,
whatever can be read leads there in the end (`exists_completion`).
-/
import Orchid.Theory.Positions

namespace Orchid.Theory

set_option autoImplicit false

universe u v

namespace Expr

variable {ι : Type u} {α : Type v}

def alts (e : Expr ι) (es : List (Expr ι)) : Expr ι := es.foldl alt e

theorem alts_snoc (e x : Expr ι) (es : List (Expr ι)) : alts e (es ++ [x]) = alt (alts e es) x := by
  simp [alts]

theorem positions_alts (e : Expr ι) (es : List (Expr ι)) : (alts e es).positions = (e :: es).flatMap positions := by
  induction es using List.reverseRecOn with
  | nil => simp [alts]
  | append_singleton es x ih => simp [alts_snoc, positions, ih]

theorem first_alts (e : Expr ι) (es : List (Expr ι)) : (alts e es).first = (e :: es).flatMap first := by
  induction es using List.reverseRecOn with
  | nil => simp [alts]
  | append_singleton es x ih => simp [alts_snoc, first, ih]

theorem follows_alts {e : Expr ι} {es : List (Expr ι)} {i j : ι} :
    (alts e es).Follows i j ↔ ∃ x ∈ e :: es, x.Follows i j := by
  induction es using List.reverseRecOn with
  | nil => simp [alts]
  | append_singleton es x ih =>
      rw [alts_snoc, Follows, ih]
      simp only [← List.cons_append, List.mem_append, List.mem_singleton, or_and_right, exists_or, exists_eq_left]

/-! ## Ranks -/

section Rank

variable [DecidableEq ι]

/-- The number of the expression that a position belongs to. -/
def rankOf (es : List (Expr ι)) (i : ι) : Nat := es.findIdx fun x => i ∈ x.positions

variable {es : List (Expr ι)} (once : (es.flatMap positions).Nodup)

include once

omit [DecidableEq ι] in
theorem eq_of_mem_positions {k l : Nat} {x y : Expr ι} (here : es[k]? = some x) (there : es[l]? = some y) {i : ι}
    (inX : i ∈ x.positions) (inY : i ∈ y.positions) : k = l := by
  have apart := List.pairwise_iff_getElem.1 (List.nodup_flatMap.1 once).2
  obtain ⟨below, rfl⟩ := List.getElem?_eq_some_iff.1 here
  obtain ⟨below', rfl⟩ := List.getElem?_eq_some_iff.1 there
  rcases Nat.lt_trichotomy k l with less | same | more
  · exact absurd inY (apart k l below below' less inX)
  · exact same
  · exact absurd inX (apart l k below' below more inY)

theorem rankOf_eq {k : Nat} {x : Expr ι} (here : es[k]? = some x) {i : ι} (inside : i ∈ x.positions) :
    rankOf es i = k := by
  obtain ⟨below, same⟩ := List.getElem?_eq_some_iff.1 here
  have found : es.findIdx (fun x => decide (i ∈ x.positions)) < es.length := by
    rw [List.findIdx_lt_length]
    exact ⟨x, List.mem_of_getElem? here, by simpa using inside⟩
  have member : i ∈ es[rankOf es i].positions := by
    have holds := @List.findIdx_getElem _ _ _ found
    exact of_decide_eq_true holds
  exact eq_of_mem_positions once (List.getElem?_eq_getElem found) here member inside

theorem rankOf_follows {x : Expr ι} (member : x ∈ es) {i j : ι} (follows : x.Follows i j) : rankOf es j = rankOf es i := by
  obtain ⟨k, here⟩ := List.getElem?_of_mem member
  rw [rankOf_eq once here follows.subset.1, rankOf_eq once here follows.subset.2]

theorem rankOf_first : (es.flatMap first).Pairwise fun i j => rankOf es i ≤ rankOf es j := by
  rw [List.pairwise_flatMap]
  constructor
  · intro x member
    obtain ⟨k, here⟩ := List.getElem?_of_mem member
    apply List.pairwise_of_forall_mem_list
    intro i starts j starts'
    rw [rankOf_eq once here (first_subset x i starts), rankOf_eq once here (first_subset x j starts')]
  · rw [List.pairwise_iff_getElem]
    intro k l below below' less i starts j starts'
    rw [rankOf_eq once (List.getElem?_eq_getElem below) (first_subset _ i starts),
      rankOf_eq once (List.getElem?_eq_getElem below') (first_subset _ j starts')]
    exact Nat.le_of_lt less

end Rank

/-! ## Runs -/

section Reach

variable {readBy : α → ι → Prop} {e : Expr ι} {es : List (Expr ι)}

theorem reach_alts (once : (alts e es).positions.Nodup) {w : List α} : ∀ {i : ι},
    (alts e es).Reach readBy w i ↔ ∃ x ∈ e :: es, x.Reach readBy w i := by
  rw [positions_alts] at once
  induction w using List.reverseRecOn with
  | nil =>
      intro i
      simp only [reach_nil, first_alts, List.mem_flatMap]
  | append_singleton w c ih =>
      intro j
      simp only [reach_snoc, ih, follows_alts]
      constructor
      · rintro ⟨i, ⟨x, member, reach⟩, reads, y, member', follows⟩
        obtain ⟨k, here⟩ := List.getElem?_of_mem member
        obtain ⟨l, there⟩ := List.getElem?_of_mem member'
        obtain rfl := eq_of_mem_positions once here there reach.subset follows.subset.1
        obtain rfl : x = y := Option.some.inj (here.symm.trans there)
        exact ⟨x, member, i, reach, reads, follows⟩
      · rintro ⟨x, member, i, reach, reads, follows⟩
        exact ⟨i, ⟨x, member, reach⟩, reads, x, member, follows⟩

/-- A position that nothing reads, to choose at the start, is reached by the empty word only. -/
theorem reach_optional {b : ι} (dead : ∀ c, ¬ readBy c b) (apart : b ∉ e.positions) {w : List α} : ∀ {i : ι},
    (seq (alt (pos b) null) e).Reach readBy w i ↔ w = [] ∧ i = b ∨ e.Reach readBy w i := by
  induction w using List.reverseRecOn with
  | nil =>
      intro i
      simp [reach_nil, first, nullable]
  | append_singleton w c ih =>
      intro j
      have notBoth : ¬ (w ++ [c] = [] ∧ j = b) := fun both => by simp at both
      rw [or_iff_right notBoth, reach_snoc, reach_snoc]
      refine exists_congr fun i => ?_
      rw [ih]
      constructor
      · rintro ⟨⟨-, rfl⟩ | reach, reads, follows⟩
        · exact absurd reads (dead c)
        · have other : i ≠ b := fun same => apart (same ▸ reach.subset)
          have here : e.Follows i j := by simpa [Follows, last, other] using follows
          exact ⟨reach, reads, here⟩
      · rintro ⟨reach, reads, follows⟩
        exact ⟨Or.inr reach, reads, Or.inr (Or.inl follows)⟩

/-- The expression with a mark behind it. -/
def ended (e : Expr ι) (z : ι) : Expr ι := seq e (pos z)

theorem snoc_mem_words_ended {z : ι} {ps : List ι} : ps ++ [z] ∈ (ended e z).words ↔ ps ∈ e.words := by
  show ps ++ [z] ∈ e.words * {[z]} ↔ _
  rw [Language.mem_mul]
  constructor
  · rintro ⟨u, inside, v, rfl, same⟩
    rwa [← (List.append_inj' same rfl).1]
  · exact fun inside => ⟨ps, inside, [z], rfl, rfl⟩

/-- The words that lead to the mark are those of the expression. -/
theorem reach_ended {z : ι} (once : (ended e z).positions.Nodup) {w : List α} :
    (ended e z).Reach readBy w z ↔ w ∈ e.lang readBy := by
  have ends : z ∈ (ended e z).last := List.mem_append_right _ (List.mem_singleton.2 rfl)
  rw [reach_iff once ends]
  simp only [snoc_mem_words_ended]
  constructor
  · rintro ⟨ps, spells, inside⟩
    exact ⟨ps, inside, spells⟩
  · rintro ⟨ps, inside, spells⟩
    exact ⟨ps, spells, inside⟩

/-- If every position can be read, whatever has been read can be completed. -/
theorem exists_completion {z : ι} (once : (ended e z).positions.Nodup) (readable : ∀ i ∈ e.positions, ∃ c, readBy c i)
    {w : List α} {i : ι} (reach : (ended e z).Reach readBy w i) : ∃ more, w ++ more ∈ e.lang readBy := by
  obtain ⟨ps, chain⟩ := exists_chain _ i reach.subset
  induction ps generalizing w i with
  | nil =>
      obtain rfl : i = z := by simpa [Chain, ended, last, nullable] using chain
      exact ⟨[], by rwa [List.append_nil, ← reach_ended once]⟩
  | cons j ps ih =>
      have inside : i ∈ e.positions := by
        rcases chain.1 with follows | follows | ⟨ends, -⟩
        · exact follows.subset.1
        · exact follows.elim
        · exact last_subset e i ends
      obtain ⟨c, reads⟩ := readable i inside
      obtain ⟨more, word⟩ := ih (Reach.step reach reads chain.1) chain.2
      exact ⟨c :: more, by rwa [List.append_cons]⟩

end Reach

end Expr

end Orchid.Theory
