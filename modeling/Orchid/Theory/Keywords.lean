/-
# Theory.Keywords -- which keywords a suffix automaton records, and in which order

For a list `ps` of keywords with texts over an arbitrary alphabet, `Stem` is the
set of left factors of the texts: the states of the automaton.  The keywords that
end at a word are found on its suffix chain, and a construction that copies a
failure state's list entry by entry onto the front of a state's own list reverses
it on every copy.  `endings` is the list such a construction leaves; `leader` is
the entry at its front.

States of length one never receive a copy (they fail to the root), so a keyword
with the empty text is recorded below the root only where the chain skips every
word of length one (`mem_endings_iff`).  With non-empty texts that case is void
and the entries are exactly the keywords that end at the word (`mem_endings`).
-/
import Orchid.Theory.LongestSuffix

namespace Orchid.Theory

set_option autoImplicit false

universe u v

section Keywords

variable {α : Type u} {β : Type v} [DecidableEq α] (text : β → List α) (ps : List β)

/-- A left factor of some keyword's text, or the empty word. -/
def Stem (w : List α) : Prop := w = [] ∨ ∃ p ∈ ps, w <+: text p

instance : DecidablePred (Stem text ps) := fun w =>
  inferInstanceAs (Decidable (w = [] ∨ ∃ p ∈ ps, w <+: text p))

omit [DecidableEq α] in
theorem stem_leftClosed : LeftClosed (Stem text ps) where
  nil := Or.inl rfl
  left := by
    rintro u v (h | ⟨p, member, h⟩)
    · exact Or.inl (List.append_eq_nil_iff.1 h).1
    · exact Or.inr ⟨p, member, (List.prefix_append u v).trans h⟩

omit [DecidableEq α] in
theorem stem_text {p : β} (member : p ∈ ps) : Stem text ps (text p) :=
  Or.inr ⟨p, member, List.prefix_rfl⟩

/-- The keywords whose text is exactly `w`, in list order. -/
def own (w : List α) : List β := ps.filter fun p => decide (text p = w)

theorem mem_own {p : β} {w : List α} : p ∈ own text ps w ↔ p ∈ ps ∧ text p = w := by
  simp [own]

/-- The entries gathered along a suffix chain: the failure state's entries,
reversed by the copy, before the state's own. -/
def gathered : List (List α) → List β
  | [] => []
  | v :: vs => if v.length ≤ 1 then own text ps v else (gathered vs).reverse ++ own text ps v

/-- The entries recorded at the state of a word. -/
def endings (w : List α) : List β := gathered text ps (chain (Stem text ps) w)

/-- The entry at the front of that record. -/
def leader (w : List α) : Option β := (endings text ps w).head?

theorem endings_longest (w : List α) :
    endings text ps (longest (Stem text ps) w) = endings text ps w := by
  rw [endings, chain_longest, endings]

theorem endings_of_length_le {u : List α} (member : Stem text ps u) (short : u.length ≤ 1) :
    endings text ps u = own text ps u := by
  cases u with
  | nil => simp [endings, chain_nil, gathered, member]
  | cons a u => rw [endings, chain_cons _ member (List.cons_ne_nil a u), gathered, if_pos short]

theorem endings_of_lt_length {u : List α} (member : Stem text ps u) (long : 1 < u.length) :
    endings text ps u = (endings text ps (fail (Stem text ps) u)).reverse ++ own text ps u := by
  have nonempty : u ≠ [] := by rintro rfl; simp at long
  rw [endings, chain_cons _ member nonempty, gathered, if_neg (Nat.not_le.2 long), endings]

theorem mem_gathered {p : β} {vs : List (List α)} :
    p ∈ gathered text ps vs ↔
      ∃ before v after, vs = before ++ v :: after ∧ (∀ x ∈ before, 1 < x.length) ∧
        p ∈ own text ps v := by
  induction vs with
  | nil => simp [gathered]
  | cons v vs ih =>
      constructor
      · intro member
        rw [gathered] at member
        split at member
        · exact ⟨[], v, vs, rfl, by simp, member⟩
        · rename_i long
          rcases List.mem_append.1 member with member | member
          · obtain ⟨before, x, after, rfl, longer, here⟩ := ih.1 (List.mem_reverse.1 member)
            refine ⟨v :: before, x, after, rfl, ?_, here⟩
            rintro y (_ | ⟨_, inside⟩)
            · exact Nat.not_le.1 long
            · exact longer y inside
          · exact ⟨[], v, vs, rfl, by simp, member⟩
      · rintro ⟨before, x, after, split, longer, here⟩
        rw [gathered]
        cases before with
        | nil =>
            obtain ⟨rfl, rfl⟩ := List.cons.inj split
            by_cases short : v.length ≤ 1
            · rwa [if_pos short]
            · rw [if_neg short]
              exact List.mem_append_right _ here
        | cons y before =>
            obtain ⟨rfl, rfl⟩ := List.cons.inj split
            rw [if_neg (Nat.not_le.2 (longer v (List.mem_cons_self ..)))]
            refine List.mem_append_left _ (List.mem_reverse.2 (ih.2 ⟨before, x, after, rfl, ?_, here⟩))
            exact fun z inside => longer z (List.mem_cons_of_mem _ inside)

omit [DecidableEq α] in
theorem chain_pairwise (P : List α → Prop) [DecidablePred P] (w : List α) :
    (chain P w).Pairwise fun x y => y.length < x.length := by
  refine List.Pairwise.filter _ ?_
  induction w with
  | nil => simp
  | cons a w ih =>
      rw [List.tails_cons, List.pairwise_cons]
      refine ⟨fun x inside => ?_, ih⟩
      exact Nat.lt_succ_of_le ((List.mem_tails _ _).1 inside).length_le

/-- **What is recorded at a word**: the keywords that end there, except that one
with the empty text is missing where a keyword begins with the word's last letter. -/
theorem mem_endings_iff {p : β} {w : List α} :
    p ∈ endings text ps w ↔ p ∈ ps ∧ text p <:+ w ∧
      (text p = [] → ∀ c, [c] <:+ w → ¬ Stem text ps [c]) := by
  rw [endings, mem_gathered]
  constructor
  · rintro ⟨before, v, after, split, longer, here⟩
    obtain ⟨member, rfl⟩ := (mem_own text ps).1 here
    have inChain : text p ∈ chain (Stem text ps) w := by rw [split]; simp
    refine ⟨member, ((mem_chain _).1 inChain).1, fun empty c suffix stem => ?_⟩
    have single : [c] ∈ before ++ text p :: after := by
      rw [← split]; exact (mem_chain _).2 ⟨suffix, stem⟩
    have sorted := chain_pairwise (Stem text ps) w
    rw [split, empty] at sorted
    rw [empty] at single
    rcases List.mem_append.1 single with inside | inside
    · exact absurd (longer _ inside) (by simp)
    · rcases List.mem_cons.1 inside with same | inside
      · exact absurd same (by simp)
      · have := (List.pairwise_cons.1 (List.pairwise_append.1 sorted).2.1).1 _ inside
        simp at this
  · rintro ⟨member, suffix, alone⟩
    have inChain := (mem_chain (Stem text ps)).2 ⟨suffix, stem_text text ps member⟩
    obtain ⟨before, after, split⟩ := List.append_of_mem inChain
    refine ⟨before, text p, after, split, fun x inside => ?_, (mem_own text ps).2 ⟨member, rfl⟩⟩
    have sorted := chain_pairwise (Stem text ps) w
    rw [split] at sorted
    have shorter : (text p).length < x.length :=
      (List.pairwise_append.1 sorted).2.2 x inside _ (List.mem_cons_self ..)
    by_contra notLong
    -- a chain word of length one before the text of `p`: then that text is empty
    have empty : text p = [] := List.eq_nil_of_length_eq_zero (by omega)
    obtain ⟨c, rfl⟩ := List.length_eq_one_iff.1 (by omega : x.length = 1)
    have onChain : [c] ∈ chain (Stem text ps) w := by
      rw [split]; exact List.mem_append_left _ inside
    obtain ⟨suffix', stem⟩ := (mem_chain _).1 onChain
    exact alone empty c suffix' stem

/-- With a non-empty text, a keyword is recorded exactly where it ends. -/
theorem mem_endings {p : β} {w : List α} (nonempty : text p ≠ []) :
    p ∈ endings text ps w ↔ p ∈ ps ∧ text p <:+ w := by
  rw [mem_endings_iff]
  exact ⟨fun h => ⟨h.1, h.2.1⟩, fun h => ⟨h.1, h.2, fun empty => absurd empty nonempty⟩⟩

theorem mem_of_leader {p : β} {w : List α} (leads : leader text ps w = some p) :
    p ∈ ps ∧ text p <:+ w := by
  have := (mem_endings_iff text ps).1 (List.mem_of_head? leads)
  exact ⟨this.1, this.2.1⟩

/-- Nothing is recorded at a word exactly when no keyword with a text ends there
and a keyword without one, if present, is shadowed by the last letter. -/
theorem leader_eq_none_iff {w : List α} :
    leader text ps w = none ↔
      (∀ p ∈ ps, text p ≠ [] → ¬ text p <:+ w) ∧
        (∀ p ∈ ps, text p = [] → ∃ c, [c] <:+ w ∧ Stem text ps [c]) := by
  rw [leader, List.head?_eq_none_iff, List.eq_nil_iff_forall_not_mem]
  constructor
  · intro none_
    refine ⟨fun p member nonempty suffix => ?_, fun p member empty => ?_⟩
    · exact none_ p ((mem_endings text ps nonempty).2 ⟨member, suffix⟩)
    · by_contra alone
      push Not at alone
      refine none_ p ((mem_endings_iff text ps).2 ⟨member, ?_, fun _ c suffix => alone c suffix⟩)
      rw [empty]
      exact List.nil_suffix
  · rintro ⟨full, empty⟩ p recorded
    obtain ⟨member, suffix, alone⟩ := (mem_endings_iff text ps).1 recorded
    by_cases blank : text p = []
    · obtain ⟨c, ends_, stem⟩ := empty p member blank
      exact alone blank c ends_ stem
    · exact full p member blank suffix

/-- Renaming the keywords: the record holds the renamed ones. -/
theorem endings_map {γ : Type v} (f : γ → β) (qs : List γ) (w : List α) :
    endings text (qs.map f) w = (endings (fun q => text (f q)) qs w).map f := by
  have sameOwn : ∀ v, own text (qs.map f) v = (own (fun q => text (f q)) qs v).map f := by
    intro v
    rw [own, own, List.filter_map]
    rfl
  have sameGathered : ∀ vs, gathered text (qs.map f) vs =
      (gathered (fun q => text (f q)) qs vs).map f := by
    intro vs
    induction vs with
    | nil => rfl
    | cons v vs ih =>
        rw [gathered, gathered, sameOwn, ih]
        split
        · rfl
        · rw [List.map_append, List.map_reverse]
  have sameChain : chain (Stem text (qs.map f)) w = chain (Stem (fun q => text (f q)) qs) w := by
    refine List.filter_congr fun v _ => decide_eq_decide.2 ?_
    simp [Stem]
  rw [endings, endings, sameChain, sameGathered]

theorem leader_map {γ : Type v} (f : γ → β) (qs : List γ) (w : List α) :
    leader text (qs.map f) w = (leader (fun q => text (f q)) qs w).map f := by
  rw [leader, leader, endings_map, List.head?_map]

end Keywords

end Orchid.Theory
