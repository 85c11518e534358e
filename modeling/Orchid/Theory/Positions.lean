/-
# Theory.Positions -- the automaton of a regular expression's positions

The leaves of a regular expression are its positions.  From the first and the last
positions of its parts one reads off which position may follow which (`Follows`), and
if no position is used twice, the words of the expression are exactly the chains of
followers from a first to a last position (`mem_words_iff`).

So the expression is matched by keeping the set of positions that may come next
(`reach`): after a word, a position is in it if the word leads up to that position
(`mem_reach_iff`).  With an end mark behind the expression this decides whether the
word matches.
-/
import Mathlib.Computability.Language
import Mathlib.Data.List.Nodup

namespace Orchid.Theory

open Computability

set_option autoImplicit false

universe u v

inductive Expr (ι : Type u) where
  | null
  | pos (i : ι)
  | seq (l r : Expr ι)
  | alt (l r : Expr ι)
  | star (e : Expr ι)

namespace Expr

variable {ι : Type u} {α : Type v}

/-- The expression as a language of positions. -/
def words : Expr ι → Language ι
  | null => 1
  | pos i => {[i]}
  | seq l r => l.words * r.words
  | alt l r => l.words + r.words
  | star e => e.words∗

def positions : Expr ι → List ι
  | null => []
  | pos i => [i]
  | seq l r => l.positions ++ r.positions
  | alt l r => l.positions ++ r.positions
  | star e => e.positions

def nullable : Expr ι → Bool
  | null => true
  | pos _ => false
  | seq l r => l.nullable && r.nullable
  | alt l r => l.nullable || r.nullable
  | star _ => true

def first : Expr ι → List ι
  | null => []
  | pos i => [i]
  | seq l r => l.first ++ if l.nullable then r.first else []
  | alt l r => l.first ++ r.first
  | star e => e.first

def last : Expr ι → List ι
  | null => []
  | pos i => [i]
  | seq l r => (if r.nullable then l.last else []) ++ r.last
  | alt l r => l.last ++ r.last
  | star e => e.last

/-- The second position may come right behind the first. -/
def Follows : Expr ι → ι → ι → Prop
  | null, _, _ => False
  | pos _, _, _ => False
  | seq l r, i, j => l.Follows i j ∨ r.Follows i j ∨ i ∈ l.last ∧ j ∈ r.first
  | alt l r, i, j => l.Follows i j ∨ r.Follows i j
  | star e, i, j => e.Follows i j ∨ i ∈ e.last ∧ j ∈ e.first

theorem first_subset (e : Expr ι) : ∀ i ∈ e.first, i ∈ e.positions := by
  induction e with
  | null => simp [first]
  | pos j => simp [first, positions]
  | seq l r ihl ihr =>
      intro i member
      rw [first, List.mem_append] at member
      rw [positions, List.mem_append]
      rcases member with inside | inside
      · exact Or.inl (ihl i inside)
      · split at inside
        · exact Or.inr (ihr i inside)
        · cases inside
  | alt l r ihl ihr =>
      intro i member
      rw [first, List.mem_append] at member
      rw [positions, List.mem_append]
      exact member.imp (ihl i) (ihr i)
  | star e ih => exact ih

theorem last_subset (e : Expr ι) : ∀ i ∈ e.last, i ∈ e.positions := by
  induction e with
  | null => simp [last]
  | pos j => simp [last, positions]
  | seq l r ihl ihr =>
      intro i member
      rw [last, List.mem_append] at member
      rw [positions, List.mem_append]
      rcases member with inside | inside
      · split at inside
        · exact Or.inl (ihl i inside)
        · cases inside
      · exact Or.inr (ihr i inside)
  | alt l r ihl ihr =>
      intro i member
      rw [last, List.mem_append] at member
      rw [positions, List.mem_append]
      exact member.imp (ihl i) (ihr i)
  | star e ih => exact ih

theorem Follows.subset {e : Expr ι} {i j : ι} (follows : e.Follows i j) : i ∈ e.positions ∧ j ∈ e.positions := by
  induction e with
  | null => cases follows
  | pos k => cases follows
  | seq l r ihl ihr =>
      simp only [positions, List.mem_append]
      rcases follows with inside | inside | ⟨before, behind⟩
      · exact (ihl inside).imp Or.inl Or.inl
      · exact (ihr inside).imp Or.inr Or.inr
      · exact ⟨Or.inl (last_subset l i before), Or.inr (first_subset r j behind)⟩
  | alt l r ihl ihr =>
      simp only [positions, List.mem_append]
      rcases follows with inside | inside
      · exact (ihl inside).imp Or.inl Or.inl
      · exact (ihr inside).imp Or.inr Or.inr
  | star e ih =>
      rcases follows with inside | ⟨before, behind⟩
      · exact ih inside
      · exact ⟨last_subset e i before, first_subset e j behind⟩

/-! ## Chains of followers -/

/-- `i` and the positions behind it are a chain that ends in a last position. -/
def Chain (e : Expr ι) : ι → List ι → Prop
  | i, [] => i ∈ e.last
  | i, j :: w => e.Follows i j ∧ e.Chain j w

/-- A word that is a chain from a first position on. -/
def Path (e : Expr ι) : List ι → Prop
  | [] => False
  | i :: w => i ∈ e.first ∧ e.Chain i w

theorem Chain.subset {e : Expr ι} {w : List ι} : ∀ {i : ι}, e.Chain i w → i ∈ e.positions := by
  cases w with
  | nil => exact fun ends => last_subset e _ ends
  | cons j w => exact fun ⟨follows, _⟩ => follows.subset.1

section Seq

variable {l r : Expr ι} (apart : ∀ i ∈ l.positions, i ∉ r.positions)

include apart

/-- In the right part a chain stays there. -/
theorem chain_seq_right {w : List ι} : ∀ {i : ι}, i ∈ r.positions → ((seq l r).Chain i w ↔ r.Chain i w) := by
  induction w with
  | nil =>
      intro i inside
      have notLeft : i ∉ l.last := fun ends => apart i (last_subset l i ends) inside
      simp only [Chain, last, List.mem_append]
      split <;> simp [notLeft]
  | cons j w ih =>
      intro i inside
      have only : (seq l r).Follows i j ↔ r.Follows i j := by
        constructor
        · rintro (left | right | ⟨before, -⟩)
          · exact absurd inside (apart i left.subset.1)
          · exact right
          · exact absurd inside (apart i (last_subset l i before))
        · exact fun follows => Or.inr (Or.inl follows)
      rw [Chain, Chain, only]
      exact and_congr_right fun follows => ih follows.subset.2

/-- From the left part a chain goes over to the right part once, or may end there. -/
theorem chain_seq_left {w : List ι} : ∀ {i : ι}, i ∈ l.positions → ((seq l r).Chain i w ↔
    (∃ u v, w = u ++ v ∧ l.Chain i u ∧ r.Path v) ∨ r.nullable = true ∧ l.Chain i w) := by
  induction w with
  | nil =>
      intro i inside
      have notRight : i ∉ r.last := fun ends => apart i inside (last_subset r i ends)
      have never : ¬ ∃ u v, [] = u ++ v ∧ l.Chain i u ∧ r.Path v := by
        rintro ⟨u, v, nil, -, path⟩
        obtain ⟨rfl, rfl⟩ := List.append_eq_nil_iff.1 nil.symm
        exact path
      simp only [Chain, last, List.mem_append, never, notRight, false_or, or_false]
      split <;> simp [*]
  | cons j w ih =>
      intro i inside
      constructor
      · rintro ⟨follows, rest⟩
        rcases follows with left | right | ⟨before, behind⟩
        · rcases (ih left.subset.2).1 rest with ⟨u, v, rfl, chain, path⟩ | ⟨empty, chain⟩
          · exact Or.inl ⟨j :: u, v, rfl, ⟨left, chain⟩, path⟩
          · exact Or.inr ⟨empty, left, chain⟩
        · exact absurd right.subset.1 (apart i inside)
        · exact Or.inl ⟨[], j :: w, rfl, before, behind,
            (chain_seq_right apart (first_subset r j behind)).1 rest⟩
      · rintro (⟨u, v, whole, chain, path⟩ | ⟨empty, left, chain⟩)
        · cases u with
          | nil =>
              obtain rfl : j :: w = v := whole
              obtain ⟨behind, rest⟩ := path
              exact ⟨Or.inr (Or.inr ⟨chain, behind⟩), (chain_seq_right apart (first_subset r j behind)).2 rest⟩
          | cons k u =>
              obtain ⟨rfl, rfl⟩ := List.cons.inj whole
              obtain ⟨left, chain⟩ := chain
              exact ⟨Or.inl left, (ih left.subset.2).2 (Or.inl ⟨u, v, rfl, chain, path⟩)⟩
        · exact ⟨Or.inl left, (ih left.subset.2).2 (Or.inr ⟨empty, chain⟩)⟩

theorem path_seq {w : List ι} : (seq l r).Path w ↔ (∃ u v, w = u ++ v ∧ l.Path u ∧ r.Path v) ∨
    r.nullable = true ∧ l.Path w ∨ l.nullable = true ∧ r.Path w := by
  cases w with
  | nil =>
      have never : ¬ ∃ u v, [] = u ++ v ∧ l.Path u ∧ r.Path v := by
        rintro ⟨u, v, nil, path, -⟩
        obtain ⟨rfl, rfl⟩ := List.append_eq_nil_iff.1 nil.symm
        exact path
      rw [or_iff_right never]
      simp [Path]
  | cons i w =>
      have starts : i ∈ (seq l r).first ↔ i ∈ l.first ∨ l.nullable = true ∧ i ∈ r.first := by
        simp only [first, List.mem_append]
        split <;> simp [*]
      constructor
      · rintro ⟨start, chain⟩
        rcases starts.1 start with left | ⟨empty, right⟩
        · rcases (chain_seq_left apart (first_subset l i left)).1 chain with ⟨u, v, rfl, chain, path⟩ | ⟨empty, chain⟩
          · exact Or.inl ⟨i :: u, v, rfl, ⟨left, chain⟩, path⟩
          · exact Or.inr (Or.inl ⟨empty, left, chain⟩)
        · exact Or.inr (Or.inr ⟨empty, right, (chain_seq_right apart (first_subset r i right)).1 chain⟩)
      · rintro (⟨u, v, whole, path, path'⟩ | ⟨empty, left, chain⟩ | ⟨empty, right, chain⟩)
        · cases u with
          | nil => cases path
          | cons k u =>
              obtain ⟨rfl, rfl⟩ := List.cons.inj whole
              obtain ⟨left, chain⟩ := path
              exact ⟨starts.2 (Or.inl left),
                (chain_seq_left apart (first_subset l i left)).2 (Or.inl ⟨u, v, rfl, chain, path'⟩)⟩
        · exact ⟨starts.2 (Or.inl left), (chain_seq_left apart (first_subset l i left)).2 (Or.inr ⟨empty, chain⟩)⟩
        · exact ⟨starts.2 (Or.inr ⟨empty, right⟩), (chain_seq_right apart (first_subset r i right)).2 chain⟩

/-- A chain of an alternative stays in its part. -/
theorem chain_alt_left {w : List ι} : ∀ {i : ι}, i ∈ l.positions → ((alt l r).Chain i w ↔ l.Chain i w) := by
  induction w with
  | nil =>
      intro i inside
      have notRight : i ∉ r.last := fun ends => apart i inside (last_subset r i ends)
      simp [Chain, last, notRight]
  | cons j w ih =>
      intro i inside
      have only : (alt l r).Follows i j ↔ l.Follows i j :=
        or_iff_left fun right => apart i inside right.subset.1
      rw [Chain, Chain, only]
      exact and_congr_right fun follows => ih follows.subset.2

theorem chain_alt_right {w : List ι} : ∀ {i : ι}, i ∈ r.positions → ((alt l r).Chain i w ↔ r.Chain i w) := by
  induction w with
  | nil =>
      intro i inside
      have notLeft : i ∉ l.last := fun ends => apart i (last_subset l i ends) inside
      simp [Chain, last, notLeft]
  | cons j w ih =>
      intro i inside
      have only : (alt l r).Follows i j ↔ r.Follows i j :=
        or_iff_right fun left => apart i left.subset.1 inside
      rw [Chain, Chain, only]
      exact and_congr_right fun follows => ih follows.subset.2

theorem path_alt {w : List ι} : (alt l r).Path w ↔ l.Path w ∨ r.Path w := by
  cases w with
  | nil => simp [Path]
  | cons i w =>
      simp only [Path, first, List.mem_append, or_and_right]
      apply or_congr
      · exact and_congr_right fun left => chain_alt_left apart (first_subset l i left)
      · exact and_congr_right fun right => chain_alt_right apart (first_subset r i right)

end Seq

/-! ## Words are chains -/

section Star

variable {e : Expr ι}

/-- From a last position of the repeated part a chain may start over. -/
theorem chain_star {w : List ι} : ∀ {i : ι}, (star e).Chain i w ↔
    ∃ u v, w = u ++ v ∧ e.Chain i u ∧ (v = [] ∨ (star e).Path v) := by
  intro i
  constructor
  · induction w generalizing i with
    | nil => exact fun ends => ⟨[], [], rfl, ends, Or.inl rfl⟩
    | cons j w ih =>
        rintro ⟨inside | ⟨before, behind⟩, rest⟩
        · obtain ⟨u, v, rfl, chain, again⟩ := ih rest
          exact ⟨j :: u, v, rfl, ⟨inside, chain⟩, again⟩
        · exact ⟨[], j :: w, rfl, before, Or.inr ⟨behind, rest⟩⟩
  · rintro ⟨u, v, rfl, chain, again⟩
    induction u generalizing i with
    | nil =>
        rcases again with rfl | again
        · exact chain
        · cases v with
          | nil => cases again
          | cons j v => exact ⟨Or.inr ⟨chain, again.1⟩, again.2⟩
    | cons j u ih => exact ⟨Or.inl chain.1, ih chain.2⟩

theorem path_star {w : List ι} : (star e).Path w ↔ ∃ u v, w = u ++ v ∧ e.Path u ∧ (v = [] ∨ (star e).Path v) := by
  constructor
  · intro path
    cases w with
    | nil => cases path
    | cons i w =>
        obtain ⟨u, v, rfl, chain, again⟩ := chain_star.1 path.2
        exact ⟨i :: u, v, rfl, ⟨path.1, chain⟩, again⟩
  · rintro ⟨u, v, rfl, path, again⟩
    cases u with
    | nil => cases path
    | cons i u => exact ⟨path.1, chain_star.2 ⟨u, v, rfl, path.2, again⟩⟩

variable (paths : ∀ w, w ∈ e.words ↔ w = [] ∧ e.nullable = true ∨ e.Path w)

include paths

theorem path_of_kstar {ws : List (List ι)} (each : ∀ w ∈ ws, w ∈ e.words ∧ w ≠ []) :
    ws.flatten = [] ∨ (star e).Path ws.flatten := by
  induction ws with
  | nil => exact Or.inl rfl
  | cons w ws ih =>
      obtain ⟨word, nonempty⟩ := each w List.mem_cons_self
      have path : e.Path w := ((paths w).1 word).resolve_left fun nil => nonempty nil.1
      exact Or.inr (path_star.2 ⟨w, ws.flatten, rfl, path, ih fun w' member => each w' (List.mem_cons_of_mem _ member)⟩)

theorem kstar_of_path : ∀ (n : Nat) {w : List ι}, w.length ≤ n → (star e).Path w → w ∈ e.words∗
  | 0, w, short, path => by
      obtain rfl := List.length_eq_zero_iff.1 (Nat.le_zero.1 short)
      cases path
  | n + 1, w, short, path => by
      obtain ⟨u, v, rfl, first, again⟩ := path_star.1 path
      have shorter : v.length ≤ n := by
        cases u with
        | nil => cases first
        | cons i u =>
            simp only [List.length_append, List.length_cons] at short
            omega
      have rest : v ∈ e.words∗ := by
        rcases again with rfl | again
        · exact Language.nil_mem_kstar _
        · exact kstar_of_path n shorter again
      rw [← Language.one_add_self_mul_kstar_eq_kstar]
      exact Or.inr (Language.mem_mul.2 ⟨u, (paths u).2 (Or.inr first), v, rest, rfl⟩)

end Star

/-- If no position is used twice, the words are the empty one, where it is allowed,
and the chains from a first to a last position. -/
theorem mem_words_iff : ∀ (e : Expr ι), e.positions.Nodup →
    ∀ w, w ∈ e.words ↔ w = [] ∧ e.nullable = true ∨ e.Path w := by
  intro e
  induction e with
  | null =>
      intro _ w
      cases w <;> simp [words, nullable, Path, first, Language.mem_one]
  | pos i =>
      intro _ w
      show w = [i] ↔ _
      rcases w with _ | ⟨j, _ | ⟨k, w⟩⟩ <;> simp [nullable, Path, Chain, first, last, Follows]
  | seq l r ihl ihr =>
      intro once w
      obtain ⟨onceL, onceR, apart⟩ := List.nodup_append'.1 once
      have apart : ∀ i ∈ l.positions, i ∉ r.positions := fun i left right => apart left right
      rw [words, Language.mem_mul, path_seq apart, nullable, Bool.and_eq_true]
      simp only [ihl onceL, ihr onceR]
      constructor
      · rintro ⟨u, (⟨rfl, empty⟩ | path), v, (⟨rfl, empty'⟩ | path'), rfl⟩
        · exact Or.inl ⟨rfl, empty, empty'⟩
        · exact Or.inr (Or.inr (Or.inr ⟨empty, path'⟩))
        · exact Or.inr (Or.inr (Or.inl ⟨empty', by rwa [List.append_nil]⟩))
        · exact Or.inr (Or.inl ⟨u, v, rfl, path, path'⟩)
      · rintro (⟨rfl, empty, empty'⟩ | ⟨u, v, rfl, path, path'⟩ | ⟨empty', path⟩ | ⟨empty, path'⟩)
        · exact ⟨[], Or.inl ⟨rfl, empty⟩, [], Or.inl ⟨rfl, empty'⟩, rfl⟩
        · exact ⟨u, Or.inr path, v, Or.inr path', rfl⟩
        · exact ⟨w, Or.inr path, [], Or.inl ⟨rfl, empty'⟩, List.append_nil w⟩
        · exact ⟨[], Or.inl ⟨rfl, empty⟩, w, Or.inr path', rfl⟩
  | alt l r ihl ihr =>
      intro once w
      obtain ⟨onceL, onceR, apart⟩ := List.nodup_append'.1 once
      have apart : ∀ i ∈ l.positions, i ∉ r.positions := fun i left right => apart left right
      rw [words, Language.mem_add, ihl onceL, ihr onceR, path_alt apart, nullable, Bool.or_eq_true]
      tauto
  | star e ih =>
      intro once w
      have paths := ih once
      simp only [words, nullable, and_true]
      constructor
      · intro word
        obtain ⟨ws, rfl, each⟩ := Language.mem_kstar_iff_exists_nonempty.1 word
        exact path_of_kstar paths each
      · rintro (rfl | path)
        · exact Language.nil_mem_kstar _
        · exact kstar_of_path paths _ le_rfl path

/-! ## Reaching a position -/

section Reach

variable (readBy : α → ι → Prop)

/-- What the expression matches when a position stands for the letters it reads. -/
def lang (e : Expr ι) : Language α :=
  {w | ∃ ps ∈ e.words, List.Forall₂ readBy w ps}

theorem mem_lang_null {w : List α} : w ∈ (null : Expr ι).lang readBy ↔ w = [] := by
  constructor
  · rintro ⟨ps, rfl, spells⟩
    exact List.forall₂_nil_right_iff.1 spells
  · rintro rfl
    exact ⟨[], rfl, List.Forall₂.nil⟩

theorem mem_lang_pos {i : ι} {w : List α} : w ∈ (pos i).lang readBy ↔ ∃ c, w = [c] ∧ readBy c i := by
  constructor
  · rintro ⟨ps, rfl, spells⟩
    obtain ⟨c, rest, reads, done, rfl⟩ := List.forall₂_cons_right_iff.1 spells
    obtain rfl := List.forall₂_nil_right_iff.1 done
    exact ⟨c, rfl, reads⟩
  · rintro ⟨c, rfl, reads⟩
    exact ⟨[i], rfl, List.Forall₂.cons reads List.Forall₂.nil⟩

theorem lang_seq (l r : Expr ι) : (seq l r).lang readBy = l.lang readBy * r.lang readBy := by
  ext w
  rw [Language.mem_mul]
  constructor
  · rintro ⟨ps, word, spells⟩
    obtain ⟨qs, left, rs, right, rfl⟩ := Language.mem_mul.1 word
    exact ⟨_, ⟨qs, left, List.forall₂_take_append w qs rs spells⟩,
      _, ⟨rs, right, List.forall₂_drop_append w qs rs spells⟩, List.take_append_drop ..⟩
  · rintro ⟨u, ⟨qs, left, spells⟩, v, ⟨rs, right, spells'⟩, rfl⟩
    exact ⟨qs ++ rs, Language.mem_mul.2 ⟨qs, left, rs, right, rfl⟩, List.rel_append spells spells'⟩

theorem lang_alt (l r : Expr ι) : (alt l r).lang readBy = l.lang readBy + r.lang readBy := by
  ext w
  rw [Language.mem_add]
  constructor
  · rintro ⟨ps, left | right, spells⟩
    · exact Or.inl ⟨ps, left, spells⟩
    · exact Or.inr ⟨ps, right, spells⟩
  · rintro (⟨ps, left, spells⟩ | ⟨ps, right, spells⟩)
    · exact ⟨ps, Or.inl left, spells⟩
    · exact ⟨ps, Or.inr right, spells⟩

theorem lang_star (e : Expr ι) : (star e).lang readBy = (e.lang readBy)∗ := by
  ext w
  rw [Language.mem_kstar]
  constructor
  · rintro ⟨ps, word, spells⟩
    obtain ⟨pss, rfl, each⟩ := Language.mem_kstar.1 word
    clear word
    induction pss generalizing w with
    | nil => exact ⟨[], List.forall₂_nil_right_iff.1 spells, by simp⟩
    | cons qs pss ih =>
        rw [List.flatten_cons] at spells
        obtain ⟨ws, whole, each'⟩ := ih _ (fun y member => each y (List.mem_cons_of_mem _ member))
          (List.forall₂_drop_append w qs _ spells)
        refine ⟨w.take qs.length :: ws, ?_, ?_⟩
        · rw [List.flatten_cons, ← whole, List.take_append_drop]
        · rintro y (_ | ⟨_, member⟩)
          · exact ⟨qs, each qs List.mem_cons_self, List.forall₂_take_append w qs _ spells⟩
          · exact each' y member
  · rintro ⟨ws, rfl, each⟩
    induction ws with
    | nil => exact ⟨[], Language.nil_mem_kstar _, List.Forall₂.nil⟩
    | cons u ws ih =>
        obtain ⟨qs, word, spells⟩ := each u List.mem_cons_self
        obtain ⟨ps, rest, spells'⟩ := ih fun y member => each y (List.mem_cons_of_mem _ member)
        refine ⟨qs ++ ps, ?_, List.rel_append spells spells'⟩
        rw [words, ← Language.one_add_self_mul_kstar_eq_kstar]
        exact Or.inr (Language.mem_mul.2 ⟨qs, word, ps, rest, rfl⟩)

theorem lang_null : (null : Expr ι).lang readBy = 1 := by
  ext w
  rw [mem_lang_null, Language.mem_one]

/-- `e` with `n` times `r` behind it. -/
def times (e r : Expr ι) : Nat → Expr ι
  | 0 => e
  | n + 1 => seq (times e r n) r

theorem times_seq (e r : Expr ι) (n : Nat) : times (seq e r) r n = times e r (n + 1) := by
  induction n with
  | zero => rfl
  | succ n ih =>
      rw [times, ih]
      rfl

theorem lang_times (e r : Expr ι) (n : Nat) : (times e r n).lang readBy = e.lang readBy * r.lang readBy ^ n := by
  induction n with
  | zero => rw [times, pow_zero, mul_one]
  | succ n ih => rw [times, lang_seq, ih, pow_succ, mul_assoc]

theorem positions_times (e r : Expr ι) (n : Nat) : ∀ i ∈ (times e r n).positions, i ∈ e.positions ∨ i ∈ r.positions := by
  induction n with
  | zero => exact fun i inside => Or.inl inside
  | succ n ih =>
      intro i inside
      rcases List.mem_append.1 inside with inside | inside
      · exact ih i inside
      · exact Or.inr inside

/-- Up to `n` times. -/
theorem mem_add_one_pow {L : Language α} {n : Nat} : ∀ {w : List α}, w ∈ (L + 1) ^ n ↔ ∃ i ≤ n, w ∈ L ^ i := by
  induction n with
  | zero => simp
  | succ n ih =>
      intro w
      rw [pow_succ', add_mul, one_mul, Language.mem_add, ih]
      constructor
      · rintro (once | ⟨i, few, here⟩)
        · obtain ⟨a, inside, b, rest, rfl⟩ := Language.mem_mul.1 once
          obtain ⟨i, few, here⟩ := ih.1 rest
          exact ⟨i + 1, Nat.succ_le_succ few, by rw [pow_succ']; exact Language.append_mem_mul inside here⟩
        · exact ⟨i, Nat.le_succ_of_le few, here⟩
      · rintro ⟨i, few, here⟩
        cases i with
        | zero => exact Or.inr ⟨0, Nat.zero_le _, here⟩
        | succ i =>
            rw [pow_succ'] at here
            obtain ⟨a, inside, b, rest, rfl⟩ := Language.mem_mul.1 here
            exact Or.inl (Language.append_mem_mul inside (ih.2 ⟨i, Nat.le_of_succ_le_succ few, rest⟩))

/-- From `m` to `m + n` times. -/
theorem mem_pow_mul_add_one_pow {L : Language α} {m n : Nat} {w : List α} :
    w ∈ L ^ m * (L + 1) ^ n ↔ ∃ i, m ≤ i ∧ i ≤ m + n ∧ w ∈ L ^ i := by
  constructor
  · intro here
    obtain ⟨a, inside, b, rest, rfl⟩ := Language.mem_mul.1 here
    obtain ⟨i, few, there⟩ := mem_add_one_pow.1 rest
    exact ⟨m + i, Nat.le_add_right .., Nat.add_le_add_left few _, by
      rw [pow_add]
      exact Language.append_mem_mul inside there⟩
  · rintro ⟨i, enough, few, here⟩
    obtain ⟨k, rfl⟩ := Nat.exists_eq_add_of_le enough
    rw [pow_add] at here
    obtain ⟨a, inside, b, rest, rfl⟩ := Language.mem_mul.1 here
    exact Language.append_mem_mul inside (mem_add_one_pow.2 ⟨k, Nat.le_of_add_le_add_left few, rest⟩)

/-- At least `m` times. -/
theorem mem_pow_mul_kstar {L : Language α} {m : Nat} {w : List α} : w ∈ L ^ m * L∗ ↔ ∃ i, m ≤ i ∧ w ∈ L ^ i := by
  rw [Language.mem_mul]
  simp only [Language.kstar_eq_iSup_pow, Language.mem_iSup]
  constructor
  · rintro ⟨a, inside, b, ⟨k, rest⟩, rfl⟩
    exact ⟨m + k, Nat.le_add_right .., by rw [pow_add]; exact Language.append_mem_mul inside rest⟩
  · rintro ⟨i, enough, here⟩
    obtain ⟨k, rfl⟩ := Nat.exists_eq_add_of_le enough
    rw [pow_add] at here
    obtain ⟨a, inside, b, rest, rfl⟩ := Language.mem_mul.1 here
    exact ⟨a, inside, b, ⟨k, rest⟩, rfl⟩

/-- The expression with its positions renamed. -/
def map {κ : Type u} (f : ι → κ) : Expr ι → Expr κ
  | null => null
  | pos i => pos (f i)
  | seq l r => seq (l.map f) (r.map f)
  | alt l r => alt (l.map f) (r.map f)
  | star e => star (e.map f)

theorem positions_map {κ : Type u} (f : ι → κ) (e : Expr ι) : (e.map f).positions = e.positions.map f := by
  induction e with
  | null => rfl
  | pos i => rfl
  | seq l r ihl ihr => rw [map, positions, positions, ihl, ihr, List.map_append]
  | alt l r ihl ihr => rw [map, positions, positions, ihl, ihr, List.map_append]
  | star e ih => exact ih

/-- Positions that are given one name must read the same letters. -/
theorem lang_map {κ : Type u} (f : ι → κ) (readBy : α → κ → Prop) (e : Expr ι) :
    (e.map f).lang readBy = e.lang fun c i => readBy c (f i) := by
  induction e with
  | null =>
      ext w
      rw [map, mem_lang_null, mem_lang_null]
  | pos i =>
      ext w
      rw [map, mem_lang_pos, mem_lang_pos]
  | seq l r ihl ihr => rw [map, lang_seq, lang_seq, ihl, ihr]
  | alt l r ihl ihr => rw [map, lang_alt, lang_alt, ihl, ihr]
  | star e ih => rw [map, lang_star, lang_star, ih]

theorem map_congr {κ : Type u} {f g : ι → κ} {e : Expr ι} (same : ∀ i ∈ e.positions, f i = g i) :
    e.map f = e.map g := by
  induction e with
  | null => rfl
  | pos i => rw [map, map, same i (List.mem_singleton.2 rfl)]
  | seq l r ihl ihr =>
      rw [map, map, ihl fun i inside => same i (List.mem_append_left _ inside),
        ihr fun i inside => same i (List.mem_append_right _ inside)]
  | alt l r ihl ihr =>
      rw [map, map, ihl fun i inside => same i (List.mem_append_left _ inside),
        ihr fun i inside => same i (List.mem_append_right _ inside)]
  | star e ih => rw [map, map, ih same]

/-- The word leads to the position: it may come next. -/
inductive Reach (e : Expr ι) : List α → ι → Prop where
  | start {i : ι} : i ∈ e.first → Reach e [] i
  | step {w : List α} {i j : ι} {c : α} : Reach e w i → readBy c i → e.Follows i j → Reach e (w ++ [c]) j

variable {readBy}

theorem Reach.subset {e : Expr ι} {w : List α} {i : ι} (reach : e.Reach readBy w i) : i ∈ e.positions := by
  cases reach with
  | start starts => exact first_subset e i starts
  | step _ _ follows => exact follows.subset.2

theorem reach_nil {e : Expr ι} {i : ι} : e.Reach readBy [] i ↔ i ∈ e.first := by
  constructor
  · generalize nil : ([] : List α) = w
    rintro (starts | _)
    · exact starts
    · simp at nil
  · exact Reach.start

theorem reach_snoc {e : Expr ι} {w : List α} {c : α} {j : ι} :
    e.Reach readBy (w ++ [c]) j ↔ ∃ i, e.Reach readBy w i ∧ readBy c i ∧ e.Follows i j := by
  constructor
  · generalize whole : w ++ [c] = v
    rintro (_ | @⟨u, i, _, d, reach, reads, follows⟩)
    · simp at whole
    · obtain ⟨rfl, rfl⟩ := List.append_inj' whole rfl |>.imp_right List.singleton_inj.1
      exact ⟨i, reach, reads, follows⟩
  · rintro ⟨i, reach, reads, follows⟩
    exact Reach.step reach reads follows

/-- Letters that are read by the same positions lead to the same ones. -/
theorem Reach.map {β : Type*} {fold : α → β} {e : Expr ι}
    (same : ∀ c d, fold c = fold d → ∀ i ∈ e.positions, readBy c i → readBy d i) {w : List α} {j : ι}
    (reach : e.Reach readBy w j) : ∀ v : List α, v.map fold = w.map fold → e.Reach readBy v j := by
  induction reach with
  | start starts =>
      intro v equal
      rw [List.map_eq_nil_iff.1 equal]
      exact Reach.start starts
  | @step w i j c before reads follows ih =>
      intro v equal
      rw [List.map_append] at equal
      obtain ⟨v, last, rfl, front, single⟩ := List.map_eq_append_iff.1 equal
      obtain ⟨d, rfl⟩ : ∃ d, last = [d] := List.length_eq_one_iff.1 (by simpa using congrArg List.length single)
      have folded : fold c = fold d := by simpa using single.symm
      exact Reach.step (ih v front) (same c d folded i before.subset reads) follows

/-- A position that is reached lies on a path, wherever the path goes on from there. -/
theorem path_of_reach {e : Expr ι} {w : List α} {i : ι} (reach : e.Reach readBy w i) :
    ∀ rest, e.Chain i rest → ∃ ps, List.Forall₂ readBy w ps ∧ e.Path (ps ++ i :: rest) := by
  induction reach with
  | start starts => exact fun rest chain => ⟨[], List.Forall₂.nil, starts, chain⟩
  | @step w i j c _ reads follows ih =>
      intro rest chain
      obtain ⟨ps, spells, path⟩ := ih (j :: rest) ⟨follows, chain⟩
      refine ⟨ps ++ [i], List.rel_append spells (List.Forall₂.cons reads List.Forall₂.nil), ?_⟩
      rwa [List.append_assoc]

theorem reach_of_chain {e : Expr ι} {z : ι} {ps : List ι} : ∀ {u v : List α} {i : ι}, e.Reach readBy u i →
    e.Chain i (ps ++ [z]) → List.Forall₂ readBy v (i :: ps) → e.Reach readBy (u ++ v) z := by
  induction ps with
  | nil =>
      intro u v i reach chain spells
      obtain ⟨c, rest, reads, done, rfl⟩ := List.forall₂_cons_right_iff.1 spells
      obtain rfl := List.forall₂_nil_right_iff.1 done
      exact Reach.step reach reads chain.1
  | cons j ps ih =>
      intro u v i reach chain spells
      obtain ⟨c, rest, reads, spells', rfl⟩ := List.forall₂_cons_right_iff.1 spells
      have onward := ih (Reach.step reach reads chain.1) chain.2 spells'
      rwa [List.append_assoc] at onward

/-- A last position is reached by what the words that end with it spell. -/
theorem reach_iff {e : Expr ι} (once : e.positions.Nodup) {z : ι} (ends : z ∈ e.last) {w : List α} :
    e.Reach readBy w z ↔ ∃ ps, List.Forall₂ readBy w ps ∧ ps ++ [z] ∈ e.words := by
  constructor
  · intro reach
    obtain ⟨ps, spells, path⟩ := path_of_reach reach [] ends
    exact ⟨ps, spells, (mem_words_iff e once _).2 (Or.inr path)⟩
  · rintro ⟨ps, spells, word⟩
    have path : e.Path (ps ++ [z]) := ((mem_words_iff e once _).1 word).resolve_left fun nil => by simp at nil
    cases ps with
    | nil =>
        obtain rfl := List.forall₂_nil_right_iff.1 spells
        exact Reach.start path.1
    | cons i ps => exact reach_of_chain (Reach.start path.1) path.2 spells

end Reach

/-! ## No position is a dead end -/

theorem Chain.mono {e e' : Expr ι} (follows : ∀ i j, e.Follows i j → e'.Follows i j)
    (ends : ∀ i ∈ e.last, i ∈ e'.last) {w : List ι} : ∀ {i : ι}, e.Chain i w → e'.Chain i w := by
  induction w with
  | nil => exact fun chain => ends _ chain
  | cons j w ih => exact fun chain => ⟨follows _ j chain.1, ih chain.2⟩

theorem Chain.seq_right {l r : Expr ι} {w : List ι} {i : ι} (chain : r.Chain i w) : (seq l r).Chain i w := by
  apply chain.mono
  · exact fun i j inside => Or.inr (Or.inl inside)
  · exact fun i ends => List.mem_append_right _ ends

theorem Chain.seq_left {l r : Expr ι} (empty : r.nullable = true) {w : List ι} {i : ι} (chain : l.Chain i w) :
    (seq l r).Chain i w := by
  apply chain.mono
  · exact fun i j inside => Or.inl inside
  · exact fun i ends => by simp [last, empty, ends]

theorem Chain.alt_left {l r : Expr ι} {w : List ι} {i : ι} (chain : l.Chain i w) : (alt l r).Chain i w := by
  apply chain.mono
  · exact fun i j inside => Or.inl inside
  · exact fun i ends => List.mem_append_left _ ends

theorem Chain.alt_right {l r : Expr ι} {w : List ι} {i : ι} (chain : r.Chain i w) : (alt l r).Chain i w := by
  apply chain.mono
  · exact fun i j inside => Or.inr inside
  · exact fun i ends => List.mem_append_right _ ends

theorem Chain.star {e : Expr ι} {w : List ι} {i : ι} (chain : e.Chain i w) : (star e).Chain i w := by
  apply chain.mono
  · exact fun i j inside => Or.inl inside
  · exact fun i ends => ends

theorem Chain.seq_append {l r : Expr ι} {u v : List ι} (path : r.Path v) :
    ∀ {i : ι}, l.Chain i u → (seq l r).Chain i (u ++ v) := by
  induction u with
  | nil =>
      intro i chain
      cases v with
      | nil => cases path
      | cons j v => exact ⟨Or.inr (Or.inr ⟨chain, path.1⟩), path.2.seq_right⟩
  | cons j u ih => exact fun chain => ⟨Or.inl chain.1, ih chain.2⟩

theorem nullable_or_path (e : Expr ι) : e.nullable = true ∨ ∃ w, e.Path w := by
  induction e with
  | null => exact Or.inl rfl
  | pos i => exact Or.inr ⟨[i], by simp [Path, Chain, first, last]⟩
  | seq l r ihl ihr =>
      rcases ihl with empty | ⟨u, path⟩
      · rcases ihr with empty' | ⟨_ | ⟨i, v⟩, path'⟩
        · exact Or.inl (by simp [nullable, empty, empty'])
        · cases path'
        · exact Or.inr ⟨i :: v, by simp [first, empty, path'.1], path'.2.seq_right⟩
      · cases u with
        | nil => cases path
        | cons i u =>
            have starts : i ∈ (seq l r).first := List.mem_append_left _ path.1
            rcases ihr with empty' | ⟨v, path'⟩
            · exact Or.inr ⟨i :: u, starts, path.2.seq_left empty'⟩
            · exact Or.inr ⟨i :: (u ++ v), starts, path.2.seq_append path'⟩
  | alt l r ihl ihr =>
      rcases ihl with empty | ⟨_ | ⟨i, u⟩, path⟩
      · exact Or.inl (by simp [nullable, empty])
      · cases path
      · exact Or.inr ⟨i :: u, List.mem_append_left _ path.1, path.2.alt_left⟩
  | star e _ => exact Or.inl rfl

/-- From every position a chain leads to the end. -/
theorem exists_chain (e : Expr ι) : ∀ i ∈ e.positions, ∃ w, e.Chain i w := by
  induction e with
  | null => simp [positions]
  | pos j =>
      intro i inside
      exact ⟨[], by simpa [Chain, last, positions] using inside⟩
  | seq l r ihl ihr =>
      intro i inside
      rcases List.mem_append.1 inside with left | right
      · obtain ⟨u, chain⟩ := ihl i left
        rcases nullable_or_path r with empty | ⟨v, path⟩
        · exact ⟨u, chain.seq_left empty⟩
        · exact ⟨u ++ v, chain.seq_append path⟩
      · obtain ⟨v, chain⟩ := ihr i right
        exact ⟨v, chain.seq_right⟩
  | alt l r ihl ihr =>
      intro i inside
      rcases List.mem_append.1 inside with left | right
      · obtain ⟨u, chain⟩ := ihl i left
        exact ⟨u, chain.alt_left⟩
      · obtain ⟨v, chain⟩ := ihr i right
        exact ⟨v, chain.alt_right⟩
  | star e ih =>
      intro i inside
      obtain ⟨w, chain⟩ := ih i inside
      exact ⟨w, chain.star⟩

end Expr

end Orchid.Theory
