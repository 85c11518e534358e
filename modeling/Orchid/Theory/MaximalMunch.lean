/-
# Theory.MaximalMunch -- scanning by the longest match

A scanner tries all its rules at the front of the text.  The rule with the longest
match wins, the earlier one if two matches are equally long (`longest?`).  What a rule
does with its match says how many letters are used up.

`scanAll` repeats this until the text is used up.  If every round uses up at least one
letter, one equation describes it (`scanAll_cons`).

What a text is read as may depend on the letter behind it.  `Reads` says which tokens it
is read as in front of every text that begins with a letter from some set, and that it
begins with such a letter itself, so texts can be put one behind the other.
-/
import Mathlib.Data.List.Basic
import Mathlib.Data.List.Forall2

namespace Orchid.Theory

set_option autoImplicit false

universe u v

/-! ## The longest match -/

section Longest

variable {ρ : Type u} (length : ρ → Nat)

/-- The rule with the longest match, which is not empty; the first of several. -/
def longest? : List ρ → Option ρ
  | [] => none
  | rule :: rules =>
      match longest? rules with
      | none => if 0 < length rule then some rule else none
      | some other => if length other ≤ length rule then some rule else some other

/-- The winner's match is not empty and longer than those of the rules before it. -/
theorem longest?_split {rules : List ρ} : ∀ {rule : ρ}, longest? length rules = some rule →
    ∃ before after, rules = before ++ rule :: after ∧ 0 < length rule ∧
      ∀ other ∈ before, length other < length rule := by
  induction rules with
  | nil => exact fun found => nomatch found
  | cons first rules ih =>
      intro rule found
      rw [longest?] at found
      cases later : longest? length rules with
      | none =>
          simp only [later] at found
          split at found
          · obtain rfl := Option.some.inj found
            exact ⟨[], rules, rfl, by assumption, fun _ inside => nomatch inside⟩
          · cases found
      | some other =>
          simp only [later] at found
          obtain ⟨before, after, split_, positive, shorter⟩ := ih later
          split at found
          · obtain rfl := Option.some.inj found
            exact ⟨[], rules, rfl, by omega, fun _ inside => nomatch inside⟩
          · obtain rfl := Option.some.inj found
            refine ⟨first :: before, after, by rw [split_]; rfl, positive, fun another inside => ?_⟩
            rcases List.mem_cons.1 inside with rfl | inside
            · omega
            · exact shorter another inside

theorem longest?_mem {rules : List ρ} {rule : ρ} (found : longest? length rules = some rule) :
    rule ∈ rules ∧ 0 < length rule := by
  obtain ⟨before, after, rfl, positive, -⟩ := longest?_split length found
  exact ⟨List.mem_append_right _ (List.mem_cons_self ..), positive⟩

/-- No rule after it matches more, so a rule wins over the later ones. -/
theorem longest?_cons_of_le {rule : ρ} {rules : List ρ} (positive : 0 < length rule)
    (later : ∀ other ∈ rules, length other ≤ length rule) :
    longest? length (rule :: rules) = some rule := by
  rw [longest?]
  cases found : longest? length rules with
  | none => simp only [if_pos positive]
  | some other => simp only [if_pos (later other (longest?_mem length found).1)]

/-- A rule wins over an earlier one only by a longer match. -/
theorem longest?_cons_of_lt {first rule : ρ} {rules : List ρ} (found : longest? length rules = some rule)
    (shorter : length first < length rule) : longest? length (first :: rules) = some rule := by
  rw [longest?, found]
  simp only [if_neg (Nat.not_le.2 shorter)]

/-- **The winner.**  It matches more than the rules before it and as much as those after. -/
theorem longest?_eq {before after : List ρ} {rule : ρ} (positive : 0 < length rule)
    (shorter : ∀ other ∈ before, length other < length rule)
    (later : ∀ other ∈ after, length other ≤ length rule) :
    longest? length (before ++ rule :: after) = some rule := by
  induction before with
  | nil => exact longest?_cons_of_le length positive later
  | cons first before ih =>
      refine longest?_cons_of_lt length (ih fun other inside => ?_) (shorter first (List.mem_cons_self ..))
      exact shorter other (List.mem_cons_of_mem _ inside)

/-- The only rule that matches. -/
theorem longest?_only {rules : List ρ} {rule : ρ} (inside : rule ∈ rules) (positive : 0 < length rule)
    (others : ∀ other, other ≠ rule → length other = 0) : longest? length rules = some rule := by
  obtain ⟨before, after, rfl, first⟩ := List.eq_append_cons_of_mem inside
  refine longest?_eq length positive (fun other earlier => ?_) (fun other _ => ?_)
  · rw [others other fun same => first (same ▸ earlier)]
    exact positive
  · by_cases same : other = rule
    · exact Nat.le_of_eq (congrArg length same)
    · rw [others other same]
      exact Nat.zero_le _

end Longest

/-! ## Scanning -/

section Scan

variable {α : Type u} {τ : Type v} (next : List α → Option τ × List α)

/-- The tokens of a text, in at most so many rounds. -/
def scanLoop : Nat → List α → List τ
  | 0, _ => []
  | _ + 1, [] => []
  | n + 1, text@(_ :: _) => (next text).1.toList ++ scanLoop n (next text).2

def scanAll (text : List α) : List τ := scanLoop next text.length text

@[simp] theorem scanAll_nil : scanAll next [] = [] := rfl

variable {next}

theorem scanLoop_eq (shrinks : ∀ c text, (next (c :: text)).2.length ≤ text.length) :
    ∀ {n m : Nat} {text : List α}, text.length ≤ n → text.length ≤ m →
      scanLoop next n text = scanLoop next m text := by
  intro n
  induction n with
  | zero =>
      intro m text small _
      obtain rfl := List.length_eq_zero_iff.1 (Nat.le_zero.1 small)
      cases m <;> rfl
  | succ n ih =>
      intro m text small small'
      cases text with
      | nil => cases m <;> rfl
      | cons c text =>
          obtain ⟨m, rfl⟩ : ∃ k, m = k + 1 := ⟨m - 1, by rw [List.length_cons] at small'; omega⟩
          have less := shrinks c text
          rw [List.length_cons] at small small'
          rw [scanLoop, scanLoop, ih (by omega) (show _ ≤ m by omega)]

/-- **One round.** -/
theorem scanAll_cons (shrinks : ∀ c text, (next (c :: text)).2.length ≤ text.length) (c : α) (text : List α) :
    scanAll next (c :: text) = (next (c :: text)).1.toList ++ scanAll next (next (c :: text)).2 := by
  show scanLoop next (text.length + 1) (c :: text) = _
  rw [scanLoop, scanLoop_eq shrinks (shrinks c text) (Nat.le_refl _)]
  rfl

end Scan

/-! ## Texts put together -/

section Reads

variable {α : Type u} {τ : Type v} {next : List α → Option τ × List α} {follows : α → Prop}

/-- The text is read as the tokens, in front of what may follow it; and it may follow. -/
structure Reads (next : List α → Option τ × List α) (follows : α → Prop) (text : List α) (tokens : List τ) :
    Prop where
  head : ∀ c ∈ text.head?, follows c
  scan : ∀ rest : List α, (∀ c ∈ rest.head?, follows c) →
    scanAll next (text ++ rest) = tokens ++ scanAll next rest

theorem Reads.nil : Reads next follows [] [] where
  head := fun _ impossible => nomatch impossible
  scan := fun _ _ => rfl

theorem Reads.head_append {text rest : List α} {tokens : List τ} (reads : Reads next follows text tokens)
    (behind : ∀ c ∈ rest.head?, follows c) : ∀ c ∈ (text ++ rest).head?, follows c := by
  cases text with
  | nil => exact behind
  | cons b text => exact reads.head

theorem Reads.append {first second : List α} {tokens others : List τ} (left : Reads next follows first tokens)
    (right : Reads next follows second others) : Reads next follows (first ++ second) (tokens ++ others) where
  head := left.head_append right.head
  scan := by
    intro rest behind
    rw [List.append_assoc, left.scan _ (right.head_append behind), right.scan rest behind, List.append_assoc]

/-- Texts one behind the other are read one after the other. -/
theorem Reads.flatten {texts : List (List α)} {tokens : List (List τ)}
    (each : List.Forall₂ (Reads next follows) texts tokens) :
    Reads next follows texts.flatten tokens.flatten := by
  induction each with
  | nil => exact Reads.nil
  | cons first _ ih => exact first.append ih

theorem Reads.all {text : List α} {tokens : List τ} (reads : Reads next follows text tokens) :
    scanAll next text = tokens := by
  have whole := reads.scan [] fun _ impossible => nomatch impossible
  rwa [List.append_nil, scanAll_nil, List.append_nil] at whole

end Reads

end Orchid.Theory
