/-
# Theory.Overlap -- cutting overlapping blocks into disjoint ones

Blocks are sets of keys with a value.  `refine` takes them one after the other through
the list of the blocks it has made so far (`sift`): where the new block overlaps one
of the list, the overlap becomes a block with the merged value, and both lose it;
what is left at the end becomes a block of its own.

The result is a list of disjoint nonempty blocks, and the value at a key is the merge
of the values of the blocks that had the key, in their order (`at_refine`).
-/
import Mathlib.Data.List.Induction
import Mathlib.Data.List.Pairwise
import Mathlib.Tactic.Tauto

namespace Orchid.Theory

set_option autoImplicit false

universe u v w

section Overlap

variable {β : Type u} {κ : Type v} {π : Type w}

section Loop

variable (isEmpty : β → Bool) (meet : β → β → β × β × β)

/-- A block `r` goes through the list; `meet` gives what is left of both blocks and the
overlap.  The second component is what is left of `r`, or the overlap with which the
loop is left when `r` is used up. -/
def sift : List β → β → List β × β
  | [], r => ([], r)
  | l :: ls, r =>
      if isEmpty r then (l :: ls, r)
      else
        let (l', r', overlap) := meet l r
        if isEmpty overlap then
          let (ls, r) := sift ls r'
          (l' :: ls, r)
        else if isEmpty l' then
          let (ls, r) := sift ls r'
          (overlap :: ls, r)
        else if isEmpty r' then (l' :: ls, overlap)
        else
          let (ls, r) := sift ls r'
          (l' :: overlap :: ls, r)

def addBlock (ls : List β) (r : β) : List β :=
  let (ls, r) := sift isEmpty meet ls r
  if isEmpty r then ls else ls ++ [r]

def refine : List β → List β
  | [] => []
  | first :: rest => rest.foldl (addBlock isEmpty meet) [first]

end Loop

section Closed

variable {isEmpty : β → Bool} {meet : β → β → β × β × β} {P : β → Prop}
  (closed : ∀ {l r}, P l → P r → P (meet l r).1 ∧ P (meet l r).2.1 ∧ P (meet l r).2.2)

include closed

/-- What `meet` keeps of two blocks is kept of all of them. -/
theorem sift_closed {ls : List β} : ∀ {r : β}, (∀ l ∈ ls, P l) → P r →
    (∀ l ∈ (sift isEmpty meet ls r).1, P l) ∧ P (sift isEmpty meet ls r).2 := by
  induction ls with
  | nil => exact fun _ holds => ⟨fun _ none_ => (List.not_mem_nil none_).elim, holds⟩
  | cons l ls ih =>
      intro r each holds
      obtain ⟨left, right, overlap⟩ := closed (each l List.mem_cons_self) holds
      obtain ⟨rest, last⟩ := ih (fun other member => each other (List.mem_cons_of_mem _ member)) right
      rw [sift]
      dsimp only
      split_ifs
      · exact ⟨each, holds⟩
      · exact ⟨List.forall_mem_cons.2 ⟨left, rest⟩, last⟩
      · exact ⟨List.forall_mem_cons.2 ⟨overlap, rest⟩, last⟩
      · exact ⟨List.forall_mem_cons.2 ⟨left, fun other member => each other (List.mem_cons_of_mem _ member)⟩, overlap⟩
      · exact ⟨List.forall_mem_cons.2 ⟨left, List.forall_mem_cons.2 ⟨overlap, rest⟩⟩, last⟩

theorem addBlock_closed {ls : List β} {r : β} (each : ∀ l ∈ ls, P l) (holds : P r) : ∀ l ∈ addBlock isEmpty meet ls r, P l := by
  obtain ⟨rest, last⟩ := @sift_closed _ isEmpty meet P closed ls r each holds
  unfold addBlock
  dsimp only
  split
  · exact rest
  · exact List.forall_mem_append.2 ⟨rest, List.forall_mem_singleton.2 last⟩

theorem refine_closed {ls : List β} (each : ∀ l ∈ ls, P l) : ∀ l ∈ refine isEmpty meet ls, P l := by
  cases ls with
  | nil => exact each
  | cons first rest =>
      rw [refine]
      obtain ⟨holds, others⟩ := List.forall_mem_cons.1 each
      exact List.foldlRecOn (motive := fun ls : List β => ∀ l ∈ ls, P l) rest _ (List.forall_mem_singleton.2 holds)
        fun _ each other member => addBlock_closed closed each (others other member)

end Closed

/-- What the loop needs of the blocks. -/
structure Meets (isEmpty : β → Bool) (meet : β → β → β × β × β) (good : β → Prop) (has : β → κ → Prop)
    (value : β → π) (merge : π → π → π) : Prop where
  empty : ∀ {b}, good b → (isEmpty b = true ↔ ∀ k, ¬ has b k)
  keeps : ∀ {l r}, good l → good r → good (meet l r).1 ∧ good (meet l r).2.1 ∧ good (meet l r).2.2
  left : ∀ {l r}, good l → good r → ∀ k, has (meet l r).1 k ↔ has l k ∧ ¬ has r k
  right : ∀ {l r}, good l → good r → ∀ k, has (meet l r).2.1 k ↔ has r k ∧ ¬ has l k
  overlap : ∀ {l r}, good l → good r → ∀ k, has (meet l r).2.2 k ↔ has l k ∧ has r k
  valueLeft : ∀ {l r}, good l → good r → ∀ k, has (meet l r).1 k → value (meet l r).1 = value l
  valueRight : ∀ {l r}, good l → good r → ∀ k, has (meet l r).2.1 k → value (meet l r).2.1 = value r
  valueOverlap : ∀ {l r}, good l → good r → ∀ k, has (meet l r).2.2 k →
    value (meet l r).2.2 = merge (value l) (value r)

/-- The value at a key. -/
def At (has : β → κ → Prop) (value : β → π) (ls : List β) (k : κ) (p : π) : Prop :=
  ∃ b ∈ ls, has b k ∧ value b = p

/-- Disjoint blocks with keys. -/
structure Parts (good : β → Prop) (has : β → κ → Prop) (ls : List β) : Prop where
  good : ∀ b ∈ ls, good b
  nonempty : ∀ b ∈ ls, ∃ k, has b k
  apart : ls.Pairwise fun b c => ∀ k, has b k → ¬ has c k

variable {isEmpty : β → Bool} {meet : β → β → β × β × β} {good : β → Prop} {has : β → κ → Prop}
  {value : β → π} {merge : π → π → π}

theorem at_append {ls ls' : List β} {k : κ} {p : π} :
    At has value (ls ++ ls') k p ↔ At has value ls k p ∨ At has value ls' k p := by
  simp only [At, List.mem_append, or_and_right, exists_or]

theorem at_singleton {b : β} {k : κ} {p : π} : At has value [b] k p ↔ has b k ∧ value b = p := by
  simp [At]

theorem at_cons {b : β} {ls : List β} {k : κ} {p : π} :
    At has value (b :: ls) k p ↔ (has b k ∧ value b = p) ∨ At has value ls k p := by
  rw [← List.singleton_append, at_append, at_singleton]

/-- The value at a key when one more block is added. -/
def Merged (has : β → κ → Prop) (value : β → π) (merge : π → π → π) (ls : List β) (r : β) (k : κ) (p : π) : Prop :=
  (∃ q, At has value ls k q ∧ (has r k ∧ p = merge q (value r) ∨ ¬ has r k ∧ p = q)) ∨
    (∀ q, ¬ At has value ls k q) ∧ has r k ∧ p = value r

/-- The state of the loop: the list and what is left are disjoint and have the values. -/
structure Sifted (good : β → Prop) (has : β → κ → Prop) (value : β → π) (merge : π → π → π)
    (ls : List β) (r : β) (ls' : List β) (r' : β) : Prop where
  parts : Parts good has ls'
  good : good r'
  apart : ∀ b ∈ ls', ∀ k, has b k → ¬ has r' k
  inside : ∀ b ∈ ls', ∀ k, has b k → ∃ l ∈ ls, has l k
  insideRest : ∀ k, has r' k → has r k
  values : ∀ k p, At has value ls' k p ∨ has r' k ∧ value r' = p ↔ Merged has value merge ls r k p

theorem Parts.tail {l : β} {ls : List β} (parts : Parts good has (l :: ls)) : Parts good has ls :=
  ⟨fun b member => parts.good b (List.mem_cons_of_mem _ member),
    fun b member => parts.nonempty b (List.mem_cons_of_mem _ member), parts.apart.of_cons⟩

/-- No later block has a key of the first one. -/
theorem Parts.not_at {l : β} {ls : List β} (parts : Parts good has (l :: ls)) {k : κ} (here : has l k) (p : π) :
    ¬ At has value ls k p := by
  rintro ⟨b, member, there, -⟩
  exact List.rel_of_pairwise_cons parts.apart member k here there

section Sift

/-- A block of the list is dealt with: `front` is what it became. -/
theorem Sifted.cons {l r r₁ r' : β} {front ls ls' : List β} (parts : Parts good has (l :: ls))
    (frontParts : Parts good has front) (frontInside : ∀ b ∈ front, ∀ k, has b k → has l k)
    (frontAt : ∀ k p, At has value front k p ↔
      has l k ∧ (has r k ∧ p = merge (value l) (value r) ∨ ¬ has r k ∧ p = value l))
    (right : ∀ k, has r₁ k ↔ has r k ∧ ¬ has l k) (valueRight : ∀ k, has r₁ k → value r₁ = value r)
    (sifted : Sifted good has value merge ls r₁ ls' r') :
    Sifted good has value merge (l :: ls) r (front ++ ls') r' where
  parts := by
    refine ⟨?_, ?_, List.pairwise_append.2 ⟨frontParts.apart, sifted.parts.apart, ?_⟩⟩
    · intro b member
      exact (List.mem_append.1 member).elim (frontParts.good b) (sifted.parts.good b)
    · intro b member
      exact (List.mem_append.1 member).elim (frontParts.nonempty b) (sifted.parts.nonempty b)
    · intro b member c member' k here there
      obtain ⟨l', inside, again⟩ := sifted.inside c member' k there
      exact List.rel_of_pairwise_cons parts.apart inside k (frontInside b member k here) again
  good := sifted.good
  apart b member k here there := by
    rcases List.mem_append.1 member with member | member
    · exact ((right k).1 (sifted.insideRest k there)).2 (frontInside b member k here)
    · exact sifted.apart b member k here there
  inside b member k here := by
    rcases List.mem_append.1 member with member | member
    · exact ⟨l, List.mem_cons_self, frontInside b member k here⟩
    · obtain ⟨l', inside, again⟩ := sifted.inside b member k here
      exact ⟨l', List.mem_cons_of_mem _ inside, again⟩
  insideRest k here := ((right k).1 (sifted.insideRest k here)).1
  values k p := by
    rw [at_append, or_assoc, sifted.values, frontAt]
    by_cases here : has l k
    · have not₁ : ¬ has r₁ k := fun there => ((right k).1 there).2 here
      have notLater : ∀ q, ¬ At has value ls k q := parts.not_at here
      simp [Merged, at_cons, here, not₁, notLater]
    · have same : has r₁ k ↔ has r k := (right k).trans (and_iff_left here)
      simp only [Merged, at_cons, here, same, false_and, false_or]
      by_cases there : has r k
      · simp [there, valueRight k (same.2 there)]
      · simp [there]

variable (meets : Meets isEmpty meet good has value merge)

include meets

theorem Meets.nonempty {b : β} (good_ : good b) (full : ¬ isEmpty b = true) : ∃ k, has b k := by
  by_contra none_
  exact full ((meets.empty good_).2 fun k here => none_ ⟨k, here⟩)

/-- The overlap and what is left of the block of the list, where there are any. -/
theorem Meets.frontAt {l r : β} (goodL : good l) (goodR : good r) {front : List β}
    (members : ∀ b, b ∈ front ↔ (b = (meet l r).1 ∨ b = (meet l r).2.2) ∧ ∃ k, has b k) (k : κ) (p : π) :
    At has value front k p ↔
      has l k ∧ (has r k ∧ p = merge (value l) (value r) ∨ ¬ has r k ∧ p = value l) := by
  have left := meets.left goodL goodR k
  have overlap := meets.overlap goodL goodR k
  constructor
  · rintro ⟨b, member, here, rfl⟩
    rcases ((members b).1 member).1 with rfl | rfl
    · exact ⟨(left.1 here).1, Or.inr ⟨(left.1 here).2, meets.valueLeft goodL goodR k here⟩⟩
    · exact ⟨(overlap.1 here).1, Or.inl ⟨(overlap.1 here).2, meets.valueOverlap goodL goodR k here⟩⟩
  · rintro ⟨here, ⟨there, rfl⟩ | ⟨notThere, rfl⟩⟩
    · have both := overlap.2 ⟨here, there⟩
      exact ⟨_, (members _).2 ⟨Or.inr rfl, k, both⟩, both, meets.valueOverlap goodL goodR k both⟩
    · have only := left.2 ⟨here, notThere⟩
      exact ⟨_, (members _).2 ⟨Or.inl rfl, k, only⟩, only, meets.valueLeft goodL goodR k only⟩

/-- One block of the list, whatever it became. -/
theorem Meets.step (front : List β) {l r r' : β} {ls ls' : List β} (parts : Parts good has (l :: ls)) (goodR : good r)
    (once : front.Pairwise fun b c => ∀ k, has b k → ¬ has c k)
    (members : ∀ b, b ∈ front ↔ (b = (meet l r).1 ∨ b = (meet l r).2.2) ∧ ∃ k, has b k)
    (sifted : Sifted good has value merge ls (meet l r).2.1 ls' r') :
    Sifted good has value merge (l :: ls) r (front ++ ls') r' := by
  have goodL := parts.good l List.mem_cons_self
  refine Sifted.cons parts ⟨fun b member => ?_, fun b member => ((members b).1 member).2, once⟩ ?_
    (meets.frontAt goodL goodR members) (meets.right goodL goodR) (meets.valueRight goodL goodR) sifted
  · rcases ((members b).1 member).1 with rfl | rfl
    · exact (meets.keeps goodL goodR).1
    · exact (meets.keeps goodL goodR).2.2
  · intro b member k here
    rcases ((members b).1 member).1 with rfl | rfl
    · exact ((meets.left goodL goodR k).1 here).1
    · exact ((meets.overlap goodL goodR k).1 here).1

/-- Nothing is left to do for an empty block. -/
theorem Meets.sifted_empty {r : β} {ls : List β} (parts : Parts good has ls) (goodR : good r)
    (empty : isEmpty r = true) : Sifted good has value merge ls r ls r where
  parts := parts
  good := goodR
  apart _ _ k _ := (meets.empty goodR).1 empty k
  inside b member k here := ⟨b, member, here⟩
  insideRest _ here := here
  values k p := by
    have none_ := (meets.empty goodR).1 empty k
    simp [Merged, none_]

omit meets in
/-- The last block of what one block became may be put at the end. -/
theorem Sifted.swap {l r l' o r' : β} {ls ls' : List β} (sifted : Sifted good has value merge (l :: ls) r (l' :: o :: ls') r')
    (used : ∀ k, ¬ has r' k) (inside : ∀ k, has o k → has r k) :
    Sifted good has value merge (l :: ls) r (l' :: ls') o where
  parts := by
    have sub : List.Sublist (l' :: ls') (l' :: o :: ls') := (List.sublist_cons_self o ls').cons_cons l'
    exact ⟨fun b member => sifted.parts.good b (sub.subset member),
      fun b member => sifted.parts.nonempty b (sub.subset member), sifted.parts.apart.sublist sub⟩
  good := sifted.parts.good o (by simp)
  apart b member k here there := by
    rcases List.mem_cons.1 member with rfl | member
    · exact List.rel_of_pairwise_cons sifted.parts.apart (by simp) k here there
    · exact List.rel_of_pairwise_cons sifted.parts.apart.of_cons member k there here
  inside b member k here := by
    apply sifted.inside b ?_ k here
    exact ((List.sublist_cons_self o ls').cons_cons l').subset member
  insideRest := inside
  values k p := by
    rw [← sifted.values]
    simp only [at_cons, used, false_and, or_false]
    tauto

/-- **One pass of the loop.** -/
theorem Meets.sift {ls : List β} : ∀ {r : β}, Parts good has ls → good r →
    Sifted good has value merge ls r (sift isEmpty meet ls r).1 (sift isEmpty meet ls r).2 := by
  induction ls with
  | nil =>
      intro r parts goodR
      rw [Orchid.Theory.sift]
      refine ⟨parts, goodR, by simp, by simp, fun _ here => here, fun k p => ?_⟩
      simp [Merged, At, eq_comm]
  | cons l ls ih =>
      intro r parts goodR
      by_cases empty : isEmpty r = true
      · rw [Orchid.Theory.sift, if_pos empty]
        exact meets.sifted_empty parts goodR empty
      · have goodL := parts.good l List.mem_cons_self
        obtain ⟨goodL', goodR', goodO⟩ := meets.keeps goodL goodR
        have rest := ih parts.tail goodR'
        have left := meets.left goodL goodR
        have overlap := meets.overlap goodL goodR
        rw [Orchid.Theory.sift, if_neg empty]
        simp only
        by_cases none_ : isEmpty (meet l r).2.2 = true
        · rw [if_pos none_]
          have never := (meets.empty goodO).1 none_
          refine meets.step [(meet l r).1] parts goodR (by simp) (fun b => ?_) rest
          obtain ⟨k, here⟩ := parts.nonempty l List.mem_cons_self
          have full : has (meet l r).1 k := (left k).2 ⟨here, fun there => never k ((overlap k).2 ⟨here, there⟩)⟩
          rw [List.mem_singleton]
          constructor
          · rintro rfl
            exact ⟨Or.inl rfl, k, full⟩
          · rintro ⟨rfl | rfl, k', here'⟩
            · rfl
            · exact absurd here' (never k')
        · rw [if_neg none_]
          obtain ⟨ko, inO⟩ := meets.nonempty goodO none_
          by_cases used : isEmpty (meet l r).1 = true
          · rw [if_pos used]
            have never := (meets.empty goodL').1 used
            refine meets.step [(meet l r).2.2] parts goodR (by simp) (fun b => ?_) rest
            rw [List.mem_singleton]
            constructor
            · rintro rfl
              exact ⟨Or.inr rfl, ko, inO⟩
            · rintro ⟨rfl | rfl, k', here'⟩
              · exact absurd here' (never k')
              · rfl
          · rw [if_neg used]
            obtain ⟨kl, inL⟩ := meets.nonempty goodL' used
            have once : [(meet l r).1, (meet l r).2.2].Pairwise fun b c => ∀ k, has b k → ¬ has c k := by
              simp only [List.pairwise_cons, List.mem_singleton, forall_eq, List.not_mem_nil, false_imp_iff,
                implies_true, List.Pairwise.nil, and_true]
              exact fun k here there => ((left k).1 here).2 ((overlap k).1 there).2
            have members : ∀ b, b ∈ [(meet l r).1, (meet l r).2.2] ↔
                (b = (meet l r).1 ∨ b = (meet l r).2.2) ∧ ∃ k, has b k := by
              intro b
              simp only [List.mem_cons, List.not_mem_nil, or_false]
              refine (and_iff_left_of_imp ?_).symm
              rintro (rfl | rfl)
              · exact ⟨kl, inL⟩
              · exact ⟨ko, inO⟩
            by_cases done : isEmpty (meet l r).2.1 = true
            · rw [if_pos done]
              have stays := meets.sifted_empty (r := (meet l r).2.1) parts.tail goodR' done
              exact (meets.step _ parts goodR once members stays).swap ((meets.empty goodR').1 done)
                fun k here => ((overlap k).1 here).2
            · rw [if_neg done]
              exact meets.step _ parts goodR once members rest

theorem Meets.addBlock {ls : List β} {r : β} (parts : Parts good has ls) (goodR : good r) :
    Parts good has (addBlock isEmpty meet ls r) ∧
      ∀ k p, At has value (addBlock isEmpty meet ls r) k p ↔ Merged has value merge ls r k p := by
  have sifted := meets.sift parts goodR
  unfold Orchid.Theory.addBlock
  simp only
  by_cases empty : isEmpty (Orchid.Theory.sift isEmpty meet ls r).2 = true
  · rw [if_pos empty]
    have none_ := (meets.empty sifted.good).1 empty
    refine ⟨sifted.parts, fun k p => ?_⟩
    rw [← sifted.values]
    simp [none_]
  · rw [if_neg empty]
    refine ⟨⟨?_, ?_, List.pairwise_append.2 ⟨sifted.parts.apart, List.pairwise_singleton .., ?_⟩⟩, fun k p => ?_⟩
    · intro b member
      rcases List.mem_append.1 member with member | member
      · exact sifted.parts.good b member
      · exact List.mem_singleton.1 member ▸ sifted.good
    · intro b member
      rcases List.mem_append.1 member with member | member
      · exact sifted.parts.nonempty b member
      · exact List.mem_singleton.1 member ▸ meets.nonempty sifted.good empty
    · intro b member c member' k here
      exact List.mem_singleton.1 member' ▸ sifted.apart b member k here
    · rw [at_append, at_singleton, sifted.values]

end Sift

/-! ## All blocks -/

section Refine

open Classical in
/-- The value of a key after one more block. -/
noncomputable def mergeStep (has : β → κ → Prop) (value : β → π) (merge : π → π → π) (k : κ) (old : Option π) (b : β) :
    Option π :=
  if has b k then some ((old.map fun q => merge q (value b)).getD (value b)) else old

/-- The merge of the values of the blocks that have the key. -/
noncomputable def mergeAt (has : β → κ → Prop) (value : β → π) (merge : π → π → π) (ls : List β) (k : κ) : Option π :=
  ls.foldl (mergeStep has value merge k) none

theorem mergeAt_snoc (ls : List β) (b : β) (k : κ) :
    mergeAt has value merge (ls ++ [b]) k = mergeStep has value merge k (mergeAt has value merge ls k) b :=
  List.foldl_append

/-- A property of the value follows the blocks in their order. -/
theorem mergeAt_induction {P : List β → κ → Option π → Prop} {ls : List β} {k : κ} (nil : P [] k none)
    (skip : ∀ done b old, done ++ [b] <+: ls → ¬ has b k → P done k old → P (done ++ [b]) k old)
    (first : ∀ done b, done ++ [b] <+: ls → has b k → P done k none → P (done ++ [b]) k (some (value b)))
    (again : ∀ done b q, done ++ [b] <+: ls → has b k → P done k (some q) →
      P (done ++ [b]) k (some (merge q (value b)))) : P ls k (mergeAt has value merge ls k) := by
  have all : ∀ done : List β, done <+: ls → P done k (mergeAt has value merge done k) := by
    intro done
    induction done using List.reverseRecOn with
    | nil => exact fun _ => nil
    | append_singleton done b ih =>
        intro part
        have before := ih ((List.prefix_append done [b]).trans part)
        rw [mergeAt_snoc, mergeStep]
        split
        · next here =>
          cases old : mergeAt has value merge done k with
          | none => exact first done b part here (old ▸ before)
          | some q => exact again done b q part here (old ▸ before)
        · next notHere => exact skip done b _ part notHere before
  exact all ls List.prefix_rfl

/-- No value where no block has the key. -/
theorem mergeAt_eq_none_iff {ls : List β} {k : κ} : mergeAt has value merge ls k = none ↔ ∀ b ∈ ls, ¬ has b k := by
  refine mergeAt_induction (P := fun done k old => old = none ↔ ∀ b ∈ done, ¬ has b k) (by simp) ?_ ?_ ?_
  · intro done b old _ notHere before
    simp only [before, List.mem_append, List.mem_singleton, or_imp, forall_and, forall_eq, notHere,
      not_false_eq_true, and_true]
  · intro done b _ here _
    simp [here]
  · intro done b q _ here _
    simp [here]

/-- What merging collects is in one of the values. -/
theorem mem_mergeAt {mem : π → Prop} (collects : ∀ p q, mem (merge p q) ↔ mem p ∨ mem q) {ls : List β} {k : κ} :
    (∃ p, mergeAt has value merge ls k = some p ∧ mem p) ↔ ∃ b ∈ ls, has b k ∧ mem (value b) := by
  refine mergeAt_induction (P := fun done k old => (∃ p, old = some p ∧ mem p) ↔ ∃ b ∈ done, has b k ∧ mem (value b))
    (by simp) ?_ ?_ ?_
  · intro done b old _ notHere before
    rw [before]
    simp [notHere, or_and_right, exists_or]
  · intro done b _ here before
    have none_ : ¬ ∃ c ∈ done, has c k ∧ mem (value c) := fun nonempty => by simpa using before.2 nonempty
    simp only [List.mem_append, List.mem_singleton, or_and_right, exists_or, none_, false_or]
    simp [here]
  · intro done b q _ here before
    simp only [List.mem_append, List.mem_singleton, or_and_right, exists_or, ← before]
    simp [here, collects]

theorem merged_iff {ls : List β} {done : List β} {k : κ}
    (same : ∀ p, At has value ls k p ↔ mergeAt has value merge done k = some p) {r : β} (p : π) :
    Merged has value merge ls r k p ↔ mergeAt has value merge (done ++ [r]) k = some p := by
  simp only [Merged, same, mergeAt_snoc, mergeStep]
  cases mergeAt has value merge done k with
  | none =>
      by_cases here : has r k <;> simp [here, eq_comm]
  | some q =>
      by_cases here : has r k <;> simp [here, eq_comm]

variable (meets : Meets isEmpty meet good has value merge)

include meets

theorem Meets.foldl {rest : List β} : ∀ (done : List β) {ls : List β}, Parts good has ls →
    (∀ k p, At has value ls k p ↔ mergeAt has value merge done k = some p) → (∀ r ∈ rest, good r) →
    Parts good has (rest.foldl (Orchid.Theory.addBlock isEmpty meet) ls) ∧
      ∀ k p, At has value (rest.foldl (Orchid.Theory.addBlock isEmpty meet) ls) k p ↔
        mergeAt has value merge (done ++ rest) k = some p := by
  induction rest with
  | nil =>
      intro done ls parts same _
      rw [List.append_nil]
      exact ⟨parts, same⟩
  | cons r rest ih =>
      intro done ls parts same each
      obtain ⟨parts', values⟩ := meets.addBlock parts (each r List.mem_cons_self)
      rw [List.foldl_cons, List.append_cons]
      refine ih _ parts' (fun k p => ?_) fun b member => each b (List.mem_cons_of_mem _ member)
      rw [values, merged_iff (same k)]

/-- **The blocks are disjoint, and the value at a key is the merge of the values of the
blocks that had it, in their order.** -/
theorem Meets.refine {ls : List β} (each : ∀ b ∈ ls, good b) (nonempty : ∀ b ∈ ls, ∃ k, has b k) :
    Parts good has (refine isEmpty meet ls) ∧
      ∀ k p, At has value (refine isEmpty meet ls) k p ↔ mergeAt has value merge ls k = some p := by
  cases ls with
  | nil => exact ⟨⟨by simp [Orchid.Theory.refine], by simp [Orchid.Theory.refine], List.Pairwise.nil⟩,
      by simp [Orchid.Theory.refine, At, mergeAt]⟩
  | cons first rest =>
      apply meets.foldl [first]
      · exact ⟨by simpa using each first List.mem_cons_self, by simpa using nonempty first List.mem_cons_self,
          List.pairwise_singleton ..⟩
      · intro k p
        rw [at_singleton]
        by_cases here : has first k <;> simp [mergeAt, mergeStep, here]
      · exact fun r member => each r (List.mem_cons_of_mem _ member)

end Refine

end Overlap

end Orchid.Theory
