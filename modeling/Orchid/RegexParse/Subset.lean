/-
# RegexParse.Subset -- the rows are the reachable sets of leaves

`Rows` is what holds of the table while `buildDfa` fills it: every row has the values of
the first end node in its set, no set has two rows, and a transition that is there leads
to the row of the followers of the leaves that read the class.  The passes of the loop
keep it (`Rows.step`), and the number of sets bounds the rows, so the loop ends.

So the table does with a word what the expression of the root does: the row that a run
reaches is the set of leaves the word leads to (`run_row`), and if no leaf is lazy, a run
that is not there means that there is no such leaf.
-/
import Orchid.RegexParse.Generator

namespace Orchid

open Orchid.Theory

set_option autoImplicit false

/-! ## The classes of a row -/

/-- Both vectors are in order and have no common member but in the overlap. -/
structure Shared (lhs rhs : List Nat) (shared : List Nat × List Nat × List Nat) : Prop where
  sortedLeft : shared.1.Pairwise (· < ·)
  sortedRight : shared.2.1.Pairwise (· < ·)
  sortedOverlap : shared.2.2.Pairwise (· < ·)
  left : ∀ k, k ∈ shared.1 ↔ k ∈ lhs ∧ k ∉ rhs
  right : ∀ k, k ∈ shared.2.1 ↔ k ∈ rhs ∧ k ∉ lhs
  overlap : ∀ k, k ∈ shared.2.2 ↔ k ∈ lhs ∧ k ∈ rhs

theorem sorted_cons {index : Nat} {all part : List Nat} (sorted : (index :: all).Pairwise (· < ·))
    (inside : ∀ k ∈ part, k ∈ all) (sorted' : part.Pairwise (· < ·)) : (index :: part).Pairwise (· < ·) :=
  List.pairwise_cons.2 ⟨fun k member => List.rel_of_pairwise_cons sorted (inside k member), sorted'⟩

/-- Nothing in front of the first member is in a vector in order. -/
theorem not_mem_of_lt {index low : Nat} {rest : List Nat} (sorted : (index :: rest).Pairwise (· < ·)) (less : low < index) :
    low ∉ index :: rest := by
  intro member
  rcases List.mem_cons.1 member with rfl | member
  · omega
  · have := List.rel_of_pairwise_cons sorted member
    omega

theorem Shared.swap {lhs rhs left right overlap : List Nat} (shared : Shared lhs rhs (left, right, overlap)) :
    Shared rhs lhs (right, left, overlap) :=
  ⟨shared.sortedRight, shared.sortedLeft, shared.sortedOverlap, shared.right, shared.left,
    fun k => (shared.overlap k).trans and_comm⟩

/-- A member of one vector only. -/
theorem Shared.only {index : Nat} {lhs rhs left right overlap : List Nat} (sorted : (index :: lhs).Pairwise (· < ·))
    (outside : index ∉ rhs) (shared : Shared lhs rhs (left, right, overlap)) :
    Shared (index :: lhs) rhs (index :: left, right, overlap) := by
  obtain ⟨sortedLeft, sortedRight, sortedOverlap, left_, right_, overlap_⟩ := shared
  refine ⟨sorted_cons sorted (fun k member => ((left_ k).1 member).1) sortedLeft, sortedRight, sortedOverlap,
    fun k => ?_, fun k => ?_, fun k => ?_⟩
  all_goals by_cases at_ : k = index
  · subst at_
    simp [outside]
  · simpa [at_] using left_ k
  · subst at_
    exact iff_of_false (fun member => outside ((right_ k).1 member).1) fun both => outside both.1
  · simpa [at_] using right_ k
  · subst at_
    exact iff_of_false (fun member => outside ((overlap_ k).1 member).2) fun both => outside both.2
  · simpa [at_] using overlap_ k

theorem Shared.both {index : Nat} {lhs rhs left right overlap : List Nat} (sortedL : (index :: lhs).Pairwise (· < ·))
    (sortedR : (index :: rhs).Pairwise (· < ·)) (shared : Shared lhs rhs (left, right, overlap)) :
    Shared (index :: lhs) (index :: rhs) (left, right, index :: overlap) := by
  obtain ⟨sortedLeft, sortedRight, sortedOverlap, left_, right_, overlap_⟩ := shared
  have notLeft : index ∉ lhs := fun member => Nat.lt_irrefl _ (List.rel_of_pairwise_cons sortedL member)
  have notRight : index ∉ rhs := fun member => Nat.lt_irrefl _ (List.rel_of_pairwise_cons sortedR member)
  refine ⟨sortedLeft, sortedRight, sorted_cons sortedL (fun k member => ((overlap_ k).1 member).1) sortedOverlap,
    fun k => ?_, fun k => ?_, fun k => ?_⟩
  all_goals by_cases at_ : k = index
  · subst at_
    exact iff_of_false (fun member => notLeft ((left_ k).1 member).1) fun both => both.2 List.mem_cons_self
  · simpa [at_] using left_ k
  · subst at_
    exact iff_of_false (fun member => notRight ((right_ k).1 member).1) fun both => both.2 List.mem_cons_self
  · simpa [at_] using right_ k
  · subst at_
    simp
  · simpa [at_] using overlap_ k

theorem intersectIndexes_spec {lhs rhs : List Nat} (sortedL : lhs.Pairwise (· < ·)) (sortedR : rhs.Pairwise (· < ·)) :
    Shared lhs rhs (intersectIndexes lhs rhs) := by
  fun_induction intersectIndexes lhs rhs with
  | case1 rhs => exact ⟨List.Pairwise.nil, sortedR, List.Pairwise.nil, by simp, by simp, by simp⟩
  | case2 lhs => exact ⟨sortedL, List.Pairwise.nil, List.Pairwise.nil, by simp, by simp, by simp⟩
  | case3 index lhs rhsIndex rhs less left right overlap same ih =>
      have shared := ih sortedL.of_cons sortedR
      rw [same] at shared
      exact shared.only sortedL (not_mem_of_lt sortedR less)
  | case4 index lhs rhsIndex rhs notLess less left right overlap same ih =>
      have shared := ih sortedL sortedR.of_cons
      rw [same] at shared
      exact (shared.swap.only sortedR (not_mem_of_lt sortedL less)).swap
  | case5 index lhs rhsIndex rhs notLess notLess' left right overlap same ih =>
      have shared := ih sortedL.of_cons sortedR.of_cons
      rw [same] at shared
      obtain rfl : index = rhsIndex := by omega
      exact shared.both sortedL sortedR

/-! ### enqueue -/

theorem mem_enqueue {q : List Nat} {x k : Nat} : k ∈ enqueue q x ↔ k ∈ q ∨ k = x := by
  unfold enqueue
  split
  · next inside =>
    exact (or_iff_left_of_imp fun same => same ▸ inside).symm
  · simp

theorem mem_foldl_enqueue {xs : List Nat} : ∀ {q : List Nat} {k : Nat}, k ∈ xs.foldl enqueue q ↔ k ∈ q ∨ k ∈ xs := by
  induction xs with
  | nil => simp
  | cons x xs ih =>
      intro q k
      rw [List.foldl_cons, ih, mem_enqueue, List.mem_cons, or_assoc]

/-- A new member goes behind the old ones. -/
theorem pairwise_foldl_enqueue {R : Nat → Nat → Prop} {xs : List Nat} (sorted : xs.Pairwise R) : ∀ {q : List Nat},
    q.Pairwise R → (∀ a ∈ q, ∀ x ∈ xs, R a x) → (xs.foldl enqueue q).Pairwise R := by
  induction xs with
  | nil => exact fun sortedQ _ => sortedQ
  | cons x xs ih =>
      intro q sortedQ across
      obtain ⟨above, rest⟩ := List.pairwise_cons.1 sorted
      apply ih rest
      · unfold enqueue
        split
        · exact sortedQ
        · refine List.pairwise_append.2 ⟨sortedQ, List.pairwise_singleton .., fun a member b last => ?_⟩
          rw [List.mem_singleton.1 last]
          exact across a member x List.mem_cons_self
      · intro a member b later
        rcases mem_enqueue.1 member with member | rfl
        · exact across a member b (List.mem_cons_of_mem _ later)
        · exact above b later

/-! ### build_equiv_list -/

namespace Equivset

def has (equivset : Equivset) (k : Nat) : Prop := k ∈ equivset.indexVector

/-- The classes are in order, and no followers are kept without classes. -/
def Good (equivset : Equivset) : Prop :=
  equivset.indexVector.Pairwise (· < ·) ∧ (equivset.indexVector = [] → equivset.followpos = [])

def value (equivset : Equivset) : Bool × List Nat := (equivset.greedy, equivset.followpos)

def mergeValue (p q : Bool × List Nat) : Bool × List Nat := (p.1, q.2.foldl enqueue p.2)

theorem isEmpty_iff {equivset : Equivset} (good : equivset.Good) : equivset.isEmpty = true ↔ ∀ k, ¬ equivset.has k := by
  unfold isEmpty has
  rw [Bool.and_eq_true, List.isEmpty_iff, List.isEmpty_iff, and_iff_left_of_imp good.2, List.eq_nil_iff_forall_not_mem]

section Intersect

variable {l r : Equivset}

theorem indexVector_left : (l.intersect r).1.indexVector = (intersectIndexes l.indexVector r.indexVector).1 := by
  unfold intersect
  dsimp only
  split <;> rfl

theorem indexVector_right : (l.intersect r).2.1.indexVector = (intersectIndexes l.indexVector r.indexVector).2.1 := by
  unfold intersect
  dsimp only
  split <;> rfl

theorem indexVector_overlap : (l.intersect r).2.2.indexVector = (intersectIndexes l.indexVector r.indexVector).2.2 := by
  unfold intersect
  dsimp only
  split
  · next none_ => exact (List.isEmpty_iff.1 none_).symm
  · rfl

end Intersect

/-- The loop of the library cuts the sets of classes of a row. -/
theorem meets : Meets isEmpty intersect Good has value mergeValue where
  empty := isEmpty_iff
  keeps {l r} goodL goodR := by
    have shared := intersectIndexes_spec goodL.1 goodR.1
    refine ⟨⟨by rw [indexVector_left]; exact shared.sortedLeft, ?_⟩, ⟨by rw [indexVector_right]; exact shared.sortedRight, ?_⟩,
      ⟨by rw [indexVector_overlap]; exact shared.sortedOverlap, ?_⟩⟩
    · rw [indexVector_left]
      intro nil
      unfold intersect
      dsimp only
      split
      · next none_ =>
        -- without an overlap nothing was taken away
        apply goodL.2
        apply List.eq_nil_iff_forall_not_mem.2 fun k member => ?_
        have outside : k ∉ r.indexVector := fun there =>
          List.not_mem_nil (List.isEmpty_iff.1 none_ ▸ (shared.overlap k).2 ⟨member, there⟩)
        exact List.not_mem_nil (nil ▸ (shared.left k).2 ⟨member, outside⟩)
      · exact if_pos (List.isEmpty_iff.2 nil)
    · rw [indexVector_right]
      intro nil
      unfold intersect
      dsimp only
      split
      · next none_ =>
        apply goodR.2
        apply List.eq_nil_iff_forall_not_mem.2 fun k member => ?_
        have outside : k ∉ l.indexVector := fun there =>
          List.not_mem_nil (List.isEmpty_iff.1 none_ ▸ (shared.overlap k).2 ⟨there, member⟩)
        exact List.not_mem_nil (nil ▸ (shared.right k).2 ⟨member, outside⟩)
      · exact if_pos (List.isEmpty_iff.2 nil)
    · rw [indexVector_overlap]
      intro nil
      unfold intersect
      dsimp only
      rw [if_pos (List.isEmpty_iff.2 nil)]
  left {l r} goodL goodR k := by
    unfold has
    rw [indexVector_left]
    exact (intersectIndexes_spec goodL.1 goodR.1).left k
  right {l r} goodL goodR k := by
    unfold has
    rw [indexVector_right]
    exact (intersectIndexes_spec goodL.1 goodR.1).right k
  overlap {l r} goodL goodR k := by
    unfold has
    rw [indexVector_overlap]
    exact (intersectIndexes_spec goodL.1 goodR.1).overlap k
  valueLeft {l r} _ _ k here := by
    unfold has at here
    rw [indexVector_left] at here
    have full := List.isEmpty_eq_false_iff_exists_mem.2 ⟨k, here⟩
    unfold intersect value
    dsimp only
    split
    · rfl
    · simp [full]
  valueRight {l r} _ _ k here := by
    unfold has at here
    rw [indexVector_right] at here
    have full := List.isEmpty_eq_false_iff_exists_mem.2 ⟨k, here⟩
    unfold intersect value
    dsimp only
    split
    · rfl
    · simp [full]
  valueOverlap {l r} _ _ k here := by
    unfold has at here
    rw [indexVector_overlap] at here
    have full := List.isEmpty_eq_false_iff_exists_mem.2 ⟨k, here⟩
    unfold intersect value mergeValue
    simp [full]

end Equivset

section Classes

variable {heap : Heap} {sets : SetMapping}

/-- The leaf is read by the class. -/
def ReadBy (heap : Heap) (sets : SetMapping) (k p : Nat) : Prop :=
  ∃ equivset, fillEquivset heap sets p = some equivset ∧ k ∈ equivset.indexVector

theorem fillEquivset_value {p : Nat} {equivset : Equivset} (filled : fillEquivset heap sets p = some equivset) :
    equivset.followpos = heap.followpos p ∧ equivset.greedy = heap.greedy p := by
  unfold fillEquivset at filled
  split at filled
  · next here =>
    obtain ⟨indexes, -, rfl⟩ := Option.map_eq_some_iff.1 filled
    rw [Heap.followpos_of_cell here, Heap.greedy_of_cell here]
    exact ⟨rfl, rfl⟩
  · cases filled

/-- What the leaves of a row are filled in with can be cut. -/
def Cuttable (heap : Heap) (sets : SetMapping) (vector : List Nat) : Prop :=
  ∀ p ∈ vector, ∀ equivset, fillEquivset heap sets p = some equivset →
    equivset.indexVector.Pairwise (· < ·) ∧ equivset.indexVector ≠ []

variable {vector : List Nat} (cuttable : Cuttable heap sets vector)

include cuttable

theorem Cuttable.refine :
    Parts Equivset.Good Equivset.has (buildEquivList heap sets vector) ∧
      ∀ k p, At Equivset.has Equivset.value (buildEquivList heap sets vector) k p ↔
        mergeAt Equivset.has Equivset.value Equivset.mergeValue (vector.filterMap (fillEquivset heap sets)) k = some p := by
  apply Equivset.meets.refine
  · intro equivset member
    obtain ⟨p, inside, filled⟩ := List.mem_filterMap.1 member
    obtain ⟨sorted, nonempty⟩ := cuttable p inside equivset filled
    exact ⟨sorted, fun nil => absurd nil nonempty⟩
  · intro equivset member
    obtain ⟨p, inside, filled⟩ := List.mem_filterMap.1 member
    exact List.exists_mem_of_ne_nil _ (cuttable p inside equivset filled).2

/-- Every class that a leaf of the row is read by is in one of the sets. -/
theorem Cuttable.covers (k : Nat) :
    (∃ equivset ∈ buildEquivList heap sets vector, k ∈ equivset.indexVector) ↔ ∃ p ∈ vector, ReadBy heap sets k p := by
  have values := cuttable.refine.2 k
  constructor
  · rintro ⟨equivset, member, here⟩
    have value := (values equivset.value).1 ⟨equivset, member, here, rfl⟩
    by_contra none_
    rw [mergeAt_eq_none_iff.2 fun other member' there => ?_] at value
    · cases value
    · obtain ⟨p, inside, filled⟩ := List.mem_filterMap.1 member'
      exact none_ ⟨p, inside, other, filled, there⟩
  · rintro ⟨p, inside, equivset, filled, here⟩
    cases value : mergeAt Equivset.has Equivset.value Equivset.mergeValue (vector.filterMap (fillEquivset heap sets)) k with
    | none => exact absurd here (mergeAt_eq_none_iff.1 value equivset (List.mem_filterMap.2 ⟨p, inside, filled⟩))
    | some q =>
        obtain ⟨other, member, there, -⟩ := (values q).2 value
        exact ⟨other, member, there⟩

/-- The followers of a set are those of the leaves that its classes read. -/
theorem Cuttable.followpos {equivset : Equivset} (member : equivset ∈ buildEquivList heap sets vector) {k : Nat}
    (here : k ∈ equivset.indexVector) (q : Nat) :
    q ∈ equivset.followpos ↔ ∃ p ∈ vector, ReadBy heap sets k p ∧ q ∈ heap.followpos p := by
  have value := (cuttable.refine.2 k equivset.value).1 ⟨equivset, member, here, rfl⟩
  have collected : (∃ p, mergeAt Equivset.has Equivset.value Equivset.mergeValue
      (vector.filterMap (fillEquivset heap sets)) k = some p ∧ q ∈ p.2) ↔
      ∃ other ∈ vector.filterMap (fillEquivset heap sets), other.has k ∧ q ∈ other.value.2 :=
    mem_mergeAt fun p p' => mem_foldl_enqueue
  have here' : q ∈ equivset.followpos ↔ ∃ p, mergeAt Equivset.has Equivset.value Equivset.mergeValue
      (vector.filterMap (fillEquivset heap sets)) k = some p ∧ q ∈ p.2 := by
    rw [value]
    simp [Equivset.value]
  rw [here', collected]
  constructor
  · rintro ⟨other, filled, there, inside⟩
    obtain ⟨p, member', filled⟩ := List.mem_filterMap.1 filled
    rw [Equivset.value, (fillEquivset_value filled).1] at inside
    exact ⟨p, member', ⟨other, filled, there⟩, inside⟩
  · rintro ⟨p, member', ⟨other, filled, there⟩, inside⟩
    rw [← (fillEquivset_value filled).1] at inside
    exact ⟨other, List.mem_filterMap.2 ⟨p, member', filled⟩, there, inside⟩

theorem Cuttable.greedy (eager : heap.Eager) {equivset : Equivset} (member : equivset ∈ buildEquivList heap sets vector)
    {k : Nat} (here : k ∈ equivset.indexVector) : equivset.greedy = true := by
  have value := (cuttable.refine.2 k equivset.value).1 ⟨equivset, member, here, rfl⟩
  have all : ∀ p, mergeAt Equivset.has Equivset.value Equivset.mergeValue (vector.filterMap (fillEquivset heap sets)) k =
      some p → p.1 = true := by
    refine mergeAt_induction (P := fun _ _ (old : Option (Bool × List Nat)) => ∀ p, old = some p → p.1 = true)
      (by simp) ?_ ?_ ?_
    · exact fun _ _ _ _ _ before => before
    · intro done other part _ _ p same
      obtain rfl := Option.some.inj same
      obtain ⟨q, -, filled⟩ := List.mem_filterMap.1 (part.subset (List.mem_append_right _ List.mem_cons_self))
      exact (fillEquivset_value filled).2.trans (eager q)
    · intro done other q _ _ before p same
      obtain rfl := Option.some.inj same
      exact before q rfl
  exact all _ value

/-- If the leaves are in the order of their ranks and followers keep the rank, then the
followers of a set are in that order as well. -/
theorem Cuttable.sorted {rank : Nat → Nat} (order : vector.Pairwise fun a b => rank a ≤ rank b)
    (keeps : ∀ p ∈ vector, ∀ q ∈ heap.followpos p, rank q = rank p) {equivset : Equivset}
    (member : equivset ∈ buildEquivList heap sets vector) {k : Nat} (here : k ∈ equivset.indexVector) :
    equivset.followpos.Pairwise fun a b => rank a ≤ rank b := by
  have value := (cuttable.refine.2 k equivset.value).1 ⟨equivset, member, here, rfl⟩
  have across : (vector.filterMap (fillEquivset heap sets)).Pairwise fun c d =>
      ∀ a ∈ c.followpos, ∀ b ∈ d.followpos, rank a ≤ rank b := by
    rw [List.pairwise_filterMap]
    refine order.imp_of_mem fun {p p'} inside inside' ranks c filled d filled' a here b there => ?_
    rw [(fillEquivset_value filled).1] at here
    rw [(fillEquivset_value filled').1] at there
    rw [keeps p inside a here, keeps p' inside' b there]
    exact ranks
  have each : ∀ c ∈ vector.filterMap (fillEquivset heap sets), c.followpos.Pairwise fun a b => rank a ≤ rank b := by
    intro c member
    obtain ⟨p, inside, filled⟩ := List.mem_filterMap.1 member
    rw [(fillEquivset_value filled).1]
    refine List.pairwise_iff_forall_sublist.2 fun {a b} sub => ?_
    rw [keeps p inside a (sub.subset List.mem_cons_self), keeps p inside b (sub.subset (by simp))]
  have all : ∀ p, mergeAt Equivset.has Equivset.value Equivset.mergeValue (vector.filterMap (fillEquivset heap sets)) k =
      some p → (p.2.Pairwise fun a b => rank a ≤ rank b) ∧
        ∀ a ∈ p.2, ∃ c ∈ vector.filterMap (fillEquivset heap sets), a ∈ c.followpos := by
    refine mergeAt_induction (P := fun (done : List Equivset) _ (old : Option (Bool × List Nat)) => ∀ p, old = some p →
      (p.2.Pairwise fun a b => rank a ≤ rank b) ∧ ∀ a ∈ p.2, ∃ c ∈ done, a ∈ c.followpos) (by simp) ?_ ?_ ?_
    · intro done other old _ _ before p same
      obtain ⟨sorted, from_⟩ := before p same
      refine ⟨sorted, fun a inside => ?_⟩
      obtain ⟨c, member, here⟩ := from_ a inside
      exact ⟨c, List.mem_append_left _ member, here⟩
    · intro done other part _ _ p same
      obtain rfl := Option.some.inj same
      refine ⟨each other (part.subset (by simp)), fun a inside => ⟨other, by simp, inside⟩⟩
    · intro done other q part _ before p same
      obtain rfl := Option.some.inj same
      obtain ⟨sorted, from_⟩ := before q rfl
      have later := (List.pairwise_append.1 (across.sublist part.sublist)).2.2
      refine ⟨pairwise_foldl_enqueue (each other (part.subset (by simp))) sorted fun a inside b there => ?_, fun a inside => ?_⟩
      · obtain ⟨c, member, here⟩ := from_ a inside
        exact later c member other List.mem_cons_self a here b there
      · rcases mem_foldl_enqueue.1 inside with inside | inside
        · obtain ⟨c, member, here⟩ := from_ a inside
          exact ⟨c, List.mem_append_left _ member, here⟩
        · exact ⟨other, by simp, inside⟩
  exact (all _ value).1

end Classes

end Orchid
