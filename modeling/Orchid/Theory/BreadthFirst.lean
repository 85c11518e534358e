/-
# Theory.BreadthFirst -- a queue-driven traversal takes a forest level by level

`visits children n q` is the order in which a first-in first-out traversal takes
nodes out of its queue: the head leaves, its children enter at the back unless
they are already waiting, at most `n` times.

For a finite forest graded by `depth` whose queue starts with the roots,
`visits_spec` says that the traversal ends within as many rounds as there are
nodes, takes every node exactly once, and never takes a node before a shallower
one.  The last clause is what a layer-by-layer construction relies on: when a node
is taken, everything above its level has been taken (`mem_of_lt_depth`).

`sweep` is the loop that runs along a traversal with a state of its own, and
`sweep_spec` the rule for it: one row preserves the invariant, so the loop ends
with the invariant of the whole order.
-/
import Mathlib.Logic.Relation
import Mathlib.Data.List.Perm.Subperm
import Mathlib.Order.Basic
import Mathlib.Algebra.Order.Group.Nat

namespace Orchid.Theory

set_option autoImplicit false

universe u

section BreadthFirst

variable {α : Type u} [DecidableEq α]

/-- Add at the back, unless already waiting. -/
def enqueue (q : List α) (x : α) : List α := if x ∈ q then q else q ++ [x]

/-- The order in which nodes leave the queue; `none` when the rounds run out. -/
def visits (children : α → List α) : Nat → List α → Option (List α)
  | _, [] => some []
  | 0, _ :: _ => none
  | n + 1, r :: q => (visits children n ((children r).foldl enqueue q)).map (r :: ·)

/-- The queue loop with a state: `row` handles the node taken and returns the queue
it leaves; `stuck` stops a loop whose rounds run out. -/
def sweep {ε σ : Type u} (stuck : ε) (row : α → List α × σ → Except ε (List α × σ)) :
    Nat → List α → σ → Except ε σ
  | _, [], s => .ok s
  | 0, _ :: _, _ => .error stuck
  | n + 1, r :: q, s => do
      let (q, s) ← row r (q, s)
      sweep stuck row n q s

theorem foldl_enqueue {q xs : List α} (fresh : (q ++ xs).Nodup) :
    xs.foldl enqueue q = q ++ xs := by
  induction xs generalizing q with
  | nil => simp
  | cons x xs ih =>
      have outside : x ∉ q := fun inside =>
        (List.nodup_append.1 fresh).2.2 x inside x (List.mem_cons_self ..) rfl
      have regroup : q ++ x :: xs = q ++ [x] ++ xs := by simp
      rw [List.foldl_cons, enqueue, if_neg outside, ih (regroup ▸ fresh), regroup]

/-- A forest graded by `depth`, with roots at depth one: every deeper node is the
child of exactly one node, one level up. -/
structure Forest (children : α → List α) (depth : α → Nat) (member : α → Prop) : Prop where
  child_depth : ∀ {r s}, s ∈ children r → depth s = depth r + 1
  child_parent : ∀ {r r' s}, s ∈ children r → s ∈ children r' → r = r'
  child_nodup : ∀ r, (children r).Nodup
  child_member : ∀ {r s}, member r → s ∈ children r → member s
  root_or_child : ∀ {x}, member x → depth x = 1 ∨ ∃ r, member r ∧ x ∈ children r
  depth_pos : ∀ {x}, member x → 1 ≤ depth x

variable {children : α → List α} {depth : α → Nat} {member : α → Prop}

/-- The state of a traversal: `done` has left the queue `q`. -/
structure Traversal (children : α → List α) (depth : α → Nat) (member : α → Prop)
    (done q : List α) : Prop where
  nodup : (done ++ q).Nodup
  graded : (done ++ q).Pairwise fun x y => depth x ≤ depth y
  narrow : ∀ x ∈ q, ∀ y ∈ q, depth y ≤ depth x + 1
  inside : ∀ x ∈ done ++ q, member x
  parent : ∀ x ∈ done ++ q, depth x = 1 ∨ ∃ r ∈ done, x ∈ children r
  covers : ∀ x, member x → x ∈ done ∨
    ∃ y ∈ q, Relation.ReflTransGen (fun r s => s ∈ children r) y x

theorem Traversal.step {done q : List α} {r : α} (forest : Forest children depth member)
    (before : Traversal children depth member done (r :: q)) :
    (children r).foldl enqueue q = q ++ children r ∧
      Traversal children depth member (done ++ [r]) (q ++ children r) := by
  have inR : member r := before.inside r (by simp)
  have regroup : done ++ [r] ++ (q ++ children r) = (done ++ r :: q) ++ children r := by simp
  have fresh : ∀ s ∈ children r, s ∉ done ++ r :: q := by
    intro s child old
    rcases before.parent s old with root | ⟨r', taken, child'⟩
    · have := forest.child_depth child
      have := forest.depth_pos inR
      omega
    · have same := forest.child_parent child child'
      subst same
      exact (List.nodup_append.1 before.nodup).2.2 r taken r (List.mem_cons_self ..) rfl
  have nodup : ((done ++ r :: q) ++ children r).Nodup := by
    refine List.nodup_append.2 ⟨before.nodup, forest.child_nodup r, fun x old y child same => ?_⟩
    exact fresh y child (same ▸ old)
  have shallow : ∀ x ∈ done ++ r :: q, depth x ≤ depth r + 1 := by
    intro x old
    rcases List.mem_append.1 old with taken | waiting
    · have := (List.pairwise_append.1 before.graded).2.2 x taken r (List.mem_cons_self ..)
      omega
    · exact before.narrow r (List.mem_cons_self ..) x waiting
  have queued : ∀ x ∈ q, depth r ≤ depth x := fun x waiting =>
    (List.pairwise_cons.1 (List.pairwise_append.1 before.graded).2.1).1 x waiting
  refine ⟨foldl_enqueue ?_, ?_⟩
  · exact nodup.sublist ((((List.sublist_cons_self r q).trans
      (List.sublist_append_right done _))).append (List.Sublist.refl _))
  refine ⟨regroup ▸ nodup, ?_, ?_, ?_, ?_, ?_⟩
  · rw [regroup]
    refine List.pairwise_append.2 ⟨before.graded, ?_, fun x old s child => ?_⟩
    · refine List.pairwise_of_forall_mem_list fun s child t child' => ?_
      exact (forest.child_depth child).trans_le (forest.child_depth child').ge
    · rw [forest.child_depth child]
      exact shallow x old
  · intro x inX y inY
    have low : depth r ≤ depth x := by
      rcases List.mem_append.1 inX with waiting | child
      · exact queued x waiting
      · have := forest.child_depth child
        omega
    have high : depth y ≤ depth r + 1 := by
      rcases List.mem_append.1 inY with waiting | child
      · exact shallow y (by simp [waiting])
      · exact (forest.child_depth child).le
    omega
  · intro x inX
    rw [regroup] at inX
    rcases List.mem_append.1 inX with old | child
    · exact before.inside x old
    · exact forest.child_member inR child
  · intro x inX
    rw [regroup] at inX
    rcases List.mem_append.1 inX with old | child
    · exact (before.parent x old).imp_right fun ⟨r', taken, child⟩ =>
        ⟨r', List.mem_append_left _ taken, child⟩
    · exact Or.inr ⟨r, by simp, child⟩
  · intro x inX
    rcases before.covers x inX with taken | ⟨y, waiting, path⟩
    · exact Or.inl (List.mem_append_left _ taken)
    · rcases List.mem_cons.1 waiting with rfl | waiting
      · -- the path starts at the node just taken: it is empty or goes through a child
        rcases Relation.ReflTransGen.cases_head path with rfl | ⟨s, child, path⟩
        · exact Or.inl (by simp)
        · exact Or.inr ⟨s, List.mem_append_right _ child, path⟩
      · exact Or.inr ⟨y, List.mem_append_left _ waiting, path⟩

theorem Traversal.run {nodes : List α} (forest : Forest children depth member)
    (finite : ∀ x, member x → x ∈ nodes) (n : Nat) :
    ∀ done q, Traversal children depth member done q → nodes.length ≤ done.length + n →
      ∃ order, visits children n q = some order ∧
        Traversal children depth member (done ++ order) [] := by
  induction n with
  | zero =>
      intro done q state enough
      cases q with
      | nil => exact ⟨[], rfl, by simpa using state⟩
      | cons r q =>
          have := (List.subperm_of_subset state.nodup
            fun x inside => finite x (state.inside x inside)).length_le
          simp at this
          omega
  | succ n ih =>
      intro done q state enough
      cases q with
      | nil => exact ⟨[], rfl, by simpa using state⟩
      | cons r q =>
          obtain ⟨queue, next⟩ := state.step forest
          obtain ⟨order, ran, final⟩ := ih _ _ next (by simp; omega)
          refine ⟨r :: order, ?_, by simpa using final⟩
          rw [visits, queue, ran, Option.map_some]

/-- **A breadth-first traversal takes every node once, level by level.** -/
theorem visits_spec (nodes : List α) {roots : List α} {n : Nat} (forest : Forest children depth member)
    (finite : ∀ x, member x → x ∈ nodes) (enough : nodes.length ≤ n)
    (distinct : roots.Nodup) (isRoot : ∀ x, x ∈ roots ↔ member x ∧ depth x = 1) :
    ∃ order, visits children n roots = some order ∧ order.Nodup ∧
      (∀ x, x ∈ order ↔ member x) ∧ order.Pairwise fun x y => depth x ≤ depth y := by
  have start : Traversal children depth member [] roots := by
    refine ⟨by simpa using distinct, ?_, ?_, fun x h => ((isRoot x).1 (by simpa using h)).1,
      fun x h => Or.inl ((isRoot x).1 (by simpa using h)).2, fun x inX => Or.inr ?_⟩
    · rw [List.nil_append]
      refine List.pairwise_of_forall_mem_list fun x hx y hy => ?_
      exact (((isRoot x).1 hx).2).trans_le (((isRoot y).1 hy).2).ge
    · intro x hx y hy
      rw [((isRoot x).1 hx).2, ((isRoot y).1 hy).2]
      exact Nat.le_succ 1
    · -- climb from `x` to its root, one level at a time
      generalize hd : depth x = d
      induction d using Nat.strong_induction_on generalizing x with
      | _ d ih =>
          rcases forest.root_or_child inX with root | ⟨r, inR, child⟩
          · exact ⟨x, (isRoot x).2 ⟨inX, root⟩, .refl⟩
          · have := forest.child_depth child
            obtain ⟨y, waiting, path⟩ := ih (depth r) (by omega) r inR rfl
            exact ⟨y, waiting, path.tail child⟩
  obtain ⟨order, ran, final⟩ := Traversal.run forest finite n [] roots start (by simpa using enough)
  refine ⟨order, ran, by simpa using final.nodup, fun x => ⟨fun h => ?_, fun h => ?_⟩,
    by simpa using final.graded⟩
  · exact final.inside x (by simpa using h)
  · simpa using final.covers x h

omit [DecidableEq α] in
/-- When a node of a level order is taken, every shallower node has been taken. -/
theorem mem_of_lt_depth {done rest : List α} {r x : α}
    (graded : (done ++ r :: rest).Pairwise fun x y => depth x ≤ depth y)
    (inside : x ∈ done ++ r :: rest) (above : depth x < depth r) : x ∈ done := by
  rcases List.mem_append.1 inside with taken | later
  · exact taken
  · have sorted := (List.pairwise_append.1 graded).2.1
    rcases List.mem_cons.1 later with rfl | later
    · omega
    · have := (List.pairwise_cons.1 sorted).1 x later
      omega

/-- **The loop rule.**  Where a row queues the children of its node and carries an
invariant from the nodes taken before to those taken with it, the loop ends and
the invariant holds of the whole order. -/
theorem sweep_spec {ε σ : Type u} {stuck : ε} {row : α → List α × σ → Except ε (List α × σ)}
    {order : List α} (invariant : List α → σ → Prop)
    (step : ∀ done r rest q s, order = done ++ r :: rest → invariant done s →
      ∃ s', row r (q, s) = .ok ((children r).foldl enqueue q, s') ∧ invariant (done ++ [r]) s')
    (n : Nat) (done : List α) {rest q : List α} {s : σ} (split : order = done ++ rest)
    (ran : visits children n q = some rest) (holds : invariant done s) :
    ∃ s', sweep stuck row n q s = .ok s' ∧ invariant order s' := by
  induction n generalizing done rest q s with
  | zero =>
      cases q with
      | nil =>
          cases ran
          exact ⟨s, rfl, by simpa [split] using holds⟩
      | cons r q => simp [visits] at ran
  | succ n ih =>
      cases q with
      | nil =>
          cases ran
          exact ⟨s, rfl, by simpa [split] using holds⟩
      | cons r q =>
          rw [visits, Option.map_eq_some_iff] at ran
          obtain ⟨tail, ran, rfl⟩ := ran
          obtain ⟨s', handled, next⟩ := step done r tail q s split holds
          obtain ⟨s'', loop, final⟩ := ih (done ++ [r]) (by simpa using split) ran next
          refine ⟨s'', ?_, final⟩
          rw [sweep, handled]
          exact loop

end BreadthFirst

end Orchid.Theory
