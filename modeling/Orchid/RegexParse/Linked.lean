/-
# RegexParse.Linked -- what holds of the trees while they are built

A tree is a regular expression over the addresses of its leaves (`Node.expr`), and
what a node keeps of its first and last leaves is what the expression has.  `Linked`
says of a heap and the trees in it that every leaf has the followers its tree gives
it, and that no leaf is used twice; every constructor keeps it.

Only the followers and the greediness of a leaf ever change.  So the expression of a
tree with the leaves' tokens for their addresses (`Node.shape`) stays as it is, and a
copy has the shape of its original (`Linked.copyTree`).
-/
import Orchid.RegexParse.Tree

namespace Orchid

open Orchid.Theory

set_option autoImplicit false

abbrev Kinds := List (LeafToken ⊕ EndState)

namespace Node

def expr : Node → Expr Nat
  | leaf p nullable => if nullable then .null else .pos p
  | endLeaf p => .pos p
  | sequence left right => .seq left.expr right.expr
  | selection left right => .alt left.expr right.expr
  | iteration next _ => .star next.expr

theorem nullable_eq (node : Node) : node.nullable = node.expr.nullable := by
  induction node with
  | leaf p nullable => cases nullable <;> rfl
  | endLeaf p => rfl
  | sequence left right ihl ihr => rw [nullable, expr, Expr.nullable, ihl, ihr]
  | selection left right ihl ihr => rw [nullable, expr, Expr.nullable, ihl, ihr]
  | iteration next greedy ih => rfl

theorem firstpos_eq (node : Node) : node.firstpos = node.expr.first := by
  induction node with
  | leaf p nullable => cases nullable <;> rfl
  | endLeaf p => rfl
  | sequence left right ihl ihr => rw [firstpos, expr, Expr.first, ihl, ihr, nullable_eq]
  | selection left right ihl ihr => rw [firstpos, expr, Expr.first, ihl, ihr]
  | iteration next greedy ih => exact ih

theorem lastpos_eq (node : Node) : node.lastpos = node.expr.last := by
  induction node with
  | leaf p nullable => cases nullable <;> rfl
  | endLeaf p => rfl
  | sequence left right ihl ihr => rw [lastpos, expr, Expr.last, ihl, ihr, nullable_eq]
  | selection left right ihl ihr => rw [lastpos, expr, Expr.last, ihl, ihr]
  | iteration next greedy ih => exact ih

/-- The expression with the leaves' tokens for their addresses. -/
def shape (kinds : Kinds) (node : Node) : Expr (Option (LeafToken ⊕ EndState)) :=
  node.expr.map fun p => kinds[p]?

/-- The tree ends in leaves, and the ones it may skip are those of the null token. -/
def Leafy (kinds : Kinds) : Node → Prop
  | leaf p nullable => ∃ token, kinds[p]? = some (Sum.inl token) ∧ nullable = decide (token = .null)
  | endLeaf _ => False
  | sequence left right => left.Leafy kinds ∧ right.Leafy kinds
  | selection left right => left.Leafy kinds ∧ right.Leafy kinds
  | iteration next _ => next.Leafy kinds

/-- No repetition of the tree is a lazy one. -/
def Eager : Node → Prop
  | leaf _ _ => True
  | endLeaf _ => True
  | sequence left right => left.Eager ∧ right.Eager
  | selection left right => left.Eager ∧ right.Eager
  | iteration next greedy => next.Eager ∧ greedy = true

theorem getElem?_extended {kinds kinds' : Kinds} (more : kinds <+: kinds') {p : Nat} (inside : p < kinds.length) :
    kinds'[p]? = kinds[p]? := by
  obtain ⟨rest, rfl⟩ := more
  exact List.getElem?_append_left inside

theorem Leafy.mono {kinds kinds' : Kinds} (more : kinds <+: kinds') {node : Node} (leafy : node.Leafy kinds) :
    node.Leafy kinds' := by
  induction node with
  | leaf p nullable =>
      obtain ⟨token, here, same⟩ := leafy
      refine ⟨token, ?_, same⟩
      rwa [getElem?_extended more (List.getElem?_eq_some_iff.1 here).1]
  | endLeaf p => exact leafy
  | sequence left right ihl ihr => exact ⟨ihl leafy.1, ihr leafy.2⟩
  | selection left right ihl ihr => exact ⟨ihl leafy.1, ihr leafy.2⟩
  | iteration next greedy ih => exact ih leafy

theorem Leafy.token {kinds : Kinds} {node : Node} (leafy : node.Leafy kinds) :
    ∀ p ∈ node.expr.positions, ∃ token, kinds[p]? = some (Sum.inl token) ∧ token ≠ .null := by
  induction node with
  | leaf p nullable =>
      obtain ⟨token, here, same⟩ := leafy
      intro q inside
      cases nullable with
      | false =>
          obtain rfl := List.mem_singleton.1 inside
          exact ⟨token, here, of_decide_eq_false same.symm⟩
      | true => cases inside
  | endLeaf p => exact leafy.elim
  | sequence left right ihl ihr =>
      intro p inside
      exact (List.mem_append.1 inside).elim (ihl leafy.1 p) (ihr leafy.2 p)
  | selection left right ihl ihr =>
      intro p inside
      exact (List.mem_append.1 inside).elim (ihl leafy.1 p) (ihr leafy.2 p)
  | iteration next greedy ih => exact ih leafy

theorem Leafy.isLeaf {heap : Heap} {node : Node} (leafy : node.Leafy heap.kinds) {p : Nat}
    (inside : p ∈ node.expr.positions) : heap.IsLeaf p := by
  obtain ⟨token, here, -⟩ := leafy.token p inside
  exact ⟨token, here⟩

theorem shape_extended {kinds kinds' : Kinds} (more : kinds <+: kinds') {node : Node}
    (inside : ∀ p ∈ node.expr.positions, p < kinds.length) : node.shape kinds' = node.shape kinds :=
  Expr.map_congr fun p member => getElem?_extended more (inside p member)

end Node

/-! ## Followers in the heap -/

/-- Every leaf of the trees has its followers, and no leaf is used twice. -/
structure Linked (heap : Heap) (roots : List Node) : Prop where
  inside : ∀ node ∈ roots, ∀ p ∈ node.expr.positions, p < heap.length
  follows : ∀ node ∈ roots, ∀ p ∈ node.expr.positions, ∀ q, q ∈ heap.followpos p ↔ node.expr.Follows p q
  once : (roots.flatMap fun node => node.expr.positions).Nodup

def Heap.Eager (heap : Heap) : Prop := ∀ p, heap.greedy p = true

theorem Heap.length_kinds (heap : Heap) : heap.kinds.length = heap.length := List.length_map ..

namespace Linked

variable {heap : Heap} {node left right : Node} {roots : List Node}

/-- No leaf of the first tree is one of another. -/
theorem apart (linked : Linked heap (node :: roots)) {p : Nat} (here : p ∈ node.expr.positions) :
    ∀ other ∈ roots, p ∉ other.expr.positions := by
  intro other member there
  have both := (List.nodup_append'.1 linked.once).2.2
  exact both here (List.mem_flatMap.2 ⟨other, member, there⟩)

theorem tail (linked : Linked heap (node :: roots)) : Linked heap roots where
  inside other member := linked.inside other (List.mem_cons_of_mem _ member)
  follows other member := linked.follows other (List.mem_cons_of_mem _ member)
  once := (List.nodup_append'.1 linked.once).2.1

/-- Taking the trees together does not use a leaf twice. -/
theorem once_pair (linked : Linked heap (right :: left :: roots)) {node : Node}
    (positions : node.expr.positions = left.expr.positions ++ right.expr.positions) :
    ((node :: roots).flatMap fun node => node.expr.positions).Nodup := by
  have once := linked.once
  simp only [List.flatMap_cons] at once ⊢
  rw [positions]
  have order : (right.expr.positions ++ (left.expr.positions ++ roots.flatMap fun node => node.expr.positions)).Perm
      (left.expr.positions ++ right.expr.positions ++ roots.flatMap fun node => node.expr.positions) := by
    rw [← List.append_assoc]
    exact List.Perm.append_right _ List.perm_append_comm
  exact order.nodup_iff.1 once

/-- Only the followers and the size of the heap matter. -/
theorem of_followpos (linked : Linked heap roots) {heap' : Heap} (length : heap'.length = heap.length)
    (followers : ∀ p, heap'.followpos p = heap.followpos p) : Linked heap' roots where
  inside node member p here := by
    rw [length]
    exact linked.inside node member p here
  follows node member p here q := by
    rw [followers]
    exact linked.follows node member p here q
  once := linked.once

theorem of_perm (linked : Linked heap roots) {roots' : List Node} (perm : roots'.Perm roots) : Linked heap roots' where
  inside node member := linked.inside node (perm.mem_iff.1 member)
  follows node member := linked.follows node (perm.mem_iff.1 member)
  once := (perm.flatMap_right _).nodup_iff.2 linked.once

theorem selectionNode (linked : Linked heap (right :: left :: roots)) :
    Linked heap (selectionNode left right :: roots) where
  inside other member p here := by
    rcases List.mem_cons.1 member with rfl | member
    · rcases List.mem_append.1 here with here | here
      · exact linked.inside left (by simp) p here
      · exact linked.inside right (by simp) p here
    · exact linked.tail.tail.inside other member p here
  follows other member p here q := by
    rcases List.mem_cons.1 member with rfl | member
    · show _ ↔ left.expr.Follows p q ∨ right.expr.Follows p q
      rcases List.mem_append.1 here with here | here
      · have outside : ¬ right.expr.Follows p q := fun follows =>
          linked.apart follows.subset.1 left (by simp) here
        rw [or_iff_left outside]
        exact linked.follows left (by simp) p here q
      · have outside : ¬ left.expr.Follows p q := fun follows =>
          linked.apart here left (by simp) follows.subset.1
        rw [or_iff_right outside]
        exact linked.follows right (by simp) p here q
    · exact linked.tail.tail.follows other member p here q
  once := linked.once_pair rfl

theorem sequenceNode (linked : Linked heap (right :: left :: roots)) (leafy : left.Leafy heap.kinds) :
    ∃ heap', sequenceNode left right heap = .ok (.sequence left right, heap') ∧ heap'.kinds = heap.kinds ∧
      (heap.Eager → heap'.Eager) ∧ Linked heap' (.sequence left right :: roots) := by
  have leaves : ∀ p ∈ left.lastpos, heap.IsLeaf p := fun p member =>
    leafy.isLeaf (Expr.last_subset left.expr p (by rwa [← left.lastpos_eq]))
  obtain ⟨heap', done, kinds, greedy, followers⟩ := heap.updateAll_appendFollowpos right.firstpos leaves
  have length : heap'.length = heap.length := by
    rw [← heap'.length_kinds, kinds, heap.length_kinds]
  simp only [left.lastpos_eq, right.firstpos_eq] at followers
  refine ⟨heap', ?_, kinds, fun eager p => by rw [greedy, eager], ⟨?_, ?_, linked.once_pair rfl⟩⟩
  · unfold Orchid.sequenceNode
    rw [done]
    rfl
  · intro other member p here
    rw [length]
    rcases List.mem_cons.1 member with rfl | member
    · exact linked.selectionNode.inside _ List.mem_cons_self p here
    · exact linked.tail.tail.inside other member p here
  · intro other member p here q
    rw [followers]
    rcases List.mem_cons.1 member with rfl | member
    · show _ ↔ left.expr.Follows p q ∨ right.expr.Follows p q ∨ p ∈ left.expr.last ∧ q ∈ right.expr.first
      rcases List.mem_append.1 here with here | here
      · have outside : ¬ right.expr.Follows p q := fun follows =>
          linked.apart follows.subset.1 left (by simp) here
        rw [linked.follows left (by simp) p here q, or_iff_right outside]
      · have outside : ¬ left.expr.Follows p q := fun follows =>
          linked.apart here left (by simp) follows.subset.1
        have notLast : ¬ (p ∈ left.expr.last ∧ q ∈ right.expr.first) := fun both =>
          linked.apart here left (by simp) (Expr.last_subset _ p both.1)
        rw [linked.follows right (by simp) p here q, or_iff_right outside]
    · have notLast : ¬ (p ∈ left.expr.last ∧ q ∈ right.expr.first) := fun both =>
        linked.tail.apart (Expr.last_subset _ p both.1) other member here
      rw [or_iff_left notLast]
      exact linked.tail.tail.follows other member p here q

theorem iterationNode (linked : Linked heap (node :: roots)) (leafy : node.Leafy heap.kinds) (greedy : Bool) :
    ∃ heap', iterationNode node greedy heap = .ok (.iteration node greedy, heap') ∧ heap'.kinds = heap.kinds ∧
      (greedy = true → heap.Eager → heap'.Eager) ∧ Linked heap' (.iteration node greedy :: roots) := by
  have lasts : ∀ p ∈ node.lastpos, heap.IsLeaf p := fun p member =>
    leafy.isLeaf (Expr.last_subset node.expr p (by rwa [← node.lastpos_eq]))
  obtain ⟨middle, done, kinds, greedy_, followers⟩ := heap.updateAll_appendFollowpos node.firstpos lasts
  have firsts : ∀ p ∈ node.firstpos, middle.IsLeaf p := by
    intro p member
    unfold Heap.IsLeaf
    rw [kinds]
    exact leafy.isLeaf (Expr.first_subset node.expr p (by rwa [← node.firstpos_eq]))
  obtain ⟨heap', done', kinds', followers', greedy'⟩ := middle.updateAll_setGreedy greedy firsts
  have length : heap'.length = heap.length := by
    rw [← heap'.length_kinds, kinds', kinds, heap.length_kinds]
  simp only [node.lastpos_eq, node.firstpos_eq] at followers
  refine ⟨heap', ?_, kinds'.trans kinds, fun told eager p => ?_, ⟨?_, ?_, linked.once⟩⟩
  · unfold Orchid.iterationNode
    rw [done]
    show (do let heap ← middle.updateAll (Cell.setGreedy greedy) node.firstpos; _) = _
    rw [done']
    rfl
  · exact greedy' told p (by rw [greedy_, eager])
  · intro other member p here
    rw [length]
    rcases List.mem_cons.1 member with rfl | member
    · exact linked.inside node List.mem_cons_self p here
    · exact linked.tail.inside other member p here
  · intro other member p here q
    rw [followers', followers]
    rcases List.mem_cons.1 member with rfl | member
    · exact or_congr_left (linked.follows node List.mem_cons_self p here q)
    · have notLast : ¬ (p ∈ node.expr.last ∧ q ∈ node.expr.first) := fun both =>
        linked.apart (Expr.last_subset _ p both.1) other member here
      rw [or_iff_left notLast]
      exact linked.tail.follows other member p here q

/-- A new cell is in no tree. -/
theorem push (linked : Linked heap roots) (cell : Cell) : Linked (heap ++ [cell]) roots where
  inside other member p here := by
    rw [List.length_append]
    exact Nat.lt_succ_of_lt (linked.inside other member p here)
  follows other member p here q := by
    rw [Heap.followpos, List.getElem?_append_left (linked.inside other member p here)]
    exact linked.follows other member p here q
  once := linked.once

/-- A new cell is a tree of its own. -/
theorem cons_pos (linked : Linked heap roots) {cell : Cell} (fresh : cell.followpos = []) {node : Node}
    (expr : node.expr = .pos heap.length) : Linked (heap ++ [cell]) (node :: roots) where
  inside other member p here := by
    rcases List.mem_cons.1 member with rfl | member
    · rw [expr] at here
      rw [List.mem_singleton.1 here, List.length_append]
      exact Nat.lt_succ_self _
    · exact (linked.push cell).inside other member p here
  follows other member p here q := by
    rcases List.mem_cons.1 member with rfl | member
    · rw [expr] at here ⊢
      obtain rfl := List.mem_singleton.1 here
      rw [Heap.followpos, List.getElem?_append_right (Nat.le_refl _), Nat.sub_self]
      show q ∈ cell.followpos ↔ False
      rw [fresh]
      exact iff_of_false (by simp) not_false
    · exact (linked.push cell).follows other member p here q
  once := by
    rw [List.flatMap_cons, expr]
    refine List.nodup_cons.2 ⟨fun inside => ?_, linked.once⟩
    obtain ⟨other, member, here⟩ := List.mem_flatMap.1 inside
    exact Nat.lt_irrefl _ (linked.inside other member _ here)

theorem cons_null (linked : Linked heap roots) {node : Node} (expr : node.expr = .null) : Linked heap (node :: roots) where
  inside other member p here := by
    rcases List.mem_cons.1 member with rfl | member
    · rw [expr] at here
      cases here
    · exact linked.inside other member p here
  follows other member p here q := by
    rcases List.mem_cons.1 member with rfl | member
    · rw [expr] at here
      cases here
    · exact linked.follows other member p here q
  once := by
    rw [List.flatMap_cons, expr]
    exact linked.once

theorem leafNode (linked : Linked heap roots) (token : LeafToken) (greedy : Bool) :
    Linked (leafNode token greedy heap).2 ((leafNode token greedy heap).1 :: roots) := by
  by_cases isNull : token = .null
  · exact (linked.push _).cons_null (by simp [Orchid.leafNode, Node.expr, isNull])
  · exact linked.cons_pos rfl (by simp [Orchid.leafNode, Node.expr, isNull])

end Linked

theorem kinds_leafNode (token : LeafToken) (greedy : Bool) (heap : Heap) :
    (leafNode token greedy heap).2.kinds = heap.kinds ++ [Sum.inl token] := List.map_append

theorem getElem?_kinds_leafNode (token : LeafToken) (greedy : Bool) (heap : Heap) :
    (leafNode token greedy heap).2.kinds[heap.length]? = some (Sum.inl token) := by
  rw [kinds_leafNode, ← heap.length_kinds, List.getElem?_append_right (Nat.le_refl _), Nat.sub_self]
  rfl

theorem leafy_leafNode (token : LeafToken) (greedy : Bool) (heap : Heap) :
    (leafNode token greedy heap).1.Leafy (leafNode token greedy heap).2.kinds :=
  ⟨token, getElem?_kinds_leafNode token greedy heap, rfl⟩

/-- The shape of a leaf with the token. -/
def tokenShape (token : LeafToken) : Expr (Option (LeafToken ⊕ EndState)) :=
  if token = .null then .null else .pos (some (Sum.inl token))

theorem shape_leafNode (token : LeafToken) (greedy : Bool) (heap : Heap) :
    (leafNode token greedy heap).1.shape (leafNode token greedy heap).2.kinds = tokenShape token := by
  have here := getElem?_kinds_leafNode token greedy heap
  unfold Node.shape tokenShape
  rw [leafNode]
  by_cases isNull : token = .null
  · simp [Node.expr, isNull, Expr.map]
  · simp [Node.expr, isNull, Expr.map, ← here, leafNode]

theorem Heap.Eager.leafNode {heap : Heap} (eager : heap.Eager) (token : LeafToken) :
    (leafNode token true heap).2.Eager := by
  intro p
  by_cases old : p < heap.length
  · show Heap.greedy (heap ++ [_]) p = true
    rw [Heap.greedy, List.getElem?_append_left old]
    exact eager p
  · show Heap.greedy (heap ++ [_]) p = true
    rw [Heap.greedy, List.getElem?_append_right (Nat.le_of_not_lt old)]
    cases p - heap.length <;> rfl

/-! ## A stack of trees -/

abbrev Shape := Expr (Option (LeafToken ⊕ EndState))

/-- The trees of a stack, beside the others that are built already, are linked, end in
leaves and have the shapes; all of it is greedy if `eager` holds. -/
structure Stacked (eager : Prop) (others : List Node) (heap : Heap) (nodes : List Node) (shapes : List Shape) : Prop where
  linked : Linked heap (nodes ++ others)
  leafy : ∀ node ∈ nodes, node.Leafy heap.kinds
  shapes : nodes.map (Node.shape heap.kinds) = shapes
  greedy : eager → heap.Eager ∧ ∀ node ∈ nodes, node.Eager

namespace Stacked

variable {eager : Prop} {others : List Node} {heap : Heap} {nodes : List Node} {shapes : List Shape}

theorem nil (linked : Linked heap others) (greedy : eager → heap.Eager) : Stacked eager others heap [] [] where
  linked := linked
  leafy := by simp
  shapes := rfl
  greedy := fun told => ⟨greedy told, by simp⟩

theorem weaken (stacked : Stacked eager others heap nodes shapes) {eager' : Prop} (less : eager' → eager) :
    Stacked eager' others heap nodes shapes :=
  ⟨stacked.linked, stacked.leafy, stacked.shapes, fun told => stacked.greedy (less told)⟩

/-- The heap may grow. -/
theorem shapes_mono (stacked : Stacked eager others heap nodes shapes) {kinds : Kinds} (more : heap.kinds <+: kinds) :
    nodes.map (Node.shape kinds) = shapes := by
  rw [← stacked.shapes]
  apply List.map_congr_left
  intro node member
  apply Node.shape_extended more
  rw [heap.length_kinds]
  exact stacked.linked.inside node (List.mem_append_left _ member)

/-- The trees may be put in another order. -/
theorem of_perm (stacked : Stacked eager others heap nodes shapes) {nodes' : List Node} {shapes' : List Shape}
    (perm : nodes'.Perm nodes) (shapes_ : nodes'.map (Node.shape heap.kinds) = shapes') :
    Stacked eager others heap nodes' shapes' where
  linked := stacked.linked.of_perm (perm.append_right _)
  leafy node member := stacked.leafy node (perm.mem_iff.1 member)
  shapes := shapes_
  greedy told := ⟨(stacked.greedy told).1, fun node member => (stacked.greedy told).2 node (perm.mem_iff.1 member)⟩

theorem swap {first second : Node} {shape1 shape2 : Shape}
    (stacked : Stacked eager others heap (first :: second :: nodes) (shape1 :: shape2 :: shapes)) :
    Stacked eager others heap (second :: first :: nodes) (shape2 :: shape1 :: shapes) := by
  apply stacked.of_perm (List.Perm.swap ..)
  have here := stacked.shapes
  simp only [List.map_cons, List.cons.injEq] at here ⊢
  exact ⟨here.2.1, here.1, here.2.2⟩

theorem rotate {first second third : Node} {shape1 shape2 shape3 : Shape}
    (stacked : Stacked eager others heap (first :: second :: third :: nodes) (shape1 :: shape2 :: shape3 :: shapes)) :
    Stacked eager others heap (second :: third :: first :: nodes) (shape2 :: shape3 :: shape1 :: shapes) := by
  apply stacked.of_perm (((List.Perm.swap ..).cons second).trans (List.Perm.swap ..))
  have here := stacked.shapes
  simp only [List.map_cons, List.cons.injEq] at here ⊢
  exact ⟨here.2.1, here.2.2.1, here.1, here.2.2.2⟩

/-- Telling the first leaves of the top whether they are greedy. -/
theorem setGreedy {node : Node} (stacked : Stacked eager others heap (node :: nodes) shapes) {greedy : Bool}
    (told : eager → greedy = true) : ∃ heap' : Heap, heap.updateAll (Cell.setGreedy greedy) node.firstpos = .ok heap' ∧
      heap'.kinds = heap.kinds ∧ Stacked eager others heap' (node :: nodes) shapes := by
  have leafy := stacked.leafy node List.mem_cons_self
  have firsts : ∀ p ∈ node.firstpos, heap.IsLeaf p := fun p member =>
    leafy.isLeaf (Expr.first_subset node.expr p (by rwa [← node.firstpos_eq]))
  obtain ⟨heap', done, kinds, followers, greedy'⟩ := heap.updateAll_setGreedy greedy firsts
  have length : heap'.length = heap.length := by
    rw [← heap'.length_kinds, kinds, heap.length_kinds]
  refine ⟨heap', done, kinds, stacked.linked.of_followpos length followers, ?_, ?_, fun here => ?_⟩
  · rw [kinds]
    exact stacked.leafy
  · rw [kinds]
    exact stacked.shapes
  · obtain ⟨eagerHeap, eagerNodes⟩ := stacked.greedy here
    exact ⟨fun p => greedy' (told here) p (eagerHeap p), eagerNodes⟩

/-- The top trees are taken off and `node`, which is linked, is put in their place. -/
theorem replace (top : List Node) (shapesTop : List Shape) (stacked : Stacked eager others heap (top ++ nodes) (shapesTop ++ shapes))
    (length : top.length = shapesTop.length) {heap' : Heap} (kinds : heap'.kinds = heap.kinds) {node : Node}
    (linked : Linked heap' (node :: (nodes ++ others))) (leafy : node.Leafy heap.kinds) {shape : Shape}
    (shape_ : node.shape heap.kinds = shape) {eager' : Prop} (less : eager' → eager)
    (greedy : eager' → heap.Eager → (∀ node ∈ top, node.Eager) → heap'.Eager ∧ node.Eager) :
    Stacked eager' others heap' (node :: nodes) (shape :: shapes) where
  linked := linked
  leafy other member := by
    rw [kinds]
    rcases List.mem_cons.1 member with rfl | member
    · exact leafy
    · exact stacked.leafy other (List.mem_append_right _ member)
  shapes := by
    have whole := stacked.shapes
    rw [List.map_append] at whole
    rw [List.map_cons, kinds, shape_, (List.append_inj whole (by rw [List.length_map, length])).2]
  greedy told := by
    obtain ⟨eagerHeap, eagerNodes⟩ := stacked.greedy (less told)
    obtain ⟨eager1, eager2⟩ := greedy told eagerHeap fun other member => eagerNodes other (List.mem_append_left _ member)
    refine ⟨eager1, fun other member => ?_⟩
    rcases List.mem_cons.1 member with rfl | member
    · exact eager2
    · exact eagerNodes other (List.mem_append_right _ member)

section Ops

variable {left right node : Node} {shapeL shapeR shape : Shape}

theorem sequenceNode (stacked : Stacked eager others heap (right :: left :: nodes) (shapeR :: shapeL :: shapes)) :
    ∃ heap', sequenceNode left right heap = .ok (.sequence left right, heap') ∧ heap'.kinds = heap.kinds ∧
      Stacked eager others heap' (.sequence left right :: nodes) (.seq shapeL shapeR :: shapes) := by
  have leafyL := stacked.leafy left (by simp)
  have leafyR := stacked.leafy right (by simp)
  obtain ⟨heap', done, kinds, greedy, linked⟩ := stacked.linked.sequenceNode leafyL
  refine ⟨heap', done, kinds, ?_⟩
  have here := stacked.shapes
  simp only [List.map_cons, List.cons.injEq] at here
  refine replace [right, left] [shapeR, shapeL] stacked rfl kinds linked ⟨leafyL, leafyR⟩ ?_ id ?_
  · rw [← here.1, ← here.2.1]
    rfl
  · exact fun _ eagerHeap each => ⟨greedy eagerHeap, each left (by simp), each right (by simp)⟩

theorem selectionNode (stacked : Stacked eager others heap (right :: left :: nodes) (shapeR :: shapeL :: shapes)) :
    Stacked eager others heap (selectionNode left right :: nodes) (.alt shapeL shapeR :: shapes) := by
  have leafyL := stacked.leafy left (by simp)
  have leafyR := stacked.leafy right (by simp)
  have here := stacked.shapes
  simp only [List.map_cons, List.cons.injEq] at here
  refine replace [right, left] [shapeR, shapeL] stacked rfl rfl stacked.linked.selectionNode
    ⟨leafyL, leafyR⟩ ?_ id ?_
  · rw [← here.1, ← here.2.1]
    rfl
  · exact fun _ eagerHeap each => ⟨eagerHeap, each left (by simp), each right (by simp)⟩

theorem iterationNode (stacked : Stacked eager others heap (node :: nodes) (shape :: shapes)) (greedy : Bool) :
    ∃ heap', iterationNode node greedy heap = .ok (.iteration node greedy, heap') ∧ heap'.kinds = heap.kinds ∧
      Stacked (eager ∧ greedy = true) others heap' (.iteration node greedy :: nodes) (.star shape :: shapes) := by
  have leafy := stacked.leafy node (by simp)
  obtain ⟨heap', done, kinds, eagerly, linked⟩ := stacked.linked.iterationNode leafy greedy
  refine ⟨heap', done, kinds, ?_⟩
  have here := stacked.shapes
  simp only [List.map_cons, List.cons.injEq] at here
  refine replace [node] [shape] stacked rfl kinds linked leafy ?_ And.left ?_
  · rw [← here.1]
    rfl
  · exact fun told eagerHeap each => ⟨eagerly told.2 eagerHeap, each node (by simp), told.2⟩

theorem leafNode (stacked : Stacked eager others heap nodes shapes) (token : LeafToken) (greedy : Bool) :
    Stacked (eager ∧ greedy = true) others (leafNode token greedy heap).2 ((leafNode token greedy heap).1 :: nodes)
      (tokenShape token :: shapes) where
  linked := stacked.linked.leafNode token greedy
  leafy other member := by
    rcases List.mem_cons.1 member with rfl | member
    · exact leafy_leafNode token greedy heap
    · exact (stacked.leafy other member).mono (by rw [kinds_leafNode]; exact List.prefix_append ..)
  shapes := by
    rw [List.map_cons, shape_leafNode, stacked.shapes_mono (by rw [kinds_leafNode]; exact List.prefix_append ..)]
  greedy := by
    rintro ⟨told, rfl⟩
    obtain ⟨eagerHeap, eagerNodes⟩ := stacked.greedy told
    refine ⟨eagerHeap.leafNode token, fun other member => ?_⟩
    rcases List.mem_cons.1 member with rfl | member
    · trivial
    · exact eagerNodes other member

end Ops

/-- **A copy is a tree of its own with the shape of its original.** -/
theorem copyTree : ∀ (node : Node) {heap : Heap} {nodes : List Node} {shapes : List Shape},
    Stacked eager others heap nodes shapes → node.Leafy heap.kinds → (eager → node.Eager) →
      ∃ node' heap', node.copyTree heap = .ok (node', heap') ∧ heap.kinds <+: heap'.kinds ∧
        Stacked eager others heap' (node' :: nodes) (node.shape heap.kinds :: shapes) := by
  intro node
  induction node with
  | leaf p nullable =>
      intro heap nodes shapes stacked leafy eagerly
      obtain ⟨token, kind, same⟩ := leafy
      obtain ⟨token', setGreedy, greedy, followpos, here⟩ := Heap.IsLeaf.cell ⟨token, kind⟩
      obtain rfl : token' = token := by
        rw [Heap.kinds, List.getElem?_map, here] at kind
        exact Sum.inl.inj (Option.some.inj kind)
      have shape : (Node.leaf p nullable).shape heap.kinds = tokenShape token' := by
        unfold Node.shape tokenShape Node.expr
        rw [same]
        by_cases isNull : token' = .null <;> simp [isNull, Expr.map, kind]
      refine ⟨(Orchid.leafNode token' greedy heap).1, (Orchid.leafNode token' greedy heap).2, ?_, ?_, ?_⟩
      · simp only [Node.copyTree, here]
      · rw [kinds_leafNode]
        exact List.prefix_append ..
      · rw [shape]
        apply (stacked.leafNode token' greedy).weaken
        intro told
        have eager' := (stacked.greedy told).1 p
        rw [Heap.greedy_of_cell here] at eager'
        exact ⟨told, eager'⟩
  | endLeaf p => exact fun _ leafy => leafy.elim
  | sequence left right ihl ihr =>
      intro heap nodes shapes stacked leafy eagerly
      obtain ⟨left', heapL, doneL, moreL, stackedL⟩ := ihl stacked leafy.1 fun told => (eagerly told).1
      obtain ⟨right', heapR, doneR, moreR, stackedR⟩ := ihr stackedL (leafy.2.mono moreL) fun told => (eagerly told).2
      obtain ⟨heap', done, kinds, stacked'⟩ := stackedR.sequenceNode
      have more : heap.kinds <+: heap'.kinds := by
        rw [kinds]
        exact moreL.trans moreR
      refine ⟨.sequence left' right', heap', ?_, more, ?_⟩
      · rw [Node.copyTree, bind_of_ok doneL]
        exact (bind_of_ok doneR).trans done
      · have same : right.shape heapL.kinds = right.shape heap.kinds :=
          Node.shape_extended moreL fun p inside =>
            (List.getElem?_eq_some_iff.1 (leafy.2.token p inside).choose_spec.1).1
        rw [same] at stacked'
        exact stacked'
  | selection left right ihl ihr =>
      intro heap nodes shapes stacked leafy eagerly
      obtain ⟨left', heapL, doneL, moreL, stackedL⟩ := ihl stacked leafy.1 fun told => (eagerly told).1
      obtain ⟨right', heapR, doneR, moreR, stackedR⟩ := ihr stackedL (leafy.2.mono moreL) fun told => (eagerly told).2
      refine ⟨.selection left' right', heapR, ?_, moreL.trans moreR, ?_⟩
      · rw [Node.copyTree, bind_of_ok doneL]
        exact bind_of_ok doneR
      · have same : right.shape heapL.kinds = right.shape heap.kinds :=
          Node.shape_extended moreL fun p inside =>
            (List.getElem?_eq_some_iff.1 (leafy.2.token p inside).choose_spec.1).1
        have stacked' := stackedR.selectionNode
        rw [same] at stacked'
        exact stacked'
  | iteration next greedy ih =>
      intro heap nodes shapes stacked leafy eagerly
      obtain ⟨next', heapN, doneN, moreN, stackedN⟩ := ih stacked leafy fun told => (eagerly told).1
      obtain ⟨heap', done, kinds, stacked'⟩ := stackedN.iterationNode greedy
      have more : heap.kinds <+: heap'.kinds := by
        rw [kinds]
        exact moreN
      refine ⟨.iteration next' greedy, heap', ?_, more, stacked'.weaken fun told => ⟨told, (eagerly told).2⟩⟩
      rw [Node.copyTree, doneN]
      exact done

/-- The stacked walk of the source does the same. -/
theorem copy (stacked : Stacked eager others heap nodes shapes) {node : Node} (leafy : node.Leafy heap.kinds)
    (eagerly : eager → node.Eager) : ∃ node' heap', node.copy heap = .ok (node', heap') ∧
      heap.kinds <+: heap'.kinds ∧ Stacked eager others heap' (node' :: nodes) (node.shape heap.kinds :: shapes) := by
  obtain ⟨node', heap', done, more, stacked'⟩ := stacked.copyTree node leafy eagerly
  exact ⟨node', heap', Node.copy_eq done, more, stacked'⟩

end Stacked

end Orchid
