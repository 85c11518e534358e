/-
# RegexParse.Tree -- the syntax tree and its followers

The parser keeps its nodes in a vector.  Leaves and end nodes are pointed at by other
nodes and change after they are built: whenever a sequence or an iteration is built,
the leaves its left or repeated part can end with get the leaves that may come next.
So they are cells of a heap here, and a tree holds their addresses.  The other nodes
never change and are the constructors of `Node`.

`copy` walks the tree with two stacks and a third one of new nodes; what it builds is
the tree built anew from the leaves up (`copyLoop_eq`).
-/
import Orchid.Machine
import Orchid.Theory.Outcome
import Orchid.Theory.Positions

namespace Orchid

open Orchid.Theory

set_option autoImplicit false

/-! ## Cells -/

/-- What a leaf stands for: a character set by its number in the parser's map, or one
of the three reserved ids. -/
inductive LeafToken where
  | charset (id : Nat)
  | bol
  | eol
  | null
  deriving DecidableEq, Repr

/-- The values of an end node. -/
structure EndState where
  id : Uint
  userId : Uint
  nextDfa : Uint
  pushDfa : Uint
  popDfa : Bool
  deriving DecidableEq, Repr

inductive Cell where
  | leafNode (token : LeafToken) (setGreedy greedy : Bool) (followpos : List Nat)
  | endNode (end_ : EndState)
  deriving DecidableEq, Repr

abbrev Heap := List Cell

namespace Cell

def appendFollowpos (followpos : List Nat) : Cell → Except String Cell
  | leafNode token setGreedy greedy old => .ok (leafNode token setGreedy greedy (old ++ followpos))
  | endNode _ => .error "Internal error node::append_followpos()."

/-- The first call decides. -/
def setGreedy (greedy : Bool) : Cell → Except String Cell
  | leafNode token false _ followpos => .ok (leafNode token true greedy followpos)
  | leafNode token true old followpos => .ok (leafNode token true old followpos)
  | endNode _ => .error "Internal error node::greedy(bool)."

/-- What a cell is built with and keeps. -/
def kind : Cell → LeafToken ⊕ EndState
  | leafNode token _ _ _ => Sum.inl token
  | endNode end_ => Sum.inr end_

def followpos : Cell → List Nat
  | leafNode _ _ _ followpos => followpos
  | endNode _ => []

def greedy : Cell → Bool
  | leafNode _ _ greedy _ => greedy
  | endNode _ => true

end Cell

namespace Heap

/-- A call through a pointer; a dangling one has no meaning in the source. -/
def update (f : Cell → Except String Cell) (heap : Heap) (p : Nat) : Except String Heap :=
  match heap[p]? with
  | none => .error "dangling node"
  | some cell => (f cell).map fun cell => heap.set p cell

/-- The call for every node of a vector. -/
def updateAll (f : Cell → Except String Cell) (heap : Heap) (ps : List Nat) : Except String Heap :=
  ps.foldlM (update f) heap

def kinds (heap : Heap) : List (LeafToken ⊕ EndState) := heap.map Cell.kind

def IsLeaf (heap : Heap) (p : Nat) : Prop := ∃ token, (kinds heap)[p]? = some (Sum.inl token)

def followpos (heap : Heap) (p : Nat) : List Nat := (heap[p]?.map Cell.followpos).getD []

def greedy (heap : Heap) (p : Nat) : Bool := (heap[p]?.map Cell.greedy).getD true

/-! ### What the calls change -/

theorem IsLeaf.cell {heap : Heap} {p : Nat} (leaf : heap.IsLeaf p) :
    ∃ token setGreedy greedy followpos, heap[p]? = some (.leafNode token setGreedy greedy followpos) := by
  obtain ⟨token, here⟩ := leaf
  rw [kinds, List.getElem?_map] at here
  obtain ⟨cell, there, kind⟩ := Option.map_eq_some_iff.1 here
  cases cell with
  | leafNode token setGreedy greedy followpos => exact ⟨token, setGreedy, greedy, followpos, there⟩
  | endNode end_ => cases kind

theorem kinds_set {heap : Heap} {p : Nat} {old : Cell} (here : heap[p]? = some old) (new : Cell)
    (same : new.kind = old.kind) :
    kinds (heap.set p new) = heap.kinds := by
  rw [kinds, kinds, List.map_set]
  apply List.ext_getElem? fun k => ?_
  by_cases at_ : p = k
  · subst at_
    have inside := (List.getElem?_eq_some_iff.1 here).1
    rw [List.getElem?_set_self (by rwa [List.length_map]), List.getElem?_map, here, Option.map_some, same]
  · rw [List.getElem?_set_ne at_]

theorem followpos_set {heap : Heap} {p : Nat} {old : Cell} (here : heap[p]? = some old) (new : Cell) (k : Nat) :
    followpos (heap.set p new) k = if k = p then new.followpos else heap.followpos k := by
  have inside := (List.getElem?_eq_some_iff.1 here).1
  by_cases at_ : k = p
  · subst at_
    rw [if_pos rfl, followpos, List.getElem?_set_self inside]
    rfl
  · rw [if_neg at_, followpos, followpos, List.getElem?_set_ne (Ne.symm at_)]

theorem greedy_set {heap : Heap} {p : Nat} {old : Cell} (here : heap[p]? = some old) (new : Cell) (k : Nat) :
    greedy (heap.set p new) k = if k = p then new.greedy else heap.greedy k := by
  have inside := (List.getElem?_eq_some_iff.1 here).1
  by_cases at_ : k = p
  · subst at_
    rw [if_pos rfl, greedy, List.getElem?_set_self inside]
    rfl
  · rw [if_neg at_, greedy, greedy, List.getElem?_set_ne (Ne.symm at_)]

theorem followpos_of_cell {heap : Heap} {p : Nat} {cell : Cell} (here : heap[p]? = some cell) :
    heap.followpos p = cell.followpos := by
  rw [followpos, here]
  rfl

theorem greedy_of_cell {heap : Heap} {p : Nat} {cell : Cell} (here : heap[p]? = some cell) :
    heap.greedy p = cell.greedy := by
  rw [greedy, here]
  rfl

/-- Followers are added to the leaves of the vector, and nothing else changes. -/
theorem updateAll_appendFollowpos (more : List Nat) {ps : List Nat} : ∀ {heap : Heap}, (∀ p ∈ ps, heap.IsLeaf p) →
    ∃ heap' : Heap, heap.updateAll (Cell.appendFollowpos more) ps = .ok heap' ∧ heap'.kinds = heap.kinds ∧
      (∀ k, heap'.greedy k = heap.greedy k) ∧
      ∀ k q, q ∈ heap'.followpos k ↔ q ∈ heap.followpos k ∨ k ∈ ps ∧ q ∈ more := by
  induction ps with
  | nil => exact fun _ => ⟨_, rfl, rfl, fun _ => rfl, by simp⟩
  | cons p ps ih =>
      intro heap leaves
      obtain ⟨token, setGreedy, greedy_, old, here⟩ := (leaves p List.mem_cons_self).cell
      have stepped : heap.update (Cell.appendFollowpos more) p =
          .ok (heap.set p (.leafNode token setGreedy greedy_ (old ++ more))) := by
        rw [update, here]
        rfl
      have kinds_ := kinds_set here (.leafNode token setGreedy greedy_ (old ++ more)) rfl
      obtain ⟨heap', done, kinds', greedy', followers⟩ := @ih
        (heap.set p (.leafNode token setGreedy greedy_ (old ++ more))) fun k member => by
          unfold IsLeaf
          rw [kinds_]
          exact leaves k (List.mem_cons_of_mem _ member)
      refine ⟨heap', ?_, kinds'.trans kinds_, fun k => ?_, fun k q => ?_⟩
      · rw [updateAll, List.foldlM_cons, stepped]
        exact done
      · rw [greedy', greedy_set here]
        split
        · subst k
          rw [greedy_of_cell here]
          rfl
        · rfl
      · rw [followers, followpos_set here]
        by_cases at_ : k = p
        · subst at_
          rw [if_pos rfl, followpos_of_cell here]
          simp only [Cell.followpos, List.mem_append, List.mem_cons, true_or, true_and, or_assoc]
          exact or_congr_right (or_iff_left_of_imp fun both => both.2)
        · rw [if_neg at_]
          simp only [List.mem_cons, at_, false_or]

theorem setGreedy_leaf (greedy old setGreedy : Bool) (token : LeafToken) (followpos : List Nat) :
    ∃ set' new, Cell.setGreedy greedy (.leafNode token setGreedy old followpos) = .ok (.leafNode token set' new followpos) ∧
      (greedy = true → old = true → new = true) := by
  cases setGreedy with
  | false => exact ⟨true, greedy, rfl, fun same _ => same⟩
  | true => exact ⟨true, old, rfl, fun _ same => same⟩

/-- Greedy leaves stay greedy when they are told to be. -/
theorem updateAll_setGreedy (greedy : Bool) {ps : List Nat} : ∀ {heap : Heap}, (∀ p ∈ ps, heap.IsLeaf p) →
    ∃ heap' : Heap, heap.updateAll (Cell.setGreedy greedy) ps = .ok heap' ∧ heap'.kinds = heap.kinds ∧
      (∀ k, heap'.followpos k = heap.followpos k) ∧
      (greedy = true → ∀ k, heap.greedy k = true → heap'.greedy k = true) := by
  induction ps with
  | nil => exact fun _ => ⟨_, rfl, rfl, fun _ => rfl, fun _ _ same => same⟩
  | cons p ps ih =>
      intro heap leaves
      obtain ⟨token, setGreedy, old, followers, here⟩ := (leaves p List.mem_cons_self).cell
      obtain ⟨set', new, called, stays⟩ := setGreedy_leaf greedy old setGreedy token followers
      have stepped : heap.update (Cell.setGreedy greedy) p = .ok (heap.set p (.leafNode token set' new followers)) := by
        rw [update, here]
        simp only [called]
        rfl
      have kinds_ := kinds_set here (.leafNode token set' new followers) rfl
      obtain ⟨heap', done, kinds', followers', greedy'⟩ := @ih
        (heap.set p (.leafNode token set' new followers)) fun k member => by
          unfold IsLeaf
          rw [kinds_]
          exact leaves k (List.mem_cons_of_mem _ member)
      refine ⟨heap', ?_, kinds'.trans kinds_, fun k => ?_, fun told k before => greedy' told k ?_⟩
      · rw [updateAll, List.foldlM_cons, stepped]
        exact done
      · rw [followers', followpos_set here]
        split
        · subst k
          rw [followpos_of_cell here]
          rfl
        · rfl
      · rw [greedy_set here]
        split
        · subst k
          rw [greedy_of_cell here] at before
          exact stays told before
        · exact before

end Heap

/-! ## Nodes -/

inductive Node where
  | leaf (p : Nat) (nullable : Bool)
  | endLeaf (p : Nat)
  | sequence (left right : Node)
  | selection (left right : Node)
  | iteration (next : Node) (greedy : Bool)
  deriving DecidableEq, Repr

namespace Node

def nullable : Node → Bool
  | leaf _ nullable => nullable
  | endLeaf _ => false
  | sequence left right => left.nullable && right.nullable
  | selection left right => left.nullable || right.nullable
  | iteration _ _ => true

def firstpos : Node → List Nat
  | leaf p nullable => if nullable then [] else [p]
  | endLeaf p => [p]
  | sequence left right => left.firstpos ++ if left.nullable then right.firstpos else []
  | selection left right => left.firstpos ++ right.firstpos
  | iteration next _ => next.firstpos

def lastpos : Node → List Nat
  | leaf p nullable => if nullable then [] else [p]
  | endLeaf p => [p]
  | sequence left right => (if right.nullable then left.lastpos else []) ++ right.lastpos
  | selection left right => left.lastpos ++ right.lastpos
  | iteration next _ => next.lastpos

end Node

/-! ### The constructors -/

def leafNode (token : LeafToken) (greedy : Bool) (heap : Heap) : Node × Heap :=
  (.leaf heap.length (token = .null), heap ++ [.leafNode token (!greedy) greedy []])

def endNode (end_ : EndState) (heap : Heap) : Node × Heap :=
  (.endLeaf heap.length, heap ++ [.endNode end_])

def sequenceNode (left right : Node) (heap : Heap) : Except String (Node × Heap) := do
  let heap ← heap.updateAll (Cell.appendFollowpos right.firstpos) left.lastpos
  return (.sequence left right, heap)

def selectionNode (left right : Node) : Node := .selection left right

def iterationNode (next : Node) (greedy : Bool) (heap : Heap) : Except String (Node × Heap) := do
  let heap ← heap.updateAll (Cell.appendFollowpos next.firstpos) next.lastpos
  let heap ← heap.updateAll (Cell.setGreedy greedy) next.firstpos
  return (.iteration next greedy, heap)

/-! ### copy -/

/-- The stacks of `copy` with the node vector. -/
structure CopyState where
  down : Bool
  nodeStack : List Node
  performOpStack : List Bool
  newNodeStack : List Node
  heap : Heap

namespace Node

def isOp : Node → Bool
  | leaf _ _ => false
  | endLeaf _ => false
  | sequence _ _ => true
  | selection _ _ => true
  | iteration _ _ => true

/-- `traverse` of the node on top of the stack. -/
def traverse (node : Node) (state : CopyState) : CopyState :=
  let flags (right : Node) := if right.isOp then false :: true :: state.performOpStack else true :: state.performOpStack
  match node with
  | leaf _ _ => { state with down := false }
  | endLeaf _ => { state with down := false }
  | sequence left right =>
      { state with down := true, nodeStack := left :: right :: state.nodeStack, performOpStack := flags right }
  | selection left right =>
      { state with down := true, nodeStack := left :: right :: state.nodeStack, performOpStack := flags right }
  | iteration next _ =>
      { state with down := true, nodeStack := next :: state.nodeStack, performOpStack := true :: state.performOpStack }

/-- A binary node: the two new nodes on top become its copy. -/
def copyOp (build : Node → Node → Heap → Except String (Node × Heap)) (state : CopyState) : Except String CopyState :=
  match state.performOpStack with
  | true :: flags =>
      match state.newNodeStack with
      | right :: left :: rest => do
          let (node, heap) ← build left right state.heap
          return { state with performOpStack := flags, newNodeStack := node :: rest, heap := heap }
      | _ => .error "empty stack"
  | false :: flags => .ok { state with down := true, performOpStack := flags }
  | [] => .error "empty stack"

def copyNode (node : Node) (state : CopyState) : Except String CopyState :=
  match node with
  | leaf p _ =>
      match state.heap[p]? with
      | some (.leafNode token _ greedy _) =>
          let (node, heap) := leafNode token greedy state.heap
          .ok { state with newNodeStack := node :: state.newNodeStack, heap := heap }
      | _ => .error "dangling node"
  -- end nodes are not copied
  | endLeaf _ => .ok state
  | sequence _ _ => copyOp sequenceNode state
  | selection _ _ => copyOp (fun left right heap => .ok (selectionNode left right, heap)) state
  | iteration _ greedy =>
      match state.performOpStack with
      | true :: flags =>
          match state.newNodeStack with
          | next :: rest => do
              let (node, heap) ← iterationNode next greedy state.heap
              return { state with performOpStack := flags, newNodeStack := node :: rest, heap := heap }
          | _ => .error "empty stack"
      | false :: flags => .ok { state with down := true, performOpStack := flags }
      | [] => .error "empty stack"

/-- One round of the two inner loops. -/
def copyStep (node : Node) (state : CopyState) : Except String CopyState :=
  if state.down then .ok (node.traverse state)
  else do
    let state ← node.copyNode state
    return if state.down then state else { state with nodeStack := state.nodeStack.tail }

def copyLoop : Nat → CopyState → Except String CopyState
  | rounds, state =>
      match state.nodeStack with
      | [] => .ok state
      | node :: _ =>
          match rounds with
          | 0 => .error "copy: out of rounds"
          | rounds + 1 => do copyLoop rounds (← node.copyStep state)

/-- The rounds a node takes: down and up, and once more where a flag sends the walk
down the right part. -/
def rounds : Node → Nat
  | leaf _ _ => 2
  | endLeaf _ => 2
  | sequence left right => left.rounds + (if right.isOp then right.rounds + 1 else 1) + 2
  | selection left right => left.rounds + (if right.isOp then right.rounds + 1 else 1) + 2
  | iteration next _ => next.rounds + 2

def copy (node : Node) (heap : Heap) : Except String (Node × Heap) := do
  let state ← copyLoop node.rounds ⟨true, [node], [], [], heap⟩
  match state.newNodeStack with
  | [root] => return (root, state.heap)
  | _ => throw "assertion: new_node_stack_.size() == 1"

/-- The tree built anew, with a new leaf for every leaf. -/
def copyTree : Node → Heap → Except String (Node × Heap)
  | leaf p _, heap =>
      match heap[p]? with
      | some (.leafNode token _ greedy _) => .ok (leafNode token greedy heap)
      | _ => .error "dangling node"
  | endLeaf _, _ => .error "end nodes are not copied"
  | sequence left right, heap => do
      let (left, heap) ← left.copyTree heap
      let (right, heap) ← right.copyTree heap
      sequenceNode left right heap
  | selection left right, heap => do
      let (left, heap) ← left.copyTree heap
      let (right, heap) ← right.copyTree heap
      return (selectionNode left right, heap)
  | iteration next greedy, heap => do
      let (next, heap) ← next.copyTree heap
      iterationNode next greedy heap

theorem copyLoop_succ (rounds : Nat) (node : Node) (down : Bool) (stack : List Node) (ops : List Bool)
    (new : List Node) (heap : Heap) : copyLoop (rounds + 1) ⟨down, node :: stack, ops, new, heap⟩ =
      (node.copyStep ⟨down, node :: stack, ops, new, heap⟩).bind (copyLoop rounds) := rfl

/-- What the walk does with a node it goes down into. -/
def Copies (node : Node) : Prop :=
  ∀ {heap : Heap} {node' : Node} {heap' : Heap}, node.copyTree heap = .ok (node', heap') →
    ∀ (more : Nat) (stack : List Node) (ops : List Bool) (new : List Node),
      copyLoop (node.rounds + more) ⟨true, node :: stack, ops, new, heap⟩ =
        copyLoop more ⟨false, stack, ops, node' :: new, heap'⟩

theorem copies_leaf (p : Nat) (nullable : Bool) : Copies (leaf p nullable) := by
  intro heap node' heap' copied more stack ops new
  unfold copyTree at copied
  split at copied
  · rename_i token setGreedy greedy followpos here
    obtain ⟨rfl, rfl⟩ := Prod.mk.inj (Except.ok.inj copied)
    rw [show (leaf p nullable).rounds + more = more + 1 + 1 from Nat.add_comm ..]
    rw [copyLoop_succ]
    show copyLoop (more + 1) ⟨false, _, _, _, _⟩ = _
    rw [copyLoop_succ, copyStep, if_neg Bool.false_ne_true, copyNode]
    simp only [here]
    rfl
  · cases copied

/-- A node behind a flag is gone down into. -/
theorem copyStep_flag {node : Node} (op : node.isOp = true) (stack : List Node) (ops : List Bool) (new : List Node)
    (heap : Heap) : node.copyStep ⟨false, node :: stack, false :: ops, new, heap⟩ =
      .ok ⟨true, node :: stack, ops, new, heap⟩ := by
  cases node with
  | leaf p nullable => cases op
  | endLeaf p => cases op
  | sequence left right => rfl
  | selection left right => rfl
  | iteration next greedy => rfl

/-- The walk comes up to the right part of a node: a leaf is copied at once, a flag
sends the walk down into anything else. -/
theorem copies_right {right : Node} (copies : Copies right) {heap : Heap} {node' : Node} {heap' : Heap}
    (copied : right.copyTree heap = .ok (node', heap')) (more : Nat) (stack : List Node) (ops : List Bool)
    (new : List Node) :
    copyLoop ((if right.isOp then right.rounds + 1 else 1) + more)
        ⟨false, right :: stack, if right.isOp then false :: ops else ops, new, heap⟩ =
      copyLoop more ⟨false, stack, ops, node' :: new, heap'⟩ := by
  have through := copies copied more stack ops new
  by_cases op : right.isOp = true
  · rw [if_pos op, if_pos op, Nat.add_right_comm, copyLoop_succ, copyStep_flag op]
    exact through
  · rw [if_neg op, if_neg op, Nat.add_comm, copyLoop_succ]
    cases right with
    | leaf p nullable =>
        rw [show (leaf p nullable).rounds + more = more + 1 + 1 from Nat.add_comm 2 more] at through
        rw [copyLoop_succ] at through
        exact through
    | endLeaf p => cases copied
    | sequence left right => exact absurd rfl op
    | selection left right => exact absurd rfl op
    | iteration next greedy => exact absurd rfl op

/-- A node with two parts: `build` puts their copies together. -/
theorem copies_binary {node left right : Node} (build : Node → Node → Heap → Except String (Node × Heap))
    (rounds : node.rounds = left.rounds + (if right.isOp then right.rounds + 1 else 1) + 2)
    (down : ∀ state, node.traverse state = { state with
      down := true, nodeStack := left :: right :: state.nodeStack,
      performOpStack := if right.isOp then false :: true :: state.performOpStack else true :: state.performOpStack })
    (up : ∀ state, node.copyNode state = copyOp build state)
    (tree : ∀ heap, node.copyTree heap = do
      let (left, heap) ← left.copyTree heap
      let (right, heap) ← right.copyTree heap
      build left right heap)
    (ihl : Copies left) (ihr : Copies right) : Copies node := by
  intro heap node' heap' copied more stack ops new
  rw [tree] at copied
  obtain ⟨⟨left', heapL⟩, copiedL, copied⟩ := bind_ok copied
  obtain ⟨⟨right', heapR⟩, copiedR, built⟩ := bind_ok copied
  have order : node.rounds + more = left.rounds + ((if right.isOp then right.rounds + 1 else 1) + (more + 1)) + 1 := by
    rw [rounds]
    omega
  rw [order, copyLoop_succ, copyStep, if_pos rfl, down]
  show copyLoop _ _ = _
  rw [ihl copiedL, copies_right ihr copiedR, copyLoop_succ, copyStep, if_neg Bool.false_ne_true, up]
  simp only [copyOp, built]
  rfl

theorem copies_iteration {next : Node} (greedy : Bool) (ih : Copies next) : Copies (iteration next greedy) := by
  intro heap node' heap' copied more stack ops new
  obtain ⟨⟨next', heapN⟩, copiedN, built⟩ := bind_ok copied
  have order : (iteration next greedy).rounds + more = next.rounds + (more + 1) + 1 := by
    rw [rounds]
    omega
  rw [order, copyLoop_succ]
  show copyLoop _ ⟨true, next :: iteration next greedy :: stack, true :: ops, new, heap⟩ = _
  rw [ih copiedN, copyLoop_succ, copyStep, if_neg Bool.false_ne_true, copyNode]
  simp only [built]
  rfl

theorem copies (node : Node) : Copies node := by
  induction node with
  | leaf p nullable => exact copies_leaf p nullable
  | endLeaf p => exact fun copied => by cases copied
  | sequence left right ihl ihr =>
      exact copies_binary sequenceNode rfl (fun _ => rfl) (fun _ => rfl) (fun _ => rfl) ihl ihr
  | selection left right ihl ihr =>
      exact copies_binary (fun left right heap => .ok (selectionNode left right, heap)) rfl
        (fun _ => rfl) (fun _ => rfl) (fun _ => rfl) ihl ihr
  | iteration next greedy ih => exact copies_iteration greedy ih

/-- The walk over the stacks builds the tree anew. -/
theorem copy_eq {node : Node} {heap : Heap} {node' : Node} {heap' : Heap}
    (copied : node.copyTree heap = .ok (node', heap')) : node.copy heap = .ok (node', heap') := by
  have walked := copies node copied 0 [] [] []
  rw [Nat.add_zero] at walked
  rw [copy, walked]
  rfl

end Node

end Orchid
