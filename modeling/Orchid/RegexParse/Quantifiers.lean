/-
# RegexParse.Quantifiers -- the operations on the stack of trees

The parser works on a stack of trees.  Its operations take trees off the stack, copy
some of them and put a tree back: `sequence`, `perform_or`, and the quantifiers, which
come down to sequences, selections and iterations of copies.

Each has a rule that says from the shapes on the stack which shapes it leaves
(`Trees.Holds`), so no operation ever fails on a stack that is high enough.
`lang_repeatn` says what the unrolled repetitions of `{n,m}` are worth: the words that
are put together of at least `n` and at most `m` words.
-/
import Orchid.RegexParse.Linked

namespace Orchid

open Orchid.Theory Computability

set_option autoImplicit false

structure Trees where
  treeNodeStack : List Node
  heap : Heap

namespace Trees

def push (node : Node) (trees : Trees) : Trees := { trees with treeNodeStack := node :: trees.treeNodeStack }

def emptyStack : String := "empty stack"

def sequence (trees : Trees) : Except String Trees :=
  match trees.treeNodeStack with
  | rhs :: lhs :: rest => do
      let (node, heap) ← sequenceNode lhs rhs trees.heap
      return ⟨node :: rest, heap⟩
  | _ => .error emptyStack

def performOr (trees : Trees) : Except String Trees :=
  match trees.treeNodeStack with
  | rhs :: lhs :: rest => .ok ⟨selectionNode lhs rhs :: rest, trees.heap⟩
  | _ => .error emptyStack

def optional (greedy : Bool) (trees : Trees) : Except String Trees :=
  match trees.treeNodeStack with
  | lhs :: rest => do
      let heap ← trees.heap.updateAll (Cell.setGreedy greedy) lhs.firstpos
      let (rhs, heap) := leafNode .null greedy heap
      return ⟨selectionNode lhs rhs :: rest, heap⟩
  | _ => .error emptyStack

def zeroOrMore (greedy : Bool) (trees : Trees) : Except String Trees :=
  match trees.treeNodeStack with
  | ptr :: rest => do
      let (node, heap) ← iterationNode ptr greedy trees.heap
      return ⟨node :: rest, heap⟩
  | _ => .error emptyStack

def oneOrMore (greedy : Bool) (trees : Trees) : Except String Trees :=
  match trees.treeNodeStack with
  | lhs :: rest => do
      let (copy, heap) ← lhs.copy trees.heap
      let (rhs, heap) ← iterationNode copy greedy heap
      let (node, heap) ← sequenceNode lhs rhs heap
      return ⟨node :: rest, heap⟩
  | _ => .error emptyStack

end Trees

/-! ## {n[,[m]]} -/

def isDecimal (c : UInt8) : Bool := 48 ≤ c && c ≤ 57

/-- The digits in front, as a number; `size_t` wraps around. -/
def readNumber (value : Uint) : CStr → Uint × CStr
  | [] => (value, [])
  | c :: str =>
      if isDecimal c then readNumber (value * 10 + BitVec.ofNat 32 (c.toNat - 48)) str else (value, c :: str)

structure Repeats where
  min : Uint
  comma : Bool
  max : Uint
  deriving DecidableEq, Repr

def comma : UInt8 := 44

def readRepeats (extra : CStr) : Repeats :=
  let (min, str) := readNumber 0 extra
  let comma_ := str.head? = some comma
  let (max, _) := readNumber 0 (if comma_ then str.tail else str)
  { min := min, comma := comma_, max := max }

namespace Trees

/-- `prev` goes onto the sequence, and a copy of it takes its place. -/
def pushPrev (prev : Node) (trees : Trees) : Except String (Node × Trees) := do
  let (temp, heap) ← prev.copy trees.heap
  let trees ← ({ trees with heap := heap }.push prev).sequence
  return (temp, trees)

def pushLoop : Nat → Node → Trees → Except String (Node × Trees)
  | 0, prev, trees => .ok (prev, trees)
  | count + 1, prev, trees => do
      let (prev, trees) ← trees.pushPrev prev
      pushLoop count prev trees

def pop (trees : Trees) : Except String (Node × Trees) :=
  match trees.treeNodeStack with
  | node :: rest => .ok (node, { trees with treeNodeStack := rest })
  | [] => .error emptyStack

def top (trees : Trees) : Except String Node :=
  match trees.treeNodeStack with
  | node :: _ => .ok node
  | [] => .error emptyStack

def repeatZero (greedy : Bool) (range : Repeats) (trees : Trees) : Except String Trees :=
  if range.min = 0 then trees.optional greedy else .ok trees

def repeatMin (range : Repeats) (prev : Node) (trees : Trees) : Except String (Node × Trees) :=
  if 1 < range.min then trees.pushPrev prev else .ok (prev, trees)

def repeatMax (greedy : Bool) (range : Repeats) (prev : Node) (trees : Trees) : Except String (Node × Trees) :=
  if range.max ≠ 0 then do
    let trees ← (trees.push prev).optional greedy
    let (prev, trees) ← trees.pop
    let count := range.max - range.min
    pushLoop (count.toNat - 1) prev trees
  else do
    let trees ← (trees.push prev).zeroOrMore greedy
    trees.pop

/-- The part behind the comma, with a copy at hand. -/
def repeatComma (greedy : Bool) (range : Repeats) (prev : Node) (trees : Trees) : Except String (Node × Trees) :=
  if range.comma ∧ 0 < range.min then do
    let (prev, trees) ← trees.repeatMin range prev
    trees.repeatMax greedy range prev
  else .ok (prev, trees)

def repeatn (greedy : Bool) (extra : CStr) (trees : Trees) : Except String Trees :=
  let range := readRepeats extra
  if range.min = 1 ∧ range.comma = false then .ok trees
  else do
    let top := if 0 < range.min then range.min else range.max
    let trees ← trees.repeatZero greedy range
    let node ← trees.top
    let (prev, heap) ← node.copy trees.heap
    let (prev, trees) ← pushLoop (top.toNat - 2) prev { trees with heap := heap }
    let (prev, trees) ← trees.repeatComma greedy range prev
    (trees.push prev).sequence

/-! ## What the operations leave -/

/-- The trees on the stack have the shapes; `kinds` is the heap that was there before. -/
structure Holds (eager : Prop) (others : List Node) (kinds : Kinds) (trees : Trees) (shapes : List Shape) : Prop where
  more : kinds <+: trees.heap.kinds
  stacked : Stacked eager others trees.heap trees.treeNodeStack shapes

variable {eager : Prop} {others : List Node} {kinds : Kinds} {trees : Trees} {shapes : List Shape}

theorem Holds.cons {shape : Shape} (holds : trees.Holds eager others kinds (shape :: shapes)) :
    ∃ node rest, trees.treeNodeStack = node :: rest ∧ node.shape trees.heap.kinds = shape := by
  have same := holds.stacked.shapes
  cases stack : trees.treeNodeStack with
  | nil => rw [stack] at same; cases same
  | cons node rest =>
      rw [stack] at same
      exact ⟨node, rest, rfl, (List.cons.inj same).1⟩

theorem Holds.cons_cons {shapeR shapeL : Shape} (holds : trees.Holds eager others kinds (shapeR :: shapeL :: shapes)) :
    ∃ rhs lhs rest, trees.treeNodeStack = rhs :: lhs :: rest := by
  have same := holds.stacked.shapes
  match stack : trees.treeNodeStack with
  | [] => rw [stack] at same; cases same
  | [_] => rw [stack] at same; cases same
  | rhs :: lhs :: rest => exact ⟨rhs, lhs, rest, rfl⟩

theorem Holds.sequence {shapeR shapeL : Shape} (holds : trees.Holds eager others kinds (shapeR :: shapeL :: shapes)) :
    ∃ trees', trees.sequence = .ok trees' ∧ trees'.Holds eager others kinds (.seq shapeL shapeR :: shapes) := by
  obtain ⟨rhs, lhs, rest, stack⟩ := holds.cons_cons
  have stacked := holds.stacked
  rw [stack] at stacked
  obtain ⟨heap', done, same, stacked'⟩ := stacked.sequenceNode
  refine ⟨⟨.sequence lhs rhs :: rest, heap'⟩, ?_, ?_, stacked'⟩
  · unfold Trees.sequence
    simp only [stack, done]
    rfl
  · rw [show (Trees.mk _ heap').heap.kinds = _ from same]
    exact holds.more

theorem Holds.performOr {shapeR shapeL : Shape} (holds : trees.Holds eager others kinds (shapeR :: shapeL :: shapes)) :
    ∃ trees', trees.performOr = .ok trees' ∧ trees'.Holds eager others kinds (.alt shapeL shapeR :: shapes) := by
  obtain ⟨rhs, lhs, rest, stack⟩ := holds.cons_cons
  have stacked := holds.stacked
  rw [stack] at stacked
  refine ⟨⟨selectionNode lhs rhs :: rest, trees.heap⟩, ?_, holds.more, stacked.selectionNode⟩
  unfold Trees.performOr
  simp only [stack]

theorem Holds.leafNode (holds : trees.Holds eager others kinds shapes) (token : LeafToken) {greedy : Bool}
    (told : eager → greedy = true) :
    Holds eager others kinds ⟨(leafNode token greedy trees.heap).1 :: trees.treeNodeStack, (leafNode token greedy trees.heap).2⟩
      (tokenShape token :: shapes) where
  more := holds.more.trans (by rw [kinds_leafNode]; exact List.prefix_append ..)
  stacked := (holds.stacked.leafNode token greedy).weaken fun here => ⟨here, told here⟩

section Quantifiers

variable {shape : Shape} {greedy : Bool}

theorem Holds.zeroOrMore (holds : trees.Holds eager others kinds (shape :: shapes)) (told : eager → greedy = true) :
    ∃ trees', trees.zeroOrMore greedy = .ok trees' ∧ trees'.Holds eager others kinds (.star shape :: shapes) := by
  obtain ⟨ptr, rest, stack, -⟩ := holds.cons
  have stacked := holds.stacked
  rw [stack] at stacked
  obtain ⟨heap', done, same, stacked'⟩ := stacked.iterationNode greedy
  refine ⟨⟨.iteration ptr greedy :: rest, heap'⟩, ?_, ?_, stacked'.weaken fun here => ⟨here, told here⟩⟩
  · unfold Trees.zeroOrMore
    simp only [stack, done]
    rfl
  · rw [show (Trees.mk _ heap').heap.kinds = _ from same]
    exact holds.more

/-- A copy of the top beside it. -/
theorem Holds.copy {node : Node} {rest : List Node} {heap : Heap}
    (holds : Holds eager others kinds ⟨node :: rest, heap⟩ (shape :: shapes)) :
    ∃ node' heap', node.copy heap = .ok (node', heap') ∧
      Holds eager others kinds ⟨node' :: node :: rest, heap'⟩ (shape :: shape :: shapes) := by
  obtain ⟨node', heap', done, more, stacked'⟩ := holds.stacked.copy (holds.stacked.leafy node List.mem_cons_self)
    fun told => (holds.stacked.greedy told).2 node List.mem_cons_self
  rw [(List.cons.inj holds.stacked.shapes).1] at stacked'
  exact ⟨node', heap', done, holds.more.trans more, stacked'⟩

theorem Holds.oneOrMore (holds : trees.Holds eager others kinds (shape :: shapes)) (told : eager → greedy = true) :
    ∃ trees', trees.oneOrMore greedy = .ok trees' ∧
      trees'.Holds eager others kinds (.seq shape (.star shape) :: shapes) := by
  obtain ⟨lhs, rest, stack, -⟩ := holds.cons
  rw [show trees = ⟨lhs :: rest, trees.heap⟩ by rw [← stack]] at holds
  obtain ⟨copy, heap1, copied, holds1⟩ := holds.copy
  obtain ⟨heap2, done2, same2, stacked2⟩ := holds1.stacked.iterationNode greedy
  obtain ⟨heap3, done3, same3, stacked3⟩ := stacked2.sequenceNode
  refine ⟨⟨.sequence lhs (.iteration copy greedy) :: rest, heap3⟩, ?_, ?_, stacked3.weaken fun here => ⟨here, told here⟩⟩
  · unfold Trees.oneOrMore
    simp only [stack, copied]
    show (do let (rhs, heap) ← iterationNode copy greedy heap1; _) = _
    rw [done2]
    show (do let (node, heap) ← sequenceNode lhs (.iteration copy greedy) heap2; _) = _
    rw [done3]
    rfl
  · rw [show (Trees.mk _ heap3).heap.kinds = _ from same3, same2]
    exact holds1.more

theorem Holds.optional (holds : trees.Holds eager others kinds (shape :: shapes)) (told : eager → greedy = true) :
    ∃ trees', trees.optional greedy = .ok trees' ∧ trees'.Holds eager others kinds (.alt shape .null :: shapes) := by
  obtain ⟨lhs, rest, stack, -⟩ := holds.cons
  have stacked := holds.stacked
  rw [stack] at stacked
  obtain ⟨heap', done, same, stacked1⟩ := stacked.setGreedy told
  have more : kinds <+: heap'.kinds := by
    rw [same]
    exact holds.more
  have holds1 : Holds eager others kinds ⟨lhs :: rest, heap'⟩ (shape :: shapes) := ⟨more, stacked1⟩
  have leaf := holds1.leafNode .null told
  refine ⟨⟨selectionNode lhs (Orchid.leafNode .null greedy heap').1 :: rest, (Orchid.leafNode .null greedy heap').2⟩, ?_,
    leaf.more, leaf.stacked.selectionNode⟩
  unfold Trees.optional
  simp only [stack, done]
  rfl

/-! ### The repetitions -/

section Repetitions

variable {shapeP shapeL : Shape} {prev : Node}

theorem Holds.pushPrev (holds : (trees.push prev).Holds eager others kinds (shapeP :: shapeL :: shapes)) :
    ∃ temp trees', trees.pushPrev prev = .ok (temp, trees') ∧
      (trees'.push temp).Holds eager others kinds (shapeP :: .seq shapeL shapeP :: shapes) := by
  obtain ⟨rhs, lhs, rest, whole⟩ := holds.cons_cons
  obtain ⟨rfl, stack⟩ := List.cons.inj whole
  obtain ⟨temp, heap1, copied, holds1⟩ := holds.copy
  rw [stack] at holds1
  obtain ⟨heap2, done, same, stacked2⟩ := holds1.stacked.rotate.sequenceNode
  refine ⟨temp, ⟨.sequence lhs prev :: rest, heap2⟩, ?_, ?_, stacked2.swap⟩
  · unfold Trees.pushPrev
    have copied : prev.copy trees.heap = .ok (temp, heap1) := copied
    simp only [copied, Trees.push, stack]
    show (do let trees ← Trees.sequence ⟨prev :: lhs :: rest, heap1⟩; pure (temp, trees)) = _
    unfold Trees.sequence
    simp only [done]
    rfl
  · rw [show (Trees.push temp ⟨_, heap2⟩).heap.kinds = _ from same]
    exact holds1.more

theorem Holds.pushLoop (count : Nat) : ∀ {trees : Trees} {prev : Node} {shapeL : Shape},
    (trees.push prev).Holds eager others kinds (shapeP :: shapeL :: shapes) →
      ∃ prev' trees', Trees.pushLoop count prev trees = .ok (prev', trees') ∧
        (trees'.push prev').Holds eager others kinds (shapeP :: .times shapeL shapeP count :: shapes) := by
  induction count with
  | zero => exact fun holds => ⟨_, _, rfl, holds⟩
  | succ count ih =>
      intro trees prev shapeL holds
      obtain ⟨temp, trees1, done, holds1⟩ := holds.pushPrev
      obtain ⟨prev', trees', done', holds'⟩ := ih holds1
      refine ⟨prev', trees', ?_, ?_⟩
      · rw [Trees.pushLoop, done]
        exact done'
      · rwa [← Expr.times_seq]

/-- What the part behind the comma makes of the copy and of the sequence. -/
def commaShapes (range : Repeats) (shapeP shapeL : Shape) : Shape × Shape :=
  if range.comma ∧ 0 < range.min then
    let shapeL := if 1 < range.min then .seq shapeL shapeP else shapeL
    if range.max ≠ 0 then (.alt shapeP .null, .times shapeL (.alt shapeP .null) ((range.max - range.min).toNat - 1))
    else (.star shapeP, shapeL)
  else (shapeP, shapeL)

/-- What a repetition makes of the top. -/
def repeatShape (range : Repeats) (shape : Shape) : Shape :=
  if range.min = 1 ∧ range.comma = false then shape
  else
    let top := if 0 < range.min then range.min else range.max
    let shapeP := if range.min = 0 then .alt shape .null else shape
    let shapes := commaShapes range shapeP (.times shapeP shapeP (top.toNat - 2))
    .seq shapes.2 shapes.1

theorem positions_commaShapes (range : Repeats) (shapeP shapeL : Shape) :
    ∀ leaf ∈ (commaShapes range shapeP shapeL).2.positions ++ (commaShapes range shapeP shapeL).1.positions,
      leaf ∈ shapeL.positions ∨ leaf ∈ shapeP.positions := by
  have front : ∀ leaf ∈ (if 1 < range.min then Expr.seq shapeL shapeP else shapeL).positions,
      leaf ∈ shapeL.positions ∨ leaf ∈ shapeP.positions := by
    intro leaf inside
    split at inside
    · exact List.mem_append.1 inside
    · exact Or.inl inside
  intro leaf inside
  by_cases comma_ : range.comma ∧ 0 < range.min
  · by_cases bounded : range.max ≠ 0
    · simp only [commaShapes, if_pos comma_, if_pos bounded, List.mem_append] at inside
      rcases inside with inside | inside
      · rcases Expr.positions_times _ _ _ leaf inside with inside | inside
        · exact front leaf inside
        · exact Or.inr (by simpa [Expr.positions] using inside)
      · exact Or.inr (by simpa [Expr.positions] using inside)
    · simp only [commaShapes, if_pos comma_, if_neg bounded, List.mem_append] at inside
      rcases inside with inside | inside
      · exact front leaf inside
      · exact Or.inr inside
  · simp only [commaShapes, if_neg comma_, List.mem_append] at inside
    exact inside

/-- The copies have no other leaves. -/
theorem positions_repeatShape (range : Repeats) (shape : Shape) :
    ∀ leaf ∈ (repeatShape range shape).positions, leaf ∈ shape.positions := by
  intro leaf inside
  have zero : leaf ∈ (if range.min = 0 then Expr.alt shape .null else shape).positions → leaf ∈ shape.positions := by
    intro inside
    split at inside
    · simpa [Expr.positions] using inside
    · exact inside
  unfold repeatShape at inside
  split at inside
  · exact inside
  · rcases positions_commaShapes _ _ _ leaf inside with inside | inside
    · exact zero (or_self_iff.1 (Expr.positions_times _ _ _ leaf inside))
    · exact zero inside

theorem Holds.pop {shape : Shape} (holds : trees.Holds eager others kinds (shape :: shapes)) :
    ∃ node trees', trees.pop = .ok (node, trees') ∧ (trees'.push node).Holds eager others kinds (shape :: shapes) := by
  obtain ⟨node, rest, stack, -⟩ := holds.cons
  refine ⟨node, ⟨rest, trees.heap⟩, ?_, ?_⟩
  · unfold Trees.pop
    simp only [stack]
  · rwa [show Trees.push node ⟨rest, trees.heap⟩ = trees by unfold Trees.push; rw [← stack]]

theorem Holds.repeatZero (holds : trees.Holds eager others kinds (shape :: shapes)) (told : eager → greedy = true)
    (range : Repeats) : ∃ trees', trees.repeatZero greedy range = .ok trees' ∧
      trees'.Holds eager others kinds ((if range.min = 0 then .alt shape .null else shape) :: shapes) := by
  unfold Trees.repeatZero
  by_cases zero : range.min = 0
  · simp only [if_pos zero]
    exact holds.optional told
  · simp only [if_neg zero]
    exact ⟨trees, rfl, holds⟩

theorem Holds.repeatMin (holds : (trees.push prev).Holds eager others kinds (shapeP :: shapeL :: shapes)) (range : Repeats) :
    ∃ prev' trees', trees.repeatMin range prev = .ok (prev', trees') ∧ (trees'.push prev').Holds eager others kinds
      (shapeP :: (if 1 < range.min then .seq shapeL shapeP else shapeL) :: shapes) := by
  unfold Trees.repeatMin
  by_cases here : 1 < range.min
  · simp only [if_pos here]
    exact holds.pushPrev
  · simp only [if_neg here]
    exact ⟨prev, trees, rfl, holds⟩

theorem Holds.repeatComma (holds : (trees.push prev).Holds eager others kinds (shapeP :: shapeL :: shapes))
    (told : eager → greedy = true) (range : Repeats) :
    ∃ prev' trees', trees.repeatComma greedy range prev = .ok (prev', trees') ∧ (trees'.push prev').Holds eager others kinds
      ((commaShapes range shapeP shapeL).1 :: (commaShapes range shapeP shapeL).2 :: shapes) := by
  unfold Trees.repeatComma commaShapes
  by_cases comma_ : range.comma ∧ 0 < range.min
  · obtain ⟨prev1, trees1, done1, holds1⟩ := holds.repeatMin range
    simp only [if_pos comma_, bind_of_ok done1]
    unfold Trees.repeatMax
    by_cases bounded : range.max ≠ 0
    · obtain ⟨trees2, done2, holds2⟩ := holds1.optional told
      obtain ⟨prev3, trees3, done3, holds3⟩ := holds2.pop
      obtain ⟨prev4, trees4, done4, holds4⟩ := holds3.pushLoop ((range.max - range.min).toNat - 1)
      simp only [if_pos bounded, bind_of_ok done2, bind_of_ok done3]
      exact ⟨prev4, trees4, done4, holds4⟩
    · obtain ⟨trees2, done2, holds2⟩ := holds1.zeroOrMore told
      obtain ⟨prev3, trees3, done3, holds3⟩ := holds2.pop
      simp only [if_neg bounded, bind_of_ok done2]
      exact ⟨prev3, trees3, done3, holds3⟩
  · simp only [if_neg comma_]
    exact ⟨prev, trees, rfl, holds⟩

theorem Holds.repeatn (holds : trees.Holds eager others kinds (shape :: shapes)) (told : eager → greedy = true)
    (extra : CStr) : ∃ trees', trees.repeatn greedy extra = .ok trees' ∧
      trees'.Holds eager others kinds (repeatShape (readRepeats extra) shape :: shapes) := by
  unfold Trees.repeatn repeatShape
  by_cases once : (readRepeats extra).min = 1 ∧ (readRepeats extra).comma = false
  · simp only [if_pos once]
    exact ⟨trees, rfl, holds⟩
  simp only [if_neg once]
  generalize readRepeats extra = range at once ⊢
  generalize (if 0 < range.min then range.min else range.max) = top
  obtain ⟨trees1, done1, holds1⟩ := holds.repeatZero told range
  obtain ⟨node, rest, stack, -⟩ := holds1.cons
  have top_ : trees1.top = .ok node := by
    unfold Trees.top
    simp only [stack]
  rw [show trees1 = ⟨node :: rest, trees1.heap⟩ by rw [← stack]] at holds1
  obtain ⟨prev2, heap2, done2, holds2⟩ := holds1.copy
  obtain ⟨prev3, trees3, done3, holds3⟩ := @Holds.pushLoop _ _ _ _ _ (top.toNat - 2) ⟨node :: rest, heap2⟩ _ _ holds2
  obtain ⟨prev4, trees4, done4, holds4⟩ := holds3.repeatComma told range
  obtain ⟨trees5, done5, holds5⟩ := holds4.sequence
  refine ⟨trees5, ?_, holds5⟩
  rw [← stack] at done3
  simp only [bind_of_ok done1, bind_of_ok top_, bind_of_ok done2, bind_of_ok done3, bind_of_ok done4]
  exact done5

end Repetitions

end Quantifiers

end Trees

/-! ## What the repetitions are worth -/

namespace Repeats

/-- The counts that a repetition stands for. -/
def Allows (range : Repeats) (i : Nat) : Prop :=
  range.min.toNat ≤ i ∧ if range.comma then range.max = 0 ∨ i ≤ range.max.toNat else i = range.min.toNat

/-- What the tokeniser lets through. -/
structure Valid (range : Repeats) : Prop where
  positive : range.min ≠ 0 ∨ range.comma ∧ 2 ≤ range.max
  ordered : range.comma → range.max ≠ 0 → range.min < range.max

end Repeats

section Lang

variable (readBy : UInt8 → Option (LeafToken ⊕ EndState) → Prop) {range : Repeats} (shape : Shape)

theorem lang_alt_null : (Expr.alt shape .null).lang readBy = shape.lang readBy + 1 := by
  rw [Expr.lang_alt, Expr.lang_null]

/-- A sequence of copies. -/
theorem lang_times_self {n : Nat} (positive : 2 ≤ n) :
    (Expr.seq (.times shape shape (n - 2)) shape).lang readBy = shape.lang readBy ^ n := by
  obtain ⟨k, rfl⟩ := Nat.exists_eq_add_of_le' positive
  rw [Expr.lang_seq, Expr.lang_times, Nat.add_sub_cancel, ← pow_succ', ← pow_succ]

/-- The part of a repetition in front of the comma. -/
theorem lang_front {n : Nat} (positive : 0 < n) :
    (if 1 < n then Expr.seq (.times shape shape (n - 2)) shape else .times shape shape (n - 2)).lang readBy =
      shape.lang readBy ^ n := by
  by_cases more : 1 < n
  · rw [if_pos more, lang_times_self readBy shape more]
  · obtain rfl : n = 1 := by omega
    rw [if_neg more, pow_one]
    rfl

/-- And the part behind it. -/
theorem lang_behind (front : Shape) {n : Nat} (positive : 0 < n) :
    (Expr.seq (.times front (.alt shape .null) (n - 1)) (.alt shape .null)).lang readBy =
      front.lang readBy * (shape.lang readBy + 1) ^ n := by
  obtain ⟨k, rfl⟩ : ∃ k, n = k + 1 := ⟨n - 1, by omega⟩
  rw [Expr.lang_seq, Expr.lang_times, lang_alt_null, Nat.add_sub_cancel, mul_assoc, ← pow_succ]

section Cases

variable {min max : Uint}

/-- `{0,m}` -/
theorem lang_repeatShape_zero (few : 2 ≤ max) : (Trees.repeatShape ⟨0, true, max⟩ shape).lang readBy =
    (shape.lang readBy + 1) ^ max.toNat := by
  have few : 2 ≤ max.toNat := BitVec.le_def.1 few
  rw [← lang_alt_null, ← lang_times_self readBy _ few]
  rfl

/-- `{n}` -/
theorem lang_repeatShape_once (positive : 0 < min) : (Trees.repeatShape ⟨min, false, max⟩ shape).lang readBy =
    shape.lang readBy ^ min.toNat := by
  have notZero : ¬ min = 0 := fun zero => absurd positive (by rw [zero]; decide)
  by_cases once : min = 1
  · rw [once]
    exact (pow_one _).symm
  · have few : 2 ≤ min.toNat := by bv_omega
    rw [← lang_times_self readBy _ few]
    simp only [Trees.repeatShape, Trees.commaShapes, once, notZero, positive, false_and, Bool.false_eq_true, if_true, if_false]

/-- `{n,}` -/
theorem lang_repeatShape_open (positive : 0 < min) : (Trees.repeatShape ⟨min, true, 0⟩ shape).lang readBy =
    shape.lang readBy ^ min.toNat * (shape.lang readBy)∗ := by
  have notZero : ¬ min = 0 := fun zero => absurd positive (by rw [zero]; decide)
  rw [← lang_front readBy shape (BitVec.lt_def.1 positive), ← Expr.lang_star, ← Expr.lang_seq]
  have front : (1 : Uint) < min ↔ 1 < min.toNat := BitVec.lt_def
  simp only [Trees.repeatShape, Trees.commaShapes, notZero, positive, front, and_self, Bool.true_eq_false, and_false,
    ne_eq, not_true_eq_false, if_true, if_false]

/-- `{n,m}` -/
theorem lang_repeatShape_bounded (positive : 0 < min) (more : min < max) :
    (Trees.repeatShape ⟨min, true, max⟩ shape).lang readBy =
      shape.lang readBy ^ min.toNat * (shape.lang readBy + 1) ^ (max.toNat - min.toNat) := by
  have notZero : ¬ min = 0 := fun zero => absurd positive (by rw [zero]; decide)
  have bounded : ¬ max = 0 := fun zero => absurd more (by rw [zero]; exact BitVec.not_lt_zero)
  have count : (max - min).toNat = max.toNat - min.toNat := by bv_omega
  have between : 0 < max.toNat - min.toNat := Nat.sub_pos_of_lt (BitVec.lt_def.1 more)
  rw [← lang_front readBy shape (BitVec.lt_def.1 positive), ← lang_behind readBy _ _ between]
  have front : (1 : Uint) < min ↔ 1 < min.toNat := BitVec.lt_def
  simp only [Trees.repeatShape, Trees.commaShapes, notZero, positive, front, bounded, count, and_self, Bool.true_eq_false,
    and_false, ne_eq, not_false_eq_true, if_true, if_false]

end Cases

/-- **The copies of a repetition match what it stands for.** -/
theorem mem_lang_repeatShape (valid : range.Valid) {w : CStr} : w ∈ (Trees.repeatShape range shape).lang readBy ↔
    ∃ i, range.Allows i ∧ w ∈ shape.lang readBy ^ i := by
  obtain ⟨min, comma_, max⟩ := range
  obtain ⟨occurs, ordered⟩ := valid
  simp only [Repeats.Allows] at occurs ordered ⊢
  by_cases zero : min = 0
  · subst zero
    obtain ⟨rfl, few⟩ := occurs.resolve_left (fun not => not rfl)
    have bounded : ¬ max = 0#32 := fun zero => absurd few (by rw [zero]; decide)
    rw [lang_repeatShape_zero readBy shape few, Expr.mem_add_one_pow]
    simp [bounded]
  · have positive : 0 < min := by bv_omega
    cases comma_ with
    | false =>
        rw [lang_repeatShape_once readBy shape positive]
        simp
    | true =>
        by_cases bounded : max = 0
        · subst bounded
          rw [lang_repeatShape_open readBy shape positive, Expr.mem_pow_mul_kstar]
          simp
        · have more := ordered rfl bounded
          have le : min.toNat ≤ max.toNat := Nat.le_of_lt (BitVec.lt_def.1 more)
          rw [lang_repeatShape_bounded readBy shape positive more, Expr.mem_pow_mul_add_one_pow, Nat.add_sub_cancel' le]
          simp [show ¬ max = 0#32 from bounded, and_assoc]

end Lang

end Orchid
