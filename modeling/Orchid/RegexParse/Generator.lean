/-
# RegexParse.Generator -- from followers to the table

A row of the table is a set of leaves: those that may come next.  `buildDfa` starts with
the first leaves of the root and goes through the rows as they come in; for a row it
cuts the classes that its leaves read into sets that lead to the same followers
(`buildEquivList`, the loop of `Theory.Overlap` once more), looks the followers up among
the rows, and adds a row if they are new (`closure`).

A row is an end row if an end node is in it; it has the values of the first one.
-/
import Orchid.RegexParse.Linked
import Orchid.RegexParse.Partition
import Orchid.Theory.BreadthFirst

namespace Orchid

open Orchid.Theory

set_option autoImplicit false

def nextDfaIndex : Nat := 4
def eolIndex : Nat := 5

def endStateBit : Uint := 1
def popDfaBit : Uint := 2

def bolToken : Nat := 0xFFFFFFFE
def eolToken : Nat := 0xFFFFFFFD

/-! ## Equivalent classes of a row -/

/-- `basic_equivset`; its `_id` is not read. -/
structure Equivset where
  indexVector : List Nat
  greedy : Bool
  followpos : List Nat
  deriving DecidableEq, Repr

/-- What is left of two vectors in order, and what they share. -/
def intersectIndexes (lhs rhs : List Nat) : List Nat × List Nat × List Nat :=
  match lhs, rhs with
  | [], rhs => ([], rhs, [])
  | lhs, [] => (lhs, [], [])
  | index :: lhs, rhsIndex :: rhs =>
      if index < rhsIndex then
        let (left, right, overlap) := intersectIndexes lhs (rhsIndex :: rhs)
        (index :: left, right, overlap)
      else if rhsIndex < index then
        let (left, right, overlap) := intersectIndexes (index :: lhs) rhs
        (left, rhsIndex :: right, overlap)
      else
        let (left, right, overlap) := intersectIndexes lhs rhs
        (left, right, index :: overlap)
termination_by lhs.length + rhs.length

namespace Equivset

def isEmpty (equivset : Equivset) : Bool := equivset.indexVector.isEmpty && equivset.followpos.isEmpty

/-- `intersect` with an empty `overlap_`.  The left one comes first: it keeps its
greediness and its followers stay in front. -/
def intersect (lhs rhs : Equivset) : Equivset × Equivset × Equivset :=
  let (left, right, overlap) := intersectIndexes lhs.indexVector rhs.indexVector
  if overlap.isEmpty then
    (⟨left, lhs.greedy, lhs.followpos⟩, ⟨right, rhs.greedy, rhs.followpos⟩, ⟨[], true, []⟩)
  else
    (⟨left, lhs.greedy, if left.isEmpty then [] else lhs.followpos⟩,
      ⟨right, rhs.greedy, if right.isEmpty then [] else rhs.followpos⟩,
      ⟨overlap, lhs.greedy, rhs.followpos.foldl enqueue lhs.followpos⟩)

end Equivset

/-- The classes a leaf is read by; the anchors are classes of their own. -/
def tokenIndexes (sets : SetMapping) : LeafToken → Option (List Nat)
  | .charset id => some (sets.classes id)
  | .bol => some [bolToken]
  | .eol => some [eolToken]
  | .null => none

def fillEquivset (heap : Heap) (sets : SetMapping) (p : Nat) : Option Equivset :=
  match heap[p]? with
  | some (.leafNode token _ greedy followpos) =>
      (tokenIndexes sets token).map fun indexes => ⟨indexes, greedy, followpos⟩
  | _ => none

def buildEquivList (heap : Heap) (sets : SetMapping) (vector : List Nat) : List Equivset :=
  refine Equivset.isEmpty Equivset.intersect (vector.filterMap (fillEquivset heap sets))

/-! ## Rows -/

/-- The rows made so far, the table, and the rows with an end-of-line transition. -/
structure DfaRows where
  seenVectors : List (List Nat)
  dfa : List Uint
  eolSet : List Nat

/-- `closure_ex`: the first end node counts, and no node is in a row twice. -/
def closureEx (heap : Heap) (state : Option EndState × List Nat) (p : Nat) : Option EndState × List Nat :=
  let end_ :=
    match state.1, heap[p]? with
    | none, some (.endNode end_) => some end_
    | end_, _ => end_
  (end_, enqueue state.2 p)

/-- A new row. -/
def newRow (alphabet : Nat) : Option EndState → List Uint
  | none => List.replicate alphabet 0
  | some end_ =>
      ((((((List.replicate alphabet 0).set endStateIndex (if end_.popDfa then endStateBit ||| popDfaBit else endStateBit)).set
        idIndex end_.id).set userIdIndex end_.userId).set pushDfaIndex end_.pushDfa).set nextDfaIndex end_.nextDfa)

def sameSet (v w : List Nat) : Bool := v.all (· ∈ w) && w.all (· ∈ v)

/-- `closure`: the number of the row with the followers, a new one if there is none yet;
`none` is `npos`.  The hash only saves comparisons of the sets. -/
def closure (heap : Heap) (alphabet : Nat) (followpos : List Nat) (rows : DfaRows) : Option Nat × DfaRows :=
  if followpos.isEmpty then (none, rows)
  else
    let (end_, vector) := followpos.foldl (closureEx heap) (none, [])
    match rows.seenVectors.findIdx? (sameSet vector) with
    | some k => (some (k + 1), rows)
    | none =>
        (some (rows.seenVectors.length + 1),
          { rows with seenVectors := rows.seenVectors ++ [vector], dfa := rows.dfa ++ newRow alphabet end_ })

/-- A transition on the class `i` from the row `index + 1`. -/
def setTransition (alphabet index transition : Nat) (rows : DfaRows) (i : Nat) : DfaRows :=
  if i = bolToken then { rows with dfa := rows.dfa.set 0 (BitVec.ofNat 32 transition) }
  else if i = eolToken then
    { rows with
      dfa := rows.dfa.set ((index + 1) * alphabet + eolIndex) (BitVec.ofNat 32 transition)
      eolSet := setInsert (index + 1) rows.eolSet }
  else { rows with dfa := rows.dfa.set ((index + 1) * alphabet + (i + transitionsIndex)) (BitVec.ofNat 32 transition) }

/-- The transitions of one set of classes; lazy ones are left out at an end row. -/
def addTransitions (heap : Heap) (alphabet index : Nat) (rows : DfaRows) (equivset : Equivset) : DfaRows :=
  match closure heap alphabet equivset.followpos rows with
  | (none, rows) => rows
  | (some transition, rows) =>
      if rows.dfa[(index + 1) * alphabet]?.getD 0 ≠ 0 ∧ equivset.greedy = false then rows
      else equivset.indexVector.foldl (setTransition alphabet index transition) rows

def buildRow (heap : Heap) (sets : SetMapping) (alphabet index : Nat) (vector : List Nat) (rows : DfaRows) : DfaRows :=
  (buildEquivList heap sets vector).foldl (addTransitions heap alphabet index) rows

def buildRows (heap : Heap) (sets : SetMapping) (alphabet : Nat) : Nat → Nat → DfaRows → Except String DfaRows
  | rounds, index, rows =>
      match rows.seenVectors[index]? with
      | none => .ok rows
      | some vector =>
          match rounds with
          | 0 => .error "build_dfa: out of rounds"
          | rounds + 1 => buildRows heap sets alphabet rounds (index + 1) (buildRow heap sets alphabet index vector rows)

/-- A newline goes behind the end of the line, where a rule ends there. -/
def fixClash (nlId alphabet : Nat) (dfa : List Uint) (row : Nat) : List Uint :=
  let eolState := dfa[row * alphabet + eolIndex]?.getD 0
  let nlState := dfa[row * alphabet + (nlId + transitionsIndex)]?.getD 0
  if nlState ≠ 0 then
    let dfa := dfa.set (row * alphabet + (nlId + transitionsIndex)) 0
    let next := eolState.toNat * alphabet + (transitionsIndex + nlId)
    if dfa[next]?.getD 0 = 0 then dfa.set next nlState else dfa
  else dfa

def fixClashes (nlId alphabet : Nat) (eolSet : List Nat) (dfa : List Uint) : List Uint :=
  eolSet.foldl (fixClash nlId alphabet) dfa

/-- `build_dfa` for the uncompressed table with a lookup; `nlId` is the number of the
set of the newline if a rule has a `$`.  There are no more rows than sets of nodes. -/
def buildDfa (map : CharsetMap) (root : Node) (heap : Heap) (nlId : Option Nat) : Except String LexTable := do
  let sets := setMapping map
  let nlClass := nlId.map fun id => (sets.classes id).headD 0
  let alphabet := (partitionCharsets map).length + transitionsIndex + (if nlClass.isNone then 0 else 1)
  if alphabet > npos.toNat then throw "The data type you have chosen cannot hold the dfa alphabet."
  let (_, rows) := closure heap alphabet root.firstpos ⟨[], List.replicate alphabet 0, []⟩
  let rows ← buildRows heap sets alphabet (2 ^ heap.length) 0 rows
  return { alphabet := alphabet, lookup := sets.lookup,
           dfa := fixClashes (nlClass.getD npos.toNat) alphabet rows.eolSet rows.dfa }

end Orchid
