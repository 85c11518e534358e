/-
# Loader.Acsmx2 -- the Aho-Corasick state machine, as configured

The pattern machine in the one configuration `sig_parse_adapter_ac` selects: a
deterministic automaton stored in banded rows, 32-bit states.  Registration
(`acsmAddPattern2`) heads a list; compilation builds the keyword trie in
transition lists, the failure states and copied match lists breadth first
(`buildNFA`), the deterministic transitions breadth first (`convertNFAToDFA`),
and the banded rows with their match flags.

States are natural numbers and `none` stands for `ACSM_FAIL_STATE2`: no state is
numbered `0xffffffff`, since every state costs memory.  Arrays indexed by states
are functions, zero or empty where `calloc` left them.  The two queue loops
(`sweep`: take the head, handle its row) and the failure walk take a number of
rounds and trap when it runs out; the number of states is always enough
(`Loader.Acsmx2.Compile`).

`acsmSearchSparseDFABanded` is the search: it calls back with the *first* entry of
a state's match list before each transition, and once more for the state after
the last byte.
-/
import Orchid.Loader.Application
import Orchid.Theory.BreadthFirst
import Mathlib.Logic.Function.Basic
import Mathlib.Algebra.Group.Int.Defs

namespace Orchid

open Orchid.Theory (enqueue sweep)

set_option autoImplicit false

/-- `toupper` on the 256 byte values of the C locale. -/
def xlatcase (c : UInt8) : UInt8 := if 97 ≤ c ∧ c ≤ 122 then c - 32 else c

def convertCaseEx (s : CStr) : CStr := s.map xlatcase

structure AcsmPattern2 where
  patrn : CStr
  n : Nat
  /-- the pointer the caller passed as pattern text -/
  udata : Uint
  iid : Uint
  deriving DecidableEq, Repr

structure TransNode where
  key : UInt8
  nextState : Nat
  deriving DecidableEq, Repr

structure AcsmStruct2 where
  acsmNumStates : Nat
  acsmPatterns : List AcsmPattern2
  acsmFailState : Nat → Nat
  acsmMatchList : Nat → List AcsmPattern2
  acsmTransTable : Nat → List TransNode
  acsmNextState : Nat → List Nat

def ACF_BANDED : Nat := 2

/-- The values of a byte, in the order the alphabet loops visit them. -/
def alphabet : List UInt8 := (List.range 256).map UInt8.ofNat

/-! ## Registration -/

def acsmNew2 : AcsmStruct2 :=
  { acsmNumStates := 0
    acsmPatterns := []
    acsmFailState := fun _ => 0
    acsmMatchList := fun _ => []
    acsmTransTable := fun _ => []
    acsmNextState := fun _ => [] }

/-- `pat` is the text, `addr` the pointer to it. -/
def acsmAddPattern2 (p : AcsmStruct2) (pat : CStr) (addr iid : Uint) : AcsmStruct2 :=
  let plist : AcsmPattern2 :=
    { patrn := convertCaseEx pat, n := pat.length, udata := addr, iid := iid }
  { p with acsmPatterns := plist :: p.acsmPatterns }

/-! ## Transition lists -/

namespace AcsmStruct2

def listGetNextState (acsm : AcsmStruct2) (state : Nat) (input : UInt8) : Option Nat :=
  match (acsm.acsmTransTable state).find? (fun t => t.key == input) with
  | some t => some t.nextState
  | none => if state = 0 then some 0 else none

def listGetNextState2 (acsm : AcsmStruct2) (state : Nat) (input : UInt8) : Nat :=
  match (acsm.acsmTransTable state).find? (fun t => t.key == input) with
  | some t => t.nextState
  | none => 0

/-- Reset the first node with the key, or head a new one. -/
def putTrans (list : List TransNode) (input : UInt8) (nextState : Nat) : List TransNode :=
  if list.any (fun t => t.key == input) then
    list.map fun t => if t.key == input then { t with nextState := nextState } else t
  else ⟨input, nextState⟩ :: list

def listPutNextState (acsm : AcsmStruct2) (state : Nat) (input : UInt8) (nextState : Nat) :
    AcsmStruct2 :=
  { acsm with
    acsmTransTable := Function.update acsm.acsmTransTable state
      (putTrans (acsm.acsmTransTable state) input nextState) }

/-! ## The keyword trie -/

def addMatchListEntry (acsm : AcsmStruct2) (state : Nat) (px : AcsmPattern2) : AcsmStruct2 :=
  { acsm with
    acsmMatchList := Function.update acsm.acsmMatchList state (px :: acsm.acsmMatchList state) }

/-- Match up the pattern with existing states: the state reached and the bytes
left. -/
def matchUpPattern (acsm : AcsmStruct2) : Nat → CStr → Nat × CStr
  | state, [] => (state, [])
  | state, c :: pattern =>
      match acsm.listGetNextState state c with
      | none => (state, c :: pattern)
      | some next =>
          if next = 0 then (state, c :: pattern) else matchUpPattern acsm next pattern

/-- Add new states for the rest of the pattern bytes, one state per byte. -/
def addNewStates : AcsmStruct2 → Nat → CStr → AcsmStruct2 × Nat
  | acsm, state, [] => (acsm, state)
  | acsm, state, c :: pattern =>
      let acsm := { acsm with acsmNumStates := acsm.acsmNumStates + 1 }
      let acsm := acsm.listPutNextState state c acsm.acsmNumStates
      addNewStates acsm acsm.acsmNumStates pattern

def addPatternStates (acsm : AcsmStruct2) (p : AcsmPattern2) : AcsmStruct2 :=
  let (state, pattern) := acsm.matchUpPattern 0 p.patrn
  let (acsm, state) := acsm.addNewStates state pattern
  acsm.addMatchListEntry state p

/-! ## Failure states -/

/-- The states at depth one enter the queue and fail to state zero. -/
def buildNFAInitByte (st : List Nat × AcsmStruct2) (i : UInt8) : List Nat × AcsmStruct2 :=
  let (queue, acsm) := st
  let s := acsm.listGetNextState2 0 i
  if s ≠ 0 then
    (enqueue queue s, { acsm with acsmFailState := Function.update acsm.acsmFailState s 0 })
  else (queue, acsm)

def buildNFAInit (acsm : AcsmStruct2) : List Nat × AcsmStruct2 :=
  alphabet.foldl buildNFAInitByte ([], acsm)

/-- Locate the next valid state for `i` starting at `fs`. -/
def nextValid (acsm : AcsmStruct2) (i : UInt8) : Nat → Nat → Except Trap Nat
  | 0, _ => .error .fuel
  | n + 1, fs =>
      match acsm.listGetNextState fs i with
      | some next => .ok next
      | none => nextValid acsm i n (acsm.acsmFailState fs)

/-- Fail `s` to `next` and copy the match list of `next`, entry by entry, onto the
front of the list of `s`. -/
def settleState (acsm : AcsmStruct2) (s next : Nat) : AcsmStruct2 :=
  let acsm := { acsm with acsmFailState := Function.update acsm.acsmFailState s next }
  { acsm with
    acsmMatchList := Function.update acsm.acsmMatchList s
      ((acsm.acsmMatchList next).foldl (fun list px => px :: list) (acsm.acsmMatchList s)) }

/-- One byte of the row of `r`. -/
def buildNFAByte (r : Nat) (st : List Nat × AcsmStruct2) (i : UInt8) :
    Except Trap (List Nat × AcsmStruct2) := do
  let (queue, acsm) := st
  match acsm.listGetNextState r i with
  | none => return (queue, acsm)
  | some s =>
      let next ← acsm.nextValid i acsm.acsmNumStates (acsm.acsmFailState r)
      return (enqueue queue s, acsm.settleState s next)

def buildNFARow (r : Nat) (st : List Nat × AcsmStruct2) : Except Trap (List Nat × AcsmStruct2) :=
  alphabet.foldlM (buildNFAByte r) st

def buildNFALoop : Nat → List Nat → AcsmStruct2 → Except Trap AcsmStruct2 :=
  sweep Trap.fuel buildNFARow

def buildNFA (acsm : AcsmStruct2) : Except Trap AcsmStruct2 :=
  let (queue, acsm) := acsm.buildNFAInit
  buildNFALoop acsm.acsmNumStates queue acsm

/-! ## Deterministic transitions -/

def convertInitByte (acsm : AcsmStruct2) (queue : List Nat) (i : UInt8) : List Nat :=
  match acsm.listGetNextState 0 i with
  | some s => if s ≠ 0 then enqueue queue s else queue
  | none => queue

def convertInit (acsm : AcsmStruct2) : List Nat :=
  alphabet.foldl acsm.convertInitByte []

/-- One byte of the row of `r`: a trie child is queued, a missing transition is
taken from the failure state. -/
def convertByte (r : Nat) (st : List Nat × AcsmStruct2) (i : UInt8) : List Nat × AcsmStruct2 :=
  let (queue, acsm) := st
  let missing :=
    match acsm.listGetNextState (acsm.acsmFailState r) i with
    | some cFailState =>
        if cFailState ≠ 0 then (queue, acsm.listPutNextState r i cFailState) else (queue, acsm)
    | none => (queue, acsm)
  match acsm.listGetNextState r i with
  | some s => if s ≠ 0 then (enqueue queue s, acsm) else missing
  | none => missing

def convertRow (r : Nat) (st : List Nat × AcsmStruct2) : Except Trap (List Nat × AcsmStruct2) :=
  .ok (alphabet.foldl (convertByte r) st)

def convertLoop : Nat → List Nat → AcsmStruct2 → Except Trap AcsmStruct2 :=
  sweep Trap.fuel convertRow

def convertNFAToDFA (acsm : AcsmStruct2) : Except Trap AcsmStruct2 :=
  convertLoop acsm.acsmNumStates acsm.convertInit acsm

/-! ## Banded rows -/

def listConvToFull (acsm : AcsmStruct2) (state : Nat) : UInt8 → Nat :=
  (acsm.acsmTransTable state).foldl (fun full t => Function.update full t.key t.nextState)
    fun _ => 0

/-- The indices of the first and the last transition of a full row, `-1` and `-2`
where there is none. -/
def bandBounds (full : UInt8 → Nat) : Int × Int :=
  (List.range 256).foldl (fun (first, last) i =>
    if full (UInt8.ofNat i) ≠ 0 then (if first < 0 then (i : Int) else first, (i : Int))
    else (first, last)) (-1, -2)

/-- A banded row: format, match flag, band width, index of the first value, then
the values.  The index is stored as an unsigned word. -/
def bandedRow (full : UInt8 → Nat) : List Nat :=
  let (first, last) := bandBounds full
  let cnt := (last - first + 1).toNat
  [ACF_BANDED, 0, cnt, (first % 2 ^ 32).toNat] ++
    (List.range cnt).map fun k => full (UInt8.ofNat (first.toNat + k))

def convFullDFAToBanded (acsm : AcsmStruct2) : AcsmStruct2 :=
  (List.range acsm.acsmNumStates).foldl (fun acsm k =>
    { acsm with
      acsmNextState := Function.update acsm.acsmNextState k (bandedRow (acsm.listConvToFull k)) })
    acsm

/-- Load the match flags into the rows. -/
def acsmUpdateMatchStates (acsm : AcsmStruct2) : AcsmStruct2 :=
  (List.range acsm.acsmNumStates).foldl (fun acsm state =>
    if acsm.acsmMatchList state ≠ [] then
      { acsm with
        acsmNextState := Function.update acsm.acsmNextState state
          ((acsm.acsmNextState state).set 1 1) }
    else acsm) acsm

/-! ## Compilation -/

def acsmCompile2 (acsm : AcsmStruct2) : Except Trap AcsmStruct2 := do
  let acsm := { acsm with acsmNumStates := 0 }
  let acsm := acsm.acsmPatterns.foldl addPatternStates acsm
  -- the zeroth state
  let acsm := { acsm with acsmNumStates := acsm.acsmNumStates + 1 }
  let acsm ← acsm.buildNFA
  let acsm ← acsm.convertNFAToDFA
  return acsm.convFullDFAToBanded.acsmUpdateMatchStates

end AcsmStruct2

/-- `sig_parse_adapter_ac`: register every entry of the list, then compile. -/
def sigParseAdapterAc (apps : List AppEntryT) : Except Trap AcsmStruct2 :=
  (apps.foldl (fun acsm app => acsmAddPattern2 acsm app.regex app.addr app.appId)
    acsmNew2).acsmCompile2

/-! ## Search -/

/-- The arguments of one call of the match callback that it looks at: the id, the
index, and the pointer `data` as an offset from the text (`none` is null). -/
structure MatchCall where
  id : Uint
  index : Int
  data : Option Int
  deriving DecidableEq, Repr

section Search

variable {m : Type → Type} [Monad m] (acsm : AcsmStruct2) (onMatch : MatchCall → m Int)

/-- `ps[k]` of a row. -/
def rowCell (ps : List Nat) (k : Nat) : Nat := ps.getD k 0

/-- The transition of a banded row. -/
def bandedNext (ps : List Nat) (sindex : UInt8) : Nat :=
  if sindex.toNat < rowCell ps 3 then 0
  else if sindex.toNat ≥ rowCell ps 3 + rowCell ps 2 then 0
  else rowCell ps (4 + sindex.toNat - rowCell ps 3)

/-- The scan from `state` at offset `pos` over the bytes left; the result is the
number of matches and the state to continue from. -/
def bandedScan (data : Option Int) (currentState : Nat) :
    CStr → Nat → Nat → Nat → m (Nat × Nat)
  | [], pos, state, nfound =>
      -- the last state: its callback gets the registered pointer and the caller's data
      match acsm.acsmMatchList state with
      | mlist :: _ => do
          let r ← onMatch { id := mlist.udata, index := (pos : Int) - mlist.n, data := data }
          if r > 0 then return (nfound + 1, state) else return (nfound + 1, currentState)
      | [] => return (nfound, currentState)
  | c :: text, pos, state, nfound =>
      let ps := acsm.acsmNextState state
      let sindex := xlatcase c
      match (if rowCell ps 1 ≠ 0 then acsm.acsmMatchList state else []) with
      | mlist :: _ => do
          let index := (pos : Int) - mlist.n
          let r ← onMatch { id := mlist.iid, index := index, data := some index }
          if r > 0 then return (nfound + 1, state)
          else bandedScan data currentState text (pos + 1) (bandedNext ps sindex) (nfound + 1)
      | [] => bandedScan data currentState text (pos + 1) (bandedNext ps sindex) nfound

/-- The banded search of a text from `*current_state`: number of matches, and the
state stored back. -/
def acsmSearchSparseDFABanded (tx : CStr) (data : Option Int) (currentState : Nat) :
    m (Nat × Nat) :=
  bandedScan acsm onMatch data currentState tx 0 currentState 0

end Search

/-- The calls one search makes, from a callback that records its arguments and
returns zero as `MatchFound` does. -/
def searchCalls (acsm : AcsmStruct2) (tx : CStr) (data : Option Int) : List MatchCall :=
  (StateT.run (m := Id) (acsmSearchSparseDFABanded acsm
    (fun call => do modify (fun calls => calls ++ [call]); return 0) tx data 0) []).2

end Orchid
