/-
# Searcher.HttpSearch -- recording matches and checking them for signatures

Both engines keep the header a payload is in (`elementlast`) and append the id
words of the elements they meet inside it to the global `pattern` buffer.
`httpParse2` resets the buffer, searches with the Aho-Corasick machine and
`matchFound` as callback, and runs `patternCheck` over what was recorded;
`httpParse` walks the regex engine's graph and appends to the same buffer.

`SearchState.pattern` is the buffer up to `pattern_count`, at most 100 words.  A store
behind the last cell is a trap (`storePattern`); `SearchState.stores` keeps the index
of every store of the run, of that one too.  A search runs in
`EStateM Trap SearchState`: a trap leaves the state as it was when the run stopped.
-/
import Orchid.Loader.Acsmx2

namespace Orchid

set_option autoImplicit false

/-- `IS_HTTP_ELEMENT`: the word of a header marker. -/
def isHttpElement (x : Uint) : Bool := x &&& 0xFF000000 == 0

/-- `HTTP_ELEMENT_ID`. -/
def httpElementId (x : Uint) : Uint :=
  if x &&& 0xFF000000 ≠ 0 then (x >>> 24) &&& 0xFF else x &&& 0xFF

/-- `HTTP_ELEMENT_LENGTH`. -/
def httpElementLength (x : Uint) : Uint := (x &&& 0x00FFFF00) >>> 8

/-- The length of `pattern`. -/
def PATTERN_SIZE : Nat := 100

structure SearchState where
  pattern : List Uint
  /-- the index of every store into `pattern` so far -/
  stores : List Nat
  elementlast : Uint
  fits : pattern.length ≤ PATTERN_SIZE
  deriving DecidableEq, Repr

def SearchState.init : SearchState :=
  { pattern := [], stores := [], elementlast := 0, fits := Nat.zero_le _ }

/-- `pattern_count = 0`. -/
def SearchState.cleared (s : SearchState) : SearchState := { s with pattern := [], fits := Nat.zero_le _ }

abbrev SearchM := EStateM Trap SearchState

/-- `pattern[pattern_count++] = word`. -/
def storePattern (word : Uint) : SearchM Unit := fun s =>
  let stores := s.stores ++ [s.pattern.length]
  if room : s.pattern.length < PATTERN_SIZE then
    .ok () { s with
      pattern := s.pattern ++ [word]
      stores := stores
      fits := by rw [List.length_append]; exact room }
  else .error .patternRange { s with stores := stores }

/-! ## Signature check -/

/-- A line printed by `pattern_check`; `pos` is the index of the word being
processed. -/
structure Report where
  pos : Nat
  sigindex : Ushort
  app : Uint
  category : Uint
  deriving DecidableEq, Repr

def EXP_ARRYR_SIZE : Nat := 8

section PatternCheck

variable (info : AppInfoS)

def printMatch (i : Nat) (curEle : ElementEntryS) : Except Trap Report :=
  match info.sigs[curEle.sigindex.toNat]? with
  | none => .error .sigRange
  | some sig =>
      .ok { pos := i
            sigindex := curEle.sigindex
            app := sig.sigid &&& 0xFFFF
            category := (sig.sigid &&& 0xFFFF0000) >>> 16 }

/-- `exp_array[exp_num++] = exp`; the list holds the first `exp_num` cells. -/
def pushExp (expArray : List Nat) (exp : Nat) : Except Trap (List Nat) :=
  if expArray.length < EXP_ARRYR_SIZE then .ok (expArray ++ [exp]) else .error .expRange

/-- The inner loop over the live slots. -/
def advanceSlots (i eleOffset : Nat) (curEle : ElementEntryS) :
    List Nat → Except Trap (List Nat × List Report)
  | [] => .ok ([], [])
  | exp :: expArray =>
      if exp = eleOffset then do
        let reports ←
          if curEle.flag &&& ELEMENT_END ≠ 0 then do
            let report ← printMatch info i curEle
            pure [report]
          else pure []
        let (rest, later) ← advanceSlots i eleOffset curEle expArray
        return (curEle.expEleIndex.toNat :: rest, reports ++ later)
      else do
        let (rest, later) ← advanceSlots i eleOffset curEle expArray
        return (exp :: rest, later)

/-- One round of the outer loop. -/
def patternCheckStep (i : Nat) (word : Uint) (expArray : List Nat) :
    Except Trap (List Nat × List Report) :=
  let eleOffset := (word &&& 0xFFFF).toNat
  match info.eles[eleOffset]? with
  | none => .error .eleRange
  | some curEle =>
      if curEle.flag = ELEMENT_END ||| ELEMENT_START then do
        let report ← printMatch info i curEle
        let expArray ← pushExp expArray curEle.expEleIndex.toNat
        return (expArray, [report])
      else if curEle.flag &&& ELEMENT_START ≠ 0 then do
        let expArray ← pushExp expArray curEle.expEleIndex.toNat
        return (expArray, [])
      else advanceSlots info i eleOffset curEle expArray

def patternCheckLoop : Nat → List Nat → List Uint → Except Trap (List Report)
  | _, _, [] => .ok []
  | i, expArray, word :: patterns => do
      let (expArray, reports) ← patternCheckStep info i word expArray
      if expArray.length = EXP_ARRYR_SIZE then return reports
      else do
        let later ← patternCheckLoop (i + 1) expArray patterns
        return reports ++ later

/-- `pattern_check` over the recorded words: its return value and what it prints. -/
def patternCheck (patterns : List Uint) : Except Trap (Int × List Report) := do
  let reports ← patternCheckLoop info 0 [] patterns
  return (0, reports)

end PatternCheck

/-! ## The Aho-Corasick path -/

/-- The byte in front of a pointer into the text. -/
def charBefore (tx : CStr) : Option Int → Except Trap UInt8
  | none => .error .textRange
  | some k =>
      if k < 1 then .error .textRange
      else match tx[(k - 1).toNat]? with
        | none => .error .textRange
        | some c => .ok c

/-- The body of `MatchFound`; it reads the text through `data`. -/
def matchFoundBody (tx : CStr) (call : MatchCall) : SearchM Unit := do
  let matchId := call.id
  let elementId := httpElementId matchId
  if isHttpElement matchId then
    if call.index = 0 then
      modify fun s => { s with elementlast := elementId }
    else
      match charBefore tx call.data with
      | .error trap => throw trap
      | .ok c => if c = 10 then modify fun s => { s with elementlast := elementId }
  else
    let s ← get
    if elementId = s.elementlast then storePattern matchId

def matchFound (tx : CStr) (call : MatchCall) : SearchM Int := do
  matchFoundBody tx call
  return 0

/-- `httpParse2`: its return value and the matches printed by `pattern_check`. -/
def httpParse2 (acsm : AcsmStruct2) (info : AppInfoS) (tx : CStr) : SearchM (Int × List Report) := do
  modify SearchState.cleared
  let _ ← acsmSearchSparseDFABanded acsm (matchFound tx) tx none 0
  match patternCheck info (← get).pattern with
  | .error trap => throw trap
  | .ok (_, reports) => return (0, reports)

/-! ## The regex path -/

structure DfaGraphT where
  stateNum : Ushort
  alphabetSize : Ushort
  startOffset : Ushort
  alphabetTable : UInt8 → UInt8
  nextTable : List Ushort

def DfaGraphT.cell (graph : DfaGraphT) (k : Nat) : Except Trap Ushort :=
  match graph.nextTable[k]? with
  | none => .error .tableRange
  | some v => .ok v

/-- The row reached from the row at `curState` on a byte. -/
def DfaGraphT.nextRow (graph : DfaGraphT) (curState : Nat) (c : UInt8) : Except Trap Nat := do
  let next ← graph.cell (curState + graph.startOffset.toNat + (graph.alphabetTable c).toNat)
  return graph.alphabetSize.toNat * next.toNat

/-- The 32-bit id at columns one and two of a row, if the row is an end state. -/
def DfaGraphT.endId (graph : DfaGraphT) (curState : Nat) : Except Trap (Option Uint) := do
  let isEnd ← graph.cell curState
  if isEnd ≠ 0 then do
    let lo ← graph.cell (curState + 1)
    let hi ← graph.cell (curState + 2)
    return some (hi ++ lo)
  else return none

/-- What `httpParse` does at an end state with id `matchId` after `offset` bytes;
the result is the new `element_last`. -/
def httpParseEnd (tx : CStr) (offset : Nat) (matchId : Uint) (elementLast : Uint) : SearchM Uint := do
  let elementId := httpElementId matchId
  if isHttpElement matchId then
    let len := (httpElementLength matchId).toNat
    if offset < len then throw .assertion
    let start := offset - len
    if start = 0 ∨ tx[start - 1]? = some 10 then return elementId else return elementLast
  else
    if elementId = elementLast then storePattern (matchId &&& 0xFFFF)
    return elementLast

def httpParseLoop (graph : DfaGraphT) (tx : CStr) : CStr → Nat → Nat → Uint → SearchM Unit
  | [], _, _, _ => return ()
  | c :: text, pos, curState, elementLast => do
      match graph.nextRow curState c with
      | .error trap => throw trap
      | .ok curState =>
          match graph.endId curState with
          | .error trap => throw trap
          | .ok none => httpParseLoop graph tx text (pos + 1) curState elementLast
          | .ok (some matchId) => do
              let elementLast ← httpParseEnd tx (pos + 1) matchId elementLast
              httpParseLoop graph tx text (pos + 1) curState elementLast

def httpParse (graph : DfaGraphT) (tx : CStr) : SearchM Int := do
  httpParseLoop graph tx tx 0 0 0
  return 0

/-! ## Both engines -/

/-- Both engines on one payload, in the order `packet_handler` runs them: the two
return values and what `pattern_check` printed. -/
def searchBoth (acsm : AcsmStruct2) (info : AppInfoS) (graph : DfaGraphT) (tx : CStr) :
    SearchM (Int × Int × List Report) := do
  let (first, reports) ← httpParse2 acsm info tx
  let second ← httpParse graph tx
  return (first, second, reports)

end Orchid
