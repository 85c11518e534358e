/-
# Loader.SigLoader -- counting, installing, and collecting the regex patterns

`getApplicationSummary` counts applications, signatures and elements and turns
the per-category counts into start indices; `installApplication` writes the three
arrays and the pattern list of the Aho-Corasick engine in one more traversal;
`parseApplication` collects the pattern list of the regex engine.

The arrays come from `malloc`, so they start with whatever the memory held:
`Memory` is that content, together with the addresses of the pattern buffers.
A field the traversal does not assign keeps it (`appname`, `fEleIndex`), and the
element flags are OR-ed into it.
-/
import Orchid.Loader.HttpParse
import Mathlib.Logic.Function.Basic

namespace Orchid

set_option autoImplicit false

/-- What `malloc` hands out: the old content of the three arrays and the address
of each pattern buffer. -/
structure Memory where
  apps : Nat → AppEntryS
  sigs : Nat → SigEntryS
  eles : Nat → ElementEntryS
  alloc : Nat → Uint

/-! ## Counting -/

def AppStatisticsS.zero : AppStatisticsS :=
  { cateIndex := fun _ => 0, cateNum := fun _ => 0, appNums := 0, sigNums := 0, eleNums := 0 }

def countSig (summary : AppStatisticsS) (sig : SigS) : AppStatisticsS :=
  { summary with
    sigNums := summary.sigNums + 1
    eleNums := summary.eleNums + sig.elements.length }

def countApplication (summary : AppStatisticsS) (app : ApplicationS) :
    Except Trap AppStatisticsS :=
  let category := app.category.toNat
  if category < MAX_CATEGORY_ID then
    .ok (app.sigs.foldl countSig
      { summary with
        appNums := summary.appNums + 1
        cateNum := Function.update summary.cateNum category (summary.cateNum category + 1) })
  else .error .cateRange

/-- The running sum over the categories: `cate_index[0] = 0`, then every cell is
the number of applications of the smaller categories. -/
def cateIndexLoop (cateNum : Nat → Nat) : Nat → (Nat → Nat) × Nat
  | 0 => (Function.update (fun _ => 0) 0 0, cateNum 0)
  | i + 1 =>
      let (cateIndex, cateSum) := cateIndexLoop cateNum i
      (Function.update cateIndex (i + 1) cateSum, cateSum + cateNum (i + 1))

def getApplicationSummary (root : List ApplicationS) : Except Trap AppStatisticsS := do
  let summary ← root.foldlM countApplication AppStatisticsS.zero
  return { summary with cateIndex := (cateIndexLoop summary.cateNum (MAX_CATEGORY_ID - 1)).1 }

/-! ## Installing -/

structure InstallState where
  info : AppInfoS
  sigOffset : Nat
  eleOffset : Nat
  cateOffset : Nat → Nat
  appList : List AppEntryT

/-- The id word of an installed element: its element id above its offset. -/
def elementWord (elementId : Uint) (eleOffset : Nat) : Uint :=
  ((elementId &&& 0xFF) <<< 24) ||| BitVec.ofNat 32 eleOffset

/-- The body of the element loop; `eleNum` counts the elements of the signature. -/
def installElement (alloc : Nat → Uint) (st : InstallState) (eleNum : Nat) (element : ElementS) :
    Except Trap InstallState := do
  let appList ←
    pushAppSig alloc st.appList (elementWord element.id st.eleOffset) (some element.matchStr)
  match st.info.eles[st.eleOffset]? with
  | none => throw .eleRange
  | some curEle =>
      let curEle : ElementEntryS :=
        { sigindex := BitVec.ofNat 16 st.sigOffset
          flag := curEle.flag ||| (if eleNum = 0 then ELEMENT_START else ELEMENT_MID)
          expEleIndex := BitVec.ofNat 16 (st.eleOffset + 1) }
      return { st with
        info := { st.info with eles := st.info.eles.set st.eleOffset curEle }
        eleOffset := st.eleOffset + 1
        appList := appList }

def installElements (alloc : Nat → Uint) :
    InstallState → Nat → List ElementS → Except Trap InstallState
  | st, _, [] => .ok st
  | st, eleNum, element :: elements => do
      let st ← installElement alloc st eleNum element
      installElements alloc st (eleNum + 1) elements

/-- After the element loop the last element written is marked as the end. -/
def closeElements (eles : List ElementEntryS) (last : Nat) : List ElementEntryS :=
  eles.modify last fun curEle =>
    { curEle with flag := curEle.flag ||| ELEMENT_END, expEleIndex := 0xFFFF }

def installSig (alloc : Nat → Uint) (app : ApplicationS) (st : InstallState) (sig : SigS) :
    Except Trap InstallState := do
  match st.info.sigs[st.sigOffset]? with
  | none => throw .sigRange
  | some curSig =>
      let curSig : SigEntryS :=
        { curSig with
          sigid := ((app.category &&& 0xFFFF) <<< 16) ||| (app.id &&& 0xFFFF)
          proto := sig.proto
          enable := sig.enable
          priority := sig.priority }
      let st := { st with info := { st.info with sigs := st.info.sigs.set st.sigOffset curSig } }
      let st ← installElements alloc st 0 sig.elements
      let eles :=
        if sig.elements.length > 0 then closeElements st.info.eles (st.eleOffset - 1)
        else st.info.eles
      return { st with info := { st.info with eles := eles }, sigOffset := st.sigOffset + 1 }

def installApp (alloc : Nat → Uint) (summary : AppStatisticsS) (st : InstallState)
    (app : ApplicationS) : Except Trap InstallState := do
  let category := app.category.toNat
  if category ≥ MAX_CATEGORY_ID then throw .cateRange
  let slot := summary.cateIndex category + st.cateOffset category
  match st.info.apps[slot]? with
  | none => throw .appRange
  | some curApp =>
      let sigIndex := st.sigOffset
      let st ← app.sigs.foldlM (installSig alloc app) st
      let curApp : AppEntryS :=
        { curApp with
          appid := app.id
          sigIndex := BitVec.ofNat 32 sigIndex
          sigNum := BitVec.ofNat 32 (st.sigOffset - sigIndex) }
      return { st with
        info := { st.info with apps := st.info.apps.set slot curApp }
        cateOffset := Function.update st.cateOffset category (st.cateOffset category + 1) }

/-- `install_Application` in the build with the Aho-Corasick engine: the tables
and the pattern list. -/
def installApplication (mem : Memory) (summary : AppStatisticsS) (root : List ApplicationS) :
    Except Trap (AppInfoS × List AppEntryT) := do
  let info : AppInfoS :=
    { apps := (List.range summary.appNums).map mem.apps
      sigs := (List.range summary.sigNums).map mem.sigs
      eles := (List.range summary.eleNums).map mem.eles }
  let appList ← initHttpSig mem.alloc []
  let st ← root.foldlM (installApp mem.alloc summary)
    { info := info, sigOffset := 0, eleOffset := 0, cateOffset := fun _ => 0, appList := appList }
  return (st.info, st.appList)

/-! ## The regex engine's patterns -/

/-- The pattern list `parseApplication` hands to the regex engine: the markers,
then the items of the signatures whose protocol is HTTP. -/
def parseApplication (alloc : Nat → Uint) (root : List ApplicationS) :
    Except Trap (List AppEntryT) := do
  let appList ← initHttpSig alloc []
  root.foldlM (fun appList app =>
    app.sigs.foldlM (fun appList sig =>
      if sig.proto = PROTOCOL_HTTP then
        parseHttpSig alloc appList sig.matchStr sig.id sig.type
      else .ok appList) appList) appList

end Orchid
