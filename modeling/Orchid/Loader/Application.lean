/-
# Loader.Application -- the configuration's records and the installed tables

`ApplicationS`, `SigS` and `ElementS` are the parsed configuration;
`AppEntryS`, `SigEntryS` and `ElementEntryS` are the rows of the three arrays it
is installed into; `AppEntryT` is an entry of the pattern list both search
engines are built from.  `AppEntryT.addr` is the address of the entry's `regex`
buffer: the Aho-Corasick registration keeps that pointer, so the model needs its
value.
-/
import Orchid.Machine

namespace Orchid

set_option autoImplicit false

def MAX_APP_LENGTH : Nat := 16
def MAX_SIG_LENGTH : Nat := 128
def MAX_CATEGORY_ID : Nat := 16

def PROTOCOL_UDP : Uint := 1
def PROTOCOL_TCP : Uint := 2
def PROTOCOL_HTTP : Uint := 3

def SIG_MULTI : Uint := 2
def SIG_SINGLE : Uint := 1
def SIG_REGEX : Uint := 3

structure ElementS where
  id : Uint
  matchStr : CStr
  deriving DecidableEq, Repr

structure SigS where
  id : Uint
  proto : Uint
  type : Uint
  enable : Uint
  priority : Uint
  dir : Uint
  matchStr : CStr
  eleNum : Uint
  elements : List ElementS
  deriving DecidableEq, Repr

structure ApplicationS where
  id : Uint
  category : Uint
  name : CStr
  sigs : List SigS
  deriving DecidableEq, Repr

structure AppEntryT where
  appId : Uint
  regex : CStr
  addr : Uint
  deriving DecidableEq, Repr

/-- The counters of `app_statistics_s`; the two arrays have `MAX_CATEGORY_ID` cells. -/
structure AppStatisticsS where
  cateIndex : Nat → Nat
  cateNum : Nat → Nat
  appNums : Nat
  sigNums : Nat
  eleNums : Nat

structure AppEntryS where
  appname : Uint
  appid : Uint
  sigIndex : Uint
  sigNum : Uint
  deriving DecidableEq, Repr

structure SigEntryS where
  sigid : Uint
  proto : Uint
  enable : Uint
  priority : Uint
  fEleIndex : Uint
  deriving DecidableEq, Repr

def ELEMENT_START : Ushort := 1
def ELEMENT_MID : Ushort := 2
def ELEMENT_END : Ushort := 4

structure ElementEntryS where
  sigindex : Ushort
  flag : Ushort
  expEleIndex : Ushort
  deriving DecidableEq, Repr

structure AppInfoS where
  apps : List AppEntryS
  sigs : List SigEntryS
  eles : List ElementEntryS

/-- `new_app_sig`: `none` is the null it returns for a text of 128 bytes or more.
A null text is dereferenced by `strlen`. -/
def newAppSig (addr : Uint) (id : Uint) : Option CStr → Except Trap (Option AppEntryT)
  | none => .error .nullString
  | some sig =>
      .ok (if sig.length ≥ MAX_SIG_LENGTH then none else some ⟨id, sig, addr⟩)

def newSigElement (id : Uint) : Option CStr → Except Trap (Option ElementS)
  | none => .error .nullString
  | some sig => .ok (if sig.length ≥ MAX_SIG_LENGTH then none else some ⟨id, sig⟩)

end Orchid
