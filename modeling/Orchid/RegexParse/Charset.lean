/-
# RegexParse.Charset -- escapes and bracketed sets in a rule's text

The tokeniser reads the text of a rule from front to back; `ReState.rest` is what is left
of it.  `charset` reads a set in brackets, with ranges, escapes and POSIX classes; the
shortcuts such as `\d` are sets in brackets themselves, so it calls itself.  The depth is
that of the shortcuts: those for the Unicode categories, `\p`, are made of others.

`unicode` are the texts of the Unicode categories.  All letters are those of the C locale.
-/
import Orchid.Loader.Lexer
import Orchid.RegexParse.Parser

namespace Orchid

open Orchid.Theory

set_option autoImplicit false

def byte (c : Char) : UInt8 := c.toNat.toUInt8

/-! ## The state -/

structure ReState where
  /-- how long the whole text is -/
  total : Nat
  rest : CStr
  id : Uint
  flags : Nat
  flagsStack : List Nat := []
  parenCount : Int := 0
  inString : Bool := false

namespace ReState

def ofText (text : CStr) (id : Uint) (flags : Nat) : ReState :=
  { total := text.length, rest := text, id := id, flags := flags }

def index (state : ReState) : Nat := state.total - state.rest.length

def setRest (rest : CStr) (state : ReState) : ReState := { state with rest := rest }

def increment (state : ReState) : ReState := state.setRest state.rest.tail

def fail {α : Type} (state : ReState) (text : String) : Except String α :=
  .error (text ++ " in rule id " ++ toString state.id.toNat ++ ".")

/-- With the index of the head of `rest`. -/
def failAt {α : Type} (state : ReState) (text : String) : Except String α :=
  state.fail (text ++ " at index " ++ toString state.index)

def failBefore {α : Type} (state : ReState) (text : String) : Except String α :=
  state.fail (text ++ " preceding index " ++ toString state.index)

end ReState

def icase : Nat := 1
def dotNotNewline : Nat := 2
def skipWs : Nat := 4

def hasFlag (flags flag : Nat) : Bool := flags &&& flag ≠ 0

/-! ## Letters -/

def toupper (c : UInt8) : UInt8 := if 97 ≤ c ∧ c ≤ 122 then c - 32 else c

def foldByte (out : StringToken) (c : UInt8) : StringToken :=
  let out := if toupper c ≠ c then out.insert (ByteRange.one (toupper c)) else out
  if tolower c ≠ c then out.insert (ByteRange.one (tolower c)) else out

/-- The other cases of the letters of a range. -/
def fold (range : ByteRange) : StringToken :=
  (List.range' range.first range.size).foldl (fun out c => foldByte out c.toUInt8) .empty

/-- A range goes into a set, in both cases if the flag says so. -/
def insertFolded (flags : Nat) (range : ByteRange) (token : StringToken) : StringToken :=
  let token := token.insert range
  if hasFlag flags icase ∧ (fold range).isEmpty = false then token.insertToken (fold range) else token

/-! ## Escapes -/

def isOctal (c : UInt8) : Bool := byte '0' ≤ c && c ≤ byte '7'

def isHex (c : UInt8) : Bool :=
  isDecimal c || (byte 'a' ≤ c && c ≤ byte 'f') || (byte 'A' ≤ c && c ≤ byte 'F')

def hexValue (c : UInt8) : Nat :=
  if isDecimal c then (c - byte '0').toNat
  else if byte 'a' ≤ c ∧ c ≤ byte 'f' then 10 + (c - byte 'a').toNat
  else 10 + (c - byte 'A').toNat

def octalDigits : Nat → Nat → CStr → Nat × CStr
  | 0, oct, rest => (oct, rest)
  | _, oct, [] => (oct, [])
  | count + 1, oct, c :: rest =>
      if isOctal c then octalDigits count (oct * 8 + (c - byte '0').toNat) rest else (oct, c :: rest)

/-- `size_t` wraps around. -/
def hexDigits (hex : Uint) : CStr → Uint × CStr
  | [] => (hex, [])
  | c :: rest => if isHex c then hexDigits (hex * 16 + BitVec.ofNat 32 (hexValue c)) rest else (hex, c :: rest)

def decodeOctal (state : ReState) : Except String (UInt8 × ReState) :=
  let (oct, rest) := octalDigits 3 0 state.rest
  let state := state.setRest rest
  if oct > 255 then
    state.failBefore ("Escape \\" ++ String.ofList (Nat.toDigits 8 oct) ++ " is too big for the state machine char type")
  else .ok (oct.toUInt8, state)

def decodeControlChar (state : ReState) : Except String (UInt8 × ReState) :=
  match state.rest with
  | [] => state.fail "Unexpected end of regex following \\c"
  | c :: rest =>
      if byte 'a' ≤ c ∧ c ≤ byte 'z' then .ok (c - (byte 'a' - 1), state.setRest rest)
      else if byte 'A' ≤ c ∧ c ≤ byte 'Z' then .ok (c - (byte 'A' - 1), state.setRest rest)
      else if c = byte '@' then .ok (0, state.setRest rest)
      else state.failAt "Invalid control char"

def decodeHex (state : ReState) : Except String (UInt8 × ReState) :=
  match state.rest with
  | [] => state.fail "Unexpected end of regex following \\x"
  | c :: _ =>
      if isHex c = false then state.failAt "Illegal char following \\x"
      else
        let (hex, rest) := hexDigits 0 state.rest
        let state := state.setRest rest
        if hex.toNat > 255 then
          state.failAt ("Escape \\x" ++ String.ofList (Nat.toDigits 16 hex.toNat) ++ " is too big for the state machine char type")
        else .ok (hex.toNat.toUInt8, state)

/-- An escape that stands for one byte; `c` is behind the backslash. -/
def chr (c : UInt8) (state : ReState) : Except String (UInt8 × ReState) :=
  let behind := state.increment
  if isOctal c then decodeOctal state
  else if c = byte 'a' then .ok (7, behind)
  else if c = byte 'b' then .ok (8, behind)
  else if c = byte 'c' then decodeControlChar behind
  else if c = byte 'e' then .ok (27, behind)
  else if c = byte 'f' then .ok (12, behind)
  else if c = byte 'n' then .ok (10, behind)
  else if c = byte 'r' then .ok (13, behind)
  else if c = byte 't' then .ok (9, behind)
  else if c = byte 'v' then .ok (11, behind)
  else if c = byte 'x' then decodeHex behind
  else .ok (c, behind)

/-- The categories behind `\p\x7b`: the letter, whether the error at the end of the text has
two blanks, the whole category, and the parts of it. -/
structure Category where
  letter : Char
  blanks : String
  whole : String
  parts : List Char

def unicodeCategories : List Category :=
  [⟨'C', "", "[\\p\x7bCc\x7d\\p\x7bCf\x7d\\p\x7bCo\x7d\\p\x7bCs\x7d]", ['c', 'f', 'o', 's']⟩,
    ⟨'L', " ", "[\\p\x7bLl\x7d\\p\x7bLm\x7d\\p\x7bLo\x7d\\p\x7bLt\x7d\\p\x7bLu\x7d]", ['C', 'l', 'm', 'o', 't', 'u']⟩,
    ⟨'M', " ", "[\\p\x7bMc\x7d\\p\x7bMe\x7d\\p\x7bMn\x7d]", ['c', 'e', 'n']⟩,
    ⟨'N', " ", "[\\p\x7bNd\x7d\\p\x7bNl\x7d\\p\x7bNo\x7d]", ['d', 'l', 'o']⟩,
    ⟨'P', " ", "[\\p\x7bPc\x7d\\p\x7bPd\x7d\\p\x7bPe\x7d\\p\x7bPf\x7d\\p\x7bPi\x7d\\p\x7bPo\x7d\\p\x7bPs\x7d]",
      ['c', 'd', 'e', 'f', 'i', 'o', 's']⟩,
    ⟨'S', " ", "[\\p\x7bSc\x7d\\p\x7bSk\x7d\\p\x7bSm\x7d\\p\x7bSo\x7d]", ['c', 'k', 'm', 'o']⟩,
    ⟨'Z', " ", "[\\p\x7bZl\x7d\\p\x7bZp\x7d\\p\x7bZs\x7d]", ['l', 'p', 's']⟩]

/-- The text of a part of a category; `\p\x7bLC\x7d` is made of others. -/
def partText (unicode : Char → Char → CStr) (letter part : Char) : CStr :=
  if letter = 'L' ∧ part = 'C' then cstr "[\\p\x7bLl\x7d\\p\x7bLt\x7d\\p\x7bLu\x7d]" else unicode letter part

/-- Behind the letter of a category. -/
def unicodePart (unicode : Char → Char → CStr) (category : Category) (state : ReState) : Except String (CStr × ReState) :=
  match state.rest with
  | [] => state.fail ("Unexpected end of regex following \\p\x7b" ++ category.letter.toString ++ category.blanks)
  | c :: _ =>
      if c = byte '\x7d' then .ok (cstr category.whole, state)
      else
        match category.parts.find? fun part => byte part = c with
        | none => state.failAt ("Syntax error following \\p\x7b" ++ category.letter.toString)
        | some part => .ok (partText unicode category.letter part, state.increment)

/-- Behind the opening brace. -/
def unicodeCategory (unicode : Char → Char → CStr) (state : ReState) : Except String (CStr × ReState) :=
  match state.rest with
  | [] => state.fail "Unexpected end of regex following \\p\x7b"
  | letter :: _ =>
      match unicodeCategories.find? fun category => byte category.letter = letter with
      | none => state.failAt "Syntax error following \\p\x7b"
      | some category => unicodePart unicode category state.increment

/-- The state is left in front of the closing brace; behind the end of the text stands a zero. -/
def unicodeEscape (unicode : Char → Char → CStr) (state : ReState) : Except String (CStr × ReState) :=
  let state := state.increment
  match state.rest with
  | [] => state.fail "Unexpected end of regex following \\p"
  | c :: _ =>
      if c ≠ byte '\x7b' then state.failAt "Syntax error following \\p"
      else do
        let (str, state) ← unicodeCategory unicode state.increment
        if state.rest.head? = some (byte '\x7d') then return (str, state) else state.failAt "Missing \x7d"

/-- The set a shortcut stands for, if it is one. -/
def charsetShortcut (unicode : Char → Char → CStr) (c : UInt8) (state : ReState) : Except String (Option CStr × ReState) :=
  if c = byte 'd' then .ok (some (cstr "[0-9]"), state)
  else if c = byte 'D' then .ok (some (cstr "[^0-9]"), state)
  else if c = byte 'p' then (unicodeEscape unicode state).map fun found => (some found.1, found.2)
  else if c = byte 's' then .ok (some (cstr "[ \t\n\r\x0c\x0b]"), state)
  else if c = byte 'S' then .ok (some (cstr "[^ \t\n\r\x0c\x0b]"), state)
  else if c = byte 'w' then .ok (some (cstr "[_0-9A-Za-z]"), state)
  else if c = byte 'W' then .ok (some (cstr "[^_0-9A-Za-z]"), state)
  else .ok (none, state)

/-- A shortcut or a byte. -/
def escapeSequence (unicode : Char → Char → CStr) (state : ReState) : Except String ((CStr ⊕ UInt8) × ReState) :=
  match state.rest with
  | [] => state.fail "Unexpected end of regex following '\\'"
  | c :: _ => do
      let (str, state) ← charsetShortcut unicode c state
      match str with
      | some str => return (.inl str, state.increment)
      | none =>
          let (c, state) ← chr c state
          return (.inr c, state)

/-! ## POSIX classes -/

/-- Steps over the letters while they are those of the word. -/
def consume : CStr → CStr → CStr × Bool
  | [], rest => (rest, true)
  | _ :: _, [] => ([], false)
  | n :: word, c :: rest => if c = n then consume word rest else (c :: rest, false)

/-- As `consume`, but the letter of the word that does not match is stepped over, too. -/
def consumeWord : CStr → CStr → CStr × Bool
  | [], rest => (rest, true)
  | _ :: _, [] => ([], false)
  | n :: word, c :: rest => if c = n then consumeWord word rest else (c :: rest, word.isEmpty)

/-- The set of the bytes with a property, in brackets. -/
def bracketed (is : UInt8 → Bool) : CStr :=
  byte '[' :: (((List.range 256).map Nat.toUInt8).filter is ++ [byte ']'])

def isupper (c : UInt8) : Bool := 65 ≤ c && c ≤ 90
def islower (c : UInt8) : Bool := 97 ≤ c && c ≤ 122
def isalpha (c : UInt8) : Bool := isupper c || islower c
def isalnum (c : UInt8) : Bool := isDecimal c || isalpha c

/-- Behind the `a`: what is left of the text, and the set. -/
def alnumAlpha (rest : CStr) : CStr × CStr :=
  let (rest, l) := consume (cstr "l") rest
  if l = false then (rest, bracketed isalnum)
  else if rest.head? = some (byte 'n') then ((consume (cstr "num") rest).1, bracketed isalnum)
  else
    let (rest, alpha) := consume (cstr "pha") rest
    (rest, bracketed (if alpha then isalpha else isalnum))

/-- Behind the `p`. -/
def printPunct (rest : CStr) : CStr × CStr :=
  if rest.head? = some (byte 'u') then
    let (rest, punct) := consume (cstr "unct") rest
    (rest, if punct then cstr "[!\"#$%&'()*+,\\-./:;<=>?@[\\\\\\]^_`\x7b|\x7d~]" else cstr "[\x20-\x7e]")
  else ((consume (cstr "rint") rest).1, cstr "[\x20-\x7e]")

/-- The other classes: the first letter, the letters behind it, and the set. -/
def posixNames : List (Char × String × CStr) :=
  [('b', "lank", cstr "[ \t]"), ('c', "ntrl", cstr "[\\x00-\x1f\x7f]"), ('d', "igit", cstr "[0-9]"),
    ('g', "raph", cstr "[\x21-\x7e]"), ('l', "ower", bracketed islower), ('s', "pace", cstr "[ \t\r\n\x0b\x0c]"),
    ('u', "pper", bracketed isupper), ('x', "digit", cstr "[0-9A-Fa-f]")]

/-- The name of a class, by its first letter: what is left of the text, and the set if
the name is the one that is meant. -/
def posixName (first : UInt8) (rest : CStr) : Option (CStr × Option CStr) :=
  if first = byte 'a' then some ((alnumAlpha rest).1, some (alnumAlpha rest).2)
  else if first = byte 'p' then some ((printPunct rest).1, some (printPunct rest).2)
  else
    (posixNames.find? fun name => byte name.1 = first).map fun name =>
      ((consumeWord (cstr name.2.1) rest).1, if (consumeWord (cstr name.2.1) rest).2 then some name.2.2 else none)

/-- Behind the name of a class. -/
def posixClose (sub : ReState → Except String StringToken) (negate : Bool) (str : Option CStr) (state : ReState)
    (token : StringToken) : Except String (StringToken × ReState) :=
  match str with
  | none => state.failAt "Unknown POSIX charset"
  | some str =>
      let state := if state.rest.head? = some (byte ':') then state.increment else state
      if state.rest.head? = some (byte ']') then do
        let temp ← sub (ReState.ofText str.tail state.id state.flags)
        return (token.insertToken (if negate then temp.negate else temp), state.increment)
      else state.failAt "Unknown POSIX charset"

/-- Behind `[:`. -/
def posix (sub : ReState → Except String StringToken) (state : ReState) (token : StringToken) :
    Except String (StringToken × ReState) :=
  let negate := state.rest.head? = some (byte '^')
  let state := if negate then state.increment else state
  match state.rest with
  | [] => state.fail "Unexpected end of regex (unterminated POSIX charset)"
  | first :: rest =>
      match posixName first rest with
      | none => state.failAt "Unknown POSIX charset"
      | some (rest, str) => posixClose sub negate str (state.setRest rest) token

/-! ## Sets in brackets -/

/-- What a set is read with. -/
structure CharsetReader where
  unicode : Char → Char → CStr
  sub : ReState → Except String StringToken

namespace CharsetReader

variable (reader : CharsetReader)

/-- The byte at the end of a range, `c` in front of `rest`. -/
def rangeEnd (c : UInt8) (rest : CStr) (state : ReState) : Except String (UInt8 × ReState) :=
  if c = byte '\\' then do
    let (found, behind) ← escapeSequence reader.unicode (state.setRest rest)
    match found with
    | .inl _ => behind.failBefore "Charset cannot form end of range"
    | .inr curr => return (curr, behind)
  else if c = byte '[' ∧ rest.head? = some (byte ':') then state.failAt "POSIX char class cannot form end of range"
  else .ok (c, state.setRest rest)

/-- `charset_range`: the state is in front of the hyphen. -/
def range (chset : Bool) (prev : UInt8) (state : ReState) (token : StringToken) : Except String (ReState × StringToken) :=
  if chset then state.failBefore "Charset cannot form start of range"
  else
    let state := state.increment
    match state.rest with
    | [] => state.fail "Unexpected end of regex following '-'"
    | c :: rest => do
        let (curr, behind) ← reader.rangeEnd c rest state
        if behind.rest.isEmpty then behind.fail "Unexpected end of regex (missing ']')"
        else if h : prev.toNat ≤ curr.toNat then
          return (behind, insertFolded state.flags ⟨prev.toNat, curr.toNat, h, UInt8.toNat_lt curr⟩ token)
        else behind.failBefore "Invalid range in charset"

/-- What is read of a member: a set, which goes into the token, or a byte that may start a range. -/
structure Read where
  chset : Bool
  prev : UInt8
  behind : ReState
  token : StringToken

def start (c : UInt8) (rest : CStr) (prev : UInt8) (state : ReState) (token : StringToken) : Except String Read :=
  if c = byte '\\' then do
    let (found, behind) ← escapeSequence reader.unicode (state.setRest rest)
    match found with
    | .inl str => do
        let temp ← reader.sub (ReState.ofText str.tail state.id state.flags)
        return ⟨true, prev, behind, token.insertToken temp⟩
    | .inr c => return ⟨false, c, behind, token⟩
  else if c = byte '[' ∧ rest.head? = some (byte ':') then do
    let (token, behind) ← posix reader.sub (state.setRest rest.tail) token
    return ⟨true, prev, behind, token⟩
  else .ok ⟨false, c, state.setRest rest, token⟩

/-- One member of the set, `c` in front of `rest`; the state is left in front of the next one. -/
def member (c : UInt8) (rest : CStr) (prev : UInt8) (state : ReState) (token : StringToken) :
    Except String (ReState × UInt8 × StringToken) := do
  let ⟨chset, prev, behind, token⟩ ← reader.start c rest prev state token
  match behind.rest with
  | [] => behind.fail "Unexpected end of regex (missing ']')"
  | next :: _ =>
      if next = byte '-' then do
        let (state, token) ← reader.range chset prev behind token
        return (state, prev, token)
      else return (behind, prev, if chset then token else insertFolded state.flags (ByteRange.one prev) token)

/-- The members up to the closing bracket. -/
def members : Nat → UInt8 → ReState → StringToken → Except String (ReState × StringToken)
  | rounds, prev, state, token =>
      match state.rest with
      | [] => state.fail "Unexpected end of regex (missing ']')"
      | c :: rest =>
          if c = byte ']' then .ok (state.setRest rest, token)
          else
            match rounds with
            | 0 => .error "charset: out of rounds"
            | rounds + 1 => do
                let (state, prev, token) ← reader.member c rest prev state token
                members rounds prev state token

/-- Behind the opening bracket. -/
def read (state : ReState) : Except String (StringToken × ReState) :=
  match state.rest with
  | [] => state.fail "Unexpected end of regex following '['"
  | c :: _ =>
      let negated := c = byte '^'
      let state := if negated then state.increment else state
      if state.rest.isEmpty then state.fail "Unexpected end of regex following '^'"
      else do
        let (state, token) ← reader.members state.rest.length 0 state .empty
        let token := if negated then token.negate else token
        if token.isEmpty then state.failBefore "Empty charsets not allowed" else return (token, state)

end CharsetReader

/-- `charset`, to the given depth of shortcuts. -/
def charset (unicode : Char → Char → CStr) : Nat → ReState → Except String (StringToken × ReState)
  | 0, _ => .error "charset: too deep"
  | depth + 1, state =>
      (CharsetReader.mk unicode fun state => (charset unicode depth state).map Prod.fst).read state

/-- A set for a rule: a shortcut may be made of others, and these of parts. -/
def ruleCharset (unicode : Char → Char → CStr) (state : ReState) : Except String (StringToken × ReState) :=
  charset unicode 3 state

end Orchid
