/-
# RegexParse.Tokeniser -- from the text of a rule to its tokens

`next` reads one token: it skips comments and, with the flag, blanks; inside quotes every
byte stands for itself.  `tokenise` reads the tokens of a rule up to the end, checks every
token against the one before, and works off the operators on sets.  `Rules.push` adds a
rule; `regexParse` makes the table of the entries of the pattern list.

Macros are left out: the program defines none, so every name of one is unknown.
-/
import Orchid.RegexParse.Charset
import Orchid.RegexParse.Build

namespace Orchid

open Orchid.Theory

set_option autoImplicit false

/-! ## What is skipped -/

/-- Past the quotes in front, each of which starts or ends a string. -/
def quotes : CStr → Bool → CStr × Bool
  | [], inString => ([], inString)
  | c :: rest, inString => if c = byte '"' then quotes rest (!inString) else (c :: rest, inString)

/-- Past the parenthesis that closes a comment. -/
def commentEnd : Nat → CStr → Option CStr
  | _, [] => none
  | parenCount, c :: rest =>
      let parenCount := if c = byte '(' then parenCount + 1 else if c = byte ')' then parenCount - 1 else parenCount
      if c = byte ')' ∧ parenCount = 0 then some rest else commentEnd parenCount rest

/-- Past the end of a comment as in C. -/
def cCommentEnd : CStr → Option CStr
  | [] => none
  | c :: rest => if c = byte '*' ∧ rest.head? = some (byte '/') then some rest.tail else cCommentEnd rest

def isBlank (c : UInt8) : Bool := c = 32 || c = 9 || c = 10 || c = 13 || c = 12 || c = 11

namespace ReState

/-- `(?#` comments. -/
def comment (state : ReState) : Except String (Bool × ReState) :=
  if state.inString = false ∧ state.rest.take 3 = cstr "(?#" then
    match commentEnd 1 (state.rest.drop 3) with
    | none => state.fail "Unexpected end of regex (unterminated comment)"
    | some rest => .ok (true, state.setRest rest)
  else .ok (false, state)

/-- Blanks and C comments. -/
def skipLoop : Nat → ReState → Except String (Bool × ReState)
  | 0, state => .ok (false, state)
  | rounds + 1, state =>
      match state.rest with
      | [] => .ok (false, state)
      | c :: rest =>
          if c = byte '/' ∧ rest.head? = some (byte '*') then
            match cCommentEnd rest.tail with
            | none => state.fail "Unexpected end of regex (unterminated C style comment)"
            | some rest => do
                let (_, state) ← skipLoop rounds (state.setRest rest)
                return (true, state)
          else if isBlank c then do
            let (_, state) ← skipLoop rounds (state.setRest rest)
            return (true, state)
          else .ok (false, state)

def skip (state : ReState) : Except String (Bool × ReState) :=
  if hasFlag state.flags skipWs ∧ state.inString = false then skipLoop state.rest.length state else .ok (false, state)

/-- Everything in front of the next token. -/
def skipAll : Nat → ReState → Except String ReState
  | rounds, state => do
      let (rest, inString) := quotes state.rest state.inString
      let state := { state with rest := rest, inString := inString }
      let (commented, state) ← state.comment
      let (skipped, state) ← state.skip
      if commented || skipped then
        match rounds with
        | 0 => throw "next: out of rounds"
        | rounds + 1 => skipAll rounds state
      else return state

end ReState

/-! ## One token -/

namespace ReToken

def ofType (type : TokenType) : ReToken := { type := type }

def ofSet (str : StringToken) : ReToken := { type := .charset, str := str }

def ofByte (c : UInt8) : ReToken := ofSet (StringToken.empty.insert (ByteRange.one c))

end ReToken

/-- The quantifier with a `?` behind it. -/
def TokenType.lazy_ : TokenType → TokenType
  | opt => aopt
  | zeroOrMore => azeroOrMore
  | oneOrMore => aoneOrMore
  | repeatn => arepeatn
  | type => type

namespace ReState

def readLazy (type : TokenType) (state : ReState) : TokenType × ReState :=
  if state.rest.head? = some (byte '?') then (type.lazy_, state.increment) else (type, state)

def clearFlag (flags flag : Nat) : Nat := flags - (flags &&& flag)

/-- The options in front of the colon. -/
def optionLoop : CStr → Bool → ReState → Except String ReState
  | [], _, state => .ok (state.setRest [])
  | c :: rest, negate, state =>
      if c = byte ':' then .ok (state.setRest rest)
      else if c = byte '-' then optionLoop rest (!negate) state
      else if c = byte 'i' then
        optionLoop rest false { state with flags := if negate then clearFlag state.flags icase else state.flags ||| icase }
      else if c = byte 's' then
        optionLoop rest false { state with
          flags := if negate then state.flags ||| dotNotNewline else clearFlag state.flags dotNotNewline }
      else if c = byte 'x' then
        optionLoop rest false { state with flags := if negate then clearFlag state.flags skipWs else state.flags ||| skipWs }
      else (state.setRest (c :: rest)).failAt "Unknown option"

/-- Behind an opening parenthesis. -/
def readOptions (state : ReState) : Except String ReState :=
  match state.rest with
  | c :: rest =>
      if c = byte '?' then optionLoop rest false { state with flagsStack := state.flags :: state.flagsStack }
      else if state.flagsStack.isEmpty then .ok state
      else .ok { state with flagsStack := state.flags :: state.flagsStack }
  | [] => if state.flagsStack.isEmpty then .ok state else .ok { state with flagsStack := state.flags :: state.flagsStack }

end ReState

def missingCurly {α : Type} (state : ReState) : Except String α := state.fail "Unexpected end of regex (missing '\x7d')"

/-! ## Repetitions -/

/-- The digits in front, with their value. -/
def readDigits (value : Uint) (extra : CStr) : CStr → Uint × CStr × CStr
  | [] => (value, extra, [])
  | c :: rest =>
      if isDecimal c then readDigits (value * 10 + BitVec.ofNat 32 (c.toNat - 48)) (extra ++ [c]) rest
      else (value, extra, c :: rest)

/-- What is known of a repetition in front of its closing brace: the quantifier it is
short for, if it is, whether it has two bounds, and the upper one. -/
structure Repetition where
  short : Option TokenType
  minMax : Bool
  max : Uint
  extra : CStr

/-- Behind the comma. -/
def repeatBehind (min : Uint) (extra : CStr) (state : ReState) : Except String (Repetition × ReState) :=
  match state.rest with
  | [] => missingCurly state
  | c :: _ =>
      if c = byte '\x7d' then
        .ok (⟨if min = 0 then some .zeroOrMore else if min = 1 then some .oneOrMore else none, false, 0, extra⟩, state)
      else if isDecimal c = false then state.failAt "Missing '\x7d'"
      else
        let (max, extra, rest) := readDigits 0 extra state.rest
        let state := state.setRest rest
        if rest.isEmpty then missingCurly state
        else if min = 0 ∧ max = 1 then .ok (⟨some .opt, true, max, extra⟩, state)
        else if min = max then .ok (⟨none, false, 0, extra.takeWhile (· ≠ comma)⟩, state)
        else .ok (⟨none, true, max, extra⟩, state)

/-- In front of the first digit: the lower bound, and what stands behind it. -/
def repeatFront (state : ReState) : Except String (Uint × Repetition × ReState) :=
  let (min, extra, rest) := readDigits 0 [] state.rest
  let state := state.setRest rest
  match rest with
  | [] => missingCurly state
  | c :: _ =>
      if c = comma then do
        let (range, state) ← repeatBehind min (extra ++ [comma]) state.increment
        return (min, range, state)
      else .ok (min, ⟨none, false, 0, extra⟩, state)

/-- Behind the closing brace. -/
def repeatEnd (min : Uint) (range : Repetition) (state : ReState) : Except String (ReToken × ReState) :=
  match range.short with
  | some type => .ok (⟨(state.readLazy type).1, range.extra, .empty⟩, (state.readLazy type).2)
  | none =>
      if min = 0 ∧ range.max = 0 then state.failBefore "Cannot have exactly zero repeats"
      else if range.minMax ∧ range.max < min then state.failBefore "Max less than min"
      else .ok (⟨(state.readLazy .repeatn).1, range.extra, .empty⟩, (state.readLazy .repeatn).2)

def repeatN (state : ReState) : Except String (ReToken × ReState) := do
  let (min, range, state) ← repeatFront state
  if state.rest.head? = some (byte '\x7d') then repeatEnd min range state.increment else state.failAt "Missing '\x7d'"

/-! ## Names and operators in braces -/

def isName (c : UInt8) : Bool := c = byte '_' || c = byte '-' || isalnum c

def macro_ (state : ReState) : Except String (ReToken × ReState) :=
  match state.rest with
  | [] => missingCurly state
  | c :: rest =>
      if (c = byte '_' || isalpha c) = false then state.failAt "Invalid MACRO name"
      else
        let name := c :: rest.takeWhile isName
        let state := state.setRest (rest.dropWhile isName)
        match state.rest with
        | [] => missingCurly state
        | c :: rest =>
            if c = byte '\x7d' then .ok (⟨.macro_, name, .empty⟩, state.setRest rest) else state.failAt "Missing '\x7d'"

/-- Behind an opening brace. -/
def openCurly (lhs : ReToken) (state : ReState) : Except String (ReToken × ReState) :=
  match state.rest with
  | [] => missingCurly state
  | c :: rest =>
      if c = byte '-' ∨ c = byte '+' then
        if lhs.type ≠ .charset then
          state.fail ("CHARSET must precede \x7b-\x7d at index " ++ toString (state.index - 1))
        else
          match rest with
          | [] => missingCurly state
          | close :: rest' =>
              if close ≠ byte '\x7d' then (state.setRest rest).failAt "Missing '\x7d'"
              else .ok (⟨.diff, [c], .empty⟩, state.setRest rest')
      else if isDecimal c then repeatN state
      else macro_ state

/-! ## next -/

/-- A byte that stands for itself, in both cases if the flag says so. -/
def literal (flags : Nat) (c : UInt8) : StringToken := insertFolded flags (ByteRange.one c) .empty

def escape (unicode : Char → Char → CStr) (state : ReState) : Except String (ReToken × ReState) := do
  let (found, state) ← escapeSequence unicode state
  match found with
  | .inl str => do
      let (set, _) ← ruleCharset unicode (ReState.ofText str.tail state.id state.flags)
      return (.ofSet set, state)
  | .inr c => return (.ofByte c, state)

/-- A token that starts with `c`, outside of quotes; the state is behind it. -/
def meta_ (unicode : Char → Char → CStr) (lhs : ReToken) (c : UInt8) (state : ReState) : Except String (ReToken × ReState) :=
  if c = byte '(' then do
    let state ← ({ state with parenCount := state.parenCount + 1 } : ReState).readOptions
    return (.ofType .openparen, state)
  else if c = byte ')' then
    let state := { state with parenCount := state.parenCount - 1 }
    if state.parenCount < (0 : Int) then
      state.fail ("Number of open parenthesis < 0 at index " ++ toString (state.index - 1))
    else
      match state.flagsStack with
      | [] => .ok (.ofType .closeparen, state)
      | flags :: stack => .ok (.ofType .closeparen, { state with flags := flags, flagsStack := stack })
  else if c = byte '?' then .ok (.ofType (state.readLazy .opt).1, (state.readLazy .opt).2)
  else if c = byte '*' then .ok (.ofType (state.readLazy .zeroOrMore).1, (state.readLazy .zeroOrMore).2)
  else if c = byte '+' then .ok (.ofType (state.readLazy .oneOrMore).1, (state.readLazy .oneOrMore).2)
  else if c = byte '\x7b' then openCurly lhs state
  else if c = byte '|' then .ok (.ofType .or_, state)
  else if c = byte '^' then .ok (if state.index = 1 then .ofType .bol else .ofByte c, state)
  else if c = byte '$' then .ok (if state.rest.isEmpty then .ofType .eol else .ofByte c, state)
  else if c = byte '.' then
    let str : StringToken := if hasFlag state.flags dotNotNewline then StringToken.empty.insert (ByteRange.one 10) else .empty
    .ok (.ofSet str.negate, state)
  else if c = byte '[' then do
    let (set, state) ← ruleCharset unicode state
    return (.ofSet set, state)
  else if c = byte '/' then state.fail "Lookahead ('/') is not supported yet"
  else .ok (.ofSet (literal state.flags c), state)

/-- One token; `lhs` is the one before it. -/
def next (unicode : Char → Char → CStr) (lhs : ReToken) (state : ReState) : Except String (ReToken × ReState) := do
  let state ← state.skipAll state.rest.length
  match state.rest with
  | [] =>
      if state.inString then state.fail "Unexpected end of regex (missing '\"')"
      else if state.parenCount ≠ 0 then state.fail "Unexpected end of regex (missing ')')"
      else return (.ofType .end_, state)
  | c :: rest =>
      let state := state.setRest rest
      if c = byte '\\' then escape unicode state
      else if state.inString then return (.ofByte c, state)
      else meta_ unicode lhs c state

/-! ## A rule -/

/-- A token that must not stand behind the one before it. -/
def adjacentError (lhs rhs : TokenType) (state : ReState) : String :=
  "A syntax error occurred: '" ++ lhs.precedenceString ++ "' against '" ++ rhs.precedenceString ++ "' preceding index " ++
    toString state.index ++ " in rule id " ++ toString state.id.toNat ++ "."

/-- An operator on the set in front of it and the one behind it. -/
def performDiff (diff : UInt8) (lhs rhs : ReToken) (state : ReState) : Except String ReToken :=
  if rhs.type ≠ .charset then
    state.fail ("CHARSET must follow \x7b-\x7d or \x7b+\x7d at index " ++ toString (state.index - 1))
  else if diff = byte '-' then
    let str := lhs.str.remove rhs.str
    if str.isEmpty then state.fail ("Empty charset created by \x7b-\x7d at index " ++ toString (state.index - 1))
    else .ok { lhs with str := str }
  else .ok { lhs with str := lhs.str.insertToken rhs.str }

/-- What has been read of a rule: the tokens, the last one apart from the others, and an
operator that waits for its second set. -/
structure TokenList where
  before : List ReToken
  last : ReToken
  diff : Option UInt8

/-- The next token goes behind the others. -/
def addToken (rhs : ReToken) (state : ReState) (tokens : TokenList) : Except String TokenList :=
  if rhs.type = .diff then .ok { tokens with diff := rhs.extra.head? }
  else if tokens.last.type.precedence rhs.type = ' ' then .error (adjacentError tokens.last.type rhs.type state)
  else if rhs.type = .macro_ then
    .error ("Unknown MACRO name '" ++ String.ofList (rhs.extra.map fun c => Char.ofNat c.toNat) ++ "'.")
  else
    match tokens.diff with
    | none => .ok ⟨tokens.before ++ [tokens.last], rhs, none⟩
    | some diff => do
        let last ← performDiff diff tokens.last rhs state
        return { tokens with last := last, diff := none }

def tokeniseLoop (unicode : Char → Char → CStr) : Nat → ReState → TokenList → Except String (List ReToken)
  | rounds, state, tokens => do
      let (rhs, state) ← next unicode tokens.last state
      let tokens ← addToken rhs state tokens
      if tokens.last.type = .end_ then return tokens.before ++ [tokens.last]
      else
        match rounds with
        | 0 => throw "tokenise: out of rounds"
        | rounds + 1 => tokeniseLoop unicode rounds state tokens

def tokenise (unicode : Char → Char → CStr) (regex : CStr) (id : Uint) (flags : Nat) : Except String (List ReToken) := do
  let tokens ← tokeniseLoop unicode regex.length (ReState.ofText regex id flags) ⟨[], .ofType .begin_, none⟩
  if tokens.length = 2 then throw ("Empty regex in rule id " ++ toString id.toNat ++ " is not allowed.") else return tokens

/-! ## The rules -/

def bolBit : Nat := 1
def eolBit : Nat := 2
def skipBit : Nat := 4
def againBit : Nat := 8

/-- The rules of the one state of the lexer. -/
structure Rules where
  regexes : List Rule
  features : Nat
  flags : Nat
  deriving DecidableEq

namespace Rules

def empty : Rules := { regexes := [], features := 0, flags := icase }

def skipId : Uint := ~~~1

def checkForInvalidId (id : Uint) : Except String Unit :=
  if id = 0 then .error "Cannot resuse the id for eoi."
  else if id = npos then .error "The id npos is reserved for the UNKNOWN token."
  else .ok ()

def pushFeatures (regex : CStr) (id : Uint) (features : Nat) : Nat :=
  let features := if regex.head? = some (byte '^') then features ||| bolBit else features
  let features := if regex.getLast? = some (byte '$') then features ||| eolBit else features
  if id = skipId then features ||| skipBit else if id = 0 then features ||| againBit else features

/-- `push` of a text with an id, into the one state. -/
def push (unicode : Char → Char → CStr) (regex : CStr) (id : Uint) (rules : Rules) : Except String Rules := do
  checkForInvalidId id
  let tokens ← tokenise unicode regex id rules.flags
  return { rules with
    regexes := rules.regexes ++ [⟨tokens, ⟨id, npos, 0, npos, false⟩⟩]
    features := pushFeatures regex id rules.features }

def build (rules : Rules) : Except String LexTable := Orchid.build rules.flags (hasFlag rules.features bolBit) rules.regexes

end Rules

/-- The rules of the pattern list. -/
def regexRules (unicode : Char → Char → CStr) (apps : List AppEntryT) : Except String Rules :=
  apps.foldlM (fun rules app => rules.push unicode app.regex app.appId) Rules.empty

/-- `Regex_Parse`; `old` is what the allocated table held. -/
def regexParse (unicode : Char → Char → CStr) (old : Nat → Ushort) (apps : List AppEntryT) : Except String DfaGraphT := do
  let rules ← regexRules unicode apps
  let table ← rules.build
  reassemble old table

end Orchid
