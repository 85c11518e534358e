/-
# RegexParse.Parser -- the precedence parser of the rules

The parser shifts tokens onto a stack and reduces them by a table of precedences: `<`
and `=` shift, `>` reduces the tokens down to the last `<` (`popHandle`), and a blank is
a syntax error.  A reduction replaces them by one token and works on the stack of trees
beside it.

What the parser accepts is in `RegexParse.Grammar`, that it accepts nothing else in
`RegexParse.ParserRuns`.
-/
import Orchid.RegexParse.Partition
import Orchid.RegexParse.Quantifiers

namespace Orchid

open Orchid.Theory

set_option autoImplicit false

/-! ## Tokens -/

inductive TokenType where
  | begin_ | regex | orexp | sequence | sub | expression | repeat_ | dup | or_ | charset | bol | eol | macro_
  | openparen | closeparen | opt | aopt | zeroOrMore | azeroOrMore | oneOrMore | aoneOrMore | repeatn | arepeatn
  | end_ | diff
  deriving DecidableEq, Repr

namespace TokenType

def all : List TokenType :=
  [begin_, regex, orexp, sequence, sub, expression, repeat_, dup, or_, charset, bol, eol, macro_, openparen, closeparen,
    opt, aopt, zeroOrMore, azeroOrMore, oneOrMore, aoneOrMore, repeatn, arepeatn, end_, diff]

instance : Fintype TokenType := ⟨⟨all, by decide⟩, fun type => by cases type <;> decide⟩

/-- The rows of `precedence_table_`; the columns are in the order of the types. -/
def precedenceRow : TokenType → List Char
  | begin_ => [' ', '<', '<', '<', '<', '<', '<', ' ', ' ', '<', '<', '<', '<', '<', ' ', ' ', ' ', ' ', ' ', ' ', ' ', ' ', ' ', '>']
  | regex => [' ', ' ', ' ', ' ', ' ', ' ', ' ', ' ', ' ', ' ', ' ', ' ', ' ', ' ', '=', ' ', ' ', ' ', ' ', ' ', ' ', ' ', ' ', '>']
  | orexp => [' ', ' ', ' ', ' ', ' ', ' ', ' ', ' ', '=', '>', '>', '>', '>', ' ', '>', ' ', ' ', ' ', ' ', ' ', ' ', ' ', ' ', '>']
  | sequence => [' ', ' ', ' ', ' ', ' ', ' ', ' ', ' ', '>', '>', '>', '>', '>', ' ', '>', ' ', ' ', ' ', ' ', ' ', ' ', ' ', ' ', '>']
  | sub => [' ', ' ', ' ', ' ', ' ', '=', '<', ' ', '>', '<', '<', '<', '<', '<', '>', ' ', ' ', ' ', ' ', ' ', ' ', ' ', ' ', '>']
  | expression => [' ', ' ', ' ', ' ', ' ', ' ', ' ', ' ', '>', '>', '>', '>', '>', '>', '>', ' ', ' ', ' ', ' ', ' ', ' ', ' ', ' ', '>']
  | repeat_ => [' ', ' ', ' ', ' ', ' ', ' ', ' ', '=', '>', '>', '>', '>', '>', '>', '>', '<', '<', '<', '<', '<', '<', '<', '<', '>']
  | dup => [' ', ' ', ' ', ' ', ' ', ' ', ' ', ' ', '>', '>', '>', '>', '>', '>', '>', ' ', ' ', ' ', ' ', ' ', ' ', ' ', ' ', '>']
  | or_ => [' ', ' ', ' ', '=', '<', '<', '<', ' ', ' ', '<', '<', '<', '<', '<', ' ', ' ', ' ', ' ', ' ', ' ', ' ', ' ', ' ', ' ']
  | charset => [' ', ' ', ' ', ' ', ' ', ' ', ' ', ' ', '>', '>', '>', '>', '>', '>', '>', '>', '>', '>', '>', '>', '>', '>', '>', '>']
  | bol => [' ', ' ', ' ', ' ', ' ', ' ', ' ', ' ', '>', '>', '>', '>', '>', '>', '>', '>', '>', '>', '>', '>', '>', '>', '>', '>']
  | eol => [' ', ' ', ' ', ' ', ' ', ' ', ' ', ' ', '>', '>', '>', '>', '>', '>', '>', '>', '>', '>', '>', '>', '>', '>', '>', '>']
  | macro_ => [' ', ' ', ' ', ' ', ' ', ' ', ' ', ' ', '>', '>', '>', '>', '>', '>', '>', '>', '>', '>', '>', '>', '>', '>', '>', '>']
  | openparen => [' ', '=', '<', '<', '<', '<', '<', ' ', ' ', '<', '<', '<', '<', '<', ' ', ' ', ' ', ' ', ' ', ' ', ' ', ' ', ' ', ' ']
  | closeparen => [' ', ' ', ' ', ' ', ' ', ' ', ' ', ' ', '>', '>', '>', '>', '>', '>', '>', '>', '>', '>', '>', '>', '>', '>', '>', '>']
  | opt => [' ', ' ', ' ', ' ', ' ', ' ', ' ', ' ', '>', '>', '>', '>', '>', '>', '>', '<', ' ', ' ', ' ', ' ', ' ', ' ', ' ', '>']
  | aopt => [' ', ' ', ' ', ' ', ' ', ' ', ' ', ' ', '>', '>', '>', '>', '>', '>', '>', ' ', ' ', ' ', ' ', ' ', ' ', ' ', ' ', '>']
  | zeroOrMore => [' ', ' ', ' ', ' ', ' ', ' ', ' ', ' ', '>', '>', '>', '>', '>', '>', '>', '<', ' ', ' ', ' ', ' ', ' ', ' ', ' ', '>']
  | azeroOrMore => [' ', ' ', ' ', ' ', ' ', ' ', ' ', ' ', '>', '>', '>', '>', '>', '>', '>', ' ', ' ', ' ', ' ', ' ', ' ', ' ', ' ', '>']
  | oneOrMore => [' ', ' ', ' ', ' ', ' ', ' ', ' ', ' ', '>', '>', '>', '>', '>', '>', '>', '<', ' ', ' ', ' ', ' ', ' ', ' ', ' ', '>']
  | aoneOrMore => [' ', ' ', ' ', ' ', ' ', ' ', ' ', ' ', '>', '>', '>', '>', '>', '>', '>', ' ', ' ', ' ', ' ', ' ', ' ', ' ', ' ', '>']
  | repeatn => [' ', ' ', ' ', ' ', ' ', ' ', ' ', ' ', '>', '>', '>', '>', '>', '>', '>', '<', ' ', ' ', ' ', ' ', ' ', ' ', ' ', '>']
  | arepeatn => [' ', ' ', ' ', ' ', ' ', ' ', ' ', ' ', '>', '>', '>', '>', '>', '>', '>', ' ', ' ', ' ', ' ', ' ', ' ', ' ', ' ', '>']
  | end_ => [' ', ' ', ' ', ' ', ' ', ' ', ' ', ' ', ' ', ' ', ' ', ' ', ' ', ' ', ' ', ' ', ' ', ' ', ' ', ' ', ' ', ' ', ' ', ' ']
  | diff => []

/-- What stands on the stack against what comes next. -/
def precedence (lhs rhs : TokenType) : Char := (lhs.precedenceRow[rhs.ctorIdx]?).getD ' '

def precedenceString : TokenType → String
  | begin_ => "BEGIN"
  | regex => "REGEX"
  | orexp => "OREXP"
  | sequence => "SEQUENCE"
  | sub => "SUB"
  | expression => "EXPRESSION"
  | repeat_ => "REPEAT"
  | dup => "DUPLICATE"
  | or_ => "|"
  | charset => "CHARSET"
  | bol => "^"
  | eol => "$"
  | macro_ => "MACRO"
  | openparen => "("
  | closeparen => ")"
  | opt => "?"
  | aopt => "??"
  | zeroOrMore => "*"
  | azeroOrMore => "*?"
  | oneOrMore => "+"
  | aoneOrMore => "+?"
  | repeatn => "\x7bn[,[m]]\x7d"
  | arepeatn => "\x7bn[,[m]]\x7d?"
  | end_ => "END"
  | diff => ""

end TokenType

structure ReToken where
  type : TokenType
  extra : CStr := []
  str : StringToken := .empty
  deriving DecidableEq

/-! ## The map of the sets -/

/-- `find` in a map that is ordered by `less`. -/
def findCharset (charset : StringToken) : CharsetMap → Option Nat
  | [] => none
  | (key, id) :: rest =>
      if key.less charset then findCharset charset rest else if charset.less key then none else some id

def insertCharset (charset : StringToken) (id : Nat) : CharsetMap → CharsetMap
  | [] => [(charset, id)]
  | (key, other) :: rest =>
      if key.less charset then (key, other) :: insertCharset charset id rest else (charset, id) :: (key, other) :: rest

/-- The number of a set, a new one if it has none yet. -/
def lookupCharset (charset : StringToken) (map : CharsetMap) : Nat × CharsetMap :=
  match findCharset charset map with
  | some id => (id, map)
  | none => (map.length, insertCharset charset map.length map)

theorem findCharset_mem {charset : StringToken} {id : Nat} {map : CharsetMap} (found : findCharset charset map = some id) :
    (charset, id) ∈ map := by
  induction map with
  | nil => cases found
  | cons entry rest ih =>
      unfold findCharset at found
      split at found
      · exact List.mem_cons_of_mem _ (ih found)
      · next notLess =>
        split at found
        · cases found
        · next notMore =>
          obtain rfl := Option.some.inj found
          have same : charset = entry.1 := StringToken.eq_of_less (by simpa using notMore) (by simpa using notLess)
          rw [same]
          exact List.mem_cons_self

theorem insertCharset_perm (charset : StringToken) (id : Nat) (map : CharsetMap) :
    (insertCharset charset id map).Perm ((charset, id) :: map) := by
  induction map with
  | nil => exact List.Perm.refl _
  | cons entry rest ih =>
      unfold insertCharset
      split
      · exact (ih.cons entry).trans (List.Perm.swap ..)
      · exact List.Perm.refl _

/-- Nothing but the set is new. -/
theorem mem_lookupCharset {map : CharsetMap} {charset : StringToken} {entry : StringToken × Nat}
    (member : entry ∈ (lookupCharset charset map).2) : entry ∈ map ∨ entry.1 = charset := by
  unfold lookupCharset at member
  cases found : findCharset charset map with
  | some id =>
      rw [found] at member
      exact Or.inl member
  | none =>
      rw [found] at member
      rcases List.mem_cons.1 ((insertCharset_perm charset map.length map).mem_iff.1 member) with rfl | old
      · exact Or.inr rfl
      · exact Or.inl old

/-- The set has its number in the map, and the map stays numbered. -/
theorem Numbered.lookupCharset {map : CharsetMap} (numbered : Numbered map) {charset : StringToken}
    (nonempty : ∃ b, b ∈ charset) : (charset, (lookupCharset charset map).1) ∈ (lookupCharset charset map).2 ∧
      (∀ entry ∈ map, entry ∈ (lookupCharset charset map).2) ∧ Numbered (lookupCharset charset map).2 := by
  unfold Orchid.lookupCharset
  cases found : findCharset charset map with
  | some id => exact ⟨findCharset_mem found, fun _ member => member, numbered⟩
  | none =>
      have perm := insertCharset_perm charset map.length map
      have cases_ : ∀ entry ∈ insertCharset charset map.length map, entry = (charset, map.length) ∨ entry ∈ map :=
        fun entry member => List.mem_cons.1 (perm.mem_iff.1 member)
      refine ⟨perm.mem_iff.2 List.mem_cons_self, fun entry member => perm.mem_iff.2 (List.mem_cons_of_mem _ member),
        fun entry member => ?_, fun entry member other member' same => ?_, fun entry member => ?_⟩
      · rcases cases_ entry member with rfl | old
        · exact nonempty
        · exact numbered.nonempty entry old
      · rcases cases_ entry member with rfl | old <;> rcases cases_ other member' with rfl | old'
        · rfl
        · exact absurd (numbered.below other old') (by rw [← same]; exact Nat.lt_irrefl _)
        · exact absurd (numbered.below entry old) (by rw [same]; exact Nat.lt_irrefl _)
        · exact numbered.once entry old other old' same
      · rw [perm.length_eq]
        rcases cases_ entry member with rfl | old
        · exact Nat.lt_succ_self _
        · exact Nat.lt_succ_of_lt (numbered.below entry old)

/-! ## The stacks -/

structure RegexParser where
  tokenStack : List ReToken
  trees : Trees
  charsetMap : CharsetMap
  nlId : Option Nat

/-- Takes tokens off the stack while they go together with what is in front of them. -/
def popHandle : List ReToken → List ReToken → Except String (List ReToken × List ReToken)
  | [], _ => .error "empty stack"
  | [rhs], handle => .ok (rhs :: handle, [])
  | rhs :: lhs :: stack, handle =>
      let action := lhs.type.precedence rhs.type
      if action = '=' then popHandle (lhs :: stack) (rhs :: handle)
      else if action = '<' then .ok (rhs :: handle, lhs :: stack)
      else .error "assertion: _token_stack->empty() || action_ == '<'"

namespace RegexParser

def push (type : TokenType) (state : RegexParser) : RegexParser :=
  { state with tokenStack := ⟨type, [], .empty⟩ :: state.tokenStack }

/-- An operation on the trees. -/
def onTrees (op : Trees → Except String Trees) (state : RegexParser) : Except String RegexParser := do
  let trees ← op state.trees
  return { state with trees := trees }

/-- A new leaf becomes the top tree. -/
def pushLeaf (token : LeafToken) (state : RegexParser) : RegexParser :=
  let (node, heap) := leafNode token true state.trees.heap
  { state with trees := ⟨node :: state.trees.treeNodeStack, heap⟩ }

def orexp (handle : List ReToken) (state : RegexParser) : Except String RegexParser :=
  match handle with
  | [_] => .ok (state.push .regex)
  | [_, or_, sequence] =>
      if or_.type ≠ .or_ then .error "assertion: handle_->top()->_type == OR"
      else if sequence.type ≠ .sequence then .error "assertion: handle_->top()->_type == SEQUENCE"
      else do
        let state ← state.onTrees Trees.performOr
        return state.push .orexp
  | _ => .error "assertion: handle_->size() == 1 || handle_->size() == 3"

def sub (handle : List ReToken) (state : RegexParser) : Except String RegexParser :=
  match handle with
  | [_] => .ok (state.push .sequence)
  | [_, expression] =>
      if expression.type ≠ .expression then .error "assertion: handle_->top()->_type == EXPRESSION"
      else do
        let state ← state.onTrees Trees.sequence
        return state.push .sub
  | _ => .error "assertion: handle_->size() == 2"

def repeat_ (handle : List ReToken) (state : RegexParser) : Except String RegexParser :=
  match handle with
  | [_] => .ok (state.push .expression)
  | _ :: dup :: rest =>
      if rest.length > 1 then .error "assertion: handle_->size() <= 3"
      else if dup.type ≠ .dup then .error "assertion: handle_->top()->_type == DUP"
      else .ok (state.push .repeat_)
  | [] => .error "assertion: handle_->size() >= 1"

def bol (handle : List ReToken) (state : RegexParser) : Except String RegexParser :=
  if handle.length ≠ 1 then .error "assertion: handle_->size() == 1" else .ok ((state.pushLeaf .bol).push .repeat_)

/-- The set of the newline. -/
def newline : StringToken := StringToken.empty.insert (ByteRange.one 10)

def eol (handle : List ReToken) (state : RegexParser) : Except String RegexParser :=
  if handle.length ≠ 1 then .error "assertion: handle_->size() == 1"
  else
    let (id, map) := lookupCharset newline state.charsetMap
    .ok ((({ state with charsetMap := map, nlId := some id }).pushLeaf .eol).push .repeat_)

/-- For the uncompressed table. -/
def charset (handle : List ReToken) (state : RegexParser) : Except String RegexParser :=
  match handle with
  | [token] =>
      let (id, map) := lookupCharset token.str state.charsetMap
      .ok ((({ state with charsetMap := map }).pushLeaf (.charset id)).push .repeat_)
  | _ => .error "assertion: handle_->size() == 1"

def openparen (handle : List ReToken) (state : RegexParser) : Except String RegexParser :=
  match handle with
  | [_, regex, closeparen] =>
      if regex.type ≠ .regex then .error "assertion: token_->_type == REGEX"
      else if closeparen.type ≠ .closeparen then .error "assertion: handle_->top()->_type == CLOSEPAREN"
      else .ok (state.push .repeat_)
  | _ => .error "assertion: handle_->size() == 3"

/-- A quantifier works on the top tree at once. -/
def quantifier (op : Trees → Except String Trees) (state : RegexParser) : Except String RegexParser := do
  let state ← state.onTrees op
  return state.push .dup

def reduce (state : RegexParser) : Except String RegexParser := do
  let (handle, stack) ← popHandle state.tokenStack []
  let state := { state with tokenStack := stack }
  match handle with
  | [] => throw "empty handle"
  | rhs :: _ =>
      match rhs.type with
      | .begin_ => return state
      | .regex => return state
      | .orexp => state.orexp handle
      | .sequence => return state.push .orexp
      | .sub => state.sub handle
      | .expression => return state.push .sub
      | .repeat_ => state.repeat_ handle
      | .bol => state.bol handle
      | .eol => state.eol handle
      | .charset => state.charset handle
      | .openparen => state.openparen handle
      | .opt | .aopt => state.quantifier (Trees.optional (rhs.type = .opt))
      | .zeroOrMore | .azeroOrMore => state.quantifier (Trees.zeroOrMore (rhs.type = .zeroOrMore))
      | .oneOrMore | .aoneOrMore => state.quantifier (Trees.oneOrMore (rhs.type = .oneOrMore))
      | .repeatn | .arepeatn => state.quantifier (Trees.repeatn (rhs.type = .repeatn) rhs.extra)
      | .dup | .or_ | .macro_ | .closeparen | .end_ | .diff => throw "Internal error in regex_parser::reduce."

end RegexParser

/-! ## The loop -/

def syntaxError (lhs rhs : TokenType) (id : Uint) : String :=
  "A syntax error occurred: '" ++ lhs.precedenceString ++ "' against '" ++ rhs.precedenceString ++ " in rule id " ++
    toString id.toNat ++ "."

/-- The next token; the last one is read again and again. -/
def advance : List ReToken → List ReToken
  | [] => []
  | [last] => [last]
  | _ :: next => next

/-- One round; the head of `input` is `rhs_token_`. -/
def parseStep (id : Uint) (input : List ReToken) (state : RegexParser) : Except String (List ReToken × RegexParser) :=
  match state.tokenStack, input with
  | lhs :: _, rhs :: _ =>
      let action := lhs.type.precedence rhs.type
      if action = '<' ∨ action = '=' then
        .ok (advance input, { state with tokenStack := rhs :: state.tokenStack })
      else if action = '>' then do
        let state ← state.reduce
        return (input, state)
      else .error (syntaxError lhs.type rhs.type id)
  | _, _ => .error "empty stack"

def parseLoop (id : Uint) : Nat → List ReToken → RegexParser → Except String RegexParser
  | rounds, input, state =>
      if state.tokenStack.isEmpty then .ok state
      else
        match rounds with
        | 0 => .error "parse: out of rounds"
        | rounds + 1 => do
            let (input, state) ← parseStep id input state
            parseLoop id rounds input state

/-! ## The end of a rule -/

def isBol (heap : Heap) (p : Nat) : Bool :=
  match heap[p]? with
  | some (.leafNode token _ _ _) => token = .bol
  | _ => false

def isEnd (heap : Heap) (p : Nat) : Bool :=
  match heap[p]? with
  | some (.endNode _) => true
  | _ => false

/-- With a `^` in some rule, the others may start at the beginning of a line or anywhere
else. -/
def fixupBol (seenBol : Bool) (root : Node) (heap : Heap) : Except String (Node × Heap) :=
  if seenBol = false ∨ root.firstpos.any (isBol heap) then .ok (root, heap)
  else do
    let (lhs, heap) := leafNode .bol true heap
    let (rhs, heap) := leafNode .null true heap
    sequenceNode (selectionNode lhs rhs) root heap

def matchZeroLen : Nat := 8

def checkZeroLen (id : Uint) (flags : Nat) (root : Node) (heap : Heap) : Except String Unit :=
  if flags &&& matchZeroLen = 0 ∧ root.firstpos.any (isEnd heap) then
    .error ("Rules that match zero characters are not allowed as this can cause an infinite loop in user code. The " ++
      "match_zero_len flag overrides this check. Rule id " ++ toString id.toNat ++ ".")
  else .ok ()

/-- What is left of a rule with one tree on the stack. -/
def finish (end_ : EndState) (flags : Nat) (seenBol : Bool) (lhs : Node) (heap : Heap) : Except String (Node × Heap) := do
  let (rhs, heap) := endNode end_ heap
  let (root, heap) ← sequenceNode lhs rhs heap
  let (root, heap) ← fixupBol seenBol root heap
  checkZeroLen end_.id flags root heap
  return (root, heap)

/-- `parse`: the tree of a rule is put in front of its end node. -/
def parse (regex : List ReToken) (end_ : EndState) (flags : Nat) (seenBol : Bool) (heap : Heap) (map : CharsetMap)
    (nlId : Option Nat) : Except String (Node × Heap × CharsetMap × Option Nat) :=
  match regex with
  | first :: input => do
      let state ← parseLoop end_.id (8 * regex.length) input ⟨[first], ⟨[], heap⟩, map, nlId⟩
      match state.trees.treeNodeStack with
      | [] => throw ("Empty rules are not allowed in rule id " ++ toString end_.id.toNat ++ ".")
      | [lhs] =>
          let (root, heap) ← finish end_ flags seenBol lhs state.trees.heap
          return (root, heap, state.charsetMap, state.nlId)
      | _ => throw "assertion: _tree_node_stack.size() == 1"
  -- the loop reads two tokens before it starts
  | [] => .error "There cannot be less than 2 tokens"

end Orchid
