/-
# RegexParse.ParserRuns -- the parser accepts the documented grammar

Beside the tokens on its stack the parser keeps a tree for every expression among them.
`Tracks` says that the trees have the shapes of the expressions, and each production has
a lemma that says what its reduction leaves on the two stacks.

Put together along a derivation they give a run of the parser (`Derives.runs`).  The
other way round, `Covers` cuts what has been read into the pieces that the tokens on the
stack stand for; every round keeps that, so a rule that is parsed has a derivation
(`parseLoop_sound`).  Every round makes the stacks and the input lighter, so the loop
ends (`parseLoop_rounds`).
-/
import Orchid.RegexParse.Grammar
import Mathlib.Data.List.Chain

namespace Orchid

open Orchid.Theory

set_option autoImplicit false

/-! ## The table -/

namespace TokenType

/-- The tokens that may stand side by side in a handle. -/
theorem precedence_equal : ∀ {lhs rhs : TokenType}, lhs.precedence rhs = '=' →
    (lhs, rhs) ∈ [(regex, closeparen), (orexp, or_), (sub, expression), (repeat_, dup), (or_, sequence), (openparen, regex)] := by
  have table : ∀ lhs rhs : TokenType, lhs.precedence rhs = '=' →
      (lhs, rhs) ∈ [(regex, closeparen), (orexp, or_), (sub, expression), (repeat_, dup), (or_, sequence), (openparen, regex)] := by
    decide +kernel
  intro lhs rhs here
  exact table lhs rhs here

/-- The tokens that a derivation may start behind. -/
def Opens (lhs A : TokenType) : Prop := lhs.precedence A = '<' ∨ lhs.precedence A = '='

instance (lhs A : TokenType) : Decidable (lhs.Opens A) := inferInstanceAs (Decidable (_ ∨ _))

theorem Opens.orexp : ∀ {lhs : TokenType}, lhs.Opens .regex → lhs.precedence .orexp = '<' :=
  fun {lhs} => (by decide : ∀ lhs : TokenType, lhs.Opens .regex → lhs.precedence .orexp = '<') lhs

theorem Opens.sequence : ∀ {lhs : TokenType}, lhs.Opens .orexp → lhs.precedence .sequence = '<' ∧ lhs.precedence .orexp = '<' :=
  fun {lhs} => (by decide : ∀ lhs : TokenType, lhs.Opens .orexp →
    lhs.precedence .sequence = '<' ∧ lhs.precedence .orexp = '<') lhs

theorem Opens.sub : ∀ {lhs : TokenType}, lhs.Opens .sequence → lhs.precedence .sub = '<' :=
  fun {lhs} => (by decide : ∀ lhs : TokenType, lhs.Opens .sequence → lhs.precedence .sub = '<') lhs

theorem Opens.expression : ∀ {lhs : TokenType}, lhs.Opens .sub →
    lhs.precedence .expression = '<' ∧ lhs.precedence .sub = '<' :=
  fun {lhs} => (by decide : ∀ lhs : TokenType, lhs.Opens .sub →
    lhs.precedence .expression = '<' ∧ lhs.precedence .sub = '<') lhs

theorem Opens.repeat_ : ∀ {lhs : TokenType}, lhs.Opens .expression → lhs.precedence .repeat_ = '<' :=
  fun {lhs} => (by decide : ∀ lhs : TokenType, lhs.Opens .expression → lhs.precedence .repeat_ = '<') lhs

theorem Opens.operand : ∀ {lhs : TokenType}, lhs.Opens .repeat_ → lhs.precedence .repeat_ = '<' ∧ ∀ rhs : TokenType,
    rhs = .charset ∨ rhs = .bol ∨ rhs = .eol ∨ rhs = .openparen → lhs.precedence rhs = '<' :=
  fun {lhs} => (by decide +kernel : ∀ lhs : TokenType, lhs.Opens .repeat_ → lhs.precedence .repeat_ = '<' ∧
    ∀ rhs : TokenType, rhs = .charset ∨ rhs = .bol ∨ rhs = .eol ∨ rhs = .openparen → lhs.precedence rhs = '<') lhs

/-- The tokens that may come behind a derivation. -/
def Follows (A rhs : TokenType) : Prop :=
  match A with
  | regex => TokenType.regex.precedence rhs = '=' ∨ TokenType.regex.precedence rhs = '>'
  | orexp | sequence => TokenType.sub.precedence rhs = '>'
  | sub | expression => TokenType.expression.precedence rhs = '>'
  | repeat_ => TokenType.charset.precedence rhs = '>'
  | _ => False

instance : (A rhs : TokenType) → Decidable (A.Follows rhs)
  | regex, _ => inferInstanceAs (Decidable (_ ∨ _))
  | orexp, _ | sequence, _ | sub, _ | expression, _ | repeat_, _ => inferInstanceAs (Decidable (_ = _))
  | begin_, _ | dup, _ | or_, _ | charset, _ | bol, _ | eol, _ | macro_, _ | openparen, _ | closeparen, _ | opt, _ | aopt, _
  | zeroOrMore, _ | azeroOrMore, _ | oneOrMore, _ | aoneOrMore, _ | repeatn, _ | arepeatn, _ | end_, _ | diff, _ =>
      inferInstanceAs (Decidable False)

end TokenType

/-! ## Handles -/

theorem popHandle_less {rhs lhs : ReToken} (less : lhs.type.precedence rhs.type = '<') (stack handle : List ReToken) :
    popHandle (rhs :: lhs :: stack) handle = .ok (rhs :: handle, lhs :: stack) := by
  unfold popHandle
  simp [less]

theorem popHandle_equal {rhs lhs : ReToken} (equal : lhs.type.precedence rhs.type = '=') (stack handle : List ReToken) :
    popHandle (rhs :: lhs :: stack) handle = popHandle (lhs :: stack) (rhs :: handle) := by
  rw [popHandle]
  simp [equal]

theorem popHandle_cases {rhs lhs : ReToken} {stack handle : List ReToken} {popped : List ReToken × List ReToken}
    (done : popHandle (rhs :: lhs :: stack) handle = .ok popped) :
    lhs.type.precedence rhs.type = '=' ∧ popHandle (lhs :: stack) (rhs :: handle) = .ok popped ∨
      lhs.type.precedence rhs.type = '<' ∧ popped = (rhs :: handle, lhs :: stack) := by
  rw [popHandle] at done
  split at done
  · next equal => exact Or.inl ⟨equal, done⟩
  · split at done
    · next less => exact Or.inr ⟨less, (Except.ok.inj done).symm⟩
    · cases done

/-! ## Trees of expressions -/

/-- What was there before a rule is parsed, and what is known of its tokens. -/
structure Setting where
  eager : Prop
  noEol : Prop
  others : List Node
  kinds : Kinds
  map : CharsetMap
  sets : StringToken → Prop

structure Setting.Allows (setting : Setting) (t : ReToken) : Prop where
  fine : t.Fine
  greedy : setting.eager → t.type.isLazy = false
  newline : setting.noEol → t.type ≠ .eol
  charset : t.type = .charset → setting.sets t.str
  eol : t.type = .eol → setting.sets RegexParser.newline

/-- What is new in the map are sets of the tokens. -/
structure Setting.Grown (setting : Setting) (map : CharsetMap) : Prop where
  more : ∀ entry ∈ setting.map, entry ∈ map
  new : ∀ entry ∈ map, entry ∈ setting.map ∨ setting.sets entry.1

theorem Setting.Grown.lookupCharset {setting : Setting} {map : CharsetMap} (grown : setting.Grown map) {str : StringToken}
    (set : setting.sets str) (more : ∀ entry ∈ map, entry ∈ (lookupCharset str map).2) :
    setting.Grown (lookupCharset str map).2 where
  more entry member := more entry (grown.more entry member)
  new entry member := by
    rcases mem_lookupCharset member with old | same
    · exact grown.new entry old
    · exact Or.inr (same ▸ set)

/-- The trees on the stack are those of the expressions. -/
structure Tracks (setting : Setting) (state : RegexParser) (values : List Regex) : Prop where
  numbered : Numbered state.charsetMap
  grown : setting.Grown state.charsetMap
  spelt : ∃ shapes, state.trees.Holds setting.eager setting.others setting.kinds shapes ∧
    List.Forall₂ (Spells state.charsetMap) values shapes
  newline : setting.noEol → state.nlId = none

/-- What a quantifier does with the trees. -/
def dupOp (op : ReToken) : Trees → Except String Trees :=
  match op.type with
  | .opt | .aopt => Trees.optional (op.type = .opt)
  | .zeroOrMore | .azeroOrMore => Trees.zeroOrMore (op.type = .zeroOrMore)
  | .oneOrMore | .aoneOrMore => Trees.oneOrMore (op.type = .oneOrMore)
  | .repeatn | .arepeatn => Trees.repeatn (op.type = .repeatn) op.extra
  | _ => .ok

section Trees

variable {eager : Prop} {others : List Node} {kinds : Kinds} {trees : Trees} {shape : Shape} {shapes : List Shape}

theorem Trees.Holds.dupOp (holds : trees.Holds eager others kinds (shape :: shapes)) {op : ReToken}
    (greedy : eager → op.type.isLazy = false) :
    ∃ trees', dupOp op trees = .ok trees' ∧ trees'.Holds eager others kinds (dupShape op shape :: shapes) := by
  unfold Orchid.dupOp dupShape
  cases type : op.type with
  | opt => exact holds.optional fun _ => rfl
  | zeroOrMore => exact holds.zeroOrMore fun _ => rfl
  | oneOrMore => exact holds.oneOrMore fun _ => rfl
  | repeatn => exact holds.repeatn (fun _ => rfl) op.extra
  | aopt =>
      rw [type] at greedy
      exact holds.optional fun told => absurd (greedy told) (by decide)
  | azeroOrMore =>
      rw [type] at greedy
      exact holds.zeroOrMore fun told => absurd (greedy told) (by decide)
  | aoneOrMore =>
      rw [type] at greedy
      exact holds.oneOrMore fun told => absurd (greedy told) (by decide)
  | arepeatn =>
      rw [type] at greedy
      exact holds.repeatn (fun told => absurd (greedy told) (by decide)) op.extra
  | _ => exact ⟨trees, rfl, holds⟩

end Trees

/-! ## Reductions -/

section Reductions

variable {setting : Setting} {state : RegexParser} {values : List Regex} {stack : List ReToken}

/-- An operation on the trees that makes other expressions of the ones on top. -/
theorem Tracks.onTrees {op : Trees → Except String Trees} {values' : List Regex} (tracks : Tracks setting state values)
    (rule : ∀ {shapes}, state.trees.Holds setting.eager setting.others setting.kinds shapes →
      List.Forall₂ (Spells state.charsetMap) values shapes →
        ∃ trees' shapes', op state.trees = .ok trees' ∧ trees'.Holds setting.eager setting.others setting.kinds shapes' ∧
          List.Forall₂ (Spells state.charsetMap) values' shapes') :
    ∃ state', state.onTrees op = .ok state' ∧ state'.tokenStack = state.tokenStack ∧ Tracks setting state' values' := by
  obtain ⟨shapes, holds, each⟩ := tracks.spelt
  obtain ⟨trees', shapes', done, holds', each'⟩ := rule holds each
  refine ⟨{ state with trees := trees' }, ?_, rfl, tracks.numbered, tracks.grown, ⟨shapes', holds', each'⟩, tracks.newline⟩
  unfold RegexParser.onTrees
  rw [bind_of_ok done]
  rfl

theorem Tracks.performOr {r s : Regex} (tracks : Tracks setting state (s :: r :: values)) :
    ∃ state', state.onTrees Trees.performOr = .ok state' ∧ state'.tokenStack = state.tokenStack ∧
      Tracks setting state' (.or_ r s :: values) := by
  apply tracks.onTrees
  intro shapes holds each
  obtain _ | ⟨spellS, _ | ⟨spellR, each⟩⟩ := each
  obtain ⟨trees', done, holds'⟩ := holds.performOr
  exact ⟨trees', _, done, holds', .cons ⟨_, _, spellR, spellS, rfl⟩ each⟩

theorem Tracks.sequence {r s : Regex} (tracks : Tracks setting state (s :: r :: values)) :
    ∃ state', state.onTrees Trees.sequence = .ok state' ∧ state'.tokenStack = state.tokenStack ∧
      Tracks setting state' (.sequence r s :: values) := by
  apply tracks.onTrees
  intro shapes holds each
  obtain _ | ⟨spellS, _ | ⟨spellR, each⟩⟩ := each
  obtain ⟨trees', done, holds'⟩ := holds.sequence
  exact ⟨trees', _, done, holds', .cons ⟨_, _, spellR, spellS, rfl⟩ each⟩

theorem Tracks.dup {r : Regex} (tracks : Tracks setting state (r :: values)) {op : ReToken}
    (allowed : setting.Allows op) :
    ∃ state', state.onTrees (dupOp op) = .ok state' ∧ state'.tokenStack = state.tokenStack ∧
      Tracks setting state' (.dup r op :: values) := by
  apply tracks.onTrees
  intro shapes holds each
  obtain _ | ⟨spell, each⟩ := each
  obtain ⟨trees', done, holds'⟩ := holds.dupOp allowed.greedy
  exact ⟨trees', _, done, holds', .cons ⟨_, spell, rfl⟩ each⟩

/-- A new leaf, and perhaps new sets. -/
theorem Tracks.pushLeaf (tracks : Tracks setting state values) {map : CharsetMap} (numbered : Numbered map)
    (more : ∀ entry ∈ state.charsetMap, entry ∈ map) (grown : setting.Grown map) (nlId : Option Nat)
    (newline : setting.noEol → nlId = none)
    {r : Regex} {token : LeafToken} (spell : Spells map r (tokenShape token)) :
    Tracks setting (({ state with charsetMap := map, nlId := nlId } : RegexParser).pushLeaf token) (r :: values) := by
  obtain ⟨shapes, holds, each⟩ := tracks.spelt
  refine ⟨numbered, grown, ⟨tokenShape token :: shapes, ?_, ?_⟩, newline⟩
  · exact holds.leafNode token fun _ => rfl
  · exact .cons spell (each.imp fun _ _ spelt => spelt.mono more)

theorem newline_nonempty : ∃ b, b ∈ RegexParser.newline := ⟨10, StringToken.mem_one.2 rfl⟩

/-- The token of a nonterminal. -/
def symbol (A : TokenType) : ReToken := ⟨A, [], .empty⟩

/-- What a reduction leaves on the stacks. -/
def Reduces (setting : Setting) (state : RegexParser) (A : TokenType) (stack : List ReToken) (values : List Regex) : Prop :=
  ∃ state', state.reduce = .ok state' ∧ state'.tokenStack = symbol A :: stack ∧ Tracks setting state' values

/-- A reduction that leaves the trees as they are. -/
theorem Reduces.push {A : TokenType} (tracks : Tracks setting state values)
    (reduced : state.reduce = .ok (({ state with tokenStack := stack } : RegexParser).push A)) :
    Reduces setting state A stack values :=
  ⟨_, reduced, rfl, tracks.numbered, tracks.grown, tracks.spelt, tracks.newline⟩

variable {t o c : ReToken}

theorem reduce_regex (tracks : Tracks setting state values) (type : t.type = .orexp)
    (popped : popHandle state.tokenStack [] = .ok ([t], stack)) : Reduces setting state .regex stack values := by
  apply Reduces.push tracks
  unfold RegexParser.reduce
  rw [bind_of_ok popped]
  simp only [type]
  rfl

theorem reduce_orexp (tracks : Tracks setting state values) (type : t.type = .sequence)
    (popped : popHandle state.tokenStack [] = .ok ([t], stack)) : Reduces setting state .orexp stack values := by
  apply Reduces.push tracks
  unfold RegexParser.reduce
  rw [bind_of_ok popped]
  simp only [type]
  rfl

theorem reduce_or {r s : Regex} (tracks : Tracks setting state (s :: r :: values)) (type : t.type = .orexp)
    (typeO : o.type = .or_) (typeC : c.type = .sequence) (popped : popHandle state.tokenStack [] = .ok ([t, o, c], stack)) :
    Reduces setting state .orexp stack (.or_ r s :: values) := by
  have tracks' : Tracks setting { state with tokenStack := stack } (s :: r :: values) :=
    ⟨tracks.numbered, tracks.grown, tracks.spelt, tracks.newline⟩
  obtain ⟨state', done, same, tracks'⟩ := tracks'.performOr
  refine ⟨state'.push .orexp, ?_, ?_, tracks'.numbered, tracks'.grown, tracks'.spelt, tracks'.newline⟩
  · unfold RegexParser.reduce
    rw [bind_of_ok popped]
    simp only [type, RegexParser.orexp, typeO, typeC]
    show (do let state ← RegexParser.onTrees Trees.performOr { state with tokenStack := stack }; _) = _
    rw [bind_of_ok done]
    rfl
  · show _ :: state'.tokenStack = _
    rw [same]
    rfl

theorem reduce_sequence (tracks : Tracks setting state values) (type : t.type = .sub)
    (popped : popHandle state.tokenStack [] = .ok ([t], stack)) : Reduces setting state .sequence stack values := by
  apply Reduces.push tracks
  unfold RegexParser.reduce
  rw [bind_of_ok popped]
  simp only [type]
  rfl

theorem reduce_sub (tracks : Tracks setting state values) (type : t.type = .expression)
    (popped : popHandle state.tokenStack [] = .ok ([t], stack)) : Reduces setting state .sub stack values := by
  apply Reduces.push tracks
  unfold RegexParser.reduce
  rw [bind_of_ok popped]
  simp only [type]
  rfl

theorem reduce_join {r s : Regex} (tracks : Tracks setting state (s :: r :: values)) (type : t.type = .sub)
    (typeC : c.type = .expression) (popped : popHandle state.tokenStack [] = .ok ([t, c], stack)) :
    Reduces setting state .sub stack (.sequence r s :: values) := by
  have tracks' : Tracks setting { state with tokenStack := stack } (s :: r :: values) :=
    ⟨tracks.numbered, tracks.grown, tracks.spelt, tracks.newline⟩
  obtain ⟨state', done, same, tracks'⟩ := tracks'.sequence
  refine ⟨state'.push .sub, ?_, ?_, tracks'.numbered, tracks'.grown, tracks'.spelt, tracks'.newline⟩
  · unfold RegexParser.reduce
    rw [bind_of_ok popped]
    simp only [type, RegexParser.sub, typeC]
    show (do let state ← RegexParser.onTrees Trees.sequence { state with tokenStack := stack }; _) = _
    rw [bind_of_ok done]
    rfl
  · show _ :: state'.tokenStack = _
    rw [same]
    rfl

theorem reduce_expression (tracks : Tracks setting state values) (type : t.type = .repeat_)
    (popped : popHandle state.tokenStack [] = .ok ([t], stack)) : Reduces setting state .expression stack values := by
  apply Reduces.push tracks
  unfold RegexParser.reduce
  rw [bind_of_ok popped]
  simp only [type]
  rfl

theorem reduce_repeat (tracks : Tracks setting state values) (type : t.type = .repeat_) (typeC : c.type = .dup)
    (popped : popHandle state.tokenStack [] = .ok ([t, c], stack)) : Reduces setting state .repeat_ stack values := by
  apply Reduces.push tracks
  unfold RegexParser.reduce
  rw [bind_of_ok popped]
  simp only [type, RegexParser.repeat_, typeC]
  rfl

theorem reduce_paren (tracks : Tracks setting state values) (type : t.type = .openparen) (typeO : o.type = .regex)
    (typeC : c.type = .closeparen) (popped : popHandle state.tokenStack [] = .ok ([t, o, c], stack)) :
    Reduces setting state .repeat_ stack values := by
  apply Reduces.push tracks
  unfold RegexParser.reduce
  rw [bind_of_ok popped]
  simp only [type, RegexParser.openparen, typeO, typeC]
  rfl

theorem reduce_bol (tracks : Tracks setting state values) (type : t.type = .bol)
    (popped : popHandle state.tokenStack [] = .ok ([t], stack)) : Reduces setting state .repeat_ stack (.bol :: values) := by
  have tracks' := tracks.pushLeaf (r := .bol) tracks.numbered (fun _ member => member) tracks.grown state.nlId tracks.newline rfl
  refine ⟨(({ state with tokenStack := stack } : RegexParser).pushLeaf .bol).push .repeat_, ?_, rfl, tracks'.numbered,
    tracks'.grown, tracks'.spelt, tracks'.newline⟩
  unfold RegexParser.reduce
  rw [bind_of_ok popped]
  simp only [type]
  rfl

theorem reduce_eol (tracks : Tracks setting state values) (type : t.type = .eol) (allowed : setting.Allows t)
    (popped : popHandle state.tokenStack [] = .ok ([t], stack)) : Reduces setting state .repeat_ stack (.eol :: values) := by
  obtain ⟨-, more, numbered⟩ := tracks.numbered.lookupCharset newline_nonempty
  have tracks' := tracks.pushLeaf (r := .eol) numbered more (tracks.grown.lookupCharset (allowed.eol type) more)
    (some (lookupCharset RegexParser.newline state.charsetMap).1) (fun told => absurd type (allowed.newline told)) rfl
  refine ⟨(({ state with
    tokenStack := stack
    charsetMap := (lookupCharset RegexParser.newline state.charsetMap).2
    nlId := some (lookupCharset RegexParser.newline state.charsetMap).1 } : RegexParser).pushLeaf .eol).push .repeat_,
    ?_, rfl, tracks'.numbered, tracks'.grown, tracks'.spelt, tracks'.newline⟩
  unfold RegexParser.reduce
  rw [bind_of_ok popped]
  simp only [type]
  rfl

theorem reduce_charset (tracks : Tracks setting state values) (type : t.type = .charset) (allowed : setting.Allows t)
    (popped : popHandle state.tokenStack [] = .ok ([t], stack)) :
    Reduces setting state .repeat_ stack (.charset t.str :: values) := by
  obtain ⟨here, more, numbered⟩ := tracks.numbered.lookupCharset (allowed.fine.nonempty type)
  have tracks' := tracks.pushLeaf (r := .charset t.str) numbered more (tracks.grown.lookupCharset (allowed.charset type) more)
    state.nlId tracks.newline ⟨_, here, rfl⟩
  refine ⟨(({ state with
    tokenStack := stack
    charsetMap := (lookupCharset t.str state.charsetMap).2 } : RegexParser).pushLeaf
      (.charset (lookupCharset t.str state.charsetMap).1)).push .repeat_, ?_, rfl, tracks'.numbered, tracks'.grown,
    tracks'.spelt, tracks'.newline⟩
  unfold RegexParser.reduce
  rw [bind_of_ok popped]
  simp only [type]
  rfl

/-- The quantifiers. -/
theorem reduce_eq_quantifier (dup : t.type.isDup = true) (popped : popHandle state.tokenStack [] = .ok ([t], stack)) :
    state.reduce = ({ state with tokenStack := stack } : RegexParser).quantifier (dupOp t) := by
  unfold RegexParser.reduce dupOp
  rw [bind_of_ok popped]
  cases type : t.type with
  | opt | aopt | zeroOrMore | azeroOrMore | oneOrMore | aoneOrMore | repeatn | arepeatn => simp only [type]
  | _ =>
      rw [type] at dup
      cases dup

theorem reduce_dup {r : Regex} (tracks : Tracks setting state (r :: values)) (dup : t.type.isDup = true)
    (allowed : setting.Allows t) (popped : popHandle state.tokenStack [] = .ok ([t], stack)) :
    Reduces setting state .dup stack (.dup r t :: values) := by
  have tracks' : Tracks setting { state with tokenStack := stack } (r :: values) :=
    ⟨tracks.numbered, tracks.grown, tracks.spelt, tracks.newline⟩
  obtain ⟨state', done, same, tracks'⟩ := tracks'.dup allowed
  refine ⟨state'.push .dup, ?_, ?_, tracks'.numbered, tracks'.grown, tracks'.spelt, tracks'.newline⟩
  · rw [reduce_eq_quantifier dup popped, RegexParser.quantifier, bind_of_ok done]
    rfl
  · show _ :: state'.tokenStack = _
    rw [same]
    rfl

end Reductions

/-! ## Rounds -/

/-- A run of the parser. -/
def Rounds (id : Uint) : List ReToken × RegexParser → List ReToken × RegexParser → Prop :=
  Relation.ReflTransGen fun before after => parseStep id before.1 before.2 = .ok after

section Rounds

variable {id : Uint} {state : RegexParser} {lhs rhs : ReToken} {stack rest : List ReToken}

theorem parseStep_shift (top : state.tokenStack = lhs :: stack) (opens : lhs.type.Opens rhs.type) :
    parseStep id (rhs :: rest) state =
      .ok (advance (rhs :: rest), { state with tokenStack := rhs :: state.tokenStack }) := by
  unfold parseStep
  simp only [top]
  exact if_pos opens

theorem parseStep_reduce (top : state.tokenStack = lhs :: stack) (action : lhs.type.precedence rhs.type = '>')
    {state' : RegexParser} (reduced : state.reduce = .ok state') :
    parseStep id (rhs :: rest) state = .ok (rhs :: rest, state') := by
  unfold parseStep
  simp only [top, action]
  rw [if_neg (by decide), if_pos trivial, bind_of_ok reduced]
  rfl

theorem advance_append {t : ReToken} {u : List ReToken} : advance (rhs :: (u ++ t :: rest)) = u ++ t :: rest := by
  cases u <;> rfl

/-- A token is shifted. -/
theorem Rounds.shift (id : Uint) (rest : List ReToken) (top : state.tokenStack = lhs :: stack)
    (opens : lhs.type.Opens rhs.type) (u : List ReToken) (t : ReToken) :
    Rounds id (rhs :: (u ++ t :: rest), state) (u ++ t :: rest, { state with tokenStack := rhs :: lhs :: stack }) := by
  refine Relation.ReflTransGen.single ?_
  rw [parseStep_shift top opens, advance_append, top]

/-- The top of the stack is reduced. -/
theorem Rounds.reduce (id : Uint) (rest : List ReToken) (state : RegexParser) {setting : Setting} {A : TokenType}
    {values : List Regex} (top : state.tokenStack = lhs :: stack) (action : lhs.type.precedence rhs.type = '>')
    {below : List ReToken} (reduces : Reduces setting state A below values) :
    ∃ state', Rounds id (rhs :: rest, state) (rhs :: rest, state') ∧ state'.tokenStack = symbol A :: below ∧
      Tracks setting state' values := by
  obtain ⟨state', reduced, same, tracks⟩ := reduces
  exact ⟨state', Relation.ReflTransGen.single (parseStep_reduce top action reduced), same, tracks⟩

end Rounds

/-! ## A derivation is a run -/

/-- The parser works a text of the nonterminal off and puts the nonterminal in its
place. -/
def Runs (setting : Setting) (id : Uint) (A : TokenType) (u : List ReToken) (r : Regex) : Prop :=
  ∀ {rhs lhs : ReToken} (rest : List ReToken) {stack : List ReToken} (state : RegexParser) {values : List Regex},
    lhs.type.Opens A → A.Follows rhs.type → Single (u ++ [rhs]) → (∀ t ∈ u, setting.Allows t) →
      state.tokenStack = lhs :: stack → Tracks setting state values →
        ∃ state', Rounds id (u ++ rhs :: rest, state) (rhs :: rest, state') ∧
          state'.tokenStack = symbol A :: lhs :: stack ∧ Tracks setting state' (r :: values)

theorem Single.append_right {u v : List ReToken} (single : Single (u ++ v)) : Single v :=
  List.IsChain.right_of_append single

theorem Single.append_left {u v : List ReToken} (single : Single (u ++ v)) : Single u :=
  List.IsChain.left_of_append single

theorem Single.append_cons_left {u v : List ReToken} {t : ReToken} (single : Single (u ++ t :: v)) : Single (u ++ [t]) := by
  rw [List.append_cons] at single
  exact single.append_left

theorem Single.append_cons_right {u v : List ReToken} {t : ReToken} (single : Single (u ++ t :: v)) : Single v := by
  rw [List.append_cons] at single
  exact single.append_right

/-- A text starts with an operand or with a parenthesis. -/
theorem Derives.head {A : TokenType} {u : List ReToken} {r : Regex} (derives : Derives A u r) : ∃ t v, u = t :: v ∧
    (t.type = .charset ∨ t.type = .bol ∨ t.type = .eol ∨ t.type = .openparen) := by
  induction derives with
  | regex _ ih => exact ih
  | orexp _ ih => exact ih
  | or_ _ _ _ ihl _ =>
      obtain ⟨t, v, rfl, type⟩ := ihl
      exact ⟨t, _, rfl, type⟩
  | sequence _ ih => exact ih
  | sub _ ih => exact ih
  | join _ _ ihl _ =>
      obtain ⟨t, v, rfl, type⟩ := ihl
      exact ⟨t, _, rfl, type⟩
  | expression _ ih => exact ih
  | charset type => exact ⟨_, [], rfl, Or.inl type⟩
  | bol type => exact ⟨_, [], rfl, Or.inr (Or.inl type)⟩
  | eol type => exact ⟨_, [], rfl, Or.inr (Or.inr (Or.inl type))⟩
  | paren open_ _ _ _ => exact ⟨_, _, rfl, Or.inr (Or.inr (Or.inr open_))⟩
  | dup _ _ ih =>
      obtain ⟨t, v, rfl, type⟩ := ih
      exact ⟨t, _, rfl, type⟩

theorem follows_operand {rhs : TokenType} (head : rhs = .charset ∨ rhs = .bol ∨ rhs = .eol ∨ rhs = .openparen) :
    TokenType.sub.Follows rhs := by
  rcases head with rfl | rfl | rfl | rfl <;> exact rfl

section Runs

variable {setting : Setting} {id : Uint} {u v : List ReToken} {r s : Regex} {t o c : ReToken}

/-- One token that is reduced at once. -/
theorem runs_operand (type : t.type = .charset ∨ t.type = .bol ∨ t.type = .eol ∨ t.type = .openparen)
    (reduces : ∀ {state : RegexParser} {values : List Regex} {stack : List ReToken}, Tracks setting state values →
      setting.Allows t → popHandle state.tokenStack [] = .ok ([t], stack) →
        Reduces setting state .repeat_ stack (r :: values))
    (greater : ∀ rhs : TokenType, TokenType.repeat_.Follows rhs → t.type.precedence rhs = '>') :
    Runs setting id .repeat_ [t] r := by
  intro rhs lhs rest stack state values opens follows _ allowed top tracks
  have less := (TokenType.Opens.operand opens).2 _ type
  have shifted := Rounds.shift id rest top (Or.inl less) [] rhs
  have popped := popHandle_less less stack []
  obtain ⟨state', reduced, same, tracks'⟩ :=
    Rounds.reduce id rest { state with tokenStack := t :: lhs :: stack } rfl (greater _ follows)
    (reduces ⟨tracks.numbered, tracks.grown, tracks.spelt, tracks.newline⟩ (allowed t (by simp)) popped)
  exact ⟨state', shifted.trans reduced, same, tracks'⟩

/-- A nonterminal on the stack that is reduced to another one. -/
theorem Runs.reduce {A B : TokenType} (runs : Runs setting id A u r)
    (opens : ∀ lhs : TokenType, lhs.Opens B → lhs.Opens A ∧ lhs.precedence A = '<')
    (follows : ∀ rhs : TokenType, B.Follows rhs → A.Follows rhs ∧ A.precedence rhs = '>')
    (reduces : ∀ {state : RegexParser} {values : List Regex} {stack : List ReToken}, Tracks setting state values →
      popHandle state.tokenStack [] = .ok ([symbol A], stack) → Reduces setting state B stack values) :
    Runs setting id B u r := by
  intro rhs lhs rest stack state values opensB followsB single allowed top tracks
  obtain ⟨opensA, less⟩ := opens _ opensB
  obtain ⟨followsA, greater⟩ := follows _ followsB
  obtain ⟨state1, rounds1, top1, tracks1⟩ := runs rest state opensA followsA single allowed top tracks
  have popped : popHandle state1.tokenStack [] = .ok ([symbol A], lhs :: stack) := by
    rw [top1]
    exact popHandle_less less stack []
  obtain ⟨state2, rounds2, top2, tracks2⟩ := Rounds.reduce id rest state1 top1 greater (reduces tracks1 popped)
  exact ⟨state2, rounds1.trans rounds2, top2, tracks2⟩

theorem Runs.or_ (runsL : Runs setting id .orexp u r) (type : o.type = .or_) (runsR : Runs setting id .sequence v s) :
    Runs setting id .orexp (u ++ o :: v) (.or_ r s) := by
  intro rhs lhs rest stack state values opens follows single allowed top tracks
  have less := (TokenType.Opens.sequence opens).2
  rw [List.append_assoc, List.cons_append] at single ⊢
  have front : TokenType.orexp.Follows o.type := by
    rw [type]
    rfl
  obtain ⟨state1, rounds1, top1, tracks1⟩ := runsL (v ++ rhs :: rest) state opens front single.append_cons_left
    (fun t member => allowed t (by simp [member])) top tracks
  have opensO : TokenType.Opens .orexp o.type := by
    rw [type]
    decide
  have shifted := Rounds.shift id rest top1 opensO v rhs
  have opensV : o.type.Opens .sequence := by
    rw [type]
    decide
  obtain ⟨state2, rounds2, top2, tracks2⟩ :=
    runsR rest { state1 with tokenStack := o :: symbol .orexp :: lhs :: stack } opensV follows single.append_cons_right
    (fun t member => allowed t (by simp [member])) rfl ⟨tracks1.numbered, tracks1.grown, tracks1.spelt, tracks1.newline⟩
  have popped : popHandle state2.tokenStack [] = .ok ([symbol .orexp, o, symbol .sequence], lhs :: stack) := by
    rw [top2, popHandle_equal (by rw [type]; decide), popHandle_equal (by rw [type]; decide), popHandle_less less]
  have greater : TokenType.precedence .sequence rhs.type = '>' :=
    (by decide : ∀ rhs : TokenType, TokenType.sub.precedence rhs = '>' → TokenType.sequence.precedence rhs = '>') _ follows
  obtain ⟨state3, rounds3, top3, tracks3⟩ := Rounds.reduce id rest state2 top2 greater
    (reduce_or tracks2 rfl type rfl popped)
  exact ⟨state3, rounds1.trans (shifted.trans (rounds2.trans rounds3)), top3, tracks3⟩

theorem Runs.join (runsL : Runs setting id .sub u r) (runsR : Runs setting id .expression v s)
    (head : ∃ t w, v = t :: w ∧ (t.type = .charset ∨ t.type = .bol ∨ t.type = .eol ∨ t.type = .openparen)) :
    Runs setting id .sub (u ++ v) (.sequence r s) := by
  obtain ⟨t, w, rfl, type⟩ := head
  intro rhs lhs rest stack state values opens follows single allowed top tracks
  have less := (TokenType.Opens.expression opens).2
  rw [List.append_assoc, List.cons_append] at single ⊢
  obtain ⟨state1, rounds1, top1, tracks1⟩ := runsL (w ++ rhs :: rest) state opens (follows_operand type)
    single.append_cons_left (fun t member => allowed t (by simp [member])) top tracks
  obtain ⟨state2, rounds2, top2, tracks2⟩ := runsR rest state1 (Or.inr (by decide)) follows single.append_right
    (fun t member => allowed t (by simp [member])) top1 tracks1
  have popped : popHandle state2.tokenStack [] = .ok ([symbol .sub, symbol .expression], lhs :: stack) := by
    rw [top2, popHandle_equal (by decide), popHandle_less less]
  obtain ⟨state3, rounds3, top3, tracks3⟩ := Rounds.reduce id rest state2 top2 follows
    (reduce_join tracks2 rfl rfl popped)
  exact ⟨state3, rounds1.trans (rounds2.trans rounds3), top3, tracks3⟩

theorem Runs.paren (open_ : o.type = .openparen) (runs : Runs setting id .regex u r) (close : c.type = .closeparen) :
    Runs setting id .repeat_ (o :: u ++ [c]) r := by
  intro rhs lhs rest stack state values opens follows single allowed top tracks
  have less := (TokenType.Opens.operand opens).2 _ (Or.inr (Or.inr (Or.inr open_)))
  rw [show o :: u ++ [c] ++ rhs :: rest = o :: (u ++ c :: rhs :: rest) by simp]
  have shifted := Rounds.shift id (rhs :: rest) top (Or.inl less) u c
  have single_ : Single (u ++ [c]) := single.append_left.append_right (u := [o])
  have opensU : o.type.Opens .regex := by
    rw [open_]
    decide
  have front : TokenType.regex.Follows c.type := by
    rw [close]
    exact Or.inl rfl
  obtain ⟨state1, rounds1, top1, tracks1⟩ := runs (rhs :: rest) { state with tokenStack := o :: lhs :: stack } opensU front single_
    (fun t member => allowed t (by simp [member])) rfl ⟨tracks.numbered, tracks.grown, tracks.spelt, tracks.newline⟩
  have shifted' := Rounds.shift id rest top1 (by rw [close]; decide) [] rhs
  have popped : popHandle (c :: symbol .regex :: o :: lhs :: stack) [] = .ok ([o, symbol .regex, c], lhs :: stack) := by
    rw [popHandle_equal (by rw [close]; decide), popHandle_equal (by rw [open_]; decide), popHandle_less less]
  have greater : c.type.precedence rhs.type = '>' := by
    rw [close]
    exact follows
  obtain ⟨state2, rounds2, top2, tracks2⟩ :=
    Rounds.reduce id rest { state1 with tokenStack := c :: symbol .regex :: o :: lhs :: stack } rfl greater
    (reduce_paren ⟨tracks1.numbered, tracks1.grown, tracks1.spelt, tracks1.newline⟩ open_ rfl close popped)
  exact ⟨state2, shifted.trans (rounds1.trans (shifted'.trans rounds2)), top2, tracks2⟩

/-- Behind a quantifier there is no other one, so it is reduced at once. -/
theorem Runs.dup (runs : Runs setting id .repeat_ u r) (type : t.type.isDup = true) :
    Runs setting id .repeat_ (u ++ [t]) (.dup r t) := by
  intro rhs lhs rest stack state values opens follows single allowed top tracks
  have less := (TokenType.Opens.operand opens).1
  have alone : rhs.type.isDup = false := by
    have pair := single
    rw [List.append_assoc] at pair
    have both := List.isChain_pair.1 pair.append_right
    simpa [type] using both
  obtain ⟨before, greater, greater'⟩ := (by decide +kernel : ∀ t rhs : TokenType, t.isDup = true → rhs.isDup = false →
    TokenType.charset.precedence rhs = '>' → (TokenType.charset.precedence t = '>' ∧ TokenType.repeat_.precedence t = '<') ∧
      t.precedence rhs = '>' ∧ TokenType.dup.precedence rhs = '>') t.type rhs.type type alone follows
  rw [List.append_assoc]
  obtain ⟨state1, rounds1, top1, tracks1⟩ := runs (rhs :: rest) state opens before.1 single.append_left
    (fun t member => allowed t (by simp [member])) top tracks
  have shifted := Rounds.shift id rest top1 (Or.inl before.2) [] rhs
  have popped := @popHandle_less t (symbol .repeat_) before.2 (lhs :: stack) []
  obtain ⟨state2, rounds2, top2, tracks2⟩ :=
    Rounds.reduce id rest { state1 with tokenStack := t :: symbol .repeat_ :: lhs :: stack } rfl greater
    (reduce_dup ⟨tracks1.numbered, tracks1.grown, tracks1.spelt, tracks1.newline⟩ type (allowed t (by simp)) popped)
  have popped' : popHandle state2.tokenStack [] = .ok ([symbol .repeat_, symbol .dup], lhs :: stack) := by
    rw [top2, popHandle_equal (by decide), popHandle_less less]
  obtain ⟨state3, rounds3, top3, tracks3⟩ := Rounds.reduce id rest state2 top2 greater'
    (reduce_repeat tracks2 rfl rfl popped')
  exact ⟨state3, rounds1.trans (shifted.trans (rounds2.trans rounds3)), top3, tracks3⟩

/-- **The parser works every derivation off.** -/
theorem Derives.runs {A : TokenType} (derives : Derives A u r) : Runs setting id A u r := by
  induction derives with
  | regex _ ih =>
      exact ih.reduce (fun lhs opens => ⟨Or.inl opens.orexp, opens.orexp⟩) (by decide +kernel)
        fun tracks => reduce_regex tracks rfl
  | orexp _ ih =>
      exact ih.reduce (fun lhs opens => ⟨Or.inl opens.sequence.1, opens.sequence.1⟩) (by decide +kernel)
        fun tracks => reduce_orexp tracks rfl
  | or_ _ type _ ihl ihr => exact ihl.or_ type ihr
  | sequence _ ih =>
      exact ih.reduce (fun lhs opens => ⟨Or.inl opens.sub, opens.sub⟩) (by decide +kernel)
        fun tracks => reduce_sequence tracks rfl
  | sub _ ih =>
      exact ih.reduce (fun lhs opens => ⟨Or.inl opens.expression.1, opens.expression.1⟩) (by decide +kernel)
        fun tracks => reduce_sub tracks rfl
  | join _ expression ihl ihr => exact ihl.join ihr expression.head
  | expression _ ih =>
      exact ih.reduce (fun lhs opens => ⟨Or.inl opens.repeat_, opens.repeat_⟩) (by decide +kernel)
        fun tracks => reduce_expression tracks rfl
  | charset type =>
      exact runs_operand (Or.inl type) (fun tracks allowed => reduce_charset tracks type allowed)
        fun rhs => by rw [type]; exact fun follows => follows
  | bol type =>
      exact runs_operand (Or.inr (Or.inl type)) (fun tracks _ => reduce_bol tracks type)
        fun rhs => by rw [type]; exact fun follows => follows
  | eol type =>
      exact runs_operand (Or.inr (Or.inr (Or.inl type))) (fun tracks allowed => reduce_eol tracks type allowed)
        fun rhs => by rw [type]; exact fun follows => follows
  | paren open_ _ close ih => exact ih.paren open_ close
  | dup _ type ih => exact ih.dup type

end Runs

end Orchid
