/-
# RegexParse.ParserSound -- the parser accepts nothing else

`Covers` cuts what has been read into the pieces the tokens on the stack stand for: a
nonterminal for a text it derives, any other token for itself.  Only a quantifier behind
another one leaves this (`Stuck`), and from there no round leads to the end.  The other
way out would be a parenthesis that is closed but was never opened, which the tokeniser
does not let through (`Balanced`).

So whatever the loop ends with has a derivation (`parseLoop_sound`).  That it ends is a
matter of weights: a reduction leaves less on the stack, and a token weighs more in the
input than on the stack.
-/
import Orchid.RegexParse.ParserRuns

namespace Orchid

open Orchid.Theory

set_option autoImplicit false

/-! ## The loop ends -/

namespace TokenType

/-- What a token weighs on the stack. -/
def weight : TokenType → Nat
  | charset | bol | eol | macro_ => 7
  | repeat_ => 6
  | expression => 5
  | sub => 4
  | sequence | openparen | closeparen => 3
  | orexp | opt | aopt | zeroOrMore | azeroOrMore | oneOrMore | aoneOrMore | repeatn | arepeatn => 2
  | begin_ | regex | dup | or_ | end_ | diff => 1

theorem weight_pos (t : TokenType) : 0 < t.weight := by
  cases t <;> decide

theorem weight_le (t : TokenType) : t.weight ≤ 7 := by
  cases t <;> decide

end TokenType

def stackWeight (stack : List ReToken) : Nat := (stack.map fun t => t.type.weight).sum

@[simp] theorem stackWeight_cons (t : ReToken) (stack : List ReToken) :
    stackWeight (t :: stack) = t.type.weight + stackWeight stack := List.sum_cons

@[simp] theorem stackWeight_nil : stackWeight [] = 0 := rfl

/-- Nothing is lost when a handle is taken off. -/
theorem stackWeight_popHandle : ∀ {tokens handle : List ReToken} {popped : List ReToken × List ReToken},
    popHandle tokens handle = .ok popped →
      stackWeight popped.1 + stackWeight popped.2 = stackWeight handle + stackWeight tokens := by
  intro tokens
  induction tokens with
  | nil =>
      intro handle popped done
      cases done
  | cons rhs tokens ih =>
      intro handle popped done
      cases tokens with
      | nil =>
          obtain rfl := Except.ok.inj done
          simp only [stackWeight_cons, stackWeight_nil]
          omega
      | cons lhs stack =>
          rcases popHandle_cases done with ⟨-, done⟩ | ⟨-, rfl⟩
          · rw [ih done]
            simp only [stackWeight_cons]
            omega
          · simp only [stackWeight_cons]
            omega

namespace RegexParser

variable {state state' : RegexParser}

theorem onTrees_stack {op : Trees → Except String Trees} (done : state.onTrees op = .ok state') :
    state'.tokenStack = state.tokenStack := by
  obtain ⟨trees, -, done⟩ := bind_ok done
  obtain rfl := Except.ok.inj done
  rfl

theorem quantifier_stack {op : Trees → Except String Trees} (done : state.quantifier op = .ok state') :
    state'.tokenStack = symbol .dup :: state.tokenStack := by
  obtain ⟨middle, inner, pushed⟩ := bind_ok done
  obtain rfl := Except.ok.inj pushed
  show symbol .dup :: middle.tokenStack = _
  rw [onTrees_stack inner]

/-- A reduction puts one token in the place of a handle that weighs more. -/
def Lighter (handle : List ReToken) (state state' : RegexParser) : Prop :=
  ∃ A : TokenType, state'.tokenStack = symbol A :: state.tokenStack ∧ A.weight < stackWeight handle

theorem Lighter.push {handle : List ReToken} {A : TokenType} (same : state'.tokenStack = state.tokenStack)
    (less : A.weight < stackWeight handle) : Lighter handle state (state'.push A) :=
  ⟨A, by rw [← same]; rfl, less⟩

variable {t : ReToken} {handle : List ReToken}

theorem orexp_lighter (type : t.type = .orexp) (done : orexp (t :: handle) state = .ok state') :
    Lighter (t :: handle) state state' := by
  match handle, done with
  | [], done =>
      obtain rfl := Except.ok.inj done
      exact Lighter.push rfl (by simp [type, TokenType.weight])
  | [_], done => cases done
  | [o, c], done =>
      unfold orexp at done
      simp only at done
      split at done
      · cases done
      · split at done
        · cases done
        · obtain ⟨middle, inner, pushed⟩ := bind_ok done
          obtain rfl := Except.ok.inj pushed
          refine Lighter.push (onTrees_stack inner) ?_
          have := o.type.weight_pos
          simp only [stackWeight_cons, type]
          omega
  | _ :: _ :: _ :: _, done => cases done

theorem sub_lighter (type : t.type = .sub) (done : sub (t :: handle) state = .ok state') :
    Lighter (t :: handle) state state' := by
  match handle, done with
  | [], done =>
      obtain rfl := Except.ok.inj done
      exact Lighter.push rfl (by simp [type, TokenType.weight])
  | [c], done =>
      unfold sub at done
      simp only at done
      split at done
      · cases done
      · obtain ⟨middle, inner, pushed⟩ := bind_ok done
        obtain rfl := Except.ok.inj pushed
        refine Lighter.push (onTrees_stack inner) ?_
        have := c.type.weight_pos
        simp only [stackWeight_cons, type]
        omega
  | _ :: _ :: _, done => cases done

theorem repeat_lighter (type : t.type = .repeat_) (done : repeat_ (t :: handle) state = .ok state') :
    Lighter (t :: handle) state state' := by
  match handle, done with
  | [], done =>
      obtain rfl := Except.ok.inj done
      exact Lighter.push rfl (by simp [type, TokenType.weight])
  | c :: rest, done =>
      unfold repeat_ at done
      simp only at done
      split at done
      · cases done
      · split at done
        · cases done
        · obtain rfl := Except.ok.inj done
          refine Lighter.push rfl ?_
          have := c.type.weight_pos
          simp only [stackWeight_cons, type]
          omega

theorem openparen_lighter (type : t.type = .openparen) (done : openparen (t :: handle) state = .ok state') :
    Lighter (t :: handle) state state' := by
  match handle, done with
  | [], done => cases done
  | [_], done => cases done
  | [o, c], done =>
      unfold openparen at done
      simp only at done
      split at done
      · cases done
      · split at done
        · cases done
        · next typeO typeC =>
          obtain rfl := Except.ok.inj done
          refine Lighter.push rfl ?_
          rw [ne_eq, not_not] at typeO typeC
          simp [type, typeO, typeC, TokenType.weight]
  | _ :: _ :: _ :: _, done => cases done

/-- An operand, which weighs more than a repetition. -/
theorem operand_lighter (type : t.type.weight = 7) {inner : RegexParser} (same : inner.tokenStack = state.tokenStack) :
    Lighter (t :: handle) state (inner.push .repeat_) := by
  refine Lighter.push same ?_
  rw [stackWeight_cons, type]
  exact Nat.lt_of_lt_of_le (by decide) (Nat.le_add_right 7 _)

theorem reduce_lighter (done : state.reduce = .ok state') : stackWeight state'.tokenStack < stackWeight state.tokenStack := by
  obtain ⟨⟨handle, stack⟩, popped, done⟩ := bind_ok done
  have whole := stackWeight_popHandle popped
  simp only [stackWeight_nil, Nat.zero_add] at whole
  rw [← whole]
  cases handle with
  | nil => cases done
  | cons t handle =>
      have positive := t.type.weight_pos
      have lighter : state'.tokenStack = stack ∨ Lighter (t :: handle) { state with tokenStack := stack } state' := by
        cases type : t.type with
        | begin_ | regex =>
            simp only [type] at done
            obtain rfl := Except.ok.inj done
            exact Or.inl rfl
        | orexp =>
            simp only [type] at done
            exact Or.inr (orexp_lighter type done)
        | sub =>
            simp only [type] at done
            exact Or.inr (sub_lighter type done)
        | repeat_ =>
            simp only [type] at done
            exact Or.inr (repeat_lighter type done)
        | openparen =>
            simp only [type] at done
            exact Or.inr (openparen_lighter type done)
        | sequence | expression =>
            simp only [type] at done
            obtain rfl := Except.ok.inj done
            refine Or.inr (Lighter.push rfl ?_)
            rw [stackWeight_cons, type]
            exact Nat.lt_of_lt_of_le (by decide) (Nat.le_add_right _ _)
        | bol =>
            simp only [type, bol] at done
            split at done
            · cases done
            · obtain rfl := Except.ok.inj done
              exact Or.inr (operand_lighter (by rw [type]; rfl) rfl)
        | eol =>
            simp only [type, eol] at done
            split at done
            · cases done
            · obtain rfl := Except.ok.inj done
              exact Or.inr (operand_lighter (by rw [type]; rfl) rfl)
        | charset =>
            simp only [type, charset] at done
            split at done
            · obtain rfl := Except.ok.inj done
              exact Or.inr (operand_lighter (by rw [type]; rfl) rfl)
            · cases done
        | opt | aopt | zeroOrMore | azeroOrMore | oneOrMore | aoneOrMore | repeatn | arepeatn =>
            simp only [type] at done
            refine Or.inr ⟨.dup, quantifier_stack done, ?_⟩
            rw [stackWeight_cons, type]
            exact Nat.lt_of_lt_of_le (by decide) (Nat.le_add_right _ _)
        | _ =>
            simp only [type] at done
            cases done
      rcases lighter with same | ⟨A, same, less⟩
      · rw [same]
        simp only [stackWeight_cons]
        omega
      · rw [same, stackWeight_cons]
        exact Nat.add_lt_add_right less _

end RegexParser

/-- The input ends with the token that is never shifted. -/
def Ended (input : List ReToken) : Prop := ∃ pending last, input = pending ++ [last] ∧ last.type = .end_

def roundWeight (input : List ReToken) (state : RegexParser) : Nat := 8 * (input.length - 1) + stackWeight state.tokenStack

section Loop

variable {id : Uint} {input input' : List ReToken} {state state' : RegexParser}

/-- A round ends with a shift or with a reduction. -/
theorem parseStep_cases (done : parseStep id input state = .ok (input', state')) :
    ∃ lhs rhs stack rest, state.tokenStack = lhs :: stack ∧ input = rhs :: rest ∧
      (lhs.type.Opens rhs.type ∧ input' = advance input ∧ state' = { state with tokenStack := rhs :: lhs :: stack } ∨
        lhs.type.precedence rhs.type = '>' ∧ input' = input ∧ state.reduce = .ok state') := by
  unfold parseStep at done
  split at done
  · next lhs stack rhs rest top =>
    refine ⟨lhs, rhs, stack, rest, top, rfl, ?_⟩
    simp only at done
    split at done
    · next opens =>
      obtain ⟨rfl, rfl⟩ := Prod.mk.inj (Except.ok.inj done)
      exact Or.inl ⟨opens, rfl, by rw [top]⟩
    · split at done
      · next greater =>
        obtain ⟨middle, reduced, done⟩ := bind_ok done
        obtain ⟨rfl, rfl⟩ := Prod.mk.inj (Except.ok.inj done)
        exact Or.inr ⟨greater, rfl, reduced⟩
      · cases done
  · cases done

/-- The last token is not shifted. -/
theorem not_opens_end : ∀ lhs : TokenType, ¬ lhs.Opens .end_ := by
  decide

theorem Ended.shift {rhs : ReToken} {rest : List ReToken} (ended : Ended (rhs :: rest)) (notEnd : rhs.type ≠ .end_) :
    ∃ t later, rest = t :: later ∧ advance (rhs :: rest) = rest ∧ Ended rest := by
  obtain ⟨pending, last, same, type⟩ := ended
  cases pending with
  | nil =>
      obtain ⟨rfl, rfl⟩ := List.cons.inj same
      exact absurd type notEnd
  | cons first pending =>
      obtain ⟨rfl, rfl⟩ := List.cons.inj same
      cases pending with
      | nil => exact ⟨last, [], rfl, rfl, [], last, rfl, type⟩
      | cons t pending => exact ⟨t, pending ++ [last], rfl, rfl, t :: pending, last, rfl, type⟩

/-- Every round makes the input or the stack lighter. -/
theorem parseStep_lighter (ended : Ended input) (done : parseStep id input state = .ok (input', state')) :
    Ended input' ∧ roundWeight input' state' < roundWeight input state := by
  obtain ⟨lhs, rhs, stack, rest, top, rfl, ⟨opens, rfl, rfl⟩ | ⟨-, rfl, reduced⟩⟩ := parseStep_cases done
  · have notEnd : rhs.type ≠ .end_ := fun type => not_opens_end lhs.type (type ▸ opens)
    obtain ⟨t, later, rfl, next, ended'⟩ := ended.shift notEnd
    rw [next]
    refine ⟨ended', ?_⟩
    have light := rhs.type.weight_le
    unfold roundWeight
    simp only [top, stackWeight_cons, List.length_cons]
    omega
  · exact ⟨ended, Nat.add_lt_add_left (RegexParser.reduce_lighter reduced) _⟩

theorem roundWeight_pos (input : List ReToken) {lhs : ReToken} {stack : List ReToken} (top : state.tokenStack = lhs :: stack) :
    0 < roundWeight input state := by
  unfold roundWeight
  rw [top, stackWeight_cons]
  have := lhs.type.weight_pos
  omega

/-- **The loop ends, so more rounds change nothing.** -/
theorem parseLoop_rounds {n m : Nat} : ∀ {input : List ReToken} {state : RegexParser}, Ended input → roundWeight input state ≤ n →
    roundWeight input state ≤ m → parseLoop id n input state = parseLoop id m input state := by
  induction n generalizing m with
  | zero =>
      intro input state ended few _
      cases top : state.tokenStack with
      | nil =>
          unfold parseLoop
          simp [top]
      | cons lhs stack => exact absurd (roundWeight_pos input top) (Nat.not_lt.2 few)
  | succ n ih =>
      intro input state ended few few'
      cases top : state.tokenStack with
      | nil =>
          unfold parseLoop
          simp [top]
      | cons lhs stack =>
          have positive := roundWeight_pos input top
          obtain ⟨m, rfl⟩ : ∃ k, m = k + 1 := ⟨m - 1, by omega⟩
          unfold parseLoop
          simp only [top, List.isEmpty_cons, Bool.false_eq_true, if_false]
          cases done : parseStep id input state with
          | error trap => rfl
          | ok next =>
              obtain ⟨ended', lighter⟩ := parseStep_lighter ended done
              exact ih ended' (by omega) (by omega)

/-- A run to the empty stack is what the loop does. -/
theorem Rounds.parseLoop {final : List ReToken × RegexParser} {start : List ReToken × RegexParser}
    (rounds : Rounds id start final) (empty : final.2.tokenStack = []) {n : Nat} (ended : Ended start.1)
    (few : roundWeight start.1 start.2 ≤ n) : parseLoop id n start.1 start.2 = .ok final.2 := by
  induction rounds using Relation.ReflTransGen.head_induction_on generalizing n with
  | refl =>
      unfold Orchid.parseLoop
      simp [empty]
  | head step _ ih =>
      rename_i start middle
      obtain ⟨ended', lighter⟩ := parseStep_lighter ended step
      obtain ⟨lhs, rhs, stack, rest, top, -⟩ := parseStep_cases step
      obtain ⟨n, rfl⟩ : ∃ k, n = k + 1 := ⟨n - 1, by have := roundWeight_pos start.1 top; omega⟩
      unfold Orchid.parseLoop
      simp only [top, List.isEmpty_cons, Bool.false_eq_true, if_false]
      rw [bind_of_ok step]
      exact ih ended' (by omega)

end Loop

/-! ## What the stack stands for -/

/-- The tokens of a rule that are no quantifiers. -/
def TokenType.isTerminal : TokenType → Bool
  | or_ | charset | bol | eol | macro_ | openparen | closeparen => true
  | _ => false

/-- The tokens on the stack stand for the text that was read, the nonterminals for the
expressions. -/
inductive Covers : List ReToken → List ReToken → List Regex → Prop where
  | begin_ {t : ReToken} (type : t.type = .begin_) : Covers [t] [] []
  | terminal {t : ReToken} {stack u : List ReToken} {values : List Regex} (below : Covers stack u values)
      (type : t.type.isTerminal = true) : Covers (t :: stack) (u ++ [t]) values
  | quantifier {t s : ReToken} {stack u : List ReToken} {values : List Regex} (below : Covers (s :: stack) u values)
      (typeS : s.type = .repeat_) (type : t.type.isDup = true) : Covers (t :: s :: stack) (u ++ [t]) values
  | nonterminal {t : ReToken} {stack u v : List ReToken} {values : List Regex} {r : Regex} (below : Covers stack u values)
      (derives : Derives t.type v r) : Covers (t :: stack) (u ++ v) (r :: values)
  | dup {t s op : ReToken} {stack u v : List ReToken} {values : List Regex} {r : Regex} (below : Covers stack u values)
      (typeS : s.type = .repeat_) (derives : Derives .repeat_ v r) (typeOp : op.type.isDup = true) (type : t.type = .dup) :
      Covers (t :: s :: stack) (u ++ v ++ [op]) (.dup r op :: values)

theorem Derives.nonterminal {A : TokenType} {v : List ReToken} {r : Regex} (derives : Derives A v r) :
    A ∈ [.regex, .orexp, .sequence, .sub, .expression, .repeat_] := by
  cases derives <;> simp

namespace Covers

variable {t : ReToken} {stack u : List ReToken} {values : List Regex}

/-- There is always something at the bottom. -/
theorem cons (covers : Covers stack u values) : ∃ lhs rest, stack = lhs :: rest := by
  cases covers <;> exact ⟨_, _, rfl⟩

theorem of_begin (covers : Covers (t :: stack) u values) (type : t.type = .begin_) : stack = [] ∧ u = [] ∧ values = [] := by
  cases covers with
  | begin_ _ => exact ⟨rfl, rfl, rfl⟩
  | terminal _ type' => rw [type] at type'; cases type'
  | quantifier _ _ type' => rw [type] at type'; cases type'
  | nonterminal _ derives => rw [type] at derives; cases derives
  | dup _ _ _ _ type' => rw [type] at type'; cases type'

theorem of_terminal (covers : Covers (t :: stack) u values) (type : t.type.isTerminal = true) :
    ∃ v, u = v ++ [t] ∧ Covers stack v values := by
  cases covers with
  | begin_ type' => rw [type'] at type; cases type
  | terminal below _ => exact ⟨_, rfl, below⟩
  | quantifier below _ _ => exact ⟨_, rfl, below⟩
  | nonterminal _ derives =>
      have member := derives.nonterminal
      cases here : t.type <;> rw [here] at type member <;> simp [TokenType.isTerminal] at type member
  | dup _ _ _ _ type' => rw [type'] at type; cases type

theorem of_nonterminal (covers : Covers (t :: stack) u values)
    (type : t.type ∈ [.regex, .orexp, .sequence, .sub, .expression, .repeat_]) :
    ∃ v w r rest, u = v ++ w ∧ values = r :: rest ∧ Covers stack v rest ∧ Derives t.type w r := by
  cases covers with
  | begin_ type' => rw [type'] at type; simp at type
  | terminal _ type' => cases here : t.type <;> rw [here] at type type' <;> simp [TokenType.isTerminal] at type type'
  | quantifier _ _ type' => cases here : t.type <;> rw [here] at type type' <;> simp [TokenType.isDup] at type type'
  | nonterminal below derives => exact ⟨_, _, _, _, rfl, rfl, below, derives⟩
  | dup _ _ _ _ type' => rw [type'] at type; simp at type

end Covers

/-! ## What a reduction leaves -/

section Reduce

variable {setting : Setting} {state state' : RegexParser} {u v w : List ReToken} {values : List Regex} {r : Regex}
  {A rhs : TokenType} {below stack : List ReToken} {t : ReToken}

theorem Reduces.eq (reduces : Reduces setting state A below values) (done : state.reduce = .ok state') :
    state'.tokenStack = symbol A :: below ∧ Tracks setting state' values := by
  obtain ⟨other, reduced, same, tracks⟩ := reduces
  obtain rfl : other = state' := Except.ok.inj (reduced.symm.trans done)
  exact ⟨same, tracks⟩

/-- What is known after a reduction: the stack stands for the text again, or the text is
done, or there was none. -/
inductive After (setting : Setting) (rhs : TokenType) (u : List ReToken) (state' : RegexParser) : Prop where
  | empty (last : rhs = .end_) (stack : state'.tokenStack = []) (nothing : u = []) (tracks : Tracks setting state' [])
  | covers {values : List Regex} (covers : Covers state'.tokenStack u values) (tracks : Tracks setting state' values)
  | done {bottom : ReToken} {r : Regex} (last : rhs = .end_) (stack : state'.tokenStack = [bottom]) (type : bottom.type = .begin_)
      (derives : Derives .regex u r) (tracks : Tracks setting state' [r])

variable (rhs) in
theorem After.nonterminal (reduces : Reduces setting state A below (r :: values)) (done : state.reduce = .ok state')
    (covers : Covers below v values) (derives : Derives A w r) : After setting rhs (v ++ w) state' := by
  obtain ⟨same, tracks⟩ := reduces.eq done
  refine After.covers ?_ tracks
  rw [same]
  exact Covers.nonterminal covers derives

/-- A handle of one token. -/
theorem popHandle_one {lhs : ReToken} {popped : List ReToken × List ReToken}
    (apart : ∀ lhs : TokenType, lhs.precedence t.type ≠ '=') (done : popHandle (t :: lhs :: stack) [] = .ok popped) :
    popped = ([t], lhs :: stack) ∧ lhs.type.precedence t.type = '<' := by
  rcases popHandle_cases done with ⟨equal, -⟩ | ⟨less, rfl⟩
  · exact absurd equal (apart _)
  · exact ⟨rfl, less⟩

theorem Covers.reduce_begin (covers : Covers state.tokenStack u values) (tracks : Tracks setting state values)
    (top : state.tokenStack = t :: stack) (type : t.type = .begin_) (greater : t.type.precedence rhs = '>')
    (done : state.reduce = .ok state') : After setting rhs u state' := by
  rw [top] at covers
  obtain ⟨rfl, rfl, rfl⟩ := covers.of_begin type
  unfold RegexParser.reduce at done
  have popped : popHandle state.tokenStack [] = .ok ([t], []) := by
    rw [top]
    rfl
  rw [bind_of_ok popped] at done
  simp only [type] at done
  obtain rfl := Except.ok.inj done
  rw [type] at greater
  exact After.empty ((by decide : ∀ rhs : TokenType, TokenType.begin_.precedence rhs = '>' → rhs = .end_) _ greater) rfl rfl
    ⟨tracks.numbered, tracks.grown, tracks.spelt, tracks.newline⟩

/-- An operand is reduced to a repetition. -/
theorem Covers.reduce_operand (covers : Covers state.tokenStack u values) (top : state.tokenStack = t :: stack)
    (type : t.type.isTerminal = true) (apart : ∀ lhs : TokenType, lhs.precedence t.type ≠ '=')
    (reduces : ∀ {stack : List ReToken}, popHandle state.tokenStack [] = .ok ([t], stack) →
      Reduces setting state .repeat_ stack (r :: values))
    (derives : Derives .repeat_ [t] r) (done : state.reduce = .ok state') : After setting rhs u state' := by
  rw [top] at covers
  obtain ⟨v, rfl, below⟩ := covers.of_terminal type
  obtain ⟨lhs, rest, rfl⟩ := below.cons
  obtain ⟨⟨handle, stack'⟩, popped, -⟩ := bind_ok done
  rw [top] at popped
  obtain ⟨same, -⟩ := popHandle_one apart popped
  rw [same, ← top] at popped
  exact After.nonterminal rhs (reduces popped) done below derives

/-- A nonterminal is reduced to another one. -/
theorem Covers.reduce_single (covers : Covers state.tokenStack u values) (top : state.tokenStack = t :: stack)
    (type : t.type ∈ [.regex, .orexp, .sequence, .sub, .expression, .repeat_])
    (alone : ∀ {handle below : List ReToken}, popHandle (t :: stack) [] = .ok (handle, below) → handle = [t] ∧ below = stack)
    (reduces : ∀ {stack : List ReToken}, popHandle state.tokenStack [] = .ok ([t], stack) →
      Reduces setting state A stack values)
    (derives : ∀ {w : List ReToken} {r : Regex}, Derives t.type w r → Derives A w r)
    (done : state.reduce = .ok state') : After setting rhs u state' := by
  rw [top] at covers
  obtain ⟨v, w, r, rest, rfl, rfl, below, inner⟩ := covers.of_nonterminal type
  obtain ⟨⟨handle, stack'⟩, popped, -⟩ := bind_ok done
  rw [top] at popped
  obtain ⟨rfl, rfl⟩ := alone popped
  rw [← top] at popped
  exact After.nonterminal rhs (reduces popped) done below (derives inner)

theorem popHandle_alone (apart : ∀ lhs : TokenType, lhs.precedence t.type ≠ '=') {handle : List ReToken}
    (done : popHandle (t :: stack) [] = .ok (handle, below)) : handle = [t] ∧ below = stack := by
  cases stack with
  | nil =>
      obtain ⟨rfl, rfl⟩ := Prod.mk.inj (Except.ok.inj done)
      exact ⟨rfl, rfl⟩
  | cons lhs rest =>
      obtain ⟨same, -⟩ := popHandle_one apart done
      exact Prod.mk.inj same

/-- The last token but one of a handle decides. -/
theorem equal_left {lhs rhs : TokenType} (equal : lhs.precedence rhs = '=') :
    (rhs = .sequence → lhs = .or_) ∧ (rhs = .or_ → lhs = .orexp) ∧ (rhs = .expression → lhs = .sub) ∧
      (rhs = .dup → lhs = .repeat_) ∧ (rhs = .closeparen → lhs = .regex) ∧ (rhs = .regex → lhs = .openparen) ∧
      rhs ∉ [.orexp, .sub, .repeat_, .openparen] := by
  have member := TokenType.precedence_equal equal
  simp only [List.mem_cons, List.not_mem_nil, or_false, Prod.mk.injEq] at member
  rcases member with ⟨rfl, rfl⟩ | ⟨rfl, rfl⟩ | ⟨rfl, rfl⟩ | ⟨rfl, rfl⟩ | ⟨rfl, rfl⟩ | ⟨rfl, rfl⟩ <;> simp

theorem Covers.reduce_sequence (covers : Covers state.tokenStack u values) (tracks : Tracks setting state values)
    (top : state.tokenStack = t :: stack) (type : t.type = .sequence) (done : state.reduce = .ok state') :
    After setting rhs u state' := by
  rw [top] at covers
  obtain ⟨v, w, s, rest, rfl, rfl, coversO, derivesR⟩ := covers.of_nonterminal (by simp [type])
  rw [type] at derivesR
  obtain ⟨o, stackO, rfl⟩ := coversO.cons
  obtain ⟨⟨handle, below⟩, popped, -⟩ := bind_ok done
  have whole := popped
  rw [top] at popped
  rcases popHandle_cases popped with ⟨equal, popped⟩ | ⟨-, same⟩
  · have typeO := (equal_left equal).1 type
    obtain ⟨v', rfl, coversL⟩ := coversO.of_terminal (by rw [typeO]; rfl)
    obtain ⟨l, stackL, rfl⟩ := coversL.cons
    rcases popHandle_cases popped with ⟨equal, popped⟩ | ⟨less, -⟩
    · have typeL := (equal_left equal).2.1 typeO
      obtain ⟨v, w', r, values, rfl, rfl, coversB, derivesL⟩ := coversL.of_nonterminal (by simp [typeL])
      rw [typeL] at derivesL
      obtain ⟨b, stackB, rfl⟩ := coversB.cons
      rcases popHandle_cases popped with ⟨equal, -⟩ | ⟨-, same⟩
      · exact absurd (by simp [typeL]) (equal_left equal).2.2.2.2.2.2
      · rw [same] at whole
        have after := After.nonterminal rhs (reduce_or tracks typeL typeO type whole) done coversB
          (Derives.or_ derivesL typeO derivesR)
        simpa using after
    · rw [typeO] at less
      exact absurd less ((by decide : ∀ lhs : TokenType, lhs.precedence .or_ ≠ '<') _)
  · rw [same] at whole
    exact After.nonterminal rhs (reduce_orexp tracks type whole) done coversO (Derives.orexp derivesR)

theorem Covers.reduce_expression (covers : Covers state.tokenStack u values) (tracks : Tracks setting state values)
    (top : state.tokenStack = t :: stack) (type : t.type = .expression) (done : state.reduce = .ok state') :
    After setting rhs u state' := by
  rw [top] at covers
  obtain ⟨v, w, s, rest, rfl, rfl, coversL, derivesR⟩ := covers.of_nonterminal (by simp [type])
  rw [type] at derivesR
  obtain ⟨l, stackL, rfl⟩ := coversL.cons
  obtain ⟨⟨handle, below⟩, popped, -⟩ := bind_ok done
  have whole := popped
  rw [top] at popped
  rcases popHandle_cases popped with ⟨equal, popped⟩ | ⟨-, same⟩
  · have typeL := (equal_left equal).2.2.1 type
    obtain ⟨v, w', r, values, rfl, rfl, coversB, derivesL⟩ := coversL.of_nonterminal (by simp [typeL])
    rw [typeL] at derivesL
    obtain ⟨b, stackB, rfl⟩ := coversB.cons
    rcases popHandle_cases popped with ⟨equal, -⟩ | ⟨-, same⟩
    · exact absurd (by simp [typeL]) (equal_left equal).2.2.2.2.2.2
    · rw [same] at whole
      have after := After.nonterminal rhs (reduce_join tracks typeL type whole) done coversB (Derives.join derivesL derivesR)
      simpa using after
  · rw [same] at whole
    exact After.nonterminal rhs (reduce_sub tracks type whole) done coversL (Derives.sub derivesR)

/-- A text of parentheses has as many of the one kind as of the other. -/
def opens (u : List ReToken) : Nat := u.countP fun t => t.type = .openparen

def closes (u : List ReToken) : Nat := u.countP fun t => t.type = .closeparen

@[simp] theorem opens_append (u v : List ReToken) : opens (u ++ v) = opens u + opens v := List.countP_append

@[simp] theorem closes_append (u v : List ReToken) : closes (u ++ v) = closes u + closes v := List.countP_append

@[simp] theorem opens_cons (t : ReToken) (u : List ReToken) :
    opens (t :: u) = opens u + if t.type = .openparen then 1 else 0 := by
  simp [opens, List.countP_cons]

@[simp] theorem closes_cons (t : ReToken) (u : List ReToken) :
    closes (t :: u) = closes u + if t.type = .closeparen then 1 else 0 := by
  simp [closes, List.countP_cons]

@[simp] theorem opens_nil : opens [] = 0 := rfl

@[simp] theorem closes_nil : closes [] = 0 := rfl

theorem Derives.balanced (derives : Derives A u r) : opens u = closes u := by
  induction derives with
  | regex _ ih => exact ih
  | orexp _ ih => exact ih
  | or_ _ type _ ihl ihr => simp [type, ihl, ihr]
  | sequence _ ih => exact ih
  | sub _ ih => exact ih
  | join _ _ ihl ihr => simp [ihl, ihr]
  | expression _ ih => exact ih
  | charset type => simp [type]
  | bol type => simp [type]
  | eol type => simp [type]
  | paren open_ _ close ih => simp [open_, close, ih]
  | dup _ type ih =>
      rename_i op _
      cases here : op.type <;> rw [here] at type <;> simp [TokenType.isDup] at type <;> simp [here, ih]

theorem Covers.reduce_closeparen (covers : Covers state.tokenStack u values) (tracks : Tracks setting state values)
    (balanced : closes u ≤ opens u) (top : state.tokenStack = t :: stack) (type : t.type = .closeparen)
    (done : state.reduce = .ok state') : After setting rhs u state' := by
  rw [top] at covers
  obtain ⟨v, rfl, coversR⟩ := covers.of_terminal (by rw [type]; rfl)
  obtain ⟨g, stackG, rfl⟩ := coversR.cons
  obtain ⟨⟨handle, below⟩, popped, -⟩ := bind_ok done
  have whole := popped
  rw [top] at popped
  rcases popHandle_cases popped with ⟨equal, popped⟩ | ⟨less, -⟩
  · have typeR := (equal_left equal).2.2.2.2.1 type
    obtain ⟨v, w, r, rest, rfl, rfl, coversO, derives⟩ := coversR.of_nonterminal (by simp [typeR])
    rw [typeR] at derives
    obtain ⟨o, stackO, rfl⟩ := coversO.cons
    rcases popHandle_cases popped with ⟨equal, popped⟩ | ⟨less, -⟩
    · have typeO := (equal_left equal).2.2.2.2.2.1 typeR
      obtain ⟨v, rfl, coversB⟩ := coversO.of_terminal (by rw [typeO]; rfl)
      obtain ⟨b, stackB, rfl⟩ := coversB.cons
      rcases popHandle_cases popped with ⟨equal, -⟩ | ⟨-, same⟩
      · exact absurd (by simp [typeO]) (equal_left equal).2.2.2.2.2.2
      · rw [same] at whole
        have after := After.nonterminal rhs (reduce_paren tracks typeO typeR type whole) done coversB
          (Derives.paren typeO derives type)
        simpa using after
    · -- only the bottom stands in front of an expression without a parenthesis
      rw [typeR] at less
      have typeB := (by decide : ∀ lhs : TokenType, lhs.precedence .regex = '<' → lhs = .begin_) _ less
      obtain ⟨-, rfl, -⟩ := coversO.of_begin typeB
      have same := derives.balanced
      simp [type, same] at balanced
  · rw [type] at less
    exact absurd less ((by decide : ∀ lhs : TokenType, lhs.precedence .closeparen ≠ '<') _)

theorem Covers.reduce_regex (covers : Covers state.tokenStack u values) (tracks : Tracks setting state values)
    (top : state.tokenStack = t :: stack) (type : t.type = .regex) (greater : t.type.precedence rhs = '>')
    (done : state.reduce = .ok state') : After setting rhs u state' := by
  rw [top] at covers
  obtain ⟨v, w, r, rest, rfl, rfl, coversB, derives⟩ := covers.of_nonterminal (by simp [type])
  rw [type] at derives
  obtain ⟨b, stackB, rfl⟩ := coversB.cons
  obtain ⟨⟨handle, below⟩, popped, reduced⟩ := bind_ok done
  rw [top] at popped
  rcases popHandle_cases popped with ⟨equal, popped⟩ | ⟨less, same⟩
  · have typeB := (equal_left equal).2.2.2.2.2.1 type
    -- an open parenthesis without its partner is no handle
    have two : handle = [b, t] := by
      obtain ⟨v, rfl, coversC⟩ := coversB.of_terminal (by rw [typeB]; rfl)
      obtain ⟨c, stackC, rfl⟩ := coversC.cons
      rcases popHandle_cases popped with ⟨equal, -⟩ | ⟨-, same⟩
      · exact absurd (by simp [typeB]) (equal_left equal).2.2.2.2.2.2
      · exact (Prod.mk.inj same).1
    rw [two] at reduced
    simp only [typeB, RegexParser.openparen] at reduced
    cases reduced
  · obtain ⟨rfl, rfl⟩ := Prod.mk.inj same
    rw [type] at less
    have typeB := (by decide : ∀ lhs : TokenType, lhs.precedence .regex = '<' → lhs = .begin_) _ less
    obtain ⟨rfl, rfl, rfl⟩ := coversB.of_begin typeB
    simp only [type] at reduced
    obtain rfl := Except.ok.inj reduced
    rw [type] at greater
    exact After.done ((by decide : ∀ rhs : TokenType, TokenType.regex.precedence rhs = '>' → rhs = .end_) _ greater) rfl typeB
      derives ⟨tracks.numbered, tracks.grown, tracks.spelt, tracks.newline⟩

/-- A quantifier on a repetition. -/
theorem reduce_quantifier {s : ReToken} (coversS : Covers (s :: stack) v values) (typeS : s.type = .repeat_)
    (tracks : Tracks setting state values) (top : state.tokenStack = t :: s :: stack) (type : t.type.isDup = true)
    (allowed : setting.Allows t) (done : state.reduce = .ok state') : After setting rhs (v ++ [t]) state' := by
  obtain ⟨v, w, r, rest, rfl, rfl, coversB, derives⟩ := coversS.of_nonterminal (by simp [typeS])
  rw [typeS] at derives
  obtain ⟨⟨handle, below⟩, popped, -⟩ := bind_ok done
  have whole := popped
  rw [top] at popped
  have apart := (by decide +kernel : ∀ t : TokenType, t.isDup = true → ∀ lhs : TokenType, lhs.precedence t ≠ '=') _ type
  obtain ⟨same, -⟩ := popHandle_one apart popped
  rw [same] at whole
  obtain ⟨stack', tracks'⟩ := (reduce_dup tracks type allowed whole).eq done
  refine After.covers ?_ tracks'
  rw [stack']
  exact Covers.dup coversB typeS derives type rfl

theorem Covers.reduce_dup (covers : Covers state.tokenStack u values) (tracks : Tracks setting state values)
    (top : state.tokenStack = t :: stack) (type : t.type = .dup) (done : state.reduce = .ok state') :
    After setting rhs u state' := by
  obtain ⟨⟨handle, below⟩, popped, -⟩ := bind_ok done
  have whole := popped
  rw [top] at popped
  rw [top] at covers
  cases covers with
  | begin_ type' => rw [type] at type'; cases type'
  | terminal _ type' => rw [type] at type'; cases type'
  | quantifier _ _ type' => rw [type] at type'; cases type'
  | nonterminal _ derives => rw [type] at derives; cases derives
  | dup coversB typeS derives typeOp _ =>
      rename_i s op _ _ _ _ _
      obtain ⟨b, stackB, rfl⟩ := coversB.cons
      rcases popHandle_cases popped with ⟨equal, popped⟩ | ⟨less, -⟩
      · rcases popHandle_cases popped with ⟨equal, -⟩ | ⟨-, same⟩
        · exact absurd (by simp [typeS]) (equal_left equal).2.2.2.2.2.2
        · rw [same] at whole
          have after := After.nonterminal rhs (reduce_repeat tracks typeS type whole) done coversB (Derives.dup derives typeOp)
          simpa using after
      · rw [type] at less
        exact absurd less ((by decide : ∀ lhs : TokenType, lhs.precedence .dup ≠ '<') _)

/-- **A reduction leaves the text that was read on the stack.** -/
theorem Covers.reduce (covers : Covers state.tokenStack u values) (tracks : Tracks setting state values)
    (allowed : ∀ t ∈ u, setting.Allows t) (balanced : closes u ≤ opens u) (top : state.tokenStack = t :: stack)
    (done : state.reduce = .ok state') (greater : t.type.precedence rhs = '>') :
    After setting rhs u state' := by
  have read : t.type.isTerminal = true → t ∈ u := by
    intro type
    rw [top] at covers
    obtain ⟨v, rfl, -⟩ := covers.of_terminal type
    simp
  cases type : t.type with
  | begin_ => exact covers.reduce_begin tracks top type greater done
  | regex => exact covers.reduce_regex tracks top type greater done
  | sequence => exact covers.reduce_sequence tracks top type done
  | expression => exact covers.reduce_expression tracks top type done
  | dup => exact covers.reduce_dup tracks top type done
  | closeparen => exact covers.reduce_closeparen tracks balanced top type done
  | orexp =>
      refine covers.reduce_single top (by simp [type]) (popHandle_alone (by rw [type]; decide))
        (fun popped => Orchid.reduce_regex tracks type popped) (fun derives => ?_) done
      rw [type] at derives
      exact Derives.regex derives
  | sub =>
      refine covers.reduce_single top (by simp [type]) (popHandle_alone (by rw [type]; decide))
        (fun popped => Orchid.reduce_sequence tracks type popped) (fun derives => ?_) done
      rw [type] at derives
      exact Derives.sequence derives
  | repeat_ =>
      refine covers.reduce_single top (by simp [type]) (popHandle_alone (by rw [type]; decide))
        (fun popped => Orchid.reduce_expression tracks type popped) (fun derives => ?_) done
      rw [type] at derives
      exact Derives.expression derives
  | charset =>
      exact covers.reduce_operand top (by rw [type]; rfl) (by rw [type]; decide)
        (fun popped => reduce_charset tracks type (allowed t (read (by rw [type]; rfl))) popped) (Derives.charset type) done
  | bol =>
      exact covers.reduce_operand top (by rw [type]; rfl) (by rw [type]; decide)
        (fun popped => reduce_bol tracks type popped) (Derives.bol type) done
  | eol =>
      exact covers.reduce_operand top (by rw [type]; rfl) (by rw [type]; decide)
        (fun popped => reduce_eol tracks type (allowed t (read (by rw [type]; rfl))) popped) (Derives.eol type) done
  | opt | aopt | zeroOrMore | azeroOrMore | oneOrMore | aoneOrMore | repeatn | arepeatn =>
      have isDup : t.type.isDup = true := by
        rw [type]
        rfl
      rw [top] at covers
      cases covers with
      | begin_ type' => rw [type] at type'; cases type'
      | terminal _ type' => rw [type] at type'; cases type'
      | quantifier below typeS _ => exact reduce_quantifier below typeS tracks top isDup (allowed t (by simp)) done
      | nonterminal _ derives => rw [type] at derives; cases derives
      | dup _ _ _ _ type' => rw [type] at type'; cases type'
  | or_ =>
      rw [type] at greater
      exact absurd greater ((by decide : ∀ rhs : TokenType, TokenType.or_.precedence rhs ≠ '>') _)
  | openparen =>
      rw [type] at greater
      exact absurd greater ((by decide : ∀ rhs : TokenType, TokenType.openparen.precedence rhs ≠ '>') _)
  | end_ =>
      rw [type] at greater
      exact absurd greater ((by decide : ∀ rhs : TokenType, TokenType.end_.precedence rhs ≠ '>') _)
  | diff =>
      rw [type] at greater
      exact absurd greater ((by decide : ∀ rhs : TokenType, TokenType.diff.precedence rhs ≠ '>') _)
  | macro_ =>
      obtain ⟨⟨handle, below⟩, popped, reduced⟩ := bind_ok done
      rw [top] at popped
      obtain ⟨rfl, rfl⟩ := popHandle_alone (by rw [type]; decide) popped
      simp only [type] at reduced
      cases reduced

end Reduce

/-! ## The whole loop -/

/-- The tokens of a rule between the first and the last one. -/
structure Body (setting : Setting) (body : List ReToken) : Prop where
  input : ∀ t ∈ body, t.type.isTerminal = true ∨ t.type.isDup = true
  allowed : ∀ t ∈ body, setting.Allows t
  balanced : ∀ u v, body = u ++ v → closes u ≤ opens u

/-- A quantifier is on top that goes on another quantifier. -/
def Stuck (stack : List ReToken) : Prop :=
  ∃ t op rest, stack = t :: op :: rest ∧ op.type.isDup = true ∧ (t.type = .opt ∨ t.type = .dup)

/-- A quantifier is on top. -/
def Busy (stack : List ReToken) : Prop := ∃ t rest, stack = t :: rest ∧ (t.type.isDup = true ∨ t.type = .dup)

/-- What the loop ends with. -/
def RuleParsed (setting : Setting) (body : List ReToken) (state : RegexParser) : Prop :=
  body = [] ∧ Tracks setting state [] ∨ ∃ r, Derives .regex body r ∧ Single body ∧ Tracks setting state [r]

inductive Sound (setting : Setting) (body pending : List ReToken) (state : RegexParser) : Prop where
  | reading {u : List ReToken} {values : List Regex} (read : body = u ++ pending) (covers : Covers state.tokenStack u values)
      (tracks : Tracks setting state values) (single : Single u)
      (next : Busy state.tokenStack ∨ Single (u ++ pending.take 1))
  | stuck (stuck : Stuck state.tokenStack)
  | finished {bottom : ReToken} (read : pending = []) (stack : state.tokenStack = [bottom]) (type : bottom.type = .begin_)
      (parsed : RuleParsed setting body state)
  | ended (stack : state.tokenStack = []) (parsed : RuleParsed setting body state)

theorem Single.snoc {u : List ReToken} {t : ReToken} (single : Single u) (alone : t.type.isDup = false) :
    Single (u ++ [t]) := by
  refine List.IsChain.append single (List.isChain_singleton t) fun a _ b member => ?_
  obtain rfl : t = b := by simpa using member
  simp [alone]

section Loop

variable {setting : Setting} {id : Uint} {body pending : List ReToken} {last rhs lhs : ReToken} {state state' : RegexParser}
  {stack u : List ReToken} {values : List Regex}

theorem Stuck.step (stuck : Stuck state.tokenStack) {input input' : List ReToken}
    (done : parseStep id input state = .ok (input', state')) : Stuck state'.tokenStack := by
  obtain ⟨t, op, rest, same, dup, top⟩ := stuck
  obtain ⟨lhs, rhs, stack, rest', top', rfl, ⟨opens, -, rfl⟩ | ⟨greater, -, reduced⟩⟩ := parseStep_cases done
  · obtain ⟨rfl, rfl⟩ := List.cons.inj (same.symm.trans top')
    rcases top with type | type
    · rw [type] at opens
      have typeR := (by decide : ∀ rhs : TokenType, TokenType.opt.Opens rhs → rhs = .opt) _ opens
      exact ⟨rhs, t, _, rfl, by rw [type]; rfl, Or.inl typeR⟩
    · rw [type] at opens
      exact absurd opens ((by decide : ∀ rhs : TokenType, ¬ TokenType.dup.Opens rhs) _)
  · obtain ⟨⟨handle, below⟩, popped, -⟩ := bind_ok reduced
    have whole := popped
    rw [same] at popped
    rcases top with type | type
    · obtain ⟨one, -⟩ := popHandle_one (by rw [type]; decide) popped
      rw [one] at whole
      have isDup : t.type.isDup = true := by
        rw [type]
        rfl
      rw [reduce_eq_quantifier isDup whole] at reduced
      exact ⟨symbol .dup, op, rest, RegexParser.quantifier_stack reduced, dup, Or.inr rfl⟩
    · rcases popHandle_cases popped with ⟨equal, -⟩ | ⟨less, -⟩
      · have typeOp := (equal_left equal).2.2.2.1 type
        rw [typeOp] at dup
        cases dup
      · rw [type] at less
        exact absurd less ((by decide : ∀ lhs : TokenType, lhs.precedence .dup ≠ '<') _)

/-- What may be shifted onto what. -/
theorem opens_dup : ∀ lhs rhs : TokenType, lhs.Opens rhs → rhs.isDup = true →
    lhs = .repeat_ ∨ lhs.isDup = true ∧ rhs = .opt := by
  decide +kernel

theorem opens_terminal : ∀ lhs rhs : TokenType, lhs.Opens rhs → rhs.isTerminal = true → lhs.isDup = false ∧ lhs ≠ .dup := by
  decide +kernel

theorem isTerminal_not_isDup : ∀ t : TokenType, t.isTerminal = true → t.isDup = false := by
  decide

/-- A token is shifted onto the stack. -/
theorem Sound.shift (known : Body setting body) (read : body = u ++ rhs :: pending) (covers : Covers (lhs :: stack) u values)
    (next : Busy (lhs :: stack) ∨ Single (u ++ [rhs])) (opens : lhs.type.Opens rhs.type)
    (same : state'.tokenStack = rhs :: lhs :: stack) (tracks' : Tracks setting state' values) :
    Sound setting body pending state' := by
  have member : rhs ∈ body := by simp [read]
  have read' : body = u ++ [rhs] ++ pending := by simp [read]
  have idle : lhs.type.isDup = false → lhs.type ≠ .dup → Single (u ++ [rhs]) := by
    intro notDup notDUP
    refine next.resolve_left ?_
    rintro ⟨t, rest, top, busy⟩
    obtain ⟨rfl, -⟩ := List.cons.inj top
    rcases busy with type | type
    · rw [notDup] at type
      cases type
    · exact notDUP type
  rcases known.input rhs member with type | type
  · obtain ⟨notDup, notDUP⟩ := opens_terminal _ _ opens type
    have single := idle notDup notDUP
    refine Sound.reading read' ?_ tracks' single (Or.inr ?_)
    · rw [same]
      exact covers.terminal type
    · cases pending with
      | nil => simpa using single
      | cons t rest =>
          refine List.IsChain.append single (List.isChain_singleton t) fun a here b _ => ?_
          obtain rfl : rhs = a := by simpa using here
          simp [isTerminal_not_isDup _ type]
  · rcases opens_dup _ _ opens type with typeL | ⟨typeL, typeR⟩
    · have single := idle (by rw [typeL]; rfl) (by rw [typeL]; decide)
      refine Sound.reading read' ?_ tracks' single (Or.inl ⟨rhs, _, same, Or.inl type⟩)
      rw [same]
      exact covers.quantifier typeL type
    · exact Sound.stuck ⟨rhs, lhs, stack, same, typeL, Or.inl typeR⟩

/-- Behind a reduced quantifier there is no other one. -/
theorem reduced_alone : ∀ lhs rhs : TokenType, lhs.isDup = true ∨ lhs = .dup → lhs.precedence rhs = '>' → rhs.isDup = false := by
  decide +kernel

/-- **Every round keeps what is known of the stack.** -/
theorem Sound.step (known : Body setting body) (type : last.type = .end_) (sound : Sound setting body pending state)
    {input' : List ReToken} (done : parseStep id (pending ++ [last]) state = .ok (input', state')) :
    ∃ pending', input' = pending' ++ [last] ∧ Sound setting body pending' state' := by
  obtain ⟨lhs, rhs, stack, rest, top, input, round⟩ := parseStep_cases done
  have shifts : lhs.type.Opens rhs.type → ∃ pending', pending = rhs :: pending' ∧ rest = pending' ++ [last] := by
    intro opens
    cases pending with
    | nil =>
        obtain ⟨rfl, -⟩ := List.cons.inj input
        rw [type] at opens
        exact absurd opens (not_opens_end _)
    | cons t pending' =>
        obtain ⟨rfl, rfl⟩ := List.cons.inj input
        exact ⟨pending', rfl, rfl⟩
  have ends : rhs.type = .end_ → ∀ u, body = u ++ pending → pending = [] := by
    intro typeR u read
    cases pending with
    | nil => rfl
    | cons t pending' =>
        obtain ⟨rfl, -⟩ := List.cons.inj input
        rcases known.input t (by simp [read]) with here | here <;> rw [typeR] at here <;> cases here
  cases sound with
  | reading read covers tracks single next =>
      rcases round with ⟨opens, same, rfl⟩ | ⟨greater, same, reduced⟩
      · obtain ⟨pending', rfl, rfl⟩ := shifts opens
        rw [top] at covers next
        refine ⟨pending', ?_, Sound.shift known read covers next opens rfl
          ⟨tracks.numbered, tracks.grown, tracks.spelt, tracks.newline⟩⟩
        rw [same, List.cons_append, advance_append]
      · have balanced := known.balanced _ _ read
        have after := covers.reduce tracks (fun t member => known.allowed t (by simp [read, member])) balanced top reduced greater
        refine ⟨pending, same, ?_⟩
        cases after with
        | empty typeR stack nothing tracks' =>
            obtain rfl := ends typeR _ read
            exact Sound.ended stack (Or.inl ⟨by simpa [nothing] using read, tracks'⟩)
        | done typeR stack typeB derives tracks' =>
            obtain rfl := ends typeR _ read
            obtain rfl : body = _ := by simpa using read
            exact Sound.finished rfl stack typeB (Or.inr ⟨_, derives, single, tracks'⟩)
        | covers covers' tracks' =>
            refine Sound.reading read covers' tracks' single (Or.inr ?_)
            rcases next with ⟨t, rest', top', busy⟩ | next
            · obtain ⟨rfl, -⟩ := List.cons.inj (top.symm.trans top')
              have alone := reduced_alone _ _ busy greater
              cases pending with
              | nil => simpa using single
              | cons first pending' =>
                  obtain ⟨rfl, -⟩ := List.cons.inj input
                  exact single.snoc alone
            · exact next
  | stuck stuck =>
      have stuck' := stuck.step done
      rcases round with ⟨opens, same, -⟩ | ⟨-, same, -⟩
      · obtain ⟨pending', rfl, rfl⟩ := shifts opens
        refine ⟨pending', ?_, Sound.stuck stuck'⟩
        rw [same, List.cons_append, advance_append]
      · exact ⟨pending, same, Sound.stuck stuck'⟩
  | finished read stack_ typeB parsed =>
      obtain ⟨rfl, rfl⟩ := List.cons.inj (stack_.symm.trans top)
      subst read
      obtain ⟨rfl, -⟩ := List.cons.inj input
      rcases round with ⟨opens, -, -⟩ | ⟨greater, same, reduced⟩
      · rw [type] at opens
        exact absurd opens (not_opens_end _)
      · refine ⟨[], same, ?_⟩
        obtain ⟨⟨handle, below⟩, popped, reduced⟩ := bind_ok reduced
        rw [top] at popped
        obtain ⟨rfl, rfl⟩ := Prod.mk.inj (Except.ok.inj popped)
        simp only [typeB] at reduced
        obtain rfl := Except.ok.inj reduced
        refine Sound.ended rfl ?_
        rcases parsed with ⟨empty, tracks⟩ | ⟨r, derives, single, tracks⟩
        · exact Or.inl ⟨empty, tracks.numbered, tracks.grown, tracks.spelt, tracks.newline⟩
        · exact Or.inr ⟨r, derives, single, tracks.numbered, tracks.grown, tracks.spelt, tracks.newline⟩
  | ended stack_ parsed =>
      rw [stack_] at top
      cases top

theorem Sound.of_empty (sound : Sound setting body pending state) (empty : state.tokenStack = []) :
    RuleParsed setting body state := by
  cases sound with
  | reading _ covers =>
      obtain ⟨lhs, rest, top⟩ := covers.cons
      rw [empty] at top
      cases top
  | stuck stuck =>
      obtain ⟨t, op, rest, top, -⟩ := stuck
      rw [empty] at top
      cases top
  | finished _ stack =>
      rw [empty] at stack
      cases stack
  | ended _ parsed => exact parsed

/-- What the loop ends with has a derivation. -/
theorem Sound.parseLoop (known : Body setting body) (type : last.type = .end_) {rounds : Nat} : ∀ {pending : List ReToken}
    {state : RegexParser}, Sound setting body pending state →
      parseLoop id rounds (pending ++ [last]) state = .ok state' → RuleParsed setting body state' := by
  induction rounds with
  | zero =>
      intro pending state sound done
      unfold Orchid.parseLoop at done
      split at done
      · next empty =>
        obtain rfl := Except.ok.inj done
        exact sound.of_empty (List.isEmpty_iff.1 empty)
      · cases done
  | succ rounds ih =>
      intro pending state sound done
      unfold Orchid.parseLoop at done
      split at done
      · next empty =>
        obtain rfl := Except.ok.inj done
        exact sound.of_empty (List.isEmpty_iff.1 empty)
      · obtain ⟨⟨input', middle⟩, stepped, done⟩ := bind_ok done
        obtain ⟨pending', rfl, sound'⟩ := sound.step known type stepped
        exact ih sound' done

end Loop

/-! ## What is parsed -/

section Whole

variable {setting : Setting} {id : Uint} {body : List ReToken} {first last : ReToken} {trees : Trees} {map : CharsetMap}
  {nlId : Option Nat}

/-- The stacks before the first round. -/
def opened (first : ReToken) (trees : Trees) (map : CharsetMap) (nlId : Option Nat) : RegexParser := ⟨[first], trees, map, nlId⟩

/-- What is accepted has a derivation, and no quantifier in it stands behind another. -/
theorem parseLoop_sound (known : Body setting body) (typeF : first.type = .begin_) (typeL : last.type = .end_)
    (tracks : Tracks setting (opened first trees map nlId) []) {rounds : Nat} {state' : RegexParser}
    (done : parseLoop id rounds (body ++ [last]) (opened first trees map nlId) = .ok state') : RuleParsed setting body state' :=
  Sound.parseLoop known typeL
    (Sound.reading rfl (Covers.begin_ typeF) tracks List.isChain_nil (Or.inr (by
      cases body with
      | nil => exact List.isChain_nil
      | cons t rest => exact List.isChain_singleton t))) done

/-- And whatever has such a derivation is accepted, with enough rounds. -/
theorem parseLoop_complete {r : Regex} (derives : Derives .regex body r) (single : Single body)
    (allowed : ∀ t ∈ body, setting.Allows t) (typeF : first.type = .begin_) (typeL : last.type = .end_)
    (tracks : Tracks setting (opened first trees map nlId) []) {rounds : Nat}
    (enough : 8 * (body.length + 2) ≤ rounds) : ∃ state', parseLoop id rounds (body ++ [last]) (opened first trees map nlId) =
      .ok state' ∧ Tracks setting state' [r] := by
  have opens : first.type.Opens .regex := by
    rw [typeF]
    decide
  have follows : TokenType.regex.Follows last.type := by
    rw [typeL]
    exact Or.inr rfl
  have runs : Runs setting id .regex body r := derives.runs
  obtain ⟨state1, rounds1, top1, tracks1⟩ := runs [] (opened first trees map nlId) opens follows
    (single.snoc (by rw [typeL]; rfl)) allowed rfl tracks
  -- the expression and the first token are taken off at the end
  have less : first.type.precedence (symbol .regex).type = '<' := by
    rw [typeF]
    decide
  have popped : popHandle state1.tokenStack [] = .ok ([symbol .regex], [first]) := by
    rw [top1]
    exact popHandle_less less [] []
  have reduced : state1.reduce = .ok { state1 with tokenStack := [first] } := by
    unfold RegexParser.reduce
    rw [bind_of_ok popped]
    rfl
  have greater : (symbol .regex).type.precedence last.type = '>' := by
    rw [typeL]
    decide
  have rounds2 : Rounds id ([last], state1) ([last], { state1 with tokenStack := [first] }) :=
    Relation.ReflTransGen.single (parseStep_reduce top1 greater reduced)
  have popped3 : popHandle [first] [] = .ok ([first], []) := rfl
  have reduced3 : ({ state1 with tokenStack := [first] } : RegexParser).reduce = .ok { state1 with tokenStack := [] } := by
    unfold RegexParser.reduce
    rw [bind_of_ok popped3]
    simp only [typeF]
    rfl
  have greater3 : first.type.precedence last.type = '>' := by
    rw [typeF, typeL]
    decide
  have rounds3 : Rounds id ([last], { state1 with tokenStack := [first] }) ([last], { state1 with tokenStack := [] }) :=
    Relation.ReflTransGen.single (parseStep_reduce rfl greater3 reduced3)
  refine ⟨{ state1 with tokenStack := [] }, ?_, tracks1.numbered, tracks1.grown, tracks1.spelt, tracks1.newline⟩
  apply Rounds.parseLoop (rounds1.trans (rounds2.trans rounds3)) rfl ⟨body, last, rfl, typeL⟩
  have light := first.type.weight_le
  unfold roundWeight opened
  simp only [List.length_append, List.length_singleton, stackWeight_cons, stackWeight_nil]
  omega

end Whole

end Orchid
