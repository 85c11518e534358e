/-
# Loader.Lexer -- the tokens of a configuration file

The scanner that flex generates from `sig.l` has one start condition and seven rules;
at every position the longest match wins, of equally long ones the rule that stands
first.  `yytext` is a C string: what an action does with it ends at a zero byte.

A word is a symbol or a keyword if no `;` sticks to it, otherwise a value, whose last
`;` is given back.  `yylex` lists the tokens of the whole text (`yylex_cons`).
-/
import Orchid.Machine
import Orchid.Theory.MaximalMunch
import Mathlib.Data.List.TakeWhile

namespace Orchid

open Orchid.Theory

set_option autoImplicit false

inductive Token where
  | symbol (ptr : CStr)
  | value (ptr : CStr)
  | comma
  | lbranch
  | rbranch
  | application
  | signature
  deriving DecidableEq, Repr

/-! ## Rules -/

/-- The rules of `sig.l`. -/
inductive LexRule where
  | whitespace
  | comma
  | comment
  | symbols
  | lbranch
  | values
  | rbranch
  deriving DecidableEq, Repr

/-- In the order of the file. -/
def lexRules : List LexRule :=
  [.whitespace, .comma, .comment, .symbols, .lbranch, .values, .rbranch]

/-- `[ \t\n\r]` -/
def isWhitespace (c : UInt8) : Bool := c = 32 ∨ c = 9 ∨ c = 10 ∨ c = 13

/-- `[^ \n\t\{\};]` -/
def isSymbolChar (c : UInt8) : Bool :=
  ¬ (c = 32 ∨ c = 10 ∨ c = 9 ∨ c = 123 ∨ c = 125 ∨ c = 59)

/-- `[^ \r\n\t\{\}]` -/
def isValueChar (c : UInt8) : Bool :=
  ¬ (c = 32 ∨ c = 13 ∨ c = 10 ∨ c = 9 ∨ c = 123 ∨ c = 125)

/-- The length of `#.*\n`, zero if the line has no end. -/
def commentLength (text : CStr) : Nat :=
  if text.head? = some 35 ∧ 10 ∈ text then (text.takeWhile (· != 10)).length + 1 else 0

/-- The longest match of a rule at the front of the text. -/
def matchLength (text : CStr) : LexRule → Nat
  | .whitespace => (text.takeWhile isWhitespace).length
  | .comma => if text.head? = some 59 then 1 else 0
  | .comment => commentLength text
  | .symbols => (text.takeWhile isSymbolChar).length
  | .lbranch => if text.head? = some 123 then 1 else 0
  | .values => (text.takeWhile isValueChar).length
  | .rbranch => if text.head? = some 125 then 1 else 0

/-! ## Actions -/

/-- The bytes of a buffer up to its first zero byte. -/
def cText (text : CStr) : CStr := text.takeWhile (· != 0)

/-- `tolower` in the C locale. -/
def tolower (c : UInt8) : UInt8 := if 65 ≤ c ∧ c ≤ 90 then c + 32 else c

/-- `strcasecmp(s, t) == 0` for C strings. -/
def strcasecmpEq (s t : CStr) : Prop := s.map tolower = t.map tolower

instance (s t : CStr) : Decidable (strcasecmpEq s t) := inferInstanceAs (Decidable (_ = _))

def symbolToken (yytext : CStr) : Token :=
  if strcasecmpEq (cText yytext) (cstr "application") then .application
  else if strcasecmpEq (cText yytext) (cstr "sign") then .signature
  else .symbol (cText yytext)

/-- `yyleng` after the action of the value rule: a last `;` is given back. -/
def valueLength (yytext : CStr) : Nat :=
  if yytext.getLast? = some 59 then yytext.length - 1 else yytext.length

/-- The token of a rule and what is left of `yyleng`. -/
def lexAction (yytext : CStr) : LexRule → Option Token × Nat
  | .whitespace => (none, yytext.length)
  | .comma => (some .comma, yytext.length)
  | .comment => (none, yytext.length)
  | .symbols => (some (symbolToken yytext), yytext.length)
  | .lbranch => (some .lbranch, yytext.length)
  | .values => (some (.value (cText (yytext.take (valueLength yytext)))), valueLength yytext)
  | .rbranch => (some .rbranch, yytext.length)

/-- One round of the scanner; where no rule matches it echoes a byte. -/
def lexNext (text : CStr) : Option Token × CStr :=
  match longest? (matchLength text) lexRules with
  | none => (none, text.drop 1)
  | some rule =>
      let (token, yyleng) := lexAction (text.take (matchLength text rule)) rule
      (token, text.drop yyleng)

/-- The tokens of a text, up to its end. -/
def yylex (text : CStr) : List Token := scanAll lexNext text

/-! ## Progress -/

theorem matchLength_le (text : CStr) (rule : LexRule) : matchLength text rule ≤ text.length := by
  have run : ∀ p : UInt8 → Bool, (text.takeWhile p).length ≤ text.length :=
    fun p => (List.takeWhile_prefix p).length_le
  have single : ∀ c : UInt8, (if text.head? = some c then 1 else 0) ≤ text.length := by
    intro c
    cases text with
    | nil => simp
    | cons b text =>
        rw [List.length_cons]
        split <;> omega
  cases rule with
  | whitespace => exact run _
  | symbols => exact run _
  | values => exact run _
  | comma => exact single _
  | lbranch => exact single _
  | rbranch => exact single _
  | comment =>
      show commentLength text ≤ text.length
      unfold commentLength
      split
      · rename_i both
        -- the line end is behind the run
        have bound : (text.takeWhile (· != 10)).length < text.length := by
          refine Nat.lt_of_le_of_ne (run _) fun whole => ?_
          have all := (List.takeWhile_prefix (· != 10)).eq_of_length whole
          rw [List.takeWhile_eq_self_iff] at all
          exact absurd (all 10 both.2) (by decide)
        exact bound
      · exact Nat.zero_le _

/-- The comma rule stands first, so a value is more than one `;`. -/
theorem valueLength_pos {text : CStr} (found : longest? (matchLength text) lexRules = some .values) :
    0 < valueLength (text.take (matchLength text .values)) := by
  obtain ⟨before, after, rules, positive, shorter⟩ := longest?_split _ found
  have early : LexRule.comma ∈ before := by
    have place : before.length = 5 := by
      have nodup : lexRules.idxOf .values = 5 := rfl
      rw [rules, List.idxOf_append_of_notMem, List.idxOf_cons_self] at nodup
      · exact nodup
      · intro inside
        exact absurd (shorter _ inside) (Nat.lt_irrefl _)
    have front : before = lexRules.take 5 := by rw [rules, ← place, List.take_left]
    rw [front]
    decide
  have comma := shorter _ early
  unfold valueLength
  split
  · rename_i last
    rw [List.length_take, Nat.min_eq_left (matchLength_le text .values)]
    by_cases two : 2 ≤ matchLength text .values
    · omega
    · have one : matchLength text .values = 1 := by omega
      rw [one] at last comma
      cases text with
      | nil => cases last
      | cons c text =>
          have semicolon : c = 59 := Option.some.inj last
          subst semicolon
          exact absurd comma (Nat.lt_irrefl 1)
  · rw [List.length_take, Nat.min_eq_left (matchLength_le text .values)]
    exact positive

/-- Every round uses up a byte. -/
theorem lexNext_shrinks (c : UInt8) (text : CStr) : (lexNext (c :: text)).2.length ≤ text.length := by
  unfold lexNext
  cases found : longest? (matchLength (c :: text)) lexRules with
  | none => exact Nat.le_refl _
  | some rule =>
      have positive := (longest?_mem _ found).2
      have bound := matchLength_le (c :: text) rule
      have length : ((c :: text).take (matchLength (c :: text) rule)).length = matchLength (c :: text) rule := by
        rw [List.length_take, Nat.min_eq_left bound]
      have used : 0 < (lexAction ((c :: text).take (matchLength (c :: text) rule)) rule).2 := by
        cases rule with
        | values => exact valueLength_pos found
        | _ => exact Nat.lt_of_lt_of_eq positive length.symm
      show ((c :: text).drop _).length ≤ text.length
      rw [List.length_drop, List.length_cons]
      omega

/-- One round. -/
theorem yylex_cons (c : UInt8) (text : CStr) :
    yylex (c :: text) = (lexNext (c :: text)).1.toList ++ yylex (lexNext (c :: text)).2 :=
  scanAll_cons lexNext_shrinks c text

end Orchid
