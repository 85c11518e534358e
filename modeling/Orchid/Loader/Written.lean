/-
# Loader.Written -- texts in the layout of `sig.conf`, and their tokens

Blanks and comment lines may stand between the parts of a configuration (`Gap`).  A
pair is a key, a run of spaces or tabs, a value and a `;` with a blank behind it
(`PairText`); a block is opened by its name and a brace (`OpenText`).

Which rule of `sig.l` wins at the front of a word depends on what stands behind the
word, so a part is read as its tokens in front of every text that does not begin with
a carriage return (`Lexes`): behind a blank that byte belongs to the blanks, alone it
begins a symbol.
-/
import Orchid.Loader.KeyPair
import Orchid.Loader.Lexer

namespace Orchid

open Orchid.Theory

set_option autoImplicit false

/-! ## Parts of a text -/

/-- Space, tab and line end. -/
def IsBlank (c : UInt8) : Prop := c = 32 ∨ c = 9 ∨ c = 10

instance (c : UInt8) : Decidable (IsBlank c) := inferInstanceAs (Decidable (_ ∨ _))

/-- Blanks and comment lines. -/
inductive Gap : CStr → Prop where
  | nil : Gap []
  | blank {c : UInt8} {gap : CStr} : IsBlank c → Gap gap → Gap (c :: gap)
  | comment {line gap : CStr} : 10 ∉ line → Gap gap → Gap (35 :: (line ++ 10 :: gap))

/-- A word: no blank, carriage return, brace or zero byte is in it, and it does not
begin a comment. -/
structure Word (text : CStr) : Prop where
  nonempty : text ≠ []
  chars : ∀ c ∈ text, isValueChar c = true ∧ c ≠ 0
  notComment : text.head? ≠ some 35

/-- A word that can stand where the grammar has a symbol. -/
structure Name (text : CStr) : Prop extends Word text where
  notComma : 59 ∉ text
  notApplication : ¬ strcasecmpEq text (cstr "application")
  notSign : ¬ strcasecmpEq text (cstr "sign")

instance (text : CStr) : Decidable (Word text) :=
  decidable_of_iff (text ≠ [] ∧ text.all (fun c => isValueChar c && c != 0) = true ∧ text.head? ≠ some 35)
    ⟨fun ⟨nonempty, chars, notComment⟩ => ⟨nonempty, by simpa using chars, notComment⟩,
      fun word => ⟨word.nonempty, by simpa using word.chars, word.notComment⟩⟩

instance (text : CStr) : Decidable (Name text) :=
  decidable_of_iff (Word text ∧ 59 ∉ text ∧ ¬ strcasecmpEq text (cstr "application") ∧
      ¬ strcasecmpEq text (cstr "sign"))
    ⟨fun ⟨word, notComma, notApplication, notSign⟩ => ⟨word, notComma, notApplication, notSign⟩,
      fun name => ⟨name.toWord, name.notComma, name.notApplication, name.notSign⟩⟩

/-- `key value;` and what stands behind it. -/
inductive PairText : CStr → KeyPairS → Prop where
  | mk {key spaces value gap : CStr} {c : UInt8} : spaces ≠ [] → (∀ b ∈ spaces, b = 32 ∨ b = 9) →
      IsBlank c → Gap gap → PairText (key ++ (spaces ++ (value ++ 59 :: c :: gap))) ⟨key, value⟩

/-- The pairs of a block, in any order. -/
def PairsText (text : CStr) (pairs : List KeyPairS) : Prop :=
  ∃ texts order, text = texts.flatten ∧ List.Forall₂ PairText texts order ∧ order.Perm pairs

/-- `name {` and what stands behind it.  The name must not run into a comment. -/
inductive OpenText (name : CStr) : CStr → Prop where
  | mk {between behind : CStr} : Gap between → between.head? ≠ some 35 → Gap behind →
      OpenText name (name ++ (between ++ 123 :: behind))

/-- `}` and what stands behind it. -/
inductive CloseText : CStr → Prop where
  | mk {gap : CStr} : Gap gap → CloseText (125 :: gap)

/-! ## One round of the scanner -/

theorem lexNext_longest {text : CStr} {rule : LexRule} (found : longest? (matchLength text) lexRules = some rule) :
    lexNext text = ((lexAction (text.take (matchLength text rule)) rule).1,
      text.drop (lexAction (text.take (matchLength text rule)) rule).2) := by
  unfold lexNext
  rw [found]

/-- One round at a text that is not empty. -/
theorem yylex_longest {text : CStr} {rule : LexRule} (found : longest? (matchLength text) lexRules = some rule) :
    yylex text = (lexAction (text.take (matchLength text rule)) rule).1.toList ++
      yylex (text.drop (lexAction (text.take (matchLength text rule)) rule).2) := by
  cases text with
  | nil =>
      -- no rule matches at the end
      have positive := (longest?_mem _ found).2
      exact absurd (Nat.lt_of_lt_of_le positive (matchLength_le [] rule)) (Nat.lt_irrefl 0)
  | cons c text => rw [yylex_cons, lexNext_longest found]

theorem takeWhile_run {p : UInt8 → Bool} {word rest : CStr} (all : ∀ c ∈ word, p c = true)
    (stops : ∀ c ∈ rest.head?, p c = false) : (word ++ rest).takeWhile p = word := by
  rw [List.takeWhile_append_of_pos all]
  cases rest with
  | nil => rw [List.takeWhile_nil, List.append_nil]
  | cons c rest =>
      have stop := stops c rfl
      rw [List.takeWhile_cons_of_neg (by rw [stop]; decide), List.append_nil]

/-- A run ends at the first byte that is not in its class. -/
theorem takeWhile_stop {p : UInt8 → Bool} {b : UInt8} (stop : p b = false) (word rest : CStr) :
    ((word ++ b :: rest).takeWhile p).length ≤ word.length := by
  induction word with
  | nil =>
      rw [List.nil_append, List.takeWhile_cons_of_neg (by rw [stop]; decide)]
  | cons c word ih =>
      rw [List.cons_append, List.takeWhile_cons]
      split
      · exact Nat.succ_le_succ ih
      · exact Nat.zero_le _

theorem takeWhile_le {p : UInt8 → Bool} {word rest : CStr} (stop : ∀ c ∈ rest.head?, p c = false) :
    ((word ++ rest).takeWhile p).length ≤ word.length := by
  cases rest with
  | nil =>
      rw [List.append_nil]
      exact (List.takeWhile_prefix p).length_le
  | cons c rest => exact takeWhile_stop (stop c rfl) word rest

/-- The bytes a match of the rule can begin with. -/
def LexRule.starts : LexRule → UInt8 → Bool
  | .whitespace, c => isWhitespace c
  | .comma, c => c = 59
  | .comment, c => c = 35
  | .symbols, c => isSymbolChar c
  | .lbranch, c => c = 123
  | .values, c => isValueChar c
  | .rbranch, c => c = 125

theorem matchLength_zero {rule : LexRule} {c : UInt8} (stop : rule.starts c = false) (text : CStr) :
    matchLength (c :: text) rule = 0 := by
  have single : ∀ b : UInt8, c ≠ b → (if (c :: text).head? = some b then 1 else 0) = 0 :=
    fun b differs => if_neg fun same => differs (Option.some.inj same)
  cases rule with
  | whitespace => exact Nat.le_zero.1 (takeWhile_stop stop [] text)
  | symbols => exact Nat.le_zero.1 (takeWhile_stop stop [] text)
  | values => exact Nat.le_zero.1 (takeWhile_stop stop [] text)
  | comma => exact single 59 (of_decide_eq_false stop)
  | lbranch => exact single 123 (of_decide_eq_false stop)
  | rbranch => exact single 125 (of_decide_eq_false stop)
  | comment => exact if_neg fun both => of_decide_eq_false stop (Option.some.inj both.1)

/-! ## Which rule wins -/

/-- A run of blanks that no other rule surpasses; their rule is the first. -/
theorem yylex_whitespace {text : CStr} (nonempty : 0 < (text.takeWhile isWhitespace).length)
    (others : ∀ rule, rule ≠ .whitespace → matchLength text rule ≤ (text.takeWhile isWhitespace).length) :
    yylex text = yylex (text.dropWhile isWhitespace) := by
  have found : longest? (matchLength text) lexRules = some .whitespace := by
    refine @longest?_eq _ _ [] [LexRule.comma, .comment, .symbols, .lbranch, .values, .rbranch]
      LexRule.whitespace nonempty (fun _ impossible => nomatch impossible) fun rule inside => others rule ?_
    rintro rfl
    exact absurd inside (by decide)
  rw [yylex_longest found]
  show yylex (text.drop (text.take (matchLength text .whitespace)).length) = _
  rw [List.length_take, Nat.min_eq_left (matchLength_le _ _)]
  congr 1
  have parts := @List.takeWhile_append_dropWhile _ isWhitespace text
  exact (congrArg (List.drop _) parts.symm).trans (List.drop_left' rfl)

/-- In front of a blank, all blanks up to the next other byte. -/
theorem yylex_blank {c : UInt8} {text : CStr} (blank : IsBlank c) :
    yylex (c :: text) = yylex (text.dropWhile isWhitespace) := by
  have space : isWhitespace c = true := by rcases blank with rfl | rfl | rfl <;> decide
  have run := List.takeWhile_cons_of_pos (l := text) space
  rw [yylex_whitespace (by rw [run]; exact Nat.succ_pos _) fun rule differs => ?_, List.dropWhile_cons_of_pos space]
  refine Nat.le_trans (Nat.le_of_eq (matchLength_zero ?_ text)) (Nat.zero_le _)
  rcases blank with rfl | rfl | rfl <;> cases rule <;> first | rfl | exact absurd rfl differs

/-- A carriage return in front of a line end is a blank. -/
theorem yylex_return (text : CStr) : yylex (13 :: 10 :: text) = yylex (10 :: text) := by
  have run : (13 :: 10 :: text : CStr).takeWhile isWhitespace = 13 :: 10 :: text.takeWhile isWhitespace := by
    rw [List.takeWhile_cons_of_pos (by decide), List.takeWhile_cons_of_pos (by decide)]
  have others : ∀ rule, rule ≠ .whitespace →
      matchLength (13 :: 10 :: text) rule ≤ ((13 :: 10 :: text : CStr).takeWhile isWhitespace).length := by
    intro rule differs
    rw [run, List.length_cons]
    cases rule with
    | whitespace => exact absurd rfl differs
    | symbols => exact Nat.le_trans (takeWhile_stop (by decide) [13] text) (Nat.succ_le_succ (Nat.zero_le _))
    | _ => exact Nat.le_trans (Nat.le_of_eq (matchLength_zero rfl _)) (Nat.zero_le _)
  have line : yylex (10 :: text) = yylex (text.dropWhile isWhitespace) := yylex_blank (by decide)
  rw [yylex_whitespace (by rw [run]; exact Nat.succ_pos _) others, line, List.dropWhile_cons_of_pos (by decide),
    List.dropWhile_cons_of_pos (by decide)]

/-- A blank in front of anything but a carriage return is skipped alone. -/
theorem yylex_blank_one {c : UInt8} {text : CStr} (blank : IsBlank c) (behind : ∀ b ∈ text.head?, b ≠ 13) :
    yylex (c :: text) = yylex text := by
  rw [yylex_blank blank]
  cases text with
  | nil => rfl
  | cons b text =>
      have notReturn := behind b rfl
      by_cases more : IsBlank b
      · have space : isWhitespace b = true := by rcases more with rfl | rfl | rfl <;> decide
        rw [List.dropWhile_cons_of_pos space, ← yylex_blank more]
      · have notSpace : ¬ isWhitespace b = true := by
          intro space
          rcases of_decide_eq_true space with rfl | rfl | rfl | rfl
          · exact more (by decide)
          · exact more (by decide)
          · exact more (by decide)
          · exact notReturn rfl
        rw [List.dropWhile_cons_of_neg notSpace]

/-- A comment is longer than the word it begins with. -/
theorem yylex_comment {line rest : CStr} (oneLine : 10 ∉ line) :
    yylex (35 :: (line ++ 10 :: rest)) = yylex rest := by
  have length : matchLength (35 :: (line ++ 10 :: rest)) .comment = line.length + 2 := by
    have both : (35 :: (line ++ 10 :: rest) : CStr).head? = some 35 ∧ 10 ∈ 35 :: (line ++ 10 :: rest) :=
      ⟨rfl, by simp⟩
    have all : ∀ b ∈ (35 :: line : CStr), (b != 10) = true := by
      intro b inside
      rw [bne_iff_ne]
      rintro rfl
      rcases List.mem_cons.1 inside with impossible | inside
      · exact absurd impossible (by decide)
      · exact oneLine inside
    have run : (35 :: (line ++ 10 :: rest) : CStr).takeWhile (· != 10) = 35 :: line :=
      @takeWhile_run (· != 10) (35 :: line) (10 :: rest) all fun b same => by
        obtain rfl := Option.some.inj same
        rfl
    show commentLength _ = _
    rw [commentLength, if_pos both, run]
    rfl
  have found : longest? (matchLength (35 :: (line ++ 10 :: rest))) lexRules = some .comment := by
    refine @longest?_eq _ _ [LexRule.whitespace, .comma] [LexRule.symbols, .lbranch, .values, .rbranch]
      LexRule.comment ?_ ?_ ?_
    · rw [length]
      exact Nat.succ_pos _
    · rw [length]
      intro rule inside
      have none_ : rule.starts 35 = false := by cases rule <;> first | rfl | exact absurd inside (by decide)
      rw [matchLength_zero none_]
      exact Nat.succ_pos _
    · rw [length]
      intro rule inside
      cases rule with
      | symbols => exact Nat.le_succ_of_le (takeWhile_stop (by decide) (35 :: line) rest)
      | values => exact Nat.le_succ_of_le (takeWhile_stop (by decide) (35 :: line) rest)
      | lbranch => exact Nat.le_trans (Nat.le_of_eq (matchLength_zero rfl _)) (Nat.zero_le _)
      | rbranch => exact Nat.le_trans (Nat.le_of_eq (matchLength_zero rfl _)) (Nat.zero_le _)
      | _ => exact absurd inside (by decide)
  rw [yylex_longest found]
  show yylex (List.drop (List.take _ _).length _) = _
  rw [List.length_take, Nat.min_eq_left (matchLength_le _ _), length]
  congr 1
  have shape : (35 :: (line ++ 10 :: rest) : CStr) = (35 :: line ++ [10]) ++ rest := by simp
  rw [shape, List.drop_left' (by simp)]

theorem yylex_lbranch (rest : CStr) : yylex (123 :: rest) = .lbranch :: yylex rest := by
  have others : ∀ rule, rule ≠ .lbranch → matchLength (123 :: rest) rule = 0 :=
    fun rule differs => matchLength_zero (by cases rule <;> first | rfl | exact absurd rfl differs) rest
  have found : longest? (matchLength (123 :: rest)) lexRules = some .lbranch :=
    longest?_only _ (by decide) Nat.one_pos others
  rw [yylex_longest found]
  rfl

theorem yylex_rbranch (rest : CStr) : yylex (125 :: rest) = .rbranch :: yylex rest := by
  have others : ∀ rule, rule ≠ .rbranch → matchLength (125 :: rest) rule = 0 :=
    fun rule differs => matchLength_zero (by cases rule <;> first | rfl | exact absurd rfl differs) rest
  have found : longest? (matchLength (125 :: rest)) lexRules = some .rbranch :=
    longest?_only _ (by decide) Nat.one_pos others
  rw [yylex_longest found]
  rfl

/-- A `;` that ends a word: the comma rule stands before the value rule. -/
theorem yylex_comma {rest : CStr} (stop : ∀ c ∈ rest.head?, isValueChar c = false) :
    yylex (59 :: rest) = .comma :: yylex rest := by
  have value : matchLength (59 :: rest) .values ≤ 1 := @takeWhile_le isValueChar [59] rest stop
  have found : longest? (matchLength (59 :: rest)) lexRules = some .comma := by
    refine @longest?_eq _ _ [LexRule.whitespace] [LexRule.comment, .symbols, .lbranch, .values, .rbranch]
      LexRule.comma Nat.one_pos ?_ ?_
    · intro rule inside
      obtain rfl := List.mem_singleton.1 inside
      rw [matchLength_zero rfl]
      exact Nat.one_pos
    · intro rule inside
      cases rule with
      | values => exact value
      | whitespace => exact absurd inside (by decide)
      | comma => exact absurd inside (by decide)
      | _ => exact Nat.le_trans (Nat.le_of_eq (matchLength_zero rfl _)) (Nat.zero_le _)
  rw [yylex_longest found]
  rfl

/-! ## Words -/

theorem cText_word {text : CStr} (word : Word text) : cText text = text :=
  List.takeWhile_eq_self_iff.2 fun c inside => bne_iff_ne.2 (word.chars c inside).2

/-- No blank or brace begins with a byte of a value. -/
theorem isValueChar_starts {c : UInt8} (char : isValueChar c = true) :
    LexRule.starts .whitespace c = false ∧ LexRule.starts .lbranch c = false ∧
      LexRule.starts .rbranch c = false := by
  have others := of_decide_eq_true char
  simp only [not_or] at others
  obtain ⟨space, cr, lf, tab, left, right⟩ := others
  exact ⟨decide_eq_false (by simp [space, cr, lf, tab]), decide_eq_false left, decide_eq_false right⟩

theorem isSymbolChar_of_value {c : UInt8} (char : isValueChar c = true) (notComma : c ≠ 59) :
    isSymbolChar c = true := by
  have others := of_decide_eq_true char
  simp only [not_or] at others
  obtain ⟨space, -, lf, tab, left, right⟩ := others
  exact decide_eq_true (by simp [space, lf, tab, left, right, notComma])

/-- A run of symbol bytes, the first of which begins nothing else: the symbol rule stands
before the value rule. -/
theorem yylex_symbols {text rest : CStr} (nonempty : text ≠ []) (symbol : ∀ c ∈ text, isSymbolChar c = true)
    (first : ∀ c ∈ text.head?, isValueChar c = true ∧ c ≠ 35)
    (stop : ∀ c ∈ rest.head?, isSymbolChar c = false ∧ isValueChar c = false) :
    yylex (text ++ rest) = symbolToken text :: yylex rest := by
  have symbols : matchLength (text ++ rest) .symbols = text.length :=
    congrArg List.length (takeWhile_run symbol fun c same => (stop c same).1)
  have values : matchLength (text ++ rest) .values ≤ text.length := takeWhile_le fun c same => (stop c same).2
  have found : longest? (matchLength (text ++ rest)) lexRules = some .symbols := by
    obtain ⟨b, text, rfl⟩ := List.exists_cons_of_ne_nil nonempty
    obtain ⟨char, hash⟩ := first b rfl
    obtain ⟨space, left, right⟩ := isValueChar_starts char
    have comment : LexRule.starts .comment b = false := decide_eq_false hash
    have comma : LexRule.starts .comma b = false := by
      refine decide_eq_false fun same => ?_
      have inside := symbol b (List.mem_cons_self ..)
      rw [same] at inside
      exact absurd inside (by decide)
    refine @longest?_eq _ _ [LexRule.whitespace, .comma, .comment] [LexRule.lbranch, .values, .rbranch]
      LexRule.symbols ?_ ?_ ?_
    · rw [symbols]
      exact Nat.succ_pos _
    · rw [symbols]
      intro rule inside
      have none_ : rule.starts b = false := by
        cases rule <;> first | assumption | exact absurd inside (by decide)
      exact Nat.lt_of_le_of_lt (Nat.le_of_eq (matchLength_zero none_ _)) (Nat.succ_pos _)
    · rw [symbols]
      intro rule inside
      cases rule with
      | values => exact values
      | lbranch => exact Nat.le_trans (Nat.le_of_eq (matchLength_zero left _)) (Nat.zero_le _)
      | rbranch => exact Nat.le_trans (Nat.le_of_eq (matchLength_zero right _)) (Nat.zero_le _)
      | _ => exact absurd inside (by decide)
  rw [yylex_longest found, symbols, List.take_left]
  show [symbolToken text] ++ yylex (List.drop text.length _) = _
  rw [List.drop_left]
  rfl

/-- A run of value bytes with a `;` in it, which is more than that `;`. -/
theorem yylex_values {text rest : CStr} (value : ∀ c ∈ text, isValueChar c = true) (comma : 59 ∈ text)
    (more : text ≠ [59]) (first : text.head? ≠ some 35) (stop : ∀ c ∈ rest.head?, isValueChar c = false) :
    yylex (text ++ rest) =
      .value (cText (text.take (valueLength text))) :: yylex (text.drop (valueLength text) ++ rest) := by
  have values : matchLength (text ++ rest) .values = text.length :=
    congrArg List.length (takeWhile_run value stop)
  have symbols : matchLength (text ++ rest) .symbols < text.length := by
    obtain ⟨before, after, rfl, -⟩ := List.eq_append_cons_of_mem comma
    have shape : before ++ 59 :: after ++ rest = before ++ 59 :: (after ++ rest) := by simp
    have bound : ((before ++ 59 :: (after ++ rest)).takeWhile isSymbolChar).length ≤ before.length :=
      takeWhile_stop (by decide) before (after ++ rest)
    rw [List.length_append, List.length_cons, shape]
    exact Nat.lt_of_le_of_lt bound (by omega)
  have two : 1 < text.length := by
    match text, comma, more with
    | [c], comma, more => exact absurd (congrArg (· :: []) (List.mem_singleton.1 comma).symm) more
    | _ :: _ :: _, _, _ => exact Nat.succ_lt_succ (Nat.succ_pos _)
  have found : longest? (matchLength (text ++ rest)) lexRules = some .values := by
    obtain ⟨b, text, rfl⟩ := List.exists_cons_of_ne_nil (List.ne_nil_of_mem comma)
    obtain ⟨space, left, right⟩ := isValueChar_starts (value b (List.mem_cons_self ..))
    have comment : LexRule.starts .comment b = false := decide_eq_false fun same => first (congrArg some same)
    have single : matchLength (b :: text ++ rest) .comma ≤ 1 := by
      show (if _ then 1 else 0) ≤ 1
      split <;> decide
    have none_ : ∀ rule, rule = .whitespace ∨ rule = .comment ∨ rule = .lbranch ∨ rule = .rbranch →
        matchLength (b :: text ++ rest) rule = 0 := by
      rintro rule (rfl | rfl | rfl | rfl) <;> exact matchLength_zero (by assumption) _
    refine @longest?_eq _ _ [LexRule.whitespace, .comma, .comment, .symbols, .lbranch] [LexRule.rbranch]
      LexRule.values ?_ ?_ ?_
    · rw [values]
      exact Nat.succ_pos _
    · rw [values]
      intro rule inside
      cases rule with
      | comma => exact Nat.lt_of_le_of_lt single two
      | symbols => exact symbols
      | values => exact absurd inside (by decide)
      | rbranch => exact absurd inside (by decide)
      | _ => rw [none_ _ (by simp)]; exact Nat.succ_pos _
    · intro rule inside
      obtain rfl := List.mem_singleton.1 inside
      rw [none_ _ (by simp)]
      exact Nat.zero_le _
  have kept : valueLength text ≤ text.length := by
    unfold valueLength
    split <;> omega
  rw [yylex_longest found, values, List.take_left]
  show [Token.value (cText (text.take (valueLength text)))] ++ yylex (List.drop (valueLength text) (text ++ rest)) = _
  rw [List.drop_append_of_le_length kept]
  rfl

/-- A value with a `;` behind it: the value rule matches the `;` as well and gives it
back. -/
theorem yylex_value_comma {text rest : CStr} (value : ∀ c ∈ text, isValueChar c = true) (nonempty : text ≠ [])
    (first : text.head? ≠ some 35) (stop : ∀ c ∈ rest.head?, isValueChar c = false) :
    yylex (text ++ 59 :: rest) = .value (cText text) :: .comma :: yylex rest := by
  have shape : text ++ 59 :: rest = (text ++ [59]) ++ rest := by simp
  have kept : valueLength (text ++ [59]) = text.length := by
    rw [valueLength, if_pos (by simp)]
    simp
  have all : ∀ c ∈ text ++ [59], isValueChar c = true := by
    intro c inside
    rcases List.mem_append.1 inside with inside | inside
    · exact value c inside
    · obtain rfl := List.mem_singleton.1 inside
      rfl
  have head : (text ++ [59]).head? ≠ some 35 := by
    rwa [List.head?_append_of_ne_nil _ nonempty]
  have run := yylex_values all (by simp) (by simpa using nonempty) head stop
  rw [kept, List.take_left, List.drop_left] at run
  rw [shape, run]
  exact congrArg (_ :: ·) (yylex_comma stop)

theorem IsBlank.stops {c : UInt8} (blank : IsBlank c) : isSymbolChar c = false ∧ isValueChar c = false := by
  rcases blank with rfl | rfl | rfl <;> decide

/-- A word without `;` is as long for the symbol rule as for the value rule. -/
theorem yylex_symbol {text rest : CStr} {c : UInt8} (word : Word text) (notComma : 59 ∉ text)
    (stop : isSymbolChar c = false ∧ isValueChar c = false) :
    yylex (text ++ c :: rest) = symbolToken text :: yylex (c :: rest) := by
  refine yylex_symbols word.nonempty (fun b inside => ?_) (fun b same => ?_) fun b same => Option.some.inj same ▸ stop
  · exact isSymbolChar_of_value (word.chars b inside).1 fun comma => notComma (comma ▸ inside)
  · refine ⟨(word.chars b (List.mem_of_mem_head? same)).1, ?_⟩
    rintro rfl
    exact word.notComment same

theorem yylex_value {text rest : CStr} {c : UInt8} (word : Word text) (blank : IsBlank c) :
    yylex (text ++ 59 :: c :: rest) = .value text :: .comma :: yylex (c :: rest) := by
  have value := yylex_value_comma (fun b inside => (word.chars b inside).1) word.nonempty word.notComment
    (fun b (same : b ∈ (c :: rest : CStr).head?) => Option.some.inj same ▸ blank.stops.2)
  rwa [cText_word word] at value

/-! ## Parts and their tokens -/

/-- The text is read as the tokens in front of anything but a carriage return. -/
abbrev Lexes : CStr → List Token → Prop := Reads lexNext (· ≠ 13)

theorem Gap.lexes {gap : CStr} (blanks : Gap gap) : Lexes gap [] := by
  induction blanks with
  | nil => exact Reads.nil
  | @blank c gap blank more ih =>
      refine ⟨fun b same => ?_, fun rest behind => ?_⟩
      · obtain rfl := Option.some.inj same
        rcases blank with rfl | rfl | rfl <;> decide
      · exact (yylex_blank_one blank (ih.head_append behind)).trans (ih.scan rest behind)
  | @comment line gap oneLine more ih =>
      refine ⟨fun b same => ?_, fun rest behind => ?_⟩
      · obtain rfl := Option.some.inj same
        decide
      · have shape : 35 :: (line ++ 10 :: gap) ++ rest = 35 :: (line ++ 10 :: (gap ++ rest)) := by simp
        show yylex _ = _
        rw [shape, yylex_comment oneLine]
        exact ih.scan rest behind

/-- What stands between a name and its brace begins with a byte that ends the name. -/
theorem Gap.head_stops {gap : CStr} (blanks : Gap gap) (notComment : gap.head? ≠ some 35) (rest : CStr) :
    ∃ c text, gap ++ 123 :: rest = c :: text ∧ isSymbolChar c = false ∧ isValueChar c = false := by
  cases blanks with
  | nil => exact ⟨123, rest, rfl, rfl, rfl⟩
  | @blank c gap blank more =>
      refine ⟨c, gap ++ 123 :: rest, rfl, ?_⟩
      rcases blank with rfl | rfl | rfl <;> decide
  | comment oneLine more => exact absurd rfl notComment

theorem Word.head_ne {text : CStr} (word : Word text) (rest : CStr) : ∀ b ∈ (text ++ rest).head?, b ≠ 13 := by
  obtain ⟨c, text, rfl⟩ := List.exists_cons_of_ne_nil word.nonempty
  intro b same
  obtain rfl := Option.some.inj same
  rintro rfl
  exact absurd (word.chars 13 (List.mem_cons_self ..)).1 (by decide)

theorem OpenText.lexes {name text : CStr} (open_ : OpenText name text) (word : Word name) (notComma : 59 ∉ name) :
    Lexes text [symbolToken name, .lbranch] := by
  obtain ⟨before, notComment, after⟩ := open_
  rename_i between behind
  refine ⟨word.head_ne _, fun rest follows => ?_⟩
  have shape : name ++ (between ++ 123 :: behind) ++ rest = name ++ (between ++ 123 :: (behind ++ rest)) := by simp
  obtain ⟨c, tail, split_, stops⟩ := before.head_stops notComment (behind ++ rest)
  show yylex _ = _
  rw [shape, split_, yylex_symbol word notComma stops, ← split_]
  have gap := before.lexes.scan (123 :: (behind ++ rest)) fun b same => by
    obtain rfl := Option.some.inj same
    decide
  have brace := yylex_lbranch (behind ++ rest)
  have gap' := after.lexes.scan rest follows
  exact congrArg (symbolToken name :: ·) (gap.trans (brace.trans (congrArg (Token.lbranch :: ·) gap')))

theorem CloseText.lexes {text : CStr} (close : CloseText text) : Lexes text [.rbranch] := by
  obtain ⟨after⟩ := close
  rename_i gap
  refine ⟨fun b same => ?_, fun rest follows => ?_⟩
  · obtain rfl := Option.some.inj same
    decide
  · exact (yylex_rbranch (gap ++ rest)).trans (congrArg (Token.rbranch :: ·) (after.lexes.scan rest follows))

theorem Name.symbolToken {text : CStr} (name : Name text) : symbolToken text = .symbol text := by
  rw [Orchid.symbolToken, cText_word name.toWord, if_neg name.notApplication, if_neg name.notSign]

theorem PairText.lexes {text : CStr} {pair : KeyPairS} (written : PairText text pair) (key : Name pair.key)
    (value : Word pair.value) : Lexes text [.symbol pair.key, .value pair.value, .comma] := by
  obtain ⟨nonempty, run, blank, after⟩ := written
  rename_i key_ spaces value_ gap c
  refine ⟨key.head_ne _, fun rest follows => ?_⟩
  have shape : key_ ++ (spaces ++ (value_ ++ 59 :: c :: gap)) ++ rest =
      key_ ++ (spaces ++ (value_ ++ 59 :: c :: (gap ++ rest))) := by simp
  have spacing : Gap spaces := by
    clear nonempty shape
    induction spaces with
    | nil => exact Gap.nil
    | cons b spaces ih =>
        refine Gap.blank ?_ (ih fun b' inside => run b' (List.mem_cons_of_mem _ inside))
        rcases run b (List.mem_cons_self ..) with rfl | rfl <;> decide
  show yylex _ = _
  rw [shape]
  have behindKey : yylex (key_ ++ (spaces ++ (value_ ++ 59 :: c :: (gap ++ rest)))) =
      .symbol key_ :: yylex (spaces ++ (value_ ++ 59 :: c :: (gap ++ rest))) := by
    obtain ⟨b, more, rfl⟩ := List.exists_cons_of_ne_nil nonempty
    rw [List.cons_append, yylex_symbol key.toWord key.notComma, key.symbolToken]
    rcases run b (List.mem_cons_self ..) with rfl | rfl <;> decide
  have blanks := spacing.lexes.scan (value_ ++ 59 :: c :: (gap ++ rest)) (value.head_ne _)
  have behindValue := @yylex_value value_ (gap ++ rest) c value blank
  have gap' := (Gap.blank blank after).lexes.scan rest follows
  rw [behindKey]
  refine congrArg (Token.symbol key_ :: ·) (blanks.trans (behindValue.trans ?_))
  exact congrArg (fun tokens => Token.value value_ :: .comma :: tokens) gap'

/-! ## Numerals -/

theorem isDigit_char {base : Nat} {c : UInt8} (digit : isDigit base c = true) :
    isValueChar c = true ∧ c ≠ 0 ∧ c ≠ 35 := by
  have range := digitValue_range (c := c) fun none_ => by
    rw [isDigit, none_] at digit
    cases digit
  have differs : ∀ b : UInt8, b.toNat < 48 ∨ 102 < b.toNat → c ≠ b := by
    rintro b outside rfl
    omega
  refine ⟨decide_eq_true ?_, differs 0 (by decide), differs 35 (by decide)⟩
  rintro (same | same | same | same | same | same)
  · exact differs 32 (by decide) same
  · exact differs 13 (by decide) same
  · exact differs 10 (by decide) same
  · exact differs 9 (by decide) same
  · exact differs 123 (by decide) same
  · exact differs 125 (by decide) same

theorem IsDigits.all {base : Nat} {text : CStr} {n : Nat} (written : IsDigits base text n) :
    ∀ c ∈ text, isDigit base c = true := by
  obtain ⟨ds, same, small, -⟩ := written
  intro c inside
  have value : digitValue c ∈ ds.map some := same ▸ List.mem_map_of_mem inside
  obtain ⟨d, member, found⟩ := List.mem_map.1 value
  rw [isDigit, ← found]
  exact decide_eq_true (small d member)

theorem Numeral.word {text : CStr} {n : Nat} (written : Numeral text n) : Word text := by
  have mark : ∀ {x : UInt8}, x = 120 ∨ x = 88 → isValueChar x = true ∧ x ≠ 0 := by
    rintro x (rfl | rfl) <;> decide
  have digits : ∀ {base : Nat} {text : CStr} {n : Nat}, IsDigits base text n →
      ∀ c ∈ text, isValueChar c = true ∧ c ≠ 0 :=
    fun written c inside => ⟨(isDigit_char (written.all c inside)).1, (isDigit_char (written.all c inside)).2.1⟩
  cases written with
  | @decimal c text n written notZero =>
      refine ⟨List.cons_ne_nil _ _, digits written, fun same => ?_⟩
      exact (isDigit_char (written.all c (List.mem_cons_self ..))).2.2 (Option.some.inj same)
  | @octal text n written =>
      refine ⟨List.cons_ne_nil _ _, fun c inside => ?_, fun same => absurd (Option.some.inj same) (by decide)⟩
      rcases List.mem_cons.1 inside with rfl | inside
      · decide
      · exact digits written c inside
  | @hex x text n x_ nonempty written =>
      refine ⟨List.cons_ne_nil _ _, fun c inside => ?_, fun same => absurd (Option.some.inj same) (by decide)⟩
      rcases List.mem_cons.1 inside with rfl | inside
      · decide
      · rcases List.mem_cons.1 inside with rfl | inside
        · exact mark x_
        · exact digits written c inside

/-- A decimal digit. -/
theorem digitValue_ofNat {d : Nat} (small : d < 10) :
    digitValue (UInt8.ofNat (48 + d)) = some d ∧ (UInt8.ofNat (48 + d) = 48 → d = 0) := by
  have all : ∀ d < 10, digitValue (UInt8.ofNat (48 + d)) = some d ∧ (UInt8.ofNat (48 + d) = 48 → d = 0) := by
    decide
  exact all d small

theorem numeral_zero : Numeral [48] 0 := Numeral.octal ⟨[], rfl, (fun _ impossible => nomatch impossible), rfl⟩

/-- The digits of a number, the highest first. -/
theorem numeral_digits {ds : List Nat} {n : Nat} (nonempty : ds ≠ []) (small : ∀ d ∈ ds, d < 10)
    (leading : ds.head nonempty ≠ 0) (value : n = Nat.ofDigits 10 ds.reverse) :
    Numeral (ds.map fun d => UInt8.ofNat (48 + d)) n := by
  obtain ⟨d, ds, rfl⟩ := List.exists_cons_of_ne_nil nonempty
  have read : ((d :: ds).map fun d => UInt8.ofNat (48 + d)).map digitValue = (d :: ds).map some := by
    rw [List.map_map]
    exact List.map_congr_left fun e inside => (digitValue_ofNat (small e inside)).1
  refine Numeral.decimal ⟨d :: ds, read, small, value⟩ fun same => leading ?_
  exact (digitValue_ofNat (small d (List.mem_cons_self ..))).2 same

end Orchid
