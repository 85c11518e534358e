/-
# Loader.LineEnds -- a configuration with CR LF line ends

The blanks and the value rule take a carriage return for a blank, the symbol rule takes
it for a byte of a symbol.  So what stands at a line's end decides whether the line may
end in CR LF: behind a blank, a brace, a `;` or in a comment the return is one more blank,
but a keyword or a symbol swallows it (`BareEnd`).

A word is lexed on its own (`yylex_word`), so the tokens of the two texts can be compared
word by word, and they are the same exactly if no line ends bare (`yylex_crlf_iff`).
-/
import Orchid.Loader.Written

namespace Orchid

open Orchid.Theory

set_option autoImplicit false

/-! ## Lines -/

/-- Every line end with a carriage return in front of it. -/
def crlf (text : CStr) : CStr := text.flatMap fun c => if c = 10 then [13, 10] else [c]

/-- The lines that end, without their ends. -/
def lines (text : CStr) : List CStr := (text.splitOn 10).dropLast

/-- What stands between the blanks and braces of a line. -/
def words (line : CStr) : List CStr := line.splitOnP fun c => !isValueChar c

/-- The line has no comment, and its last byte belongs to a word without `;`, a keyword or
a symbol.  What stands behind a zero byte is not part of a token's text. -/
structure BareEnd (line : CStr) : Prop where
  uncommented : ∀ word ∈ words line, word.head? ≠ some 35
  last : ∃ word ∈ (words line).getLast?, word ≠ [] ∧ 59 ∉ word ∧ 0 ∉ word

instance (line : CStr) : Decidable (BareEnd line) :=
  decidable_of_iff ((∀ word ∈ words line, word.head? ≠ some 35) ∧
      ∃ word ∈ (words line).getLast?, word ≠ [] ∧ 59 ∉ word ∧ 0 ∉ word)
    ⟨fun ⟨uncommented, last⟩ => ⟨uncommented, last⟩, fun bare => ⟨bare.uncommented, bare.last⟩⟩

theorem crlf_of_notMem {text : CStr} (oneLine : 10 ∉ text) : crlf text = text := by
  induction text with
  | nil => rfl
  | cons c text ih =>
      have differs : c ≠ 10 := fun same => oneLine (same ▸ List.mem_cons_self ..)
      have rest := ih fun inside => oneLine (List.mem_cons_of_mem _ inside)
      unfold crlf at rest ⊢
      rw [List.flatMap_cons, if_neg differs, rest]
      rfl

theorem crlf_append (text rest : CStr) : crlf (text ++ rest) = crlf text ++ crlf rest := List.flatMap_append

theorem crlf_line {line : CStr} (oneLine : 10 ∉ line) (rest : CStr) :
    crlf (line ++ 10 :: rest) = line ++ 13 :: 10 :: crlf rest := by
  rw [crlf_append, crlf_of_notMem oneLine]
  rfl

theorem lines_of_notMem {text : CStr} (oneLine : 10 ∉ text) : lines text = [] := by
  rw [lines, List.splitOn_eq_singleton oneLine]
  rfl

theorem lines_append {line : CStr} (oneLine : 10 ∉ line) (rest : CStr) :
    lines (line ++ 10 :: rest) = line :: lines rest := by
  rw [lines, List.splitOn_append_cons_self_of_not_mem oneLine]
  exact List.dropLast_cons_of_ne_nil (List.splitOn_ne_nil _ _)

/-- What stands in front of all words of a line but does not change whether they end bare
does not change it for a text. -/
theorem forall_lines_append {front : CStr} (oneLine : 10 ∉ front)
    (same : ∀ line, BareEnd (front ++ line) ↔ BareEnd line) (text : CStr) :
    (∀ line ∈ lines (front ++ text), ¬ BareEnd line) ↔ ∀ line ∈ lines text, ¬ BareEnd line := by
  by_cases more : 10 ∈ text
  · obtain ⟨line, rest, rfl, free⟩ := List.eq_append_cons_of_mem more
    have free' : 10 ∉ front ++ line := by simp [oneLine, free]
    rw [← List.append_assoc, lines_append free', lines_append free, List.forall_mem_cons, List.forall_mem_cons, same]
  · have more' : 10 ∉ front ++ text := by simp [oneLine, more]
    rw [lines_of_notMem more, lines_of_notMem more']

/-! ## Words of a line -/

/-- The word a text begins with, which may be empty. -/
theorem exists_word (text : CStr) : ∃ word rest, text = word ++ rest ∧ (∀ c ∈ word, isValueChar c = true) ∧
    ∀ c ∈ rest.head?, isValueChar c = false := by
  refine ⟨text.takeWhile isValueChar, text.dropWhile isValueChar, List.takeWhile_append_dropWhile.symm,
    fun c inside => List.mem_takeWhile_imp inside, fun c same => ?_⟩
  have stop := List.head?_dropWhile_not isValueChar text
  rw [Option.mem_def.1 same] at stop
  simpa using stop

theorem words_append {word : CStr} (value : ∀ c ∈ word, isValueChar c = true) {c : UInt8}
    (stop : isValueChar c = false) (line : CStr) : words (word ++ c :: line) = word :: words line := by
  refine List.splitOnP_append_cons_of_forall_mem (fun b inside => ?_) c (by rw [stop]; rfl) line
  rw [value b inside]
  rfl

theorem words_of_values {word : CStr} (value : ∀ c ∈ word, isValueChar c = true) : words word = [word] :=
  List.splitOnP_eq_singleton fun b inside => by
    rw [value b inside]
    rfl

/-- A word with a blank or brace behind it is none of the line's end. -/
theorem bareEnd_append {word : CStr} (value : ∀ c ∈ word, isValueChar c = true) (notComment : word.head? ≠ some 35)
    {c : UInt8} (stop : isValueChar c = false) (line : CStr) : BareEnd (word ++ c :: line) ↔ BareEnd line := by
  have split_ := words_append value stop line
  have last : (words (word ++ c :: line)).getLast? = (words line).getLast? := by
    rw [split_]
    exact List.getLast?_cons_of_ne_nil (List.splitOnP_ne_nil _ _)
  constructor
  · rintro ⟨uncommented, bare⟩
    rw [split_, List.forall_mem_cons] at uncommented
    exact ⟨uncommented.2, last ▸ bare⟩
  · rintro ⟨uncommented, bare⟩
    refine ⟨?_, last ▸ bare⟩
    rw [split_, List.forall_mem_cons]
    exact ⟨notComment, uncommented⟩

theorem bareEnd_word_iff {word : CStr} (value : ∀ c ∈ word, isValueChar c = true) (notComment : word.head? ≠ some 35)
    (nonempty : word ≠ []) : BareEnd word ↔ 59 ∉ word ∧ 0 ∉ word := by
  have alone := words_of_values value
  constructor
  · rintro ⟨-, last⟩
    rw [alone] at last
    obtain ⟨_, same, -, bare⟩ := last
    obtain rfl := Option.some.inj same
    exact bare
  · intro bare
    refine ⟨?_, ?_⟩
    · rw [alone]
      exact List.forall_mem_singleton.2 notComment
    · rw [alone]
      exact ⟨word, rfl, nonempty, bare⟩

theorem not_bareEnd_comment (line : CStr) : ¬ BareEnd (35 :: line) := by
  rintro ⟨uncommented, -⟩
  obtain ⟨word, rest, split_, value, stop⟩ := exists_word (35 :: line)
  have hash : word.head? = some 35 := by
    cases word with
    | nil =>
        rw [List.nil_append] at split_
        rw [← split_] at stop
        exact absurd (stop 35 rfl) (by decide)
    | cons c word =>
        obtain ⟨rfl, -⟩ := List.cons.inj split_
        rfl
  rw [split_] at uncommented
  cases rest with
  | nil =>
      rw [List.append_nil, words_of_values value] at uncommented
      exact uncommented word (List.mem_singleton_self _) hash
  | cons c rest =>
      rw [words_append value (stop c rfl)] at uncommented
      exact uncommented word (List.mem_cons_self ..) hash

/-! ## Tokens of a word -/

/-- The tokens of a word with a `;` in it. -/
def valueTokens (word : CStr) : List Token :=
  if word = [59] then [.comma]
  else if word.getLast? = some 59 then [.value (cText word.dropLast), .comma]
  else [.value (cText word)]

/-- **A word with a `;` is lexed on its own**, in front of a carriage return too. -/
theorem yylex_word {word rest : CStr} (value : ∀ c ∈ word, isValueChar c = true) (comma : 59 ∈ word)
    (first : word.head? ≠ some 35) (stop : ∀ c ∈ rest.head?, isValueChar c = false) :
    yylex (word ++ rest) = valueTokens word ++ yylex rest := by
  unfold valueTokens
  by_cases alone : word = [59]
  · subst alone
    exact yylex_comma stop
  · rw [if_neg alone]
    by_cases last : word.getLast? = some 59
    · have split_ : word.dropLast ++ [59] = word := List.dropLast_append_getLast? 59 last
      have shape : word ++ rest = word.dropLast ++ 59 :: rest := by
        conv_lhs => rw [← split_]
        rw [List.append_assoc]
        rfl
      have nonempty : word.dropLast ≠ [] := by
        intro empty
        rw [empty] at split_
        exact alone split_.symm
      have first' : word.dropLast.head? ≠ some 35 := by
        rw [← split_, List.head?_append_of_ne_nil _ nonempty] at first
        exact first
      rw [if_pos last, shape]
      exact yylex_value_comma (fun c inside => value c (List.dropLast_subset _ inside)) nonempty first' stop
    · rw [if_neg last, yylex_values value comma alone first stop, valueLength, if_neg last, List.take_length,
        List.drop_length]
      rfl

/-- A symbol or keyword takes the carriage return behind it, unless a zero byte hides it. -/
theorem symbolToken_return_iff (word : CStr) : symbolToken (word ++ [13]) = symbolToken word ↔ 0 ∈ word := by
  by_cases zero : 0 ∈ word
  · refine iff_of_true ?_ zero
    obtain ⟨before, after, rfl, free⟩ := List.eq_append_cons_of_mem zero
    have cut : ∀ more : CStr, cText (before ++ 0 :: after ++ more) = before := by
      intro more
      have all : ∀ c ∈ before, (c != 0) = true := fun c inside => bne_iff_ne.2 fun same => free (same ▸ inside)
      rw [List.append_assoc]
      exact takeWhile_run all fun c same => by
        obtain rfl := Option.some.inj same
        rfl
    have same : cText (before ++ 0 :: after ++ [13]) = cText (before ++ 0 :: after) := by
      rw [cut, ← List.append_nil (before ++ 0 :: after), cut]
    unfold symbolToken
    rw [same]
  · refine iff_of_false (fun same => ?_) zero
    have whole : ∀ more : CStr, 0 ∉ more → cText (word ++ more) = word ++ more := fun more none_ =>
      List.takeWhile_eq_self_iff.2 fun c inside => bne_iff_ne.2 fun null => by
        rcases List.mem_append.1 (null ▸ inside) with inside | inside
        · exact zero inside
        · exact none_ inside
    -- no keyword ends with a carriage return
    have notKeyword : ∀ key : CStr, (key.map tolower).getLast? = some 110 → ¬ strcasecmpEq (word ++ [13]) key := by
      intro key last same
      have end_ := congrArg List.getLast? same
      rw [List.map_append, List.map_singleton, List.getLast?_concat, last] at end_
      exact absurd (Option.some.inj end_) (by decide)
    have symbol : symbolToken (word ++ [13]) = .symbol (word ++ [13]) := by
      rw [symbolToken, whole [13] (by decide), if_neg (notKeyword _ (by decide)), if_neg (notKeyword _ (by decide))]
    have own : cText word = word := by simpa using whole [] (by simp)
    rw [symbol] at same
    unfold symbolToken at same
    rw [own] at same
    split at same
    · cases same
    · split at same
      · cases same
      · simpa using congrArg List.length (Token.symbol.inj same)

/-! ## Piece by piece -/

/-- The line ends of a text change its tokens exactly if a line ends bare. -/
def SameLexed (text : CStr) : Prop :=
  yylex (crlf text) = yylex text ↔ ∀ line ∈ lines text, ¬ BareEnd line

theorem not_bareEnd_nil : ¬ BareEnd [] := by decide

theorem forall_lines_cons {c : UInt8} (stop : isValueChar c = false) (text : CStr) :
    (∀ line ∈ lines (c :: text), ¬ BareEnd line) ↔ ∀ line ∈ lines text, ¬ BareEnd line := by
  by_cases end_ : c = 10
  · subst end_
    have split_ : lines (10 :: text) = [] :: lines text := @lines_append [] (by simp) text
    rw [split_, List.forall_mem_cons]
    exact and_iff_right not_bareEnd_nil
  · refine @forall_lines_append [c] (fun inside => end_ (List.mem_singleton.1 inside).symm) (fun line => ?_) text
    exact @bareEnd_append [] (by simp) (by simp) c stop line

theorem forall_lines_word {word tail : CStr} (value : ∀ c ∈ word, isValueChar c = true)
    (notComment : word.head? ≠ some 35) (stop : ∀ c ∈ tail.head?, isValueChar c = false) :
    (∀ line ∈ lines (word ++ tail), ¬ BareEnd line) ↔
      (tail.head? = some 10 → ¬ BareEnd word) ∧ ∀ line ∈ lines tail, ¬ BareEnd line := by
  have oneLine : 10 ∉ word := fun inside => absurd (value 10 inside) (by decide)
  cases tail with
  | nil =>
      rw [List.append_nil, lines_of_notMem oneLine, lines_of_notMem (by simp)]
      simp
  | cons c rest =>
      rw [forall_lines_cons (stop c rfl)]
      by_cases end_ : c = 10
      · subst end_
        rw [lines_append oneLine, List.forall_mem_cons]
        simp
      · have shape : word ++ c :: rest = word ++ [c] ++ rest := by simp
        have free : 10 ∉ word ++ [c] := by simp [oneLine, Ne.symm end_]
        rw [shape, forall_lines_append free fun line => by
          rw [List.append_assoc]
          exact bareEnd_append value notComment (stop c rfl) line]
        simp [end_]

/-- The bytes that are in no value. -/
theorem char_cases {c : UInt8} (stop : isValueChar c = false) : IsBlank c ∨ c = 13 ∨ c = 123 ∨ c = 125 := by
  have which := of_decide_eq_false stop
  simp only [not_not] at which
  rcases which with h | h | h | h | h | h
  · exact Or.inl (Or.inl h)
  · exact Or.inr (Or.inl h)
  · exact Or.inl (Or.inr (Or.inr h))
  · exact Or.inl (Or.inr (Or.inl h))
  · exact Or.inr (Or.inr (Or.inl h))
  · exact Or.inr (Or.inr (Or.inr h))

theorem crlf_cons {c : UInt8} (notEnd : c ≠ 10) (text : CStr) : crlf (c :: text) = c :: crlf text := by
  unfold crlf
  rw [List.flatMap_cons, if_neg notEnd]
  rfl

theorem crlf_end (text : CStr) : crlf (10 :: text) = 13 :: 10 :: crlf text := rfl

theorem yylex_blank_crlf {c : UInt8} (blank : IsBlank c) {text : CStr} (plain : 13 ∉ text) :
    yylex (c :: crlf text) = yylex (crlf text) := by
  cases text with
  | nil => exact yylex_blank_one blank fun b impossible => nomatch impossible
  | cons b text =>
      by_cases end_ : b = 10
      · subst end_
        have line : yylex (10 :: crlf text) = _ := yylex_blank (by decide)
        rw [crlf_end, yylex_return, line, yylex_blank blank, List.dropWhile_cons_of_pos (by decide),
          List.dropWhile_cons_of_pos (by decide)]
      · rw [crlf_cons end_]
        refine yylex_blank_one blank fun b' same => ?_
        obtain rfl := Option.some.inj same
        rintro rfl
        exact plain (List.mem_cons_self ..)

/-- A blank or a brace. -/
theorem SameLexed.cons {c : UInt8} {text : CStr} (same : SameLexed text) (stop : isValueChar c = false)
    (plain : 13 ∉ c :: text) : SameLexed (c :: text) := by
  obtain ⟨notReturn, behindPlain⟩ := not_or.1 (List.mem_cons.not.1 plain)
  have behind : ∀ b ∈ text.head?, b ≠ 13 := fun b head => by
    rintro rfl
    exact behindPlain (List.mem_of_mem_head? head)
  refine Iff.trans ?_ (same.trans (forall_lines_cons stop text).symm)
  rcases char_cases stop with blank | is | rfl | rfl
  · have skipped : yylex (crlf (c :: text)) = yylex (crlf text) := by
      by_cases end_ : c = 10
      · subst end_
        rw [crlf_end, yylex_return, yylex_blank_crlf blank behindPlain]
      · rw [crlf_cons end_, yylex_blank_crlf blank behindPlain]
    rw [skipped, yylex_blank_one blank behind]
  · exact absurd is.symm notReturn
  · rw [crlf_cons (by decide), yylex_lbranch, yylex_lbranch, List.cons_inj_right]
  · rw [crlf_cons (by decide), yylex_rbranch, yylex_rbranch, List.cons_inj_right]

/-- A comment, whose last byte may as well be a carriage return. -/
theorem SameLexed.comment {line text : CStr} (same : SameLexed text) (oneLine : 10 ∉ line) :
    SameLexed (35 :: (line ++ 10 :: text)) := by
  have free : 10 ∉ (35 :: line : CStr) := by simp [oneLine]
  have split_ : lines (35 :: (line ++ 10 :: text)) = (35 :: line) :: lines text := lines_append free text
  have returned : crlf (35 :: (line ++ 10 :: text)) = 35 :: ((line ++ [13]) ++ 10 :: crlf text) := by
    have whole := crlf_line free text
    simpa using whole
  have oneLine' : 10 ∉ line ++ [13] := by simp [oneLine]
  unfold SameLexed
  rw [split_, List.forall_mem_cons, returned, yylex_comment oneLine', yylex_comment oneLine]
  exact same.trans (and_iff_right (not_bareEnd_comment line)).symm

theorem crlf_head_stops {text : CStr} (stop : ∀ c ∈ text.head?, isValueChar c = false) :
    ∀ c ∈ (crlf text).head?, isValueChar c = false := by
  cases text with
  | nil => exact stop
  | cons b text =>
      by_cases end_ : b = 10
      · subst end_
        rintro c same
        obtain rfl := Option.some.inj same
        rfl
      · rw [crlf_cons end_]
        exact stop

/-- A word, which swallows the carriage return behind it if it is a keyword or a symbol. -/
theorem SameLexed.word {word text : CStr} (same : SameLexed text) (value : ∀ c ∈ word, isValueChar c = true)
    (nonempty : word ≠ []) (notComment : word.head? ≠ some 35) (stop : ∀ c ∈ text.head?, isValueChar c = false)
    (plain : 13 ∉ text) : SameLexed (word ++ text) := by
  have oneLine : 10 ∉ word := fun inside => absurd (value 10 inside) (by decide)
  have bare := bareEnd_word_iff value notComment nonempty
  unfold SameLexed
  rw [crlf_append, crlf_of_notMem oneLine, forall_lines_word value notComment stop]
  by_cases comma : 59 ∈ word
  · rw [yylex_word value comma notComment (crlf_head_stops stop), yylex_word value comma notComment stop,
      List.append_cancel_left_eq]
    exact same.trans (and_iff_right fun _ end_ => (bare.1 end_).1 comma).symm
  · have symbol : ∀ c ∈ word, isSymbolChar c = true := fun c inside =>
      isSymbolChar_of_value (value c inside) fun is => comma (is ▸ inside)
    have first : ∀ c ∈ word.head?, isValueChar c = true ∧ c ≠ 35 := fun c head =>
      ⟨value c (List.mem_of_mem_head? head), fun is => notComment (is ▸ head)⟩
    have symbolStop : ∀ {rest : CStr}, (∀ c ∈ rest.head?, isValueChar c = false) → rest.head? ≠ some 13 →
        ∀ c ∈ rest.head?, isSymbolChar c = false ∧ isValueChar c = false := by
      intro rest stop notReturn c head
      refine ⟨?_, stop c head⟩
      rcases char_cases (stop c head) with blank | rfl | rfl | rfl
      · exact blank.stops.1
      · exact absurd head notReturn
      · rfl
      · rfl
    have plainHead : text.head? ≠ some 13 := fun head => plain (List.mem_of_mem_head? head)
    rw [yylex_symbols nonempty symbol first (symbolStop stop plainHead)]
    by_cases end_ : text.head? = some 10
    · obtain ⟨rest, rfl⟩ : ∃ rest, text = 10 :: rest := by
        cases text with
        | nil => cases end_
        | cons c rest => exact ⟨rest, by rw [Option.some.inj end_]⟩
      have swallowed : yylex (word ++ crlf (10 :: rest)) = symbolToken (word ++ [13]) :: yylex (crlf (10 :: rest)) := by
        have shape : word ++ crlf (10 :: rest) = (word ++ [13]) ++ 10 :: crlf rest := by
          rw [crlf_end]
          simp
        have symbol' : ∀ c ∈ word ++ [13], isSymbolChar c = true := by
          intro c inside
          rcases List.mem_append.1 inside with inside | inside
          · exact symbol c inside
          · obtain rfl := List.mem_singleton.1 inside
            rfl
        rw [shape, yylex_symbols (by simp) symbol' (by rwa [List.head?_append_of_ne_nil _ nonempty]) fun c head => by
            obtain rfl := Option.some.inj head
            exact ⟨rfl, rfl⟩, crlf_end, yylex_return]
      have shows : ¬ BareEnd word ↔ symbolToken (word ++ [13]) = symbolToken word := by
        rw [symbolToken_return_iff, bare, not_and, not_not]
        exact imp_iff_right comma
      rw [swallowed, List.cons.injEq, ← shows]
      exact and_congr (imp_iff_right end_).symm same
    · have headStop : (crlf text).head? ≠ some 13 := by
        cases text with
        | nil => exact fun impossible => nomatch impossible
        | cons c rest =>
            rw [crlf_cons fun is => end_ (congrArg some is)]
            exact plainHead
      rw [yylex_symbols nonempty symbol first (symbolStop (crlf_head_stops stop) headStop), List.cons_inj_right]
      exact same.trans (and_iff_right fun is => absurd is end_).symm

/-- **When the line ends do not matter.**  The two texts have the same tokens exactly if
no line of the text ends bare. -/
theorem yylex_crlf_iff {text : CStr} (plain : 13 ∉ text) :
    yylex (crlf text) = yylex text ↔ ∀ line ∈ lines text, ¬ BareEnd line := by
  have walk : ∀ (length : Nat) (text : CStr), text.length = length → 13 ∉ text → SameLexed text := by
    intro length
    induction length using Nat.strong_induction_on with
    | _ length ih =>
        intro text size plain
        by_cases more : 10 ∈ text
        · obtain ⟨c, text, rfl⟩ := List.exists_cons_of_ne_nil (List.ne_nil_of_mem more)
          obtain ⟨-, plainRest⟩ := not_or.1 (List.mem_cons.not.1 plain)
          rw [List.length_cons] at size
          by_cases stop : isValueChar c = false
          · exact (ih text.length (by omega) text rfl plainRest).cons stop plain
          · rw [Bool.not_eq_false] at stop
            by_cases hash : c = 35
            · subst hash
              have later : 10 ∈ text := (List.mem_cons.1 more).resolve_left (by decide)
              obtain ⟨line, rest, rfl, oneLine⟩ := List.eq_append_cons_of_mem later
              rw [List.length_append, List.length_cons] at size
              refine (ih rest.length (by omega) rest rfl fun inside => plainRest ?_).comment oneLine
              exact List.mem_append_right _ (List.mem_cons_of_mem _ inside)
            · obtain ⟨word, rest, split_, value, behind⟩ := exists_word (c :: text)
              have head : word.head? = some c := by
                cases word with
                | nil =>
                    rw [List.nil_append] at split_
                    rw [← split_] at behind
                    exact absurd (behind c rfl) (by rw [stop]; decide)
                | cons b word => rw [(List.cons.inj split_).1]; rfl
              have nonempty : word ≠ [] := fun empty => by
                rw [empty] at head
                cases head
              have count := congrArg List.length split_
              have positive := List.length_pos_iff.2 nonempty
              rw [List.length_append, List.length_cons] at count
              have plainBehind : 13 ∉ rest := fun inside => plain (split_ ▸ List.mem_append_right _ inside)
              rw [split_]
              refine (ih rest.length (by omega) rest rfl plainBehind).word value nonempty ?_ behind plainBehind
              rw [head]
              exact fun same => hash (Option.some.inj same)
        · unfold SameLexed
          rw [crlf_of_notMem more, lines_of_notMem more]
          simp
  exact walk _ text rfl plain

/-- A pair, a brace and a comment at the ends of lines. -/
theorem yylex_crlf_pair : yylex (crlf (cstr "s \x7b\nsig_id 1;\n# a\n")) = yylex (cstr "s \x7b\nsig_id 1;\n# a\n") :=
  (yylex_crlf_iff (by decide)).2 (by decide)

/-- A keyword at the end of a line. -/
theorem keyword_swallows_return : ¬ ∀ text : CStr, 13 ∉ text → yylex (crlf text) = yylex text := by
  intro same
  have lexed := same (cstr "application\n") (by decide)
  have plain : yylex (cstr "application\n") = [.application] := rfl
  have returned : yylex (crlf (cstr "application\n")) = [.symbol (cstr "application\x0d")] := rfl
  rw [plain, returned] at lexed
  cases lexed

end Orchid
