/-
# RegexParse.TokeniserRuns -- what the tokeniser leaves

A step of the tokeniser only moves on in the text (`Moves`); parentheses, options and
quotes apart, it changes nothing else.  A token it has read is fine for the parser
(`TokenRead`), and the tokens of a rule are as the parser takes them
(`tokenise_tokenised`): sets are not empty, repetitions have bounds in order, and no
parenthesis is closed that is not open.
-/
import Orchid.RegexParse.Tokeniser

namespace Orchid

open Orchid.Theory

set_option autoImplicit false

/-! ## Moving on -/

namespace ReState

@[simp] theorem rest_setRest (rest : CStr) (state : ReState) : (state.setRest rest).rest = rest := rfl

@[simp] theorem flags_setRest (rest : CStr) (state : ReState) : (state.setRest rest).flags = state.flags := rfl

@[simp] theorem flagsStack_setRest (rest : CStr) (state : ReState) : (state.setRest rest).flagsStack = state.flagsStack := rfl

@[simp] theorem parenCount_setRest (rest : CStr) (state : ReState) : (state.setRest rest).parenCount = state.parenCount := rfl

@[simp] theorem inString_setRest (rest : CStr) (state : ReState) : (state.setRest rest).inString = state.inString := rfl

@[simp] theorem setRest_setRest (rest rest' : CStr) (state : ReState) :
    (state.setRest rest).setRest rest' = state.setRest rest' := rfl

@[simp] theorem rest_increment (state : ReState) : state.increment.rest = state.rest.tail := rfl

/-- Some of the text has been read, and nothing else has changed. -/
def Moves (state state' : ReState) : Prop := ∃ rest, rest <:+ state.rest ∧ state' = state.setRest rest

namespace Moves

variable {state state' state'' : ReState}

theorem refl (state : ReState) : Moves state state := ⟨state.rest, List.suffix_rfl, rfl⟩

theorem setRest {rest : CStr} (suffix_ : rest <:+ state.rest) : Moves state (state.setRest rest) := ⟨rest, suffix_, rfl⟩

theorem increment (state : ReState) : Moves state state.increment := setRest (List.tail_suffix _)

theorem trans (moves : Moves state state') (moves' : Moves state' state'') : Moves state state'' := by
  obtain ⟨rest, suffix_, rfl⟩ := moves
  obtain ⟨rest', suffix', rfl⟩ := moves'
  exact ⟨rest', suffix'.trans suffix_, rfl⟩

theorem cons {c : UInt8} {rest : CStr} (here : state.rest = c :: rest) : Moves state (state.setRest rest) :=
  setRest (by rw [here]; exact List.suffix_cons ..)

theorem length_le (moves : Moves state state') : state'.rest.length ≤ state.rest.length := by
  obtain ⟨rest, suffix_, rfl⟩ := moves
  exact suffix_.length_le

theorem parenCount (moves : Moves state state') : state'.parenCount = state.parenCount := by
  obtain ⟨rest, -, rfl⟩ := moves
  rfl

theorem suffix (moves : Moves state state') : state'.rest <:+ state.rest := by
  obtain ⟨rest, suffix_, rfl⟩ := moves
  exact suffix_

end Moves

end ReState

open ReState (Moves)

/-! ## Escapes and sets -/

theorem octalDigits_suffix : ∀ (count oct : Nat) (rest : CStr), (octalDigits count oct rest).2 <:+ rest := by
  intro count
  induction count with
  | zero => exact fun oct rest => List.suffix_rfl
  | succ count ih =>
      intro oct rest
      cases rest with
      | nil => exact List.suffix_rfl
      | cons c rest =>
          unfold octalDigits
          split
          · exact (ih _ rest).trans (List.suffix_cons ..)
          · exact List.suffix_rfl

theorem hexDigits_suffix (rest : CStr) : ∀ hex, (hexDigits hex rest).2 <:+ rest := by
  induction rest with
  | nil => exact fun hex => List.suffix_rfl
  | cons c rest ih =>
      intro hex
      unfold hexDigits
      split
      · exact (ih _).trans (List.suffix_cons ..)
      · exact List.suffix_rfl

section Reads

variable {state state' : ReState} {c b : UInt8}

theorem decodeOctal_moves (done : decodeOctal state = .ok (b, state')) : Moves state state' := by
  unfold decodeOctal at done
  dsimp only at done
  split at done
  · cases done
  · obtain ⟨-, rfl⟩ := Prod.mk.inj (Except.ok.inj done)
    exact Moves.setRest (octalDigits_suffix 3 0 state.rest)

theorem decodeControlChar_moves (done : decodeControlChar state = .ok (b, state')) : Moves state state' := by
  unfold decodeControlChar at done
  split at done
  · cases done
  · next here =>
    have moves := Moves.cons here
    split at done
    · obtain ⟨-, rfl⟩ := Prod.mk.inj (Except.ok.inj done)
      exact moves
    · split at done
      · obtain ⟨-, rfl⟩ := Prod.mk.inj (Except.ok.inj done)
        exact moves
      · split at done
        · obtain ⟨-, rfl⟩ := Prod.mk.inj (Except.ok.inj done)
          exact moves
        · cases done

theorem decodeHex_moves (done : decodeHex state = .ok (b, state')) : Moves state state' := by
  unfold decodeHex at done
  split at done
  · cases done
  · split at done
    · cases done
    · dsimp only at done
      split at done
      · cases done
      · obtain ⟨-, rfl⟩ := Prod.mk.inj (Except.ok.inj done)
        exact Moves.setRest (hexDigits_suffix state.rest 0)

theorem chr_moves (done : chr c state = .ok (b, state')) : Moves state state' := by
  have behind := Moves.increment state
  have plain : ∀ {d : UInt8}, Except.ok (d, state.increment) = (.ok (b, state') : Except String (UInt8 × ReState)) →
      Moves state state' := by
    intro d done
    obtain ⟨-, rfl⟩ := Prod.mk.inj (Except.ok.inj done)
    exact behind
  unfold chr at done
  dsimp only at done
  split at done
  · exact decodeOctal_moves done
  · split_ifs at done
    all_goals first
      | exact plain done
      | exact behind.trans (decodeControlChar_moves done)
      | exact behind.trans (decodeHex_moves done)

variable {unicode : Char → Char → CStr}

theorem unicodePart_moves {category : Category} {str : CStr} (done : unicodePart unicode category state = .ok (str, state')) :
    Moves state state' := by
  unfold unicodePart at done
  split at done
  · cases done
  · split at done
    · obtain ⟨-, rfl⟩ := Prod.mk.inj (Except.ok.inj done)
      exact Moves.refl state
    · split at done
      · cases done
      · obtain ⟨-, rfl⟩ := Prod.mk.inj (Except.ok.inj done)
        exact Moves.increment state

theorem unicodeCategory_moves {str : CStr} (done : unicodeCategory unicode state = .ok (str, state')) : Moves state state' := by
  unfold unicodeCategory at done
  split at done
  · cases done
  · split at done
    · cases done
    · exact (Moves.increment state).trans (unicodePart_moves done)

theorem unicodeEscape_moves {str : CStr} (done : unicodeEscape unicode state = .ok (str, state')) : Moves state state' := by
  unfold unicodeEscape at done
  dsimp only at done
  split at done
  · cases done
  · split at done
    · cases done
    · obtain ⟨⟨text, state3⟩, read, done⟩ := bind_ok done
      dsimp only at done
      split at done
      · obtain ⟨-, rfl⟩ := Prod.mk.inj (Except.ok.inj done)
        exact ((Moves.increment state).trans (Moves.increment _)).trans (unicodeCategory_moves read)
      · cases done

theorem charsetShortcut_moves {str : Option CStr} (done : charsetShortcut unicode c state = .ok (str, state')) :
    Moves state state' := by
  have plain : ∀ {str' : Option CStr}, Except.ok (str', state) = (.ok (str, state') : Except String (Option CStr × ReState)) →
      Moves state state' := by
    intro str' done
    obtain ⟨-, rfl⟩ := Prod.mk.inj (Except.ok.inj done)
    exact Moves.refl state
  unfold charsetShortcut at done
  split_ifs at done
  all_goals first
    | exact plain done
    | skip
  obtain ⟨found, escaped, same⟩ := map_ok done
  obtain ⟨-, rfl⟩ := Prod.mk.inj same
  exact unicodeEscape_moves escaped

theorem escapeSequence_moves {found : CStr ⊕ UInt8} (done : escapeSequence unicode state = .ok (found, state')) :
    Moves state state' := by
  unfold escapeSequence at done
  split at done
  · cases done
  · obtain ⟨⟨str, behind⟩, shortcut, done⟩ := bind_ok done
    have moves := charsetShortcut_moves shortcut
    cases str with
    | some str =>
        obtain ⟨-, rfl⟩ := Prod.mk.inj (Except.ok.inj done)
        exact moves.trans (Moves.increment _)
    | none =>
        obtain ⟨⟨d, state3⟩, read, done⟩ := bind_ok done
        obtain ⟨-, rfl⟩ := Prod.mk.inj (Except.ok.inj done)
        exact moves.trans (chr_moves read)

theorem consume_suffix (word : CStr) : ∀ rest, (consume word rest).1 <:+ rest := by
  induction word with
  | nil =>
      intro rest
      unfold consume
      exact List.suffix_rfl
  | cons n word ih =>
      intro rest
      cases rest with
      | nil => exact List.suffix_rfl
      | cons c rest =>
          unfold consume
          split
          · exact (ih rest).trans (List.suffix_cons ..)
          · exact List.suffix_rfl

theorem consumeWord_suffix (word : CStr) : ∀ rest, (consumeWord word rest).1 <:+ rest := by
  induction word with
  | nil =>
      intro rest
      unfold consumeWord
      exact List.suffix_rfl
  | cons n word ih =>
      intro rest
      cases rest with
      | nil => exact List.suffix_rfl
      | cons c rest =>
          unfold consumeWord
          split
          · exact (ih rest).trans (List.suffix_cons ..)
          · exact List.suffix_rfl

theorem alnumAlpha_suffix (rest : CStr) : (alnumAlpha rest).1 <:+ rest := by
  unfold alnumAlpha
  dsimp only
  split
  · exact consume_suffix _ rest
  · split <;> exact (consume_suffix _ _).trans (consume_suffix _ rest)

theorem printPunct_suffix (rest : CStr) : (printPunct rest).1 <:+ rest := by
  unfold printPunct
  dsimp only
  split <;> exact consume_suffix _ rest

theorem posixName_suffix {rest left : CStr} {str : Option CStr} (found : posixName c rest = some (left, str)) : left <:+ rest := by
  unfold posixName at found
  split at found
  · obtain ⟨rfl, -⟩ := Prod.mk.inj (Option.some.inj found)
    exact alnumAlpha_suffix rest
  · split at found
    · obtain ⟨rfl, -⟩ := Prod.mk.inj (Option.some.inj found)
      exact printPunct_suffix rest
    · obtain ⟨name, -, same⟩ := Option.map_eq_some_iff.1 found
      obtain ⟨rfl, -⟩ := Prod.mk.inj same
      exact consumeWord_suffix _ rest

section Sub

variable {sub : ReState → Except String StringToken} {token token' : StringToken}

theorem posixClose_moves {negate : Bool} {str : Option CStr} (done : posixClose sub negate str state token = .ok (token', state')) :
    Moves state state' := by
  unfold posixClose at done
  split at done
  · cases done
  · have colon : Moves state (if state.rest.head? = some (byte ':') then state.increment else state) := by
      split
      · exact Moves.increment state
      · exact Moves.refl state
    dsimp only at done
    generalize (if state.rest.head? = some (byte ':') then state.increment else state) = named at colon done
    split at done
    · obtain ⟨temp, -, done⟩ := bind_ok done
      obtain ⟨-, rfl⟩ := Prod.mk.inj (Except.ok.inj done)
      exact colon.trans (Moves.increment named)
    · cases done

theorem posix_moves (done : posix sub state token = .ok (token', state')) : Moves state state' := by
  unfold posix at done
  have negated : Moves state (if state.rest.head? = some (byte '^') then state.increment else state) := by
    split
    · exact Moves.increment state
    · exact Moves.refl state
  simp only at done
  generalize (if state.rest.head? = some (byte '^') then state.increment else state) = begun at negated done
  split at done
  · cases done
  · next first rest here =>
    split at done
    · cases done
    · next left str found =>
      refine negated.trans (Moves.trans (Moves.setRest ?_) (posixClose_moves done))
      rw [here]
      exact (posixName_suffix found).trans (List.suffix_cons ..)

end Sub

namespace CharsetReader

variable {reader : CharsetReader} {rest : CStr} {prev prev' : UInt8} {chset : Bool} {token token' : StringToken}

theorem rangeEnd_moves (here : state.rest = c :: rest) (done : reader.rangeEnd c rest state = .ok (b, state')) :
    Moves state state' := by
  have moves := Moves.cons here
  unfold rangeEnd at done
  split at done
  · obtain ⟨⟨found, behind⟩, escaped, done⟩ := bind_ok done
    cases found with
    | inl str => cases done
    | inr d =>
        obtain ⟨-, rfl⟩ := Prod.mk.inj (Except.ok.inj done)
        exact moves.trans (escapeSequence_moves escaped)
  · split at done
    · cases done
    · obtain ⟨-, rfl⟩ := Prod.mk.inj (Except.ok.inj done)
      exact moves

theorem range_moves (done : reader.range chset prev state token = .ok (state', token')) : Moves state state' := by
  unfold range at done
  split at done
  · cases done
  · dsimp only at done
    split at done
    · cases done
    · next d later here =>
      obtain ⟨⟨curr, behind⟩, read, done⟩ := bind_ok done
      dsimp only at done
      split at done
      · cases done
      · split at done
        · obtain ⟨rfl, -⟩ := Prod.mk.inj (Except.ok.inj done)
          exact (Moves.increment state).trans (rangeEnd_moves here read)
        · cases done

theorem start_moves {read : Read} (done : reader.start c rest prev state token = .ok read) :
    Moves (state.setRest rest) read.behind := by
  unfold start at done
  split at done
  · obtain ⟨⟨found, behind⟩, escaped, done⟩ := bind_ok done
    have moves := escapeSequence_moves escaped
    cases found with
    | inl str =>
        obtain ⟨temp, -, done⟩ := bind_ok done
        obtain rfl := Except.ok.inj done
        exact moves
    | inr d =>
        obtain rfl := Except.ok.inj done
        exact moves
  · split at done
    · obtain ⟨⟨token2, behind⟩, named, done⟩ := bind_ok done
      obtain rfl := Except.ok.inj done
      exact (Moves.increment _).trans (posix_moves named)
    · obtain rfl := Except.ok.inj done
      exact Moves.refl _

/-- A member takes at least its first byte. -/
theorem member_moves (done : reader.member c rest prev state token = .ok (state', prev', token')) :
    Moves (state.setRest rest) state' := by
  unfold member at done
  obtain ⟨⟨chset, prev2, behind, token2⟩, read, done⟩ := bind_ok done
  have moves : Moves (state.setRest rest) behind := start_moves read
  dsimp only at done
  split at done
  · cases done
  · split at done
    · obtain ⟨⟨state3, token3⟩, ranged, done⟩ := bind_ok done
      obtain ⟨rfl, -⟩ := Prod.mk.inj (Except.ok.inj done)
      exact moves.trans (range_moves ranged)
    · obtain ⟨rfl, -⟩ := Prod.mk.inj (Except.ok.inj done)
      exact moves

theorem members_moves {rounds : Nat} : ∀ {prev : UInt8} {state : ReState} {token : StringToken},
    reader.members rounds prev state token = .ok (state', token') → Moves state state' := by
  induction rounds with
  | zero =>
      intro prev state token done
      unfold members at done
      split at done
      · cases done
      · next c rest here =>
        split at done
        · obtain ⟨rfl, -⟩ := Prod.mk.inj (Except.ok.inj done)
          exact Moves.cons here
        · cases done
  | succ rounds ih =>
      intro prev state token done
      unfold members at done
      split at done
      · cases done
      · next c rest here =>
        split at done
        · obtain ⟨rfl, -⟩ := Prod.mk.inj (Except.ok.inj done)
          exact Moves.cons here
        · obtain ⟨⟨state2, prev2, token2⟩, read, done⟩ := bind_ok done
          exact ((Moves.cons here).trans (member_moves read)).trans (ih done)

/-- **A set that is read is not empty.** -/
theorem read_moves (done : reader.read state = .ok (token', state')) : Moves state state' ∧ token'.isEmpty = false := by
  unfold read at done
  split at done
  · cases done
  · next c rest here =>
    have negated : Moves state (if c = byte '^' then state.increment else state) := by
      split
      · exact Moves.increment state
      · exact Moves.refl state
    dsimp only at done
    generalize (if c = byte '^' then state.increment else state) = begun at negated done
    split at done
    · cases done
    · obtain ⟨⟨state2, token2⟩, members, done⟩ := bind_ok done
      dsimp only at done
      generalize (if c = byte '^' then token2.negate else token2) = set at done
      split at done
      · cases done
      · next nonempty =>
        obtain ⟨rfl, rfl⟩ := Prod.mk.inj (Except.ok.inj done)
        exact ⟨negated.trans (members_moves members), by simpa using nonempty⟩

end CharsetReader

theorem charset_moves {depth : Nat} {token : StringToken} (done : charset unicode depth state = .ok (token, state')) :
    Moves state state' ∧ token.isEmpty = false := by
  cases depth with
  | zero => cases done
  | succ depth => exact CharsetReader.read_moves done

end Reads

/-! ## Repetitions -/

theorem readDigits_spec (rest : CStr) : ∀ (v : Uint) (extra : CStr), ∃ ds left, rest = ds ++ left ∧
    (∀ c ∈ ds, isDecimal c = true) ∧ (∀ c later, left = c :: later → isDecimal c = false) ∧
      readDigits v extra rest = ((readNumber v ds).1, extra ++ ds, left) := by
  induction rest with
  | nil => exact fun v extra => ⟨[], [], rfl, by simp, by simp, by simp [readDigits, readNumber]⟩
  | cons c rest ih =>
      intro v extra
      by_cases digit : isDecimal c = true
      · obtain ⟨ds, left, rfl, digits, behind, done⟩ := ih (v * 10 + BitVec.ofNat 32 (c.toNat - 48)) (extra ++ [c])
        refine ⟨c :: ds, left, rfl, ?_, behind, ?_⟩
        · simpa [digit] using digits
        · rw [readDigits, if_pos digit, done, readNumber, if_pos digit]
          simp
      · refine ⟨[], c :: rest, rfl, by simp, ?_, ?_⟩
        · rintro d later same
          rw [← (List.cons.inj same).1]
          simpa using digit
        · rw [readDigits, if_neg digit, readNumber]
          simp

theorem readNumber_append {ds : CStr} (digits : ∀ c ∈ ds, isDecimal c = true) (left : CStr)
    (behind : ∀ c later, left = c :: later → isDecimal c = false) :
    ∀ v, readNumber v (ds ++ left) = ((readNumber v ds).1, left) := by
  induction ds with
  | nil =>
      intro v
      cases left with
      | nil => rfl
      | cons c left =>
          have notDigit : ¬ isDecimal c = true := by simp [behind c left rfl]
          simp [readNumber, notDigit]
  | cons c ds ih =>
      intro v
      have digit := digits c List.mem_cons_self
      rw [List.cons_append, readNumber, if_pos digit, readNumber, if_pos digit,
        ih fun d member => digits d (List.mem_cons_of_mem _ member)]

theorem not_isDecimal_comma : isDecimal comma = false := rfl

section Bounds

variable {ds ds' : CStr} (digits : ∀ c ∈ ds, isDecimal c = true)

include digits

theorem readRepeats_one : readRepeats ds = ⟨(readNumber 0 ds).1, false, 0⟩ := by
  have whole := readNumber_append digits [] (by simp) 0
  rw [List.append_nil] at whole
  unfold readRepeats
  rw [whole]
  rfl

theorem readRepeats_two : readRepeats (ds ++ comma :: ds') = ⟨(readNumber 0 ds).1, true, (readNumber 0 ds').1⟩ := by
  have whole := readNumber_append digits (comma :: ds') (by
    rintro c later same
    rw [← (List.cons.inj same).1]
    exact not_isDecimal_comma) 0
  unfold readRepeats
  rw [whole]
  simp

end Bounds

/-- The bounds of a repetition that is not short for something else, as the parser reads them. -/
def Bounded (min : Uint) (range : Repetition) : Prop :=
  readRepeats range.extra = ⟨min, false, 0⟩ ∧ range.max = 0 ∨
    readRepeats range.extra = ⟨min, true, 0⟩ ∧ min ≠ 0 ∨
      readRepeats range.extra = ⟨min, true, range.max⟩ ∧ range.minMax = true ∧ min ≠ range.max ∧ ¬ (min = 0 ∧ range.max = 1)

/-- What is read in braces, up to the closing one. -/
structure RangeRead (min : Uint) (range : Repetition) : Prop where
  short : ∀ type, range.short = some type → type = .zeroOrMore ∨ type = .oneOrMore ∨ type = .opt
  bounded : range.short = none → Bounded min range

section Repeat

variable {state state' : ReState} {min : Uint} {range : Repetition}

theorem repeatBehind_read {ds : CStr} (digits : ∀ c ∈ ds, isDecimal c = true) (value : min = (readNumber 0 ds).1)
    (done : repeatBehind min (ds ++ [comma]) state = .ok (range, state')) : Moves state state' ∧ RangeRead min range := by
  unfold repeatBehind at done
  split at done
  · cases done
  · split at done
    · obtain ⟨rfl, rfl⟩ := Prod.mk.inj (Except.ok.inj done)
      refine ⟨Moves.refl _, ⟨fun type short => ?_, fun none_ => ?_⟩⟩
      · dsimp only at short
        split_ifs at short
        · exact Or.inl (Option.some.inj short).symm
        · exact Or.inr (Or.inl (Option.some.inj short).symm)
      · dsimp only at none_
        split_ifs at none_ with zero one
        refine Or.inr (Or.inl ⟨?_, zero⟩)
        rw [readRepeats_two digits, ← value]
        rfl
    · split at done
      · cases done
      · next c rest here notClose digit =>
        obtain ⟨ds', left, whole, digits', -, read⟩ := readDigits_spec state.rest 0 (ds ++ [comma])
        have extra : ds ++ [comma] ++ ds' = ds ++ comma :: ds' := by simp
        have two := @readRepeats_two ds ds' digits
        have moves : Moves state (state.setRest left) := Moves.setRest (by rw [whole]; exact List.suffix_append ..)
        rw [← value] at two
        rw [read] at done
        dsimp only at done
        split at done
        · cases done
        · split at done
          · obtain ⟨rfl, rfl⟩ := Prod.mk.inj (Except.ok.inj done)
            exact ⟨moves, fun type short => Or.inr (Or.inr (Option.some.inj short).symm), fun none_ => by cases none_⟩
          · next notOpt =>
            split at done
            · obtain ⟨rfl, rfl⟩ := Prod.mk.inj (Except.ok.inj done)
              refine ⟨moves, fun type short => (by cases short), fun _ => Or.inl ⟨?_, rfl⟩⟩
              have front : (ds ++ [comma] ++ ds').takeWhile (· ≠ comma) = ds := by
                rw [extra, List.takeWhile_append_of_pos]
                · simp
                · intro c member
                  have digit := digits c member
                  by_contra same
                  have : c = comma := by simpa using same
                  rw [this, not_isDecimal_comma] at digit
                  cases digit
              show readRepeats ((ds ++ [comma] ++ ds').takeWhile (· ≠ comma)) = _
              rw [front, readRepeats_one digits, value]
            · next differ =>
              obtain ⟨rfl, rfl⟩ := Prod.mk.inj (Except.ok.inj done)
              refine ⟨moves, fun type short => (by cases short), fun _ => Or.inr (Or.inr ⟨?_, rfl, differ, notOpt⟩)⟩
              show readRepeats (ds ++ [comma] ++ ds') = _
              rw [extra, two]

theorem repeatFront_read (done : repeatFront state = .ok (min, range, state')) : Moves state state' ∧ RangeRead min range := by
  obtain ⟨ds, left, whole, digits, -, read⟩ := readDigits_spec state.rest 0 []
  have moves : Moves state (state.setRest left) := Moves.setRest (by rw [whole]; exact List.suffix_append ..)
  unfold repeatFront at done
  rw [read] at done
  dsimp only at done
  split at done
  · cases done
  · split at done
    · obtain ⟨⟨range', state2⟩, behind, done⟩ := bind_ok done
      obtain ⟨rfl, same⟩ := Prod.mk.inj (Except.ok.inj done)
      obtain ⟨rfl, rfl⟩ := Prod.mk.inj same
      rw [List.nil_append] at behind
      obtain ⟨moves', range_⟩ := repeatBehind_read digits rfl behind
      exact ⟨(moves.trans (Moves.increment _)).trans moves', range_⟩
    · obtain ⟨rfl, same⟩ := Prod.mk.inj (Except.ok.inj done)
      obtain ⟨rfl, rfl⟩ := Prod.mk.inj same
      refine ⟨moves, fun type short => (by cases short), fun _ => Or.inl ⟨?_, rfl⟩⟩
      rw [List.nil_append]
      exact readRepeats_one digits

end Repeat

/-! ## Tokens -/

/-- What is known of a token that has been read. -/
structure TokenRead (state : ReState) (t : ReToken) (state' : ReState) : Prop where
  kind : t.type = .end_ ∨ t.type = .diff ∨ t.type.isTerminal = true ∨ t.type.isDup = true
  fine : t.Fine
  count : state'.parenCount =
    state.parenCount + (if t.type = .openparen then 1 else 0) - (if t.type = .closeparen then 1 else 0)
  closes : t.type = .closeparen → 0 ≤ state'.parenCount
  ends : t.type = .end_ → state'.parenCount = 0
  suffix : state'.rest <:+ state.rest

theorem ReToken.fine_of_type {t : ReToken} (notSet : t.type ≠ .charset) (notRepeat : t.type ≠ .repeatn)
    (notLazy : t.type ≠ .arepeatn) : t.Fine where
  nonempty type := absurd type notSet
  valid type := type.elim (fun same => absurd same notRepeat) fun same => absurd same notLazy

theorem ReToken.fine_ofSet {str : StringToken} (member : ∃ b, b ∈ str) : (ReToken.ofSet str).Fine where
  nonempty _ := member
  valid type := by
    rcases type with type | type <;> cases type

theorem exists_mem_of_isEmpty {str : StringToken} (nonempty : str.isEmpty = false) : ∃ b, b ∈ str := by
  by_contra none_
  have empty := StringToken.isEmpty_iff.2 fun b member => none_ ⟨b, member⟩
  rw [nonempty] at empty
  cases empty

section Token

variable {state state' : ReState} {t : ReToken}

/-- A token that leaves the parentheses alone. -/
theorem TokenRead.of_moves (moves : Moves state state') (kind : t.type = .diff ∨ t.type.isTerminal = true ∨ t.type.isDup = true)
    (notOpen : t.type ≠ .openparen) (notClose : t.type ≠ .closeparen) (fine : t.Fine) : TokenRead state t state' where
  kind := Or.inr kind
  fine := fine
  count := by simp [notOpen, notClose, moves.parenCount]
  closes type := absurd type notClose
  ends type := by
    rw [type] at kind
    rcases kind with diff | terminal | dup
    · cases diff
    · cases terminal
    · cases dup
  suffix := moves.suffix

theorem TokenRead.ofSet {str : StringToken} (moves : Moves state state') (nonempty : ∃ b, b ∈ str) :
    TokenRead state (.ofSet str) state' := by
  apply TokenRead.of_moves moves (Or.inr (Or.inl rfl))
  · exact fun type => by cases type
  · exact fun type => by cases type
  · exact ReToken.fine_ofSet nonempty

theorem readLazy_moves (type : TokenType) : Moves state (state.readLazy type).2 := by
  unfold ReState.readLazy
  split
  · exact Moves.increment state
  · exact Moves.refl state

/-- The quantifiers that may get a `?`. -/
def TokenType.IsGreedy (type : TokenType) : Prop := type = .opt ∨ type = .zeroOrMore ∨ type = .oneOrMore ∨ type = .repeatn

theorem readLazy_type (type : TokenType) :
    (state.readLazy type).1 = type ∨ (state.readLazy type).1 = type.lazy_ := by
  unfold ReState.readLazy
  split
  · exact Or.inr rfl
  · exact Or.inl rfl

/-- A quantifier, with its `?` if there is one. -/
theorem TokenRead.readLazy {type : TokenType} {extra : CStr} (greedy : type.IsGreedy)
    (valid : type = .repeatn → (readRepeats extra).Valid) (moves : Moves state state') :
    TokenRead state ⟨(state'.readLazy type).1, extra, .empty⟩ (state'.readLazy type).2 := by
  have types : (state'.readLazy type).1 = type ∨ (state'.readLazy type).1 = type.lazy_ := readLazy_type type
  apply TokenRead.of_moves (moves.trans (readLazy_moves type)) (Or.inr (Or.inr _))
  · rcases types with same | same <;> rw [same] <;> rcases greedy with rfl | rfl | rfl | rfl <;> exact TokenType.noConfusion
  · rcases types with same | same <;> rw [same] <;> rcases greedy with rfl | rfl | rfl | rfl <;> exact TokenType.noConfusion
  · refine ⟨fun set => ?_, fun repeats => valid ?_⟩
    · rcases types with same | same <;> rw [same] at set <;> rcases greedy with rfl | rfl | rfl | rfl <;> cases set
    · rcases types with same | same <;> rw [same] at repeats <;> rcases greedy with rfl | rfl | rfl | rfl <;>
        first | rfl | (rcases repeats with type | type <;> cases type)
  · rcases types with same | same <;> rw [same] <;> rcases greedy with rfl | rfl | rfl | rfl <;> rfl

/-- The checks behind the closing brace leave the bounds in order. -/
theorem Bounded.valid {min : Uint} {range : Repetition} (bounded : Bounded min range) (nonempty : ¬ (min = 0 ∧ range.max = 0))
    (ordered : ¬ (range.minMax = true ∧ range.max < min)) : (readRepeats range.extra).Valid := by
  rcases bounded with ⟨read, zero⟩ | ⟨read, notZero⟩ | ⟨read, minMax, differ, notOpt⟩
  · rw [read]
    exact ⟨Or.inl fun none_ => nonempty ⟨none_, zero⟩, fun told => by cases told⟩
  · rw [read]
    exact ⟨Or.inl notZero, fun _ not => absurd rfl not⟩
  · rw [read]
    have notLess : ¬ range.max < min := fun less => ordered ⟨minMax, less⟩
    constructor
    · by_cases zero : min = 0
      · refine Or.inr ⟨rfl, ?_⟩
        have notZero : range.max ≠ 0 := fun none_ => nonempty ⟨zero, none_⟩
        have notOne : range.max ≠ 1 := fun one => notOpt ⟨zero, one⟩
        show 2#32 ≤ range.max
        bv_omega
      · exact Or.inl zero
    · intro _ _
      show min < range.max
      bv_omega

theorem repeatN_read (done : repeatN state = .ok (t, state')) : TokenRead state t state' := by
  unfold repeatN at done
  obtain ⟨⟨min, range, state2⟩, front, done⟩ := bind_ok done
  obtain ⟨moves, read⟩ := repeatFront_read front
  dsimp only at done
  split at done
  · have moves2 := moves.trans (Moves.increment state2)
    unfold repeatEnd at done
    split at done
    · next type short =>
      obtain ⟨rfl, rfl⟩ := Prod.mk.inj (Except.ok.inj done)
      have types := read.short type short
      refine TokenRead.readLazy ?_ (fun repeats => ?_) moves2
      · rcases types with rfl | rfl | rfl
        · exact Or.inr (Or.inl rfl)
        · exact Or.inr (Or.inr (Or.inl rfl))
        · exact Or.inl rfl
      · rw [repeats] at types
        rcases types with type | type | type <;> cases type
    · next short =>
      split at done
      · cases done
      · next nonempty =>
        split at done
        · cases done
        · next ordered =>
          obtain ⟨rfl, rfl⟩ := Prod.mk.inj (Except.ok.inj done)
          exact TokenRead.readLazy (Or.inr (Or.inr (Or.inr rfl))) (fun _ => (read.bounded short).valid nonempty ordered) moves2
  · cases done

theorem macro_read (done : macro_ state = .ok (t, state')) : TokenRead state t state' := by
  unfold macro_ at done
  split at done
  · cases done
  · next c rest here =>
    split at done
    · cases done
    · dsimp only at done
      split at done
      · cases done
      · next d later there =>
        split at done
        · obtain ⟨rfl, rfl⟩ := Prod.mk.inj (Except.ok.inj done)
          have name : Moves state (state.setRest (rest.dropWhile isName)) :=
            Moves.setRest (by rw [here]; exact (List.dropWhile_suffix _).trans (List.suffix_cons ..))
          have moves : Moves state ((state.setRest (rest.dropWhile isName)).setRest later) := name.trans (Moves.cons there)
          apply TokenRead.of_moves moves (Or.inr (Or.inl rfl))
          · exact fun type => by cases type
          · exact fun type => by cases type
          · exact ReToken.fine_of_type (fun type => by cases type) (fun type => by cases type) fun type => by cases type
        · cases done

theorem openCurly_read {lhs : ReToken} (done : openCurly lhs state = .ok (t, state')) : TokenRead state t state' := by
  unfold openCurly at done
  split at done
  · cases done
  · next c rest here =>
    split at done
    · split at done
      · cases done
      · split at done
        · cases done
        · split at done
          · cases done
          · next later _ =>
            obtain ⟨rfl, rfl⟩ := Prod.mk.inj (Except.ok.inj done)
            have moves : Moves state (state.setRest later) := Moves.setRest (by
              rw [here]
              exact (List.suffix_cons ..).trans (List.suffix_cons ..))
            apply TokenRead.of_moves moves (Or.inl rfl)
            · exact fun type => by cases type
            · exact fun type => by cases type
            · exact ReToken.fine_of_type (fun type => by cases type) (fun type => by cases type) fun type => by cases type
    · split at done
      · exact repeatN_read done
      · exact macro_read done

variable {unicode : Char → Char → CStr}

theorem escape_read (done : escape unicode state = .ok (t, state')) : TokenRead state t state' := by
  unfold escape at done
  obtain ⟨⟨found, state2⟩, escaped, done⟩ := bind_ok done
  have moves := escapeSequence_moves escaped
  cases found with
  | inl str =>
      obtain ⟨⟨set, _⟩, read, done⟩ := bind_ok done
      obtain ⟨rfl, rfl⟩ := Prod.mk.inj (Except.ok.inj done)
      exact TokenRead.ofSet moves (exists_mem_of_isEmpty (charset_moves read).2)
  | inr c =>
      obtain ⟨rfl, rfl⟩ := Prod.mk.inj (Except.ok.inj done)
      exact TokenRead.ofSet moves ⟨c, StringToken.mem_one.2 rfl⟩

theorem optionLoop_read (rest : CStr) : ∀ (negate : Bool) {state : ReState}, ReState.optionLoop rest negate state = .ok state' →
    state'.parenCount = state.parenCount ∧ state'.rest <:+ rest := by
  induction rest with
  | nil =>
      intro negate state done
      obtain rfl := Except.ok.inj done
      exact ⟨rfl, List.suffix_rfl⟩
  | cons c rest ih =>
      intro negate state done
      have more : ∀ {negate : Bool} {state2 : ReState}, ReState.optionLoop rest negate state2 = .ok state' →
          state2.parenCount = state.parenCount → state'.parenCount = state.parenCount ∧ state'.rest <:+ c :: rest := by
        intro negate state2 done count
        obtain ⟨count', suffix_⟩ := ih negate done
        exact ⟨count'.trans count, suffix_.trans (List.suffix_cons ..)⟩
      unfold ReState.optionLoop at done
      split at done
      · obtain rfl := Except.ok.inj done
        exact ⟨rfl, List.suffix_cons ..⟩
      · split at done
        · exact more done rfl
        · split at done
          · exact more done rfl
          · split at done
            · exact more done rfl
            · split at done
              · exact more done rfl
              · cases done

theorem readOptions_read (done : state.readOptions = .ok state') :
    state'.parenCount = state.parenCount ∧ state'.rest <:+ state.rest := by
  unfold ReState.readOptions at done
  split at done
  · next c rest here =>
    split at done
    · obtain ⟨count, suffix_⟩ := optionLoop_read rest false done
      exact ⟨count, by rw [here]; exact suffix_.trans (List.suffix_cons ..)⟩
    · split at done <;> obtain rfl := Except.ok.inj done <;> exact ⟨rfl, List.suffix_rfl⟩
  · split at done <;> obtain rfl := Except.ok.inj done <;> exact ⟨rfl, List.suffix_rfl⟩

theorem exists_mem_insertFolded (flags : Nat) (range : ByteRange) (token : StringToken) (c : UInt8) (inside : range.has c.toNat) :
    c ∈ insertFolded flags range token := by
  unfold insertFolded
  dsimp only
  have here : c ∈ token.insert range := StringToken.mem_insert.2 (Or.inl inside)
  split
  · exact StringToken.mem_insertToken.2 (Or.inr here)
  · exact here

theorem ReToken.fine_ofType {type : TokenType} (other : type ≠ .charset ∧ type ≠ .repeatn ∧ type ≠ .arepeatn) :
    (ReToken.ofType type).Fine := ReToken.fine_of_type other.1 other.2.1 other.2.2

theorem openparen_read (done : ({ state with parenCount := state.parenCount + 1 } : ReState).readOptions = .ok state') :
    TokenRead state (.ofType .openparen) state' := by
  obtain ⟨count, suffix_⟩ := readOptions_read done
  refine ⟨Or.inr (Or.inr (Or.inl rfl)), ReToken.fine_ofType (by decide), ?_, TokenType.noConfusion, TokenType.noConfusion, suffix_⟩
  rw [count]
  simp [ReToken.ofType]

theorem closeparen_read (notBelow : ¬ state.parenCount - 1 < 0) (count : state'.parenCount = state.parenCount - 1)
    (suffix_ : state'.rest <:+ state.rest) : TokenRead state (.ofType .closeparen) state' := by
  refine ⟨Or.inr (Or.inr (Or.inl rfl)), ReToken.fine_ofType (by decide), ?_, fun _ => ?_, TokenType.noConfusion, suffix_⟩
  · rw [count]
    simp [ReToken.ofType]
  · rw [count]
    exact Int.not_lt.1 notBelow

/-- A token without a set. -/
theorem TokenRead.ofType {type : TokenType} (moves : Moves state state') (terminal : type.isTerminal = true)
    (notOpen : type ≠ .openparen) (notClose : type ≠ .closeparen) (other : type ≠ .charset ∧ type ≠ .repeatn ∧ type ≠ .arepeatn) :
    TokenRead state (.ofType type) state' :=
  TokenRead.of_moves moves (Or.inr (Or.inl terminal)) notOpen notClose (ReToken.fine_ofType other)

theorem meta_read {lhs : ReToken} {c : UInt8} (done : meta_ unicode lhs c state = .ok (t, state')) : TokenRead state t state' := by
  have refl := Moves.refl state
  unfold meta_ at done
  by_cases open_ : c = byte '('
  · rw [if_pos open_] at done
    obtain ⟨state2, read, done⟩ := bind_ok done
    obtain ⟨rfl, rfl⟩ := Prod.mk.inj (Except.ok.inj done)
    exact openparen_read read
  rw [if_neg open_] at done
  by_cases close : c = byte ')'
  · rw [if_pos close] at done
    dsimp only at done
    by_cases below : state.parenCount - 1 < 0
    · rw [if_pos below] at done
      cases done
    · rw [if_neg below] at done
      split at done
      all_goals
        obtain ⟨rfl, rfl⟩ := Prod.mk.inj (Except.ok.inj done)
        exact closeparen_read below rfl List.suffix_rfl
  rw [if_neg close] at done
  by_cases opt : c = byte '?'
  · rw [if_pos opt] at done
    obtain ⟨rfl, rfl⟩ := Prod.mk.inj (Except.ok.inj done)
    exact TokenRead.readLazy (Or.inl rfl) (fun type => by cases type) refl
  rw [if_neg opt] at done
  by_cases star : c = byte '*'
  · rw [if_pos star] at done
    obtain ⟨rfl, rfl⟩ := Prod.mk.inj (Except.ok.inj done)
    exact TokenRead.readLazy (Or.inr (Or.inl rfl)) (fun type => by cases type) refl
  rw [if_neg star] at done
  by_cases plus : c = byte '+'
  · rw [if_pos plus] at done
    obtain ⟨rfl, rfl⟩ := Prod.mk.inj (Except.ok.inj done)
    exact TokenRead.readLazy (Or.inr (Or.inr (Or.inl rfl))) (fun type => by cases type) refl
  rw [if_neg plus] at done
  by_cases curly : c = byte '\x7b'
  · rw [if_pos curly] at done
    exact openCurly_read done
  rw [if_neg curly] at done
  by_cases or_ : c = byte '|'
  · rw [if_pos or_] at done
    obtain ⟨rfl, rfl⟩ := Prod.mk.inj (Except.ok.inj done)
    exact TokenRead.ofType refl rfl (by decide) (by decide) (by decide)
  rw [if_neg or_] at done
  by_cases bol : c = byte '^'
  · rw [if_pos bol] at done
    obtain ⟨rfl, rfl⟩ := Prod.mk.inj (Except.ok.inj done)
    split
    · exact TokenRead.ofType refl rfl (by decide) (by decide) (by decide)
    · exact TokenRead.ofSet refl ⟨c, StringToken.mem_one.2 rfl⟩
  rw [if_neg bol] at done
  by_cases eol : c = byte '$'
  · rw [if_pos eol] at done
    obtain ⟨rfl, rfl⟩ := Prod.mk.inj (Except.ok.inj done)
    split
    · exact TokenRead.ofType refl rfl (by decide) (by decide) (by decide)
    · exact TokenRead.ofSet refl ⟨c, StringToken.mem_one.2 rfl⟩
  rw [if_neg eol] at done
  by_cases dot : c = byte '.'
  · rw [if_pos dot] at done
    obtain ⟨rfl, rfl⟩ := Prod.mk.inj (Except.ok.inj done)
    refine TokenRead.ofSet refl ⟨0, StringToken.mem_negate.2 ?_⟩
    split
    · rw [StringToken.mem_one]
      decide
    · exact StringToken.not_mem_empty 0
  rw [if_neg dot] at done
  by_cases open2 : c = byte '['
  · rw [if_pos open2] at done
    obtain ⟨⟨set, state2⟩, read, done⟩ := bind_ok done
    obtain ⟨rfl, rfl⟩ := Prod.mk.inj (Except.ok.inj done)
    exact TokenRead.ofSet (charset_moves read).1 (exists_mem_of_isEmpty (charset_moves read).2)
  rw [if_neg open2] at done
  by_cases slash : c = byte '/'
  · rw [if_pos slash] at done
    cases done
  rw [if_neg slash] at done
  obtain ⟨rfl, rfl⟩ := Prod.mk.inj (Except.ok.inj done)
  exact TokenRead.ofSet refl ⟨c, exists_mem_insertFolded _ _ _ _ ⟨Nat.le_refl _, Nat.le_refl _⟩⟩

/-! ## What is skipped -/

theorem quotes_suffix (text : CStr) : ∀ inString, (quotes text inString).1 <:+ text := by
  induction text with
  | nil => exact fun _ => List.suffix_rfl
  | cons c rest ih =>
      intro inString
      unfold quotes
      split
      · exact (ih _).trans (List.suffix_cons ..)
      · exact List.suffix_rfl

theorem commentEnd_suffix {text : CStr} : ∀ {parenCount : Nat} {rest : CStr}, commentEnd parenCount text = some rest →
    rest <:+ text := by
  induction text with
  | nil =>
      intro parenCount rest found
      cases found
  | cons c text ih =>
      intro parenCount rest found
      unfold commentEnd at found
      dsimp only at found
      generalize (if c = byte '(' then parenCount + 1 else if c = byte ')' then parenCount - 1 else parenCount) = count at found
      split at found
      · obtain rfl := Option.some.inj found
        exact List.suffix_cons ..
      · exact (ih found).trans (List.suffix_cons ..)

theorem cCommentEnd_suffix {text rest : CStr} (found : cCommentEnd text = some rest) : rest <:+ text := by
  induction text with
  | nil => cases found
  | cons c text ih =>
      unfold cCommentEnd at found
      split at found
      · obtain rfl := Option.some.inj found
        exact (List.tail_suffix _).trans (List.suffix_cons ..)
      · exact (ih found).trans (List.suffix_cons ..)

theorem comment_moves {commented : Bool} (done : state.comment = .ok (commented, state')) : Moves state state' := by
  unfold ReState.comment at done
  split at done
  · split at done
    · cases done
    · next rest found =>
      obtain ⟨-, rfl⟩ := Prod.mk.inj (Except.ok.inj done)
      exact Moves.setRest ((commentEnd_suffix found).trans (List.drop_suffix ..))
  · obtain ⟨-, rfl⟩ := Prod.mk.inj (Except.ok.inj done)
    exact Moves.refl state

theorem skipLoop_moves {rounds : Nat} : ∀ {skipped : Bool} {state : ReState}, ReState.skipLoop rounds state = .ok (skipped, state') →
    Moves state state' := by
  induction rounds with
  | zero =>
      intro skipped state done
      obtain ⟨-, rfl⟩ := Prod.mk.inj (Except.ok.inj done)
      exact Moves.refl state
  | succ rounds ih =>
      intro skipped state done
      unfold ReState.skipLoop at done
      split at done
      · obtain ⟨-, rfl⟩ := Prod.mk.inj (Except.ok.inj done)
        exact Moves.refl state
      · next c rest here =>
        split at done
        · split at done
          · cases done
          · next later found =>
            obtain ⟨⟨_, state2⟩, looped, done⟩ := bind_ok done
            obtain ⟨-, rfl⟩ := Prod.mk.inj (Except.ok.inj done)
            refine (Moves.setRest ?_).trans (ih looped)
            rw [here]
            exact ((cCommentEnd_suffix found).trans (List.tail_suffix _)).trans (List.suffix_cons ..)
        · split at done
          · obtain ⟨⟨_, state2⟩, looped, done⟩ := bind_ok done
            obtain ⟨-, rfl⟩ := Prod.mk.inj (Except.ok.inj done)
            exact (Moves.cons here).trans (ih looped)
          · obtain ⟨-, rfl⟩ := Prod.mk.inj (Except.ok.inj done)
            exact Moves.refl state

theorem skip_moves {skipped : Bool} (done : state.skip = .ok (skipped, state')) : Moves state state' := by
  unfold ReState.skip at done
  split at done
  · exact skipLoop_moves done
  · obtain ⟨-, rfl⟩ := Prod.mk.inj (Except.ok.inj done)
    exact Moves.refl state

/-- What is skipped is no parenthesis; quotes may begin or end. -/
theorem skipAll_read {rounds : Nat} : ∀ {state : ReState}, ReState.skipAll rounds state = .ok state' →
    state'.parenCount = state.parenCount ∧ state'.rest <:+ state.rest := by
  induction rounds with
  | zero =>
      intro state done
      unfold ReState.skipAll at done
      obtain ⟨⟨commented, state2⟩, comment, done⟩ := bind_ok done
      obtain ⟨⟨skipped, state3⟩, skip, done⟩ := bind_ok done
      dsimp only at done
      split at done
      · cases done
      · obtain rfl := Except.ok.inj done
        have moves := (comment_moves comment).trans (skip_moves skip)
        exact ⟨moves.parenCount, moves.suffix.trans (quotes_suffix state.rest state.inString)⟩
  | succ rounds ih =>
      intro state done
      unfold ReState.skipAll at done
      obtain ⟨⟨commented, state2⟩, comment, done⟩ := bind_ok done
      obtain ⟨⟨skipped, state3⟩, skip, done⟩ := bind_ok done
      have moves := (comment_moves comment).trans (skip_moves skip)
      have behind := moves.suffix.trans (quotes_suffix state.rest state.inString)
      dsimp only at done
      split at done
      · obtain ⟨count, suffix_⟩ := ih done
        exact ⟨count.trans moves.parenCount, suffix_.trans behind⟩
      · obtain rfl := Except.ok.inj done
        exact ⟨moves.parenCount, behind⟩

/-- **What is known of every token**; each one but the last takes some of the text. -/
theorem next_read {lhs : ReToken} (done : next unicode lhs state = .ok (t, state')) :
    TokenRead state t state' ∧ (t.type ≠ .end_ → state'.rest.length < state.rest.length) := by
  unfold next at done
  obtain ⟨state2, skipped, done⟩ := bind_ok done
  obtain ⟨count, behind⟩ := skipAll_read skipped
  split at done
  · split at done
    · cases done
    · split at done
      · cases done
      · next zero =>
        obtain ⟨rfl, rfl⟩ := Prod.mk.inj (Except.ok.inj done)
        have none_ : state2.parenCount = 0 := by simpa using zero
        refine ⟨⟨Or.inl rfl, ReToken.fine_ofType (by decide), ?_, TokenType.noConfusion, fun _ => none_, behind⟩,
          fun more => absurd rfl more⟩
        simp [ReToken.ofType, count]
  · next c rest here =>
    have start : TokenRead (state2.setRest rest) t state' →
        TokenRead state t state' ∧ (t.type ≠ .end_ → state'.rest.length < state.rest.length) := by
      intro read
      have suffix_ : state'.rest <:+ state2.rest := by
        rw [here]
        exact read.suffix.trans (List.suffix_cons ..)
      refine ⟨⟨read.kind, read.fine, ?_, read.closes, read.ends, suffix_.trans behind⟩, fun _ => ?_⟩
      · rw [← count]
        exact read.count
      · have less : state'.rest.length < state2.rest.length := by
          rw [here]
          exact Nat.lt_succ_of_le read.suffix.length_le
        exact Nat.lt_of_lt_of_le less behind.length_le
    dsimp only at done
    split at done
    · exact start (escape_read done)
    · split at done
      · obtain ⟨rfl, rfl⟩ := Prod.mk.inj (Except.ok.inj done)
        exact start (TokenRead.ofSet (Moves.refl _) ⟨c, StringToken.mem_one.2 rfl⟩)
      · exact start (meta_read done)

end Token

/-! ## The tokens of a rule -/

/-- No parenthesis is closed that is not open. -/
def Balanced (tokens : List ReToken) : Prop := ∀ u, u <+: tokens → closes u ≤ opens u

theorem balanced_snoc {tokens : List ReToken} {t : ReToken} :
    Balanced (tokens ++ [t]) ↔ Balanced tokens ∧ closes (tokens ++ [t]) ≤ opens (tokens ++ [t]) := by
  unfold Balanced
  simp only [List.prefix_concat_iff]
  constructor
  · exact fun all => ⟨fun u front => all u (Or.inr front), all _ (Or.inl rfl)⟩
  · rintro ⟨front, whole⟩ u (rfl | inside)
    · exact whole
    · exact front u inside

/-- What is known of the tokens behind the first one, when so many parentheses are open. -/
structure Kept (count : Int) (tokens : List ReToken) : Prop where
  input : ∀ t ∈ tokens, t.type.isTerminal = true ∨ t.type.isDup = true
  fine : ∀ t ∈ tokens, t.Fine
  count : count = opens tokens - closes tokens
  balanced : Balanced tokens

namespace Kept

variable {count : Int} {tokens : List ReToken} {t : ReToken} {state state' : ReState}

theorem nil : Kept 0 [] where
  input := by simp
  fine := by simp
  count := rfl
  balanced u front := by simp [List.prefix_nil.1 front]

/-- A set that takes the place of the last one. -/
theorem replace {s : ReToken} (kept : Kept count (tokens ++ [t])) (type : s.type = t.type) (fine : t.Fine → s.Fine) :
    Kept count (tokens ++ [s]) where
  input u member := by
    rcases List.mem_append.1 member with there | here
    · exact kept.input u (List.mem_append_left _ there)
    · rw [List.mem_singleton.1 here, type]
      exact kept.input t (by simp)
  fine u member := by
    rcases List.mem_append.1 member with there | here
    · exact kept.fine u (List.mem_append_left _ there)
    · rw [List.mem_singleton.1 here]
      exact fine (kept.fine t (by simp))
  count := by
    rw [kept.count]
    simp [opens, closes, type]
  balanced := by
    obtain ⟨front, whole⟩ := balanced_snoc.1 kept.balanced
    refine balanced_snoc.2 ⟨front, ?_⟩
    simpa [opens, closes, type] using whole

theorem snoc (kept : Kept state.parenCount tokens) (read : TokenRead state t state')
    (kind : t.type.isTerminal = true ∨ t.type.isDup = true) : Kept state'.parenCount (tokens ++ [t]) := by
  have count : state'.parenCount = opens (tokens ++ [t]) - closes (tokens ++ [t]) := by
    rw [read.count, kept.count]
    simp only [opens_append, closes_append]
    simp only [opens, closes, List.countP_singleton, decide_eq_true_eq]
    push_cast
    omega
  refine ⟨fun u member => ?_, fun u member => ?_, count, balanced_snoc.2 ⟨kept.balanced, ?_⟩⟩
  · rcases List.mem_append.1 member with there | here
    · exact kept.input u there
    · rwa [List.mem_singleton.1 here]
  · rcases List.mem_append.1 member with there | here
    · exact kept.fine u there
    · rw [List.mem_singleton.1 here]
      exact read.fine
  · by_cases close : t.type = .closeparen
    · have above := read.closes close
      omega
    · have before := kept.balanced tokens List.prefix_rfl
      simp only [opens_append, closes_append]
      have none_ : closes [t] = 0 := by simp [closes, close]
      omega

end Kept

/-- What is known of the tokens that have been read of a text of the length. -/
def TokenList.Keeps (length : Nat) (state : ReState) (tokens : TokenList) : Prop :=
  ∃ first mid, tokens.before ++ [tokens.last] = first :: mid ∧ first.type = .begin_ ∧ Kept state.parenCount mid ∧
    mid.length + state.rest.length ≤ length

/-- What a token does to those before it. -/
theorem addToken_ok {rhs : ReToken} {state : ReState} {tokens tokens' : TokenList} (done : addToken rhs state tokens = .ok tokens') :
    rhs.type = .diff ∧ tokens'.before = tokens.before ∧ tokens'.last = tokens.last ∨
      rhs.type ≠ .diff ∧ rhs.type ≠ .macro_ ∧ tokens' = ⟨tokens.before ++ [tokens.last], rhs, none⟩ ∨
        rhs.type = .charset ∧ tokens'.before = tokens.before ∧ tokens'.last.type = tokens.last.type ∧
          (tokens.last.Fine → rhs.Fine → tokens'.last.Fine) := by
  unfold addToken at done
  split at done
  · next diff =>
    obtain rfl := Except.ok.inj done
    exact Or.inl ⟨diff, rfl, rfl⟩
  · next notDiff =>
    split at done
    · cases done
    · split at done
      · cases done
      · next notMacro =>
        split at done
        · obtain rfl := Except.ok.inj done
          exact Or.inr (Or.inl ⟨notDiff, notMacro, rfl⟩)
        · next diff waits =>
          obtain ⟨last, performed, done⟩ := bind_ok done
          obtain rfl := Except.ok.inj done
          unfold performDiff at performed
          split at performed
          · cases performed
          · next set =>
            have set : rhs.type = .charset := by simpa using set
            refine Or.inr (Or.inr ⟨set, rfl, ?_⟩)
            split at performed
            · dsimp only at performed
              split at performed
              · cases performed
              · next nonempty =>
                obtain rfl := Except.ok.inj performed
                exact ⟨rfl, fun fine _ => ⟨fun _ => exists_mem_of_isEmpty (by simpa using nonempty), fine.valid⟩⟩
            · obtain rfl := Except.ok.inj performed
              refine ⟨rfl, fun fine fine' => ⟨fun type => ?_, fine.valid⟩⟩
              obtain ⟨b, member⟩ := fine'.nonempty set
              exact ⟨b, StringToken.mem_insertToken.2 (Or.inl member)⟩

section Loop

variable {unicode : Char → Char → CStr} {length : Nat} {state state' : ReState} {tokens tokens' : TokenList} {rhs : ReToken}

theorem TokenList.Keeps.notEnd (keeps : tokens.Keeps length state) : tokens.last.type ≠ .end_ := by
  obtain ⟨first, mid, whole, begin_, kept, -⟩ := keeps
  have member : tokens.last ∈ first :: mid := by
    rw [← whole]
    simp
  intro type
  rcases List.mem_cons.1 member with same | member
  · rw [← same, type] at begin_
    cases begin_
  · rcases kept.input _ member with terminal | dup
    · rw [type] at terminal
      cases terminal
    · rw [type] at dup
      cases dup

/-- One more token, which may be the end. -/
theorem addToken_keeps (keeps : tokens.Keeps length state) (read : TokenRead state rhs state')
    (shorter : rhs.type ≠ .end_ → state'.rest.length < state.rest.length) (done : addToken rhs state' tokens = .ok tokens') :
    tokens'.Keeps length state' ∨ tokens' = ⟨tokens.before ++ [tokens.last], rhs, none⟩ ∧ rhs.type = .end_ := by
  obtain ⟨first, mid, whole, begin_, kept, fits⟩ := keeps
  have same : ∀ {t : ReToken}, t.type ≠ .openparen → t.type ≠ .closeparen → TokenRead state t state' →
      state'.parenCount = state.parenCount := by
    intro t notOpen notClose read
    simp [read.count, notOpen, notClose]
  rcases addToken_ok done with ⟨diff, before, last⟩ | ⟨notDiff, notMacro, rfl⟩ | ⟨set, before, type, fine⟩
  · refine Or.inl ⟨first, mid, by rw [before, last, whole], begin_, ?_⟩
    rw [same (by rw [diff]; decide) (by rw [diff]; decide) read]
    have less := shorter (by rw [diff]; decide)
    exact ⟨kept, by omega⟩
  · rcases read.kind with end_ | diff | kind
    · exact Or.inr ⟨rfl, end_⟩
    · exact absurd diff notDiff
    · have less := shorter (by rcases kind with type | type <;> intro same <;> rw [same] at type <;> cases type)
      exact Or.inl ⟨first, mid ++ [rhs], by rw [whole]; rfl, begin_, kept.snoc read kind, by rw [List.length_append]; simp; omega⟩
  · have less := shorter (by rw [set]; decide)
    have count := same (by rw [set]; decide) (by rw [set]; decide) read
    cases prior : tokens.before with
    | nil =>
        rw [prior] at whole
        obtain ⟨rfl, rfl⟩ := List.cons.inj whole
        exact Or.inl ⟨tokens'.last, [], by rw [before, prior]; rfl, type.trans begin_, by rw [count]; exact kept,
          by rw [List.length_nil] at fits ⊢; omega⟩
    | cons t front =>
        rw [prior] at whole
        obtain ⟨rfl, rfl⟩ := List.cons.inj whole
        refine Or.inl ⟨t, front ++ [tokens'.last], by rw [before, prior]; rfl, begin_, ?_, ?_⟩
        · rw [count]
          exact kept.replace type fun old => fine old read.fine
        · have grown : (front ++ [tokens.last]).length + state.rest.length ≤ length := fits
          simp only [List.length_append, List.length_singleton] at grown ⊢
          omega

/-- The tokens of a rule, the first and the last one apart. -/
def Listed (length : Nat) (tokens : List ReToken) : Prop :=
  ∃ first mid last, tokens = first :: (mid ++ [last]) ∧ first.type = .begin_ ∧ last.type = .end_ ∧ Kept 0 mid ∧ mid.length ≤ length

theorem tokeniseLoop_listed {rounds : Nat} : ∀ {state : ReState} {tokens : TokenList} {out : List ReToken},
    tokens.Keeps length state → tokeniseLoop unicode rounds state tokens = .ok out → Listed length out := by
  have step : ∀ {state state' : ReState} {tokens tokens' : TokenList} {rhs : ReToken},
      tokens.Keeps length state → next unicode tokens.last state = .ok (rhs, state') → addToken rhs state' tokens = .ok tokens' →
      (tokens'.last.type = .end_ → Listed length (tokens'.before ++ [tokens'.last])) ∧
        (tokens'.last.type ≠ .end_ → tokens'.Keeps length state') := by
    intro state state' tokens tokens' rhs keeps read added
    obtain ⟨token, shorter⟩ := next_read read
    rcases addToken_keeps keeps token shorter added with keeps' | ⟨rfl, end_⟩
    · exact ⟨fun type => absurd type keeps'.notEnd, fun _ => keeps'⟩
    · refine ⟨fun _ => ?_, fun notEnd => absurd end_ notEnd⟩
      obtain ⟨first, mid, whole, begin_, kept, fits⟩ := keeps
      have closed : state.parenCount = 0 := by
        have count := token.count
        rw [token.ends end_] at count
        simpa [end_] using count.symm
      rw [closed] at kept
      exact ⟨first, mid, rhs, by rw [whole]; rfl, begin_, end_, kept, by omega⟩
  induction rounds with
  | zero =>
      intro state tokens out keeps done
      unfold tokeniseLoop at done
      obtain ⟨⟨rhs, state'⟩, read, done⟩ := bind_ok done
      obtain ⟨tokens', added, done⟩ := bind_ok done
      obtain ⟨ended, -⟩ := step keeps read added
      dsimp only at done
      split at done
      · next type =>
        obtain rfl := Except.ok.inj done
        exact ended type
      · cases done
  | succ rounds ih =>
      intro state tokens out keeps done
      unfold tokeniseLoop at done
      obtain ⟨⟨rhs, state'⟩, read, done⟩ := bind_ok done
      obtain ⟨tokens', added, done⟩ := bind_ok done
      obtain ⟨ended, more⟩ := step keeps read added
      split at done
      · next type =>
        obtain rfl := Except.ok.inj done
        exact ended type
      · next type => exact ih (more type) done

theorem keeps_start (text : CStr) (id : Uint) (flags : Nat) :
    TokenList.Keeps text.length (ReState.ofText text id flags) ⟨[], .ofType .begin_, none⟩ :=
  ⟨.ofType .begin_, [], rfl, rfl, Kept.nil, Nat.le_of_eq (Nat.zero_add _)⟩

theorem tokenise_listed {regex : CStr} {id : Uint} {flags : Nat} {out : List ReToken}
    (done : tokenise unicode regex id flags = .ok out) : Listed regex.length out ∧ out.length ≠ 2 := by
  unfold tokenise at done
  obtain ⟨out', looped, done⟩ := bind_ok done
  split at done
  · cases done
  · next long =>
    obtain rfl := Except.ok.inj done
    exact ⟨tokeniseLoop_listed (keeps_start regex id flags) looped, long⟩

/-- **The tokens of a rule are as the parser takes them.** -/
theorem tokenise_tokenised {regex : CStr} {id : Uint} {flags : Nat} {out : List ReToken} (end_ : EndState)
    (done : tokenise unicode regex id flags = .ok out) : (Rule.mk out end_).Tokenised := by
  obtain ⟨⟨first, mid, last, rfl, begin_, ended, kept, -⟩, -⟩ := tokenise_listed done
  have body : (Rule.mk (first :: (mid ++ [last])) end_).body = mid := by simp [Rule.body]
  refine ⟨⟨first, last, by rw [body], begin_, ended⟩, ?_, ?_, fun u v whole => ?_⟩
  · rw [body]
    exact kept.input
  · rw [body]
    exact kept.fine
  · rw [body] at whole
    exact kept.balanced u ⟨v, whole.symm⟩

/-! ## The rounds are enough -/

theorem CharsetReader.members_rounds {reader : CharsetReader} {rounds : Nat} : ∀ {rounds' : Nat} {state : ReState} (prev : UInt8)
    (token : StringToken), state.rest.length ≤ rounds → state.rest.length ≤ rounds' →
    reader.members rounds prev state token = reader.members rounds' prev state token := by
  induction rounds with
  | zero =>
      intro rounds' state prev token enough _
      have none_ : state.rest = [] := List.length_eq_zero_iff.1 (Nat.le_zero.1 enough)
      unfold members
      simp only [none_]
  | succ rounds ih =>
      intro rounds' state prev token enough enough'
      unfold members
      split
      · rfl
      · next c rest here =>
        rw [here, List.length_cons] at enough enough'
        split
        · rfl
        · cases rounds' with
          | zero => exact absurd enough' (Nat.not_succ_le_zero _)
          | succ rounds' =>
              apply bind_congr_ok
              rintro ⟨state', prev', token'⟩ read
              have less : state'.rest.length ≤ rest.length := (member_moves read).length_le
              exact ih _ _ (by omega) (by omega)

theorem skipLoop_rounds {rounds : Nat} : ∀ {rounds' : Nat} {state : ReState}, state.rest.length ≤ rounds →
    state.rest.length ≤ rounds' → ReState.skipLoop rounds state = ReState.skipLoop rounds' state := by
  induction rounds with
  | zero =>
      intro rounds' state enough _
      have none_ : state.rest = [] := List.length_eq_zero_iff.1 (Nat.le_zero.1 enough)
      unfold ReState.skipLoop
      cases rounds' <;> simp only [none_]
  | succ rounds ih =>
      intro rounds' state enough enough'
      cases rounds' with
      | zero =>
          have none_ : state.rest = [] := List.length_eq_zero_iff.1 (Nat.le_zero.1 enough')
          unfold ReState.skipLoop
          simp only [none_]
      | succ rounds' =>
          unfold ReState.skipLoop
          split
          · rfl
          · next c rest here =>
            rw [here, List.length_cons] at enough enough'
            split
            · split
              · rfl
              · next later found =>
                have less : later.length ≤ rest.tail.length := (cCommentEnd_suffix found).length_le
                rw [List.length_tail] at less
                rw [@ih rounds' (state.setRest later) (by simp; omega) (by simp; omega)]
            · split
              · rw [@ih rounds' (state.setRest rest) (by simp; omega) (by simp; omega)]
              · rfl

/-- With enough rounds nothing is left that could be skipped. -/
theorem skipLoop_done {rounds : Nat} : ∀ {skipped : Bool} {state state' : ReState}, state.rest.length ≤ rounds →
    ReState.skipLoop rounds state = .ok (skipped, state') → ReState.skipLoop 1 state' = .ok (false, state') := by
  induction rounds with
  | zero =>
      intro skipped state state' enough done
      have none_ : state.rest = [] := List.length_eq_zero_iff.1 (Nat.le_zero.1 enough)
      obtain ⟨-, rfl⟩ := Prod.mk.inj (Except.ok.inj done)
      unfold ReState.skipLoop
      simp only [none_]
  | succ rounds ih =>
      intro skipped state state' enough done
      unfold ReState.skipLoop at done
      split at done
      · next none_ =>
        obtain ⟨-, rfl⟩ := Prod.mk.inj (Except.ok.inj done)
        unfold ReState.skipLoop
        simp only [none_]
      · next c rest here =>
        rw [here, List.length_cons] at enough
        split at done
        · split at done
          · cases done
          · next later found =>
            obtain ⟨⟨_, state2⟩, looped, done⟩ := bind_ok done
            obtain ⟨-, rfl⟩ := Prod.mk.inj (Except.ok.inj done)
            have less : later.length ≤ rest.tail.length := (cCommentEnd_suffix found).length_le
            rw [List.length_tail] at less
            refine ih ?_ looped
            simp
            omega
        · next notComment =>
          split at done
          · obtain ⟨⟨_, state2⟩, looped, done⟩ := bind_ok done
            obtain ⟨-, rfl⟩ := Prod.mk.inj (Except.ok.inj done)
            refine ih ?_ looped
            simp
            omega
          · next notBlank =>
            obtain ⟨-, rfl⟩ := Prod.mk.inj (Except.ok.inj done)
            unfold ReState.skipLoop
            simp only [here]
            rw [if_neg notComment, if_neg notBlank]

/-- Whatever is skipped is shorter. -/
theorem skipLoop_shorter {rounds : Nat} {state state' : ReState} (done : ReState.skipLoop rounds state = .ok (true, state')) :
    state'.rest.length < state.rest.length := by
  cases rounds with
  | zero => cases done
  | succ rounds =>
      unfold ReState.skipLoop at done
      split at done
      · cases done
      · next c rest here =>
        rw [here, List.length_cons]
        split at done
        · split at done
          · cases done
          · next later found =>
            obtain ⟨⟨_, state2⟩, looped, done⟩ := bind_ok done
            obtain ⟨-, rfl⟩ := Prod.mk.inj (Except.ok.inj done)
            have less := (skipLoop_moves looped).length_le
            have less' : later.length ≤ rest.tail.length := (cCommentEnd_suffix found).length_le
            rw [List.length_tail] at less'
            simp only [ReState.rest_setRest] at less
            omega
        · split at done
          · obtain ⟨⟨_, state2⟩, looped, done⟩ := bind_ok done
            obtain ⟨-, rfl⟩ := Prod.mk.inj (Except.ok.inj done)
            exact Nat.lt_succ_of_le (skipLoop_moves looped).length_le
          · cases done

theorem comment_shorter {state state' : ReState} (done : state.comment = .ok (true, state')) :
    state'.rest.length < state.rest.length := by
  unfold ReState.comment at done
  split at done
  · next begins =>
    split at done
    · cases done
    · next rest found =>
      obtain ⟨-, rfl⟩ := Prod.mk.inj (Except.ok.inj done)
      have less := (commentEnd_suffix found).length_le
      have three : 3 ≤ state.rest.length := by
        have length := congrArg List.length begins.2
        rw [List.length_take] at length
        have : (cstr "(?#").length = 3 := by decide
        omega
      rw [List.length_drop] at less
      simp only [ReState.rest_setRest]
      omega
  · cases done

/-- A round that skips something leaves less of the text. -/
theorem skipAll_shorter {state state2 state3 : ReState} {commented skipped : Bool}
    (comment : ReState.comment
      { state with rest := (quotes state.rest state.inString).1, inString := (quotes state.rest state.inString).2 } =
        .ok (commented, state2)) (skip : state2.skip = .ok (skipped, state3)) (more : (commented || skipped) = true) :
    state3.rest.length < state.rest.length := by
  have quoted : (quotes state.rest state.inString).1.length ≤ state.rest.length := (quotes_suffix _ _).length_le
  have first : state2.rest.length ≤ (quotes state.rest state.inString).1.length := (comment_moves comment).length_le
  have second := (skip_moves skip).length_le
  cases commented with
  | true =>
      have less : state2.rest.length < (quotes state.rest state.inString).1.length := comment_shorter comment
      omega
  | false =>
      obtain rfl : skipped = true := by simpa using more
      have less : state3.rest.length < state2.rest.length := by
        unfold ReState.skip at skip
        split at skip
        · exact skipLoop_shorter skip
        · cases skip
      omega

theorem skipAll_rounds {rounds : Nat} : ∀ {rounds' : Nat} {state : ReState}, state.rest.length ≤ rounds →
    state.rest.length ≤ rounds' → ReState.skipAll rounds state = ReState.skipAll rounds' state := by
  induction rounds with
  | zero =>
      intro rounds' state enough enough'
      unfold ReState.skipAll
      apply bind_congr_ok
      rintro ⟨commented, state2⟩ comment
      apply bind_congr_ok
      rintro ⟨skipped, state3⟩ skip
      dsimp only
      split
      · next more => exact absurd (skipAll_shorter comment skip more) (by omega)
      · rfl
  | succ rounds ih =>
      intro rounds' state enough enough'
      unfold ReState.skipAll
      apply bind_congr_ok
      rintro ⟨commented, state2⟩ comment
      apply bind_congr_ok
      rintro ⟨skipped, state3⟩ skip
      dsimp only
      split
      · next more =>
        have less := skipAll_shorter comment skip more
        cases rounds' with
        | zero => exact absurd less (by omega)
        | succ rounds' => exact ih (by omega) (by omega)
      · rfl

end Loop

end Orchid
