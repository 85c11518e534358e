/-
# Searcher.DfaSearch -- what the regex search finds and where it can stop

The graph of `reassemble` simulates lexertl's table (`reassemble_simulation`), so the
search is a run of the table that starts over where a transition is missing.  Its row
is the row of the word read since the last restart.

Two things follow from what is relied on of lexertl.  A pattern is seen where the
word since the last restart is the pattern, and not wherever the pattern occurs
(`dfa_finds_iff`).  And the assertion of `httpParse` fails exactly for ids that decode
to more bytes than a word of their pattern has (`assertion_holds_iff`): the id of an
unknown key is the signature's own id, whatever that decodes to.

`dfaSearch` walks the same rows and stops at the first end row
(`Simulates.dfaSearchLoop_eq`).
-/
import Orchid.RegexParse.PlainTable

namespace Orchid

open Orchid.Theory

set_option autoImplicit false

/-! ## Where the loop stops -/

/-- The id met after `offset` bytes decodes to more bytes than were read. -/
def TooLong (found : Option Uint) (offset : Nat) : Prop :=
  ∃ w, found = some w ∧ isHttpElement w = true ∧ offset < (httpElementLength w).toNat

theorem tooLong_some {w : Uint} {offset : Nat} :
    TooLong (some w) offset ↔ isHttpElement w = true ∧ offset < (httpElementLength w).toNat := by
  constructor
  · rintro ⟨v, same, long⟩
    obtain rfl := Option.some.inj same
    exact long
  · exact fun long => ⟨w, rfl, long⟩

theorem dfaEvent_error_iff {tx : CStr} {offset : Nat} {w : Uint} {trap : Trap} :
    dfaEvent tx offset w = .error trap ↔ trap = .assertion ∧ TooLong (some w) offset := by
  rw [tooLong_some]
  unfold dfaEvent
  by_cases marker : isHttpElement w = true
  · rw [if_pos marker]
    by_cases short : offset < (httpElementLength w).toNat
    · rw [if_pos short, Except.error.injEq]
      exact ⟨fun same => ⟨same.symm, marker, short⟩, fun both => both.1.symm⟩
    · rw [if_neg short]
      refine iff_of_false (fun impossible => ?_) fun both => short both.2.2
      split at impossible <;> cases impossible
  · rw [if_neg marker]
    exact iff_of_false (fun impossible => nomatch impossible) fun both => marker both.2.1

/-- Rows the search does not leave and can read at. -/
structure Closed (graph : DfaGraphT) (rows : Nat → Prop) : Prop where
  next : ∀ row, rows row → ∀ b, ∃ after, graph.nextRow row b = .ok after ∧ rows after
  read : ∀ row, rows row → ∃ found, graph.endId row = .ok found

section Closed

variable {graph : DfaGraphT} {rows : Nat → Prop}

theorem idAfter_cons {row next : Nat} {b : UInt8} (steps : graph.nextRow row b = .ok next) (text : CStr) :
    graph.idAfter row (b :: text) = graph.idAfter next text := by
  simp only [DfaGraphT.idAfter, DfaGraphT.rowAfter, steps]

/-- The loop stops at the first id that is too long, with a failed assertion. -/
theorem Closed.stops_iff (closed : Closed graph rows) {tx : CStr} (text : CStr) :
    ∀ {pos row : Nat}, rows row → ∀ trap, (dfaTrace graph tx text pos row).2 = some trap ↔
      trap = .assertion ∧ ∃ i < text.length, TooLong (graph.idAfter row (text.take (i + 1))) (pos + (i + 1)) := by
  induction text with
  | nil =>
      intro pos row _ trap
      simp [dfaTrace]
  | cons b text ih =>
      intro pos row inside trap
      obtain ⟨next, steps, inside'⟩ := closed.next row inside b
      obtain ⟨found, read⟩ := closed.read next inside'
      have first : graph.idAfter row [b] = found := by
        rw [idAfter_cons steps]
        simp only [DfaGraphT.idAfter, DfaGraphT.rowAfter, read]
      -- the places of the text, the first one apart
      have places : (∃ i < (b :: text).length,
            TooLong (graph.idAfter row ((b :: text).take (i + 1))) (pos + (i + 1))) ↔
          TooLong found (pos + 1) ∨
            ∃ i < text.length, TooLong (graph.idAfter next (text.take (i + 1))) (pos + 1 + (i + 1)) := by
        constructor
        · rintro ⟨i, small, long⟩
          cases i with
          | zero => exact Or.inl (first ▸ long)
          | succ i =>
              rw [List.take_succ_cons, idAfter_cons steps] at long
              refine Or.inr ⟨i, Nat.lt_of_succ_lt_succ small, ?_⟩
              have offset : pos + 1 + (i + 1) = pos + (i + 1 + 1) := by omega
              rw [offset]
              exact long
        · rintro (long | ⟨i, small, long⟩)
          · exact ⟨0, Nat.succ_pos _, by rw [List.take_succ_cons, List.take_zero, first]; exact long⟩
          · refine ⟨i + 1, Nat.succ_lt_succ small, ?_⟩
            have offset : pos + (i + 1 + 1) = pos + 1 + (i + 1) := by omega
            rw [List.take_succ_cons, idAfter_cons steps, offset]
            exact long
      rw [places, dfaTrace, dfaStep]
      simp only [steps, read]
      cases found with
      | none =>
          have silent : ¬ TooLong none (pos + 1) := by
            rintro ⟨w, impossible, -⟩
            cases impossible
          simp only [silent, false_or]
          exact ih inside' trap
      | some w =>
          cases event : dfaEvent tx (pos + 1) w with
          | error trap' =>
              obtain ⟨rfl, long⟩ := dfaEvent_error_iff.1 event
              simp only [Except.map, event, long, true_or, and_true, Option.some.injEq]
              exact eq_comm
          | ok ev =>
              have fits : ¬ TooLong (some w) (pos + 1) := by
                intro long
                have stops := (@dfaEvent_error_iff tx (pos + 1) w .assertion).2 ⟨rfl, long⟩
                rw [event] at stops
                cases stops
              simp only [Except.map, event, fits, false_or]
              exact ih inside' trap

/-- **Where `httpParse` stops**: at a store behind the last cell of `pattern`, or at the
first id that is too long. -/
theorem Closed.httpParse_error (closed : Closed graph rows) (start : rows 0) {tx : CStr}
    {s s' : SearchState} {trap : Trap} (stops : (httpParse graph tx).run s = .error trap s') :
    (trap = .patternRange ∧ PATTERN_SIZE ∈ s'.stores) ∨
      trap = .assertion ∧ ∃ i < tx.length, TooLong (graph.idAfter 0 (tx.take (i + 1))) (i + 1) := by
  have trace := @Closed.stops_iff graph rows closed tx tx 0 0 start trap
  simp only [Nat.zero_add] at trace
  rw [← trace]
  rcases httpParse_run graph tx s with ⟨-, ran⟩ | ⟨full, k, ran⟩
  · rw [stops] at ran
    cases stop : (dfaTrace graph tx tx 0 0).2 with
    | none =>
        rw [stop] at ran
        cases ran
    | some trap' =>
        rw [stop] at ran
        cases ran
        exact Or.inr rfl
  · rw [stops] at ran
    cases ran
    exact Or.inl ⟨rfl, SearchState.mem_stores full⟩

end Closed

/-! ## The graph of a table -/

section Table

variable {table : LexTable} {R C : Nat} {graph : DfaGraphT}

theorem Simulates.closed (simulates : Simulates table R C graph) (shaped : Shaped table R C) :
    Closed graph fun row => ∃ r, 1 ≤ r ∧ r < R ∧ row = (7 + C) * (r - 1) := by
  refine ⟨?_, ?_⟩
  · rintro row ⟨r, positive, below, rfl⟩ b
    refine ⟨_, simulates.nextRow shaped positive below b, ?_⟩
    cases steps : table.step r b with
    | none => exact ⟨1, Nat.le_refl 1, shaped.start, rfl⟩
    | some next =>
        obtain ⟨positive', below'⟩ := shaped.step_range below steps
        exact ⟨next, positive', below', rfl⟩
  · rintro row ⟨r, positive, below, rfl⟩
    exact ⟨_, simulates.endId positive below⟩

/-- Where `httpParse` stops on the graph of a table. -/
theorem Simulates.httpParse_error (simulates : Simulates table R C graph) (shaped : Shaped table R C)
    {tx : CStr} {s s' : SearchState} {trap : Trap} (stops : (httpParse graph tx).run s = .error trap s') :
    (trap = .patternRange ∧ PATTERN_SIZE ∈ s'.stores) ∨
      trap = .assertion ∧ ∃ i < tx.length, TooLong (graph.idAfter 0 (tx.take (i + 1))) (i + 1) :=
  (simulates.closed shaped).httpParse_error ⟨1, Nat.le_refl 1, shaped.start, rfl⟩ stops

end Table

/-! ## The graph runs like the table -/

section Simulation

variable {table : LexTable} {R C : Nat}

/-- The graph's row for a row of the table. -/
def graphRow (C r : Nat) : Nat := (7 + C) * (r - 1)

/-- **The simulation.**  `reassemble` accepts the table; graph row `r - 1` does what
row `r` of the table does, over every text, inside the table's rows, and none of the
values the search reads is cut.  Only the assertion or a full `pattern` stops the search. -/
theorem reassemble_simulation (shaped : Shaped table R C) (old : Nat → Ushort) :
    ∃ graph, reassemble old table = .ok graph ∧
      (∀ r, 1 ≤ r → r < R →
        (∀ b next, table.step r b = some next → 1 ≤ next ∧ next < R ∧
          graph.nextRow (graphRow C r) b = .ok (graphRow C next)) ∧
        (∀ b, table.step r b = none → graph.nextRow (graphRow C r) b = .ok 0) ∧
        graph.endId (graphRow C r) = .ok (if table.isEnd r then some (table.id r) else none)) ∧
      (∀ text, 1 ≤ table.rowAfter text ∧ table.rowAfter text < R ∧
        graph.rowAfter 0 text = .ok (graphRow C (table.rowAfter text)) ∧
        graph.idAfter 0 text =
          if table.isEnd (table.rowAfter text) then some (table.id (table.rowAfter text)) else none) ∧
      (∀ tx s s' trap, (httpParse graph tx).run s = .error trap s' →
        trap = .assertion ∨ trap = .patternRange ∧ PATTERN_SIZE ∈ s'.stores) ∧
      Simulates table R C graph := by
  obtain ⟨graph, built, -⟩ := shaped.reassembled old
  have simulates := shaped.simulates built
  have start := shaped.start
  refine ⟨graph, built, fun r positive below => ⟨fun b next steps => ?_, fun b missing => ?_,
    simulates.endId positive below⟩, fun text => ?_, fun tx s s' trap stops => ?_, simulates⟩
  · have ran := simulates.nextRow shaped positive below b
    rw [steps] at ran
    obtain ⟨positive', below'⟩ := shaped.step_range below steps
    exact ⟨positive', below', ran⟩
  · have ran := simulates.nextRow shaped positive below b
    rw [missing] at ran
    exact ran
  · obtain ⟨positive, below⟩ := shaped.restart_range text (Nat.le_refl 1) (by omega)
    exact ⟨positive, below, simulates.rowAfter shaped text, simulates.idAfter shaped text⟩
  · rcases simulates.httpParse_error shaped stops with full | ⟨failed, -⟩
    · exact Or.inr full
    · exact Or.inl failed

/-- The entry `a`, and a table for it. -/
def oneLetter : List AppEntryT := [⟨0x01010000, cstr "a", 0⟩]

theorem oneLetter_few : plainRows oneLetter < 65535 := by decide

theorem reassemble_simulation_oneLetter : Shaped (plainTable oneLetter) (plainRows oneLetter) 230 ∧
    ∃ graph, reassemble (fun _ => 0) (plainTable oneLetter) = .ok graph ∧
      Simulates (plainTable oneLetter) (plainRows oneLetter) 230 graph := by
  have shaped := plainTable_shaped oneLetter_few
  obtain ⟨graph, built, -, -, -, simulates⟩ := reassemble_simulation shaped fun _ => 0
  exact ⟨shaped, graph, built, simulates⟩

/-- Every cell keeps its value, the id over two columns and the rebased targets apart. -/
def NothingCut (table : LexTable) (R C : Nat) (graph : DfaGraphT) : Prop :=
  ∀ r, 1 ≤ r → r < R → ∀ c < 7 + C, c ≠ 1 → c ≠ 2 → ∃ v, graph.cell (graphRow C r + c) = .ok v ∧
    v.toNat = if 6 ≤ c then (table.cell r c).toNat - 1 else (table.cell r c).toNat

/-- The pushed state of an end row is cut: there is none, and that is written as the
largest value of 32 bits. -/
theorem pushed_state_cut : ¬ ∀ (table : LexTable) (R C : Nat) (old : Nat → Ushort) (graph : DfaGraphT),
    Shaped table R C → reassemble old table = .ok graph → NothingCut table R C graph := by
  intro whole
  have shaped := plainTable_shaped oneLetter_few
  obtain ⟨graph, built, -⟩ := shaped.reassembled fun _ => 0
  have simulates := shaped.simulates built
  have rows : 2 < plainRows oneLetter := by decide
  obtain ⟨v, read, value⟩ := whole _ _ _ _ _ shaped built 2 (by omega) rows pushDfaIndex (by decide)
    (by decide) (by decide)
  have copied := simulates.others 2 (by omega) rows pushDfaIndex (by decide) (by decide)
  have wide : (plainTable oneLetter).cell 2 pushDfaIndex = npos := by
    rw [plainTable_cell rows (by decide)]
    decide
  obtain rfl := Except.ok.inj (copied.symm.trans read)
  rw [wide] at value
  exact absurd value (by decide)

end Simulation

/-! ## What is found -/

/-- Texts without metacharacters, and the table lexertl builds for them. -/
structure PlainDfa (table : LexTable) (R C : Nat) (apps : List AppEntryT) : Prop where
  plain : Plain apps
  recognises : Recognises table R C apps SameText
  trim : Trim table apps SameText

/-- After the text `httpParse` is at an end row. -/
def AtEnd (graph : DfaGraphT) (text : CStr) : Prop :=
  ∃ row flag, graph.rowAfter 0 text = .ok row ∧ graph.cell row = .ok flag ∧ flag ≠ 0

/-- Some entry's text ends where the text does. -/
def OccursAtEnd (apps : List AppEntryT) (text : CStr) : Prop :=
  ∃ app ∈ apps, foldedText app <:+ convertCaseEx text

/-- The search is at an end row exactly where a text of the entries ends. -/
def FindsEvery (graph : DfaGraphT) (apps : List AppEntryT) (text : CStr) : Prop :=
  ∀ i < text.length, AtEnd graph (text.take (i + 1)) ↔ OccursAtEnd apps (text.take (i + 1))

/-- What has been read since a byte that no text goes on with. -/
def blockWord (apps : List AppEntryT) (text : CStr) : CStr :=
  restartWord (Stem foldedText apps) (convertCaseEx text)

/-- Where a text of the entries ends, it began right after such a byte. -/
def EndsBlocks (apps : List AppEntryT) (text : CStr) : Prop :=
  ∀ i < text.length, OccursAtEnd apps (text.take (i + 1)) →
    ∃ app ∈ apps, foldedText app = blockWord apps (text.take (i + 1))

section Plain

variable {table : LexTable} {R C : Nat} {apps : List AppEntryT}

/-- The words the table has a run on. -/
theorem PlainDfa.run_iff (dfa : PlainDfa table R C apps) (w : CStr) :
    Stem foldedText apps (convertCaseEx w) ↔ ∃ row, run table.step 1 w = some row := by
  constructor
  · rintro (empty | ⟨app, member, more, split⟩)
    · rw [List.map_eq_nil_iff.1 empty]
      exact ⟨1, rfl⟩
    · -- the word goes on to one the table accepts
      have same : SameText app.regex (w ++ more) := by
        have folded : convertCaseEx more = more := by
          have whole : convertCaseEx (foldedText app) = foldedText app := by
            unfold foldedText
            rw [convertCaseEx_convertCaseEx]
          rw [← split, convertCaseEx_append, convertCaseEx_convertCaseEx] at whole
          exact List.append_cancel_left whole
        show convertCaseEx (w ++ more) = foldedText app
        rw [convertCaseEx_append, folded, split]
      obtain ⟨row, ran, -⟩ := dfa.recognises.complete _ app member same
      rw [run_append] at ran
      obtain ⟨between, first, -⟩ := Option.bind_eq_some_iff.1 ran
      exact ⟨between, first⟩
  · rintro ⟨row, ran⟩
    rcases dfa.trim w row ran with empty | ⟨app, member, more, same⟩
    · exact Or.inl (by rw [empty]; rfl)
    · refine Or.inr ⟨app, member, convertCaseEx more, ?_⟩
      rw [← convertCaseEx_append]
      exact same

/-- Where the search is at an end row. -/
theorem PlainDfa.isEnd_iff (dfa : PlainDfa table R C apps) (text : CStr) :
    table.isEnd (table.rowAfter text) ↔ ∃ app ∈ apps, foldedText app = blockWord apps text := by
  let stem : CStr → Prop := fun w => Stem foldedText apps (w.map xlatcase)
  have ran : run table.step 1 (restartWord stem text) = some (table.rowAfter text) :=
    run_restartWord table.step stem dfa.run_iff text
  have folded : convertCaseEx (restartWord stem text) = blockWord apps text :=
    restartWord_map (Stem foldedText apps) xlatcase text
  constructor
  · intro isEnd
    obtain ⟨app, ⟨k, here, same, -⟩, -⟩ := dfa.recognises.ends _ _ ran isEnd
    exact ⟨app, List.mem_of_getElem? here, same.symm.trans folded⟩
  · rintro ⟨app, member, word⟩
    obtain ⟨row, ran', isEnd⟩ := dfa.recognises.complete _ app member (folded.trans word.symm)
    obtain rfl := Option.some.inj (ran.symm.trans ran')
    exact isEnd

variable {old : Nat → Ushort} {graph : DfaGraphT}

theorem PlainDfa.atEnd_iff (dfa : PlainDfa table R C apps) (built : reassemble old table = .ok graph)
    (text : CStr) : AtEnd graph text ↔ ∃ app ∈ apps, foldedText app = blockWord apps text := by
  have shaped := dfa.recognises.shaped
  have simulates := shaped.simulates built
  have start := shaped.start
  obtain ⟨positive, below⟩ := shaped.restart_range text (Nat.le_refl 1) (by omega)
  obtain ⟨flag, read, value⟩ := simulates.flags _ positive below
  have at_ := simulates.rowAfter shaped text
  rw [← dfa.isEnd_iff]
  have nonzero : flag ≠ 0 ↔ table.isEnd (table.rowAfter text) := by
    unfold LexTable.isEnd
    rw [Ne, Ne, ← BitVec.toNat_inj, ← BitVec.toNat_inj, value]
    exact Iff.rfl
  constructor
  · rintro ⟨row, flag', reached, read', nonzero'⟩
    obtain rfl := Except.ok.inj (at_.symm.trans reached)
    obtain rfl := Except.ok.inj (read.symm.trans read')
    exact nonzero.1 nonzero'
  · exact fun isEnd => ⟨_, flag, at_, read, nonzero.2 isEnd⟩

/-- The word since the last restart is the end of the text, so what is found is there. -/
theorem occursAtEnd_of_block {text : CStr} {app : AppEntryT} (member : app ∈ apps)
    (word : foldedText app = blockWord apps text) : OccursAtEnd apps text :=
  ⟨app, member, by rw [word]; exact restartWord_suffix _ _⟩

theorem PlainDfa.findsEvery_iff (dfa : PlainDfa table R C apps) (built : reassemble old table = .ok graph)
    (text : CStr) : FindsEvery graph apps text ↔ EndsBlocks apps text := by
  constructor
  · exact fun finds i inside occurs => (dfa.atEnd_iff built _).1 ((finds i inside).2 occurs)
  · refine fun blocks i inside => ⟨fun atEnd => ?_, fun occurs => ?_⟩
    · obtain ⟨app, member, word⟩ := (dfa.atEnd_iff built _).1 atEnd
      exact occursAtEnd_of_block member word
    · exact (dfa.atEnd_iff built _).2 (blocks i inside occurs)

/-- Behind the text of one entry the text of some other is missed. -/
theorem exists_not_endsBlocks (inhabited : apps ≠ []) (nonempty : ∀ app ∈ apps, app.regex ≠ []) :
    ∃ text, ¬ EndsBlocks apps text := by
  have folded : ∀ app ∈ apps, foldedText app ≠ [] :=
    fun app member empty => nonempty app member (List.map_eq_nil_iff.1 empty)
  obtain ⟨p, inside, q, inside', missed⟩ := exists_missed foldedText inhabited folded
  have nonempty' : 0 < (p.regex ++ q.regex).length := by
    rw [List.length_append]
    have := List.length_pos_iff.2 (nonempty p inside)
    omega
  have whole : (p.regex ++ q.regex).take ((p.regex ++ q.regex).length - 1 + 1) = p.regex ++ q.regex := by
    rw [Nat.sub_add_cancel nonempty', List.take_length]
  refine ⟨p.regex ++ q.regex, fun blocks => ?_⟩
  have found := blocks ((p.regex ++ q.regex).length - 1) (by omega)
  rw [whole] at found
  obtain ⟨r, member, word⟩ := found ⟨q, inside', by rw [convertCaseEx_append]; exact List.suffix_append _ _⟩
  refine missed r member ?_
  rw [word, blockWord, convertCaseEx_append]
  rfl

/-- **What the regex search finds.**  It finds every text of the entries in exactly
the payloads where each of them begins right after a byte no text goes on with; that
is every payload only if there are no entries at all. -/
theorem dfa_finds_iff (dfa : PlainDfa table R C apps) (built : reassemble old table = .ok graph) :
    (∀ text, FindsEvery graph apps text ↔ EndsBlocks apps text) ∧
      ((∀ app ∈ apps, app.regex ≠ []) → ((∀ text, FindsEvery graph apps text) ↔ apps = [])) := by
  refine ⟨dfa.findsEvery_iff built, fun nonempty => ⟨fun finds => ?_, fun none_ text => ?_⟩⟩
  · by_cases inhabited : apps = []
    · exact inhabited
    · obtain ⟨text, fails⟩ := exists_not_endsBlocks inhabited nonempty
      exact absurd ((dfa.findsEvery_iff built text).1 (finds text)) fails
  · refine (dfa.findsEvery_iff built text).2 fun i _ occurs => ?_
    obtain ⟨app, member, -⟩ := occurs
    rw [none_] at member
    cases member

end Plain

theorem plainDfa_oneLetter : PlainDfa (plainTable oneLetter) (plainRows oneLetter) 230 oneLetter where
  plain := by
    intro app member c inside
    obtain rfl := List.mem_singleton.1 member
    obtain rfl : c = 97 := List.mem_singleton.1 inside
    decide
  recognises := (plainTable_recognises oneLetter_few).1
  trim := (plainTable_recognises oneLetter_few).2

theorem dfa_finds_oneLetter : ∃ graph, reassemble (fun _ => 0) (plainTable oneLetter) = .ok graph ∧
    (FindsEvery graph oneLetter (cstr "ba") ↔ EndsBlocks oneLetter (cstr "ba")) ∧
    EndsBlocks oneLetter (cstr "ba") := by
  obtain ⟨graph, built, -⟩ := plainDfa_oneLetter.recognises.shaped.reassembled fun _ => 0
  exact ⟨graph, built, (dfa_finds_iff plainDfa_oneLetter built).1 _, by unfold EndsBlocks OccursAtEnd; decide⟩

/-- The second of two letters is missed. -/
theorem second_letter_missed : ¬ ∀ (table : LexTable) (R C : Nat) (apps : List AppEntryT) (old : Nat → Ushort)
    (graph : DfaGraphT) (text : CStr), PlainDfa table R C apps → reassemble old table = .ok graph →
    FindsEvery graph apps text := by
  intro finds
  obtain ⟨graph, built, -⟩ := plainDfa_oneLetter.recognises.shaped.reassembled fun _ => 0
  have found := finds _ _ _ _ _ graph (cstr "aa") plainDfa_oneLetter built
  have blocks := (plainDfa_oneLetter.findsEvery_iff built _).1 found
  have missed : ¬ EndsBlocks oneLetter (cstr "aa") := by unfold EndsBlocks OccursAtEnd; decide
  exact missed blocks

/-! ## The assertion of `httpParse` -/

/-- `assert(start >= 0)` does not fail, and at every end row the decoded length is at
most the number of bytes read. -/
def AssertionHolds (graph : DfaGraphT) (tx : CStr) : Prop :=
  (∀ s s', (httpParse graph tx).run s ≠ .error .assertion s') ∧
    ∀ i < tx.length, ¬ TooLong (graph.idAfter 0 (tx.take (i + 1))) (i + 1)

/-- The first item of the HTTP signatures that stands for the text, if no marker does. -/
structure FirstItem (denotes : CStr → CStr → Prop) (root : List ApplicationS) (text : CStr)
    (sigId : Uint) (e : ElementS) : Prop where
  marker : ∀ marker ∈ httpMarkers, ¬ denotes marker.2 text
  item : ∃ k : Nat, (httpElements root)[k]? = some (sigId, e) ∧ denotes e.matchStr text ∧
    ∀ j < k, ∀ pair : Uint × ElementS, (httpElements root)[j]? = some pair → ¬ denotes pair.2.matchStr text

/-- An item with an unknown key in a signature whose id has no top byte decodes to a
length that its words have. -/
structure LengthsCovered (table : LexTable) (denotes : CStr → CStr → Prop)
    (root : List ApplicationS) : Prop where
  matched : ∀ text sigId e, FirstItem denotes root text sigId e → e.id = 0 →
    isHttpElement sigId = true → text ≠ [] → (httpElementLength sigId).toNat ≤ text.length
  /-- an item that the empty word matches is met wherever the search starts over -/
  restarted : ∀ sigId e, FirstItem denotes root [] sigId e → e.id = 0 → isHttpElement sigId = true →
    ∀ text c, (∃ row, run table.step 1 text = some row) → run table.step 1 (text ++ [c]) = none →
      (httpElementLength sigId).toNat ≤ text.length + 1

/-- The table was built from the configuration; the markers' texts stand for themselves. -/
structure ConfiguredTable (table : LexTable) (R C : Nat) (denotes : CStr → CStr → Prop)
    (root : List ApplicationS) (dfaList : List AppEntryT) : Prop where
  parsed : Parsed root
  collected : ∃ alloc, parseApplication alloc root = .ok dfaList
  recognises : Recognises table R C dfaList denotes
  literal : ∀ marker ∈ httpMarkers, ∀ text, denotes marker.2 text → SameText marker.2 text

/-- The id of an item is a marker's only without an element id, and then it is the
signature's own id. -/
theorem isHttpElement_httpSigId {e sigId : Uint} (known : e.toNat < 5) :
    isHttpElement (httpSigId e sigId) = true ↔ e = 0 ∧ isHttpElement sigId = true := by
  rw [isHttpElement_iff, isHttpElement_iff, httpSigId, topByte_word, byte_of_lt known]
  exact BitVec.or_eq_zero_iff

theorem httpSigId_zero (sigId : Uint) : httpSigId 0 sigId = sigId := by
  have zero : ((0 : Uint) &&& 0xFF) <<< 24 = 0#32 := by decide
  rw [httpSigId, zero, BitVec.zero_or]

section Assertion

variable {table : LexTable} {R C : Nat} {denotes : CStr → CStr → Prop} {root : List ApplicationS}
  {dfaList : List AppEntryT}

/-- Which entry comes first for a text: a marker or an item. -/
theorem ConfiguredTable.firstMatch_cases (config : ConfiguredTable table R C denotes root dfaList)
    {text : CStr} {app : AppEntryT} (first : FirstMatch denotes dfaList text app) :
    ((app.appId, app.regex) ∈ httpMarkers ∧ denotes app.regex text) ∨
      ∃ sigId e, FirstItem denotes root text sigId e ∧ app.appId = httpSigId e.id sigId := by
  obtain ⟨alloc, collected⟩ := config.collected
  obtain ⟨items, list, parallel⟩ := parseApplication_ok config.parsed collected
  obtain ⟨k, here, denoted, earlier⟩ := first
  rw [list] at here earlier
  by_cases marker : k < (markerEntries alloc).length
  · rw [List.getElem?_append_left marker] at here
    exact Or.inl ⟨markerEntries_mem (List.mem_of_getElem? here), denoted⟩
  · have place : k = (markerEntries alloc).length + (k - (markerEntries alloc).length) := by omega
    rw [List.getElem?_append_right (by omega)] at here
    obtain ⟨pair, inItems, word, text_⟩ := (forall₂_getElem? parallel).2 app here
    refine Or.inr ⟨pair.1, pair.2, ⟨fun m inMarkers denotedM => ?_,
      k - (markerEntries alloc).length, inItems, text_ ▸ denoted, fun j before other there denotedO => ?_⟩, word⟩
    · obtain ⟨j, below, rfl⟩ := List.mem_iff_getElem.1 inMarkers
      have inList : (markerEntries alloc)[j]? = some ⟨httpMarkers[j].1, httpMarkers[j].2, alloc j⟩ := by
        rw [markerEntries, List.getElem?_mapIdx, List.getElem?_eq_getElem below]
        rfl
      have short : j < (markerEntries alloc).length := (List.getElem?_eq_some_iff.1 inList).1
      refine earlier j (by omega) ⟨httpMarkers[j].1, httpMarkers[j].2, alloc j⟩ ?_ denotedM
      exact (List.getElem?_append_left short).trans inList
    · obtain ⟨other', there', -, sameText⟩ := (forall₂_getElem? parallel).1 other there
      refine earlier ((markerEntries alloc).length + j) (by omega) other' ?_ (by rw [sameText]; exact denotedO)
      rw [List.getElem?_append_right (Nat.le_add_right ..), Nat.add_sub_cancel_left, there']

/-- The first item is the first entry. -/
theorem ConfiguredTable.firstMatch_of_item (config : ConfiguredTable table R C denotes root dfaList)
    {text : CStr} {sigId : Uint} {e : ElementS} (first : FirstItem denotes root text sigId e) :
    ∃ app, FirstMatch denotes dfaList text app ∧ app.appId = httpSigId e.id sigId := by
  obtain ⟨alloc, collected⟩ := config.collected
  obtain ⟨items, list, parallel⟩ := parseApplication_ok config.parsed collected
  obtain ⟨k, here, denoted, earlier⟩ := first.item
  obtain ⟨app, inItems, word, sameText⟩ := (forall₂_getElem? parallel).1 _ here
  refine ⟨app, ⟨(markerEntries alloc).length + k, ?_, by rw [sameText]; exact denoted,
    fun j before other there denotedO => ?_⟩, word⟩
  · rw [list, List.getElem?_append_right (Nat.le_add_right ..), Nat.add_sub_cancel_left, inItems]
  · rw [list] at there
    by_cases marker : j < (markerEntries alloc).length
    · rw [List.getElem?_append_left marker] at there
      exact first.marker _ (markerEntries_mem (List.mem_of_getElem? there)) denotedO
    · rw [List.getElem?_append_right (by omega)] at there
      obtain ⟨pair, inPairs, -, sameText'⟩ := (forall₂_getElem? parallel).2 other there
      exact earlier _ (by omega) pair inPairs (by rw [← sameText']; exact denotedO)

theorem firstMatch_unique {apps : List AppEntryT} {text : CStr} {app app' : AppEntryT}
    (first : FirstMatch denotes apps text app) (first' : FirstMatch denotes apps text app') : app = app' := by
  obtain ⟨k, here, denoted, earlier⟩ := first
  obtain ⟨k', here', denoted', earlier'⟩ := first'
  rcases Nat.lt_trichotomy k k' with before | same | after
  · exact absurd denoted (earlier' k before app here)
  · subst same
    exact Option.some.inj (here.symm.trans here')
  · exact absurd denoted' (earlier k' after app' here')

/-- What the table has at the row of a word. -/
theorem Recognises.id_iff {apps : List AppEntryT} (recognises : Recognises table R C apps denotes)
    {text : CStr} {row : Nat} (ran : run table.step 1 text = some row) (w : Uint) :
    (table.isEnd row ∧ table.id row = w) ↔ ∃ app, FirstMatch denotes apps text app ∧ app.appId = w := by
  constructor
  · rintro ⟨isEnd, rfl⟩
    obtain ⟨app, first, id⟩ := recognises.ends text row ran isEnd
    exact ⟨app, first, id.symm⟩
  · rintro ⟨app, first, rfl⟩
    have ⟨k, here, denoted, _⟩ := first
    obtain ⟨row', ran', isEnd⟩ := recognises.complete text app (List.mem_of_getElem? here) denoted
    obtain rfl := Option.some.inj (ran.symm.trans ran')
    obtain ⟨app', first', id⟩ := recognises.ends text row ran isEnd
    obtain rfl := firstMatch_unique first first'
    exact ⟨isEnd, id⟩

/-- The assertion holds if no id is too long for the text it is met after. -/
theorem assertionHolds_iff {graph : DfaGraphT} (shaped : Shaped table R C)
    (simulates : Simulates table R C graph) :
    (∀ tx, AssertionHolds graph tx) ↔ ∀ text, text ≠ [] → ¬ TooLong (graph.idAfter 0 text) text.length := by
  constructor
  · intro holds text nonempty long
    have positive := List.length_pos_iff.2 nonempty
    have whole : text.length - 1 + 1 = text.length := by omega
    have bound := (holds text).2 (text.length - 1) (by omega)
    rw [whole, List.take_length] at bound
    exact bound long
  · intro fits tx
    have bound : ∀ i < tx.length, ¬ TooLong (graph.idAfter 0 (tx.take (i + 1))) (i + 1) := by
      intro i inside
      have length : (tx.take (i + 1)).length = i + 1 := by
        rw [List.length_take]
        omega
      have ok := fits (tx.take (i + 1)) (List.length_pos_iff.1 (by omega))
      rwa [length] at ok
    refine ⟨fun s s' stops => ?_, bound⟩
    rcases simulates.httpParse_error shaped stops with ⟨other, -⟩ | ⟨-, i, inside, long⟩
    · cases other
    · exact bound i inside long

/-- The ids met after a text are those of the word since the last restart. -/
theorem tooLong_iff {graph : DfaGraphT} (shaped : Shaped table R C) (simulates : Simulates table R C graph)
    (recognises : Recognises table R C dfaList denotes) {text word : CStr}
    (ran : run table.step 1 word = some (table.rowAfter text)) (n : Nat) :
    TooLong (graph.idAfter 0 text) n ↔ ∃ app, FirstMatch denotes dfaList word app ∧
      isHttpElement app.appId = true ∧ n < (httpElementLength app.appId).toNat := by
  rw [simulates.idAfter shaped]
  constructor
  · rintro ⟨w, met, marker, long⟩
    by_cases isEnd : table.isEnd (table.rowAfter text)
    · rw [if_pos isEnd] at met
      obtain ⟨app, first, rfl⟩ := (recognises.id_iff ran w).1 ⟨isEnd, Option.some.inj met⟩
      exact ⟨app, first, marker, long⟩
    · rw [if_neg isEnd] at met
      cases met
  · rintro ⟨app, first, marker, long⟩
    obtain ⟨isEnd, id⟩ := (recognises.id_iff ran app.appId).2 ⟨app, first, rfl⟩
    rw [if_pos isEnd, id]
    exact ⟨_, rfl, marker, long⟩

/-- The items have a known element id or none. -/
theorem ConfiguredTable.known (config : ConfiguredTable table R C denotes root dfaList) {text : CStr} {sigId : Uint}
    {e : ElementS} (first : FirstItem denotes root text sigId e) : e.id.toNat < 5 := by
  obtain ⟨-, k, here, -⟩ := first
  exact config.parsed.id_lt (httpElements_mem (List.mem_of_getElem? here))

/-- An item met after a text decodes to no more bytes than the text has, if nothing does. -/
theorem ConfiguredTable.covers (config : ConfiguredTable table R C denotes root dfaList) {graph : DfaGraphT}
    (shaped : Shaped table R C) (simulates : Simulates table R C graph)
    (fits : ∀ text, text ≠ [] → ¬ TooLong (graph.idAfter 0 text) text.length) {text word : CStr} {sigId : Uint}
    {e : ElementS} (first : FirstItem denotes root word sigId e) (unknown : e.id = 0)
    (marker : isHttpElement sigId = true) (nonempty : text ≠ [])
    (ran : run table.step 1 word = some (table.rowAfter text)) : (httpElementLength sigId).toNat ≤ text.length := by
  obtain ⟨app, firstMatch, id⟩ := config.firstMatch_of_item first
  rw [unknown, httpSigId_zero] at id
  refine Nat.le_of_not_lt fun long => fits text nonempty ?_
  exact (tooLong_iff shaped simulates config.recognises ran _).2 ⟨app, firstMatch, by rw [id]; exact ⟨marker, long⟩⟩

/-- **When the assertion of `httpParse` holds.**  Exactly when no item with an unknown
key has a signature id that decodes to more bytes than a word of the item has. -/
theorem assertion_holds_iff {graph : DfaGraphT} {old : Nat → Ushort}
    (config : ConfiguredTable table R C denotes root dfaList) (built : reassemble old table = .ok graph) :
    (∀ tx, AssertionHolds graph tx) ↔ LengthsCovered table denotes root := by
  have recognises := config.recognises
  have shaped := recognises.shaped
  have simulates := shaped.simulates built
  rw [assertionHolds_iff shaped simulates]
  constructor
  · intro fits
    have covers := @ConfiguredTable.covers _ _ _ _ _ _ config graph shaped simulates fits
    refine ⟨fun text sigId e first unknown marker nonempty => ?_,
      fun sigId e first unknown marker text c ⟨row, ran⟩ stuck => ?_⟩
    · obtain ⟨app, ⟨k, here, denoted, -⟩, -⟩ := config.firstMatch_of_item first
      obtain ⟨row, ran, -⟩ := recognises.complete text app (List.mem_of_getElem? here) denoted
      refine covers first unknown marker nonempty ?_
      rw [LexTable.rowAfter, restartRun_of_run table.step 1 ran, ran]
    · have starts : table.rowAfter (text ++ [c]) = 1 := restartRun_of_stuck table.step 1 ran stuck
      have bound := covers first unknown marker (List.append_ne_nil_of_right_ne_nil text (List.cons_ne_nil c []))
        (by rw [starts]; rfl)
      rwa [List.length_append] at bound
  · intro covered text nonempty
    classical
    let stem : CStr → Prop := fun w => ∃ row, run table.step 1 w = some row
    have readable : ∀ text, run table.step 1 (restartWord stem text) = some (table.rowAfter text) :=
      run_restartWord table.step stem fun w => Iff.rfl
    rw [tooLong_iff shaped simulates recognises (readable text)]
    rintro ⟨app, first, marker, long⟩
    have short := (restartWord_suffix stem text).length_le
    rcases config.firstMatch_cases first with ⟨isMarker, denoted⟩ | ⟨sigId, e, item, id⟩
    · -- a marker's own length is in its word
      have same := config.literal _ isMarker _ denoted
      have length : (restartWord stem text).length = app.regex.length := by
        have lengths := congrArg List.length same
        rwa [length_convertCaseEx, length_convertCaseEx] at lengths
      have word := httpMarkers_length (app.appId, app.regex) isMarker
      dsimp only at word
      omega
    · rw [id, isHttpElement_httpSigId (config.known item)] at marker
      obtain ⟨unknown, marker⟩ := marker
      rw [id, unknown, httpSigId_zero] at long
      by_cases start : restartWord stem text = []
      · -- the search has just started over
        obtain ⟨before, c, rfl, stuck⟩ := exists_restart table.step stem (fun w => Iff.rfl) nonempty start
        rw [start] at item
        have bound := covered.restarted sigId e item unknown marker _ c ⟨_, readable before⟩ stuck
        have short' := (restartWord_suffix stem before).length_le
        rw [List.length_append, List.length_singleton] at long
        omega
      · have bound := covered.matched _ sigId e item unknown marker start
        omega

end Assertion

/-! ## One HTTP signature -/

/-- The regex patterns of one signature with one item. -/
def onePatternList (id : Uint) (text : CStr) : List AppEntryT :=
  markerEntries clearedMemory.alloc ++ [⟨id, text, 0x08050330⟩]

theorem onePatternList_few (id : Uint) : plainRows (onePatternList id (cstr "a")) < 65535 := by
  show plainRows (onePatternList 0 (cstr "a")) < 65535
  decide +kernel

theorem configuredTable_plain {root : List ApplicationS} {dfaList : List AppEntryT} {alloc : Nat → Uint}
    (parsed : Parsed root) (collected : parseApplication alloc root = .ok dfaList)
    (few : plainRows dfaList < 65535) :
    ConfiguredTable (plainTable dfaList) (plainRows dfaList) 230 SameText root dfaList :=
  ⟨parsed, ⟨alloc, collected⟩, (plainTable_recognises few).1, fun _ _ _ same => same⟩

/-- A known key. -/
theorem assertion_holds_host : ∃ graph,
    reassemble (fun _ => 0) (plainTable (onePatternList 0x01010001 (cstr "a"))) = .ok graph ∧
      ∀ tx, AssertionHolds graph tx := by
  have config : ConfiguredTable _ _ _ SameText (oneSignature 0x10001 (cstr "http_host=a"))
      (onePatternList 0x01010001 (cstr "a")) :=
    @configuredTable_plain _ _ clearedMemory.alloc (oneSignature_parsed rfl) rfl (onePatternList_few _)
  obtain ⟨graph, built, -⟩ := config.recognises.shaped.reassembled fun _ => 0
  have known : ∀ {text sigId e}, FirstItem SameText (oneSignature 0x10001 (cstr "http_host=a")) text sigId e →
      e.id ≠ 0 := by
    rintro text sigId e ⟨-, k, here, -⟩
    have all : ∀ pair ∈ httpElements (oneSignature 0x10001 (cstr "http_host=a")), pair.2.id ≠ 0 := by decide
    exact all (sigId, e) (List.mem_of_getElem? here)
  exact ⟨graph, built, (assertion_holds_iff config built).2
    ⟨fun _ _ _ first unknown => absurd unknown (known first),
      fun _ _ first unknown => absurd unknown (known first)⟩⟩

/-- With an unknown key the signature's id is read as a marker of 256 bytes. -/
theorem unknown_key_fails_assertion : ¬ ∀ (table : LexTable) (R C : Nat) (denotes : CStr → CStr → Prop)
    (root : List ApplicationS) (dfaList : List AppEntryT) (old : Nat → Ushort) (graph : DfaGraphT) (tx : CStr),
    ConfiguredTable table R C denotes root dfaList → reassemble old table = .ok graph →
      AssertionHolds graph tx := by
  intro holds
  have few := onePatternList_few 0x10001
  have config : ConfiguredTable _ _ _ SameText (oneSignature 0x10001 (cstr "http_uri=a"))
      (onePatternList 0x10001 (cstr "a")) :=
    @configuredTable_plain _ _ clearedMemory.alloc (oneSignature_parsed rfl) rfl few
  have shaped := config.recognises.shaped
  obtain ⟨graph, built, -⟩ := shaped.reassembled fun _ => 0
  have first : FirstItem SameText (oneSignature 0x10001 (cstr "http_uri=a")) (cstr "a") 0x10001
      ⟨0, cstr "a"⟩ := by
    refine ⟨?_, 0, rfl, rfl, fun j impossible => absurd impossible (Nat.not_lt_zero j)⟩
    unfold SameText
    decide
  obtain ⟨app, firstMatch, id⟩ := config.firstMatch_of_item first
  have stem : Stem foldedText (onePatternList 0x10001 (cstr "a")) (convertCaseEx (cstr "a")) := by
    decide
  have ran := plainTable_run_start few (cstr "a")
  rw [if_pos stem] at ran
  have ran' : run (plainTable (onePatternList 0x10001 (cstr "a"))).step 1 (cstr "a") =
      some ((plainTable (onePatternList 0x10001 (cstr "a"))).rowAfter (cstr "a")) := by
    rw [LexTable.rowAfter, restartRun_of_run _ 1 ran, ran]
  refine (holds _ _ _ _ _ _ _ graph (cstr "a") config built).2 0 (by decide) ?_
  refine (tooLong_iff shaped (shaped.simulates built) config.recognises ran' 1).2 ⟨app, firstMatch, ?_⟩
  rw [id]
  decide

/-! ## One more byte -/

/-- One more byte leads to the row behind the text with it. -/
theorem Simulates.snoc {table : LexTable} {R C : Nat} {graph : DfaGraphT} (simulates : Simulates table R C graph)
    (shaped : Shaped table R C) (before : CStr) (c : UInt8) :
    graph.nextRow ((7 + C) * (table.rowAfter before - 1)) c = .ok ((7 + C) * (table.rowAfter (before ++ [c]) - 1)) ∧
      graph.endId ((7 + C) * (table.rowAfter (before ++ [c]) - 1)) = .ok (graph.idAfter 0 (before ++ [c])) := by
  have start := shaped.start
  obtain ⟨positive, below⟩ := shaped.restart_range before (Nat.le_refl 1) (by omega)
  obtain ⟨positive', below'⟩ := shaped.restart_range (before ++ [c]) (Nat.le_refl 1) (by omega)
  constructor
  · rw [LexTable.rowAfter, LexTable.rowAfter, restartRun_append, simulates.nextRow shaped positive below]
    rfl
  · rw [simulates.idAfter shaped]
    exact simulates.endId positive' below'

/-! ## dfaSearch -/

/-- `dfaSearch` stops at the first end row; it returns the cell behind the flag. -/
def dfaSearchLoop (graph : DfaGraphT) : CStr → Nat → Except Trap Ushort
  | [], _ => return 0
  | c :: text, curState => do
      let curState ← graph.nextRow curState c
      if (← graph.cell curState) ≠ 0 then graph.cell (curState + 1)
      else dfaSearchLoop graph text curState

def dfaSearch (graph : DfaGraphT) (text : CStr) : Except Trap Ushort := dfaSearchLoop graph text 0

/-- What is found first behind the parts of a text that begin behind `before`. -/
def firstFound (found : CStr → Option Uint) (before text : CStr) : Option Uint :=
  (List.range text.length).findSome? fun i => found (before ++ text.take (i + 1))

theorem firstFound_cons (found : CStr → Option Uint) (before : CStr) (c : UInt8) (text : CStr) :
    firstFound found before (c :: text) = (found (before ++ [c])).or (firstFound found (before ++ [c]) text) := by
  unfold firstFound
  rw [List.length_cons, List.range_succ_eq_map, List.findSome?_cons, List.findSome?_map]
  have rest : ((fun i => found (before ++ (c :: text).take (i + 1))) ∘ Nat.succ) =
      fun i => found (before ++ [c] ++ text.take (i + 1)) := by
    funext i
    simp
  have first : before ++ (c :: text).take (0 + 1) = before ++ [c] := by simp
  rw [rest, first]
  cases found (before ++ [c]) <;> rfl

/-- The flag of a row, and the low half of its id behind it. -/
theorem endId_ok {graph : DfaGraphT} {row : Nat} {found : Option Uint} (read : graph.endId row = .ok found) :
    ∃ flag, graph.cell row = .ok flag ∧
      (flag = 0 ∧ found = none ∨ flag ≠ 0 ∧ ∃ w, found = some w ∧ graph.cell (row + 1) = .ok (w.setWidth 16)) := by
  unfold DfaGraphT.endId at read
  obtain ⟨flag, cell, read⟩ := bind_ok read
  refine ⟨flag, cell, ?_⟩
  split at read
  · next nonzero =>
    obtain ⟨lo, low, read⟩ := bind_ok read
    obtain ⟨hi, -, read⟩ := bind_ok read
    refine Or.inr ⟨nonzero, hi ++ lo, (Except.ok.inj read).symm, ?_⟩
    rw [low, BitVec.setWidth_append_eq_right]
  · next zero => exact Or.inl ⟨not_not.1 zero, (Except.ok.inj read).symm⟩

/-- **What `dfaSearch` returns**: the low half of the first id that is found, and zero if there is none. -/
theorem Simulates.dfaSearchLoop_eq {table : LexTable} {R C : Nat} {graph : DfaGraphT} (simulates : Simulates table R C graph)
    (shaped : Shaped table R C) (text : CStr) : ∀ {before : CStr},
      dfaSearchLoop graph text ((7 + C) * (table.rowAfter before - 1)) =
        .ok (((firstFound (graph.idAfter 0) before text).map (BitVec.setWidth 16)).getD 0) := by
  induction text with
  | nil => exact rfl
  | cons c text ih =>
      intro before
      obtain ⟨moved, read⟩ := simulates.snoc shaped before c
      obtain ⟨flag, cell, last⟩ := endId_ok read
      rw [dfaSearchLoop, firstFound_cons, bind_of_ok moved, bind_of_ok cell]
      rcases last with ⟨rfl, none_⟩ | ⟨nonzero, w, nonempty, low⟩
      · rw [if_neg (by simp), none_]
        exact ih
      · rw [if_pos nonzero, nonempty, low]
        rfl

end Orchid
