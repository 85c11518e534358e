/-
# RegexParse.Correct -- from a list of texts to the search

What the stages of `Regex_Parse` come to, each for every list and every text:

* the tokeniser ends and leaves what the parser takes (`tokenise_wellFormed`,
  `tokenise_rounds`, `reader_rounds`);
* the parser ends, takes the rules of the documented grammar (`parse_accepts_iff`,
  `parse_rounds`) and leaves a tree whose followers are those of its expression
  (`parse_tree`);
* the classes of the bytes are the coarsest ones that the sets allow (`partition_classes`);
* the generator makes a table of the accepted rules (`build_accepts`) that finds the
  texts of the first rule (`build_recognises`), has no dead ends (`build_trim`) and no
  more rows than there are starts to tell apart (`build_rows_le`);
* it is what the copy into the graph and the search take (`build_contract`), and it may be
  minimised (`build_minimise`);
* the search of that graph is at an end row where a text of some entry has been read since
  it was last stuck (`regexParse_search`), which is all that `httpParse` needs to know
  (`regexParse_httpParse`), and for a list of texts without metacharacters
  it finds every entry at the end of its block (`regexParse_finds`).

A `$` is left out from the table on: the generator changes the newline's transitions for it.
-/
import Orchid.RegexParse.Errors
import Orchid.RegexParse.Minimise
import Orchid.RegexParse.PlainRules
import Orchid.Searcher.DfaSearch

namespace Orchid

open Orchid.Theory

set_option autoImplicit false

/-! ## Two entries

Every theorem is followed by its case for these two, which have texts in common:
`(a[bc])?d` and `a[bc]{1,2}d`. -/

def lettersBC : StringToken := (literal icase (byte 'b')).insertToken (literal icase (byte 'c'))

def groupTokens : List ReToken :=
  [.ofType .begin_, .ofType .openparen, .ofSet (literal icase (byte 'a')), .ofSet lettersBC, .ofType .closeparen, .ofType .opt,
    .ofSet (literal icase (byte 'd')), .ofType .end_]

def rangeTokens : List ReToken :=
  [.ofType .begin_, .ofSet (literal icase (byte 'a')), .ofSet lettersBC, ⟨.repeatn, cstr "1,2", .empty⟩,
    .ofSet (literal icase (byte 'd')), .ofType .end_]

def overlapping : List AppEntryT := [⟨0x01010000, cstr "(a[bc])?d", 0⟩, ⟨0x02010000, cstr "a[bc]\x7b1,2\x7dd", 0⟩]

def groupRule : Rule := ⟨groupTokens, ⟨0x01010000, npos, 0, npos, false⟩⟩

def rangeRule : Rule := ⟨rangeTokens, ⟨0x02010000, npos, 0, npos, false⟩⟩

def overlappingRules : Rules := ⟨[groupRule, rangeRule], 0, icase⟩

def groupTree : Node :=
  .sequence (.sequence (.selection (.sequence (.leaf 0 false) (.leaf 1 false)) (.leaf 2 true)) (.leaf 3 false)) (.endLeaf 4)

def groupHeap : Heap :=
  [.leafNode (.charset 0) true true [1], .leafNode (.charset 1) false true [3], .leafNode .null false true [],
    .leafNode (.charset 2) false true [4], .endNode groupRule.end_]

def rangeTree : Node :=
  .sequence (.sequence (.sequence (.leaf 5 false) (.sequence (.leaf 6 false) (.selection (.leaf 7 false) (.leaf 8 true))))
    (.leaf 9 false)) (.endLeaf 10)

def rangeHeap : Heap :=
  groupHeap ++ [.leafNode (.charset 0) false true [6], .leafNode (.charset 1) false true [7, 9],
    .leafNode (.charset 1) true true [9], .leafNode .null false true [], .leafNode (.charset 2) false true [10],
    .endNode rangeRule.end_]

def overlappingMap : CharsetMap := [(literal icase (byte 'a'), 0), (lettersBC, 1), (literal icase (byte 'd'), 2)]

theorem tokenise_group : tokenise (fun _ _ => []) (cstr "(a[bc])?d") 0x01010000 icase = .ok groupTokens := by
  decide +kernel

theorem tokenise_range : tokenise (fun _ _ => []) (cstr "a[bc]\x7b1,2\x7dd") 0x02010000 icase = .ok rangeTokens := by
  decide +kernel

theorem group_tokenised : groupRule.Tokenised := tokenise_tokenised groupRule.end_ tokenise_group

theorem range_tokenised : rangeRule.Tokenised := tokenise_tokenised rangeRule.end_ tokenise_range

theorem parse_group : parse groupTokens groupRule.end_ icase false [] [] none = .ok (groupTree, groupHeap, overlappingMap, none) := by
  decide +kernel

/-- The second rule is parsed behind the first one, and has the same sets. -/
theorem parse_range : parse rangeTokens rangeRule.end_ icase false groupHeap overlappingMap none =
    .ok (rangeTree, rangeHeap, overlappingMap, none) := by
  decide +kernel

/-- What the first rule leaves. -/
theorem group_left : Numbered overlappingMap ∧ Linked groupHeap [groupTree] := by
  have joined : Joined False False icase false [groupRule] (groupTree, groupHeap, overlappingMap, none) :=
    joined_first group_tokenised False.elim False.elim parse_group
  exact ⟨joined.numbered, joined.linked⟩

/-! ## One rule -/

section Rule

variable {unicode : Char → Char → CStr} {regex : CStr} {id : Uint} {flags : Nat} {tokens : List ReToken}

/-- **The tokens of a text.**  There are no more of them than bytes, the parentheses close, and the sets and the repetitions
make sense. -/
theorem tokenise_wellFormed (read : tokenise unicode regex id flags = .ok tokens) :
    ∃ first body last, tokens = first :: (body ++ [last]) ∧ first.type = .begin_ ∧ last.type = .end_ ∧
      body ≠ [] ∧ body.length ≤ regex.length ∧ (∀ t ∈ body, (t.type.isTerminal = true ∨ t.type.isDup = true) ∧ t.Fine) ∧
      opens body = closes body ∧ ∀ u, u <+: body → closes u ≤ opens u := by
  obtain ⟨⟨first, mid, last, rfl, begin_, ended, kept, few⟩, long⟩ := tokenise_listed read
  refine ⟨first, mid, last, rfl, begin_, ended, ?_, few, fun t member => ⟨kept.input t member, kept.fine t member⟩, ?_,
    kept.balanced⟩
  · rintro rfl
    exact long rfl
  · have count := kept.count
    omega

theorem tokenise_wellFormed_group : ∃ first body last, groupTokens = first :: (body ++ [last]) ∧
    first.type = .begin_ ∧ last.type = .end_ ∧ body ≠ [] ∧ body.length ≤ 9 ∧
    (∀ t ∈ body, (t.type.isTerminal = true ∨ t.type.isDup = true) ∧ t.Fine) ∧
    opens body = closes body ∧ ∀ u, u <+: body → closes u ≤ opens u :=
  tokenise_wellFormed tokenise_group

/-- **So do its readers**: those that skip quotes, comments and blanks, of which nothing is left, and the one that reads the
members of a set. -/
theorem reader_rounds (reader : CharsetReader) (state : ReState) (prev : UInt8) (token : StringToken) (extra : Nat) :
    (ReState.skipAll (state.rest.length + extra) state = ReState.skipAll state.rest.length state ∧
        ReState.skipAll state.rest.length state ≠ .error "next: out of rounds") ∧
      (ReState.skipLoop (state.rest.length + extra) state = ReState.skipLoop state.rest.length state ∧
        ∀ skipped state', ReState.skipLoop state.rest.length state = .ok (skipped, state') →
          ReState.skipLoop 1 state' = .ok (false, state')) ∧
      (reader.members (state.rest.length + extra) prev state token = reader.members state.rest.length prev state token ∧
        ((∀ inner, reader.sub inner ≠ .error "charset: out of rounds") →
          reader.members state.rest.length prev state token ≠ .error "charset: out of rounds")) ∧
      ∀ unicode depth, charset unicode depth state ≠ .error "charset: out of rounds" := by
  refine ⟨⟨skipAll_rounds (Nat.le_add_right ..) (Nat.le_refl _), fun stopped => ?_⟩,
    ⟨skipLoop_rounds (Nat.le_add_right ..) (Nat.le_refl _), fun skipped state' => skipLoop_done (Nat.le_refl _)⟩,
    ⟨CharsetReader.members_rounds prev token (Nat.le_add_right ..) (Nat.le_refl _), fun subs stopped => ?_⟩,
    fun unicode depth stopped => ?_⟩
  · exact ((skipAll_ends rfl (Nat.le_refl _)).error stopped).not_rounds (Or.inr (Or.inl rfl))
  · have refused : ∀ text, Refusal state.id text → text ≠ "charset: out of rounds" :=
      fun text refusal same => refusal.not_rounds (Or.inr (Or.inr same))
    have inner : ∀ inner : ReState, inner.id = state.id → Ends (fun _ => True) (· ≠ "charset: out of rounds") (reader.sub inner) := by
      intro inner _
      cases read : reader.sub inner with
      | error text => exact fun same => subs inner (by rw [read, same])
      | ok token => trivial
    exact (CharsetReader.members_ends refused inner rfl (Nat.le_refl _) prev token).error stopped rfl
  · exact ((charset_ends depth rfl).error stopped).not_rounds (Or.inr (Or.inr rfl))

/-- **The parser ends** on the tokens of a text, whatever was parsed before: neither it nor the copying of a tree is out of
rounds, and more of them change nothing. -/
theorem parse_rounds (read : tokenise unicode regex id flags = .ok tokens) (extra : Nat) (heap : Heap) (map : CharsetMap)
    (nlId : Option Nat) : ∃ first input, tokens = first :: input ∧
      parseLoop id (8 * tokens.length + extra) input (opened first ⟨[], heap⟩ map nlId) =
        parseLoop id (8 * tokens.length) input (opened first ⟨[], heap⟩ map nlId) ∧
      ∀ text, parseLoop id (8 * tokens.length) input (opened first ⟨[], heap⟩ map nlId) = .error text →
        text ≠ "parse: out of rounds" ∧ text ≠ "copy: out of rounds" := by
  obtain ⟨⟨first, mid, last, rfl, -, ended, -, -⟩, -⟩ := tokenise_listed read
  have light := first.type.weight_le
  have few : roundWeight (mid ++ [last]) (opened first ⟨[], heap⟩ map nlId) ≤ 8 * (first :: (mid ++ [last])).length := by
    unfold roundWeight opened
    simp only [List.length_cons, List.length_append, stackWeight_cons, stackWeight_nil]
    omega
  have ends : Ended (mid ++ [last]) := ⟨mid, last, rfl, ended⟩
  refine ⟨first, _, rfl, parseLoop_rounds ends (few.trans (Nat.le_add_right ..)) few, fun text stopped => ?_⟩
  have others := (parseLoop_quiet ends few).error stopped
  simpa [parserRounds] using others

theorem parse_rounds_range : ∃ first input, rangeTokens = first :: input ∧
    parseLoop 0x02010000 (8 * rangeTokens.length + 5) input (opened first ⟨[], groupHeap⟩ overlappingMap none) =
      parseLoop 0x02010000 (8 * rangeTokens.length) input (opened first ⟨[], groupHeap⟩ overlappingMap none) ∧
    ∀ text, parseLoop 0x02010000 (8 * rangeTokens.length) input (opened first ⟨[], groupHeap⟩ overlappingMap none) = .error text →
      text ≠ "parse: out of rounds" ∧ text ≠ "copy: out of rounds" :=
  parse_rounds tokenise_range 5 groupHeap overlappingMap none

section Behind

variable {others : List Node} {heap : Heap} {map : CharsetMap}

/-- **The tree of a rule**, behind others.  No leaf is in it twice, the followers of a leaf are those of the expression, the
words that lead to the end of the rule are its texts, and the other trees keep their followers. -/
theorem parse_tree (read : tokenise unicode regex id flags = .ok tokens) {end_ : EndState} {seenBol : Bool}
    (numbered : Numbered map) (linked : Linked heap others) {nlId : Option Nat} {root : Node} {heap' : Heap} {map' : CharsetMap}
    {nlId' : Option Nat} (parsed : parse tokens end_ flags seenBol heap map nlId = .ok (root, heap', map', nlId')) :
    root.expr.positions.Nodup ∧ root.firstpos = root.expr.first ∧
      (∀ p ∈ root.expr.positions, ∀ q, q ∈ heap'.followpos p ↔ root.expr.Follows p q) ∧
      (∃ z ∈ root.expr.positions, heap'.kinds[z]? = some (Sum.inr end_) ∧
        ∀ text, root.expr.Reach (LeafReads map' heap'.kinds) text z ↔ text ∈ (Rule.mk tokens end_).lang) ∧
      ∀ other ∈ others, ∀ p ∈ other.expr.positions, p ∉ root.expr.positions ∧
        ∀ q, q ∈ heap'.followpos p ↔ other.expr.Follows p q := by
  have tokenised := tokenise_tokenised end_ read
  obtain ⟨r, means, single, -, hasTree⟩ := tokenised.parsed numbered linked parsed
  have once : root.expr.positions.Nodup := (List.nodup_append.1 hasTree.linked.once).1
  obtain ⟨z, member, kind⟩ := hasTree.tree.exists_end
  have reach := (hasTree.tree.reach hasTree.numbered (means.fine tokenised.fine) once member kind).2
  refine ⟨once, root.firstpos_eq, hasTree.linked.follows root List.mem_cons_self, ⟨z, member, kind, fun text => ?_⟩,
    fun other there p inside => ⟨fun both => hasTree.linked.apart both other there inside,
      hasTree.linked.follows other (List.mem_cons_of_mem _ there) p inside⟩⟩
  rw [reach, Rule.mem_lang tokenised single means]

theorem parse_tree_range : rangeTree.expr.positions.Nodup ∧ rangeTree.firstpos = rangeTree.expr.first ∧
    (∀ p ∈ rangeTree.expr.positions, ∀ q, q ∈ rangeHeap.followpos p ↔ rangeTree.expr.Follows p q) ∧
    (∃ z ∈ rangeTree.expr.positions, rangeHeap.kinds[z]? = some (Sum.inr rangeRule.end_) ∧
      ∀ text, rangeTree.expr.Reach (LeafReads overlappingMap rangeHeap.kinds) text z ↔ text ∈ rangeRule.lang) ∧
    ∀ other ∈ [groupTree], ∀ p ∈ other.expr.positions, p ∉ rangeTree.expr.positions ∧
      ∀ q, q ∈ rangeHeap.followpos p ↔ other.expr.Follows p q :=
  parse_tree tokenise_range group_left.1 group_left.2 parse_range

end Behind

end Rule

/-! ## The table of a list -/

theorem overlapping_made : regexRules (fun _ _ => []) overlapping = .ok overlappingRules := by
  decide +kernel

theorem overlapping_tree : buildTree overlappingRules.flags (hasFlag overlappingRules.features bolBit) groupRule [rangeRule] =
    .ok (.selection groupTree rangeTree, rangeHeap, overlappingMap, none) := by
  decide +kernel

theorem overlapping_plain : ∀ rule ∈ overlappingRules.regexes, rule.Without .bol ∧ rule.Without .eol := by
  unfold Rule.Without
  decide +kernel

theorem overlapping_eager : ∀ rule ∈ overlappingRules.regexes, rule.Eager := by
  unfold Rule.Eager
  decide +kernel

theorem overlapping_accepted : ∀ rule ∈ overlappingRules.regexes, rule.Accepted icase := by
  intro rule member
  rcases List.mem_cons.1 member with rfl | member
  · obtain ⟨r, means, single, notEmpty, -⟩ := group_tokenised.parsed numbered_nil (linked_nil _) parse_group
    exact ⟨r, means, single, notEmpty⟩
  · obtain rfl := List.mem_singleton.1 member
    obtain ⟨r, means, single, notEmpty, -⟩ := range_tokenised.parsed group_left.1 group_left.2 parse_range
    exact ⟨r, means, single, notEmpty⟩

/-- Their table. -/
theorem overlapping_table : ∃ table, overlappingRules.build = .ok table ∧ table.rows < 65535 ∧ table.alphabet ≤ 7 + 255 := by
  have small : (overlappingRules.build.toOption.any fun table => table.rows < 65535 ∧ table.alphabet ≤ 7 + 255) = true := by
    decide +kernel
  cases built : overlappingRules.build with
  | error text =>
      rw [built] at small
      cases small
  | ok table =>
      rw [built] at small
      obtain ⟨few, classes⟩ := of_decide_eq_true small
      exact ⟨table, rfl, few, classes⟩

section Table

variable {unicode : Char → Char → CStr} {apps : List AppEntryT} {rules : Rules} {table : LexTable}

/-- **The classes of the bytes.**  There are at most 256 of them, bytes get one column exactly if no set of the map tells them
apart, and every set is the union of its classes. -/
theorem partition_classes (made : regexRules unicode apps = .ok rules) {first : Rule} {rest : List Rule}
    (regexes : rules.regexes = first :: rest) {root : Node} {heap : Heap} {map : CharsetMap} {nlId : Option Nat}
    (tree : buildTree rules.flags (hasFlag rules.features bolBit) first rest = .ok (root, heap, map, nlId)) :
    (partitionCharsets map).length ≤ 256 ∧
      (∀ b b', (setMapping map).lookup b = (setMapping map).lookup b' ↔ ∀ entry ∈ map, b ∈ entry.1 ↔ b' ∈ entry.1) ∧
      ∀ entry ∈ map, ∀ b, b ∈ entry.1 ↔
        ∃ k ∈ (setMapping map).classes entry.2, (setMapping map).lookup b = BitVec.ofNat 32 (k + transitionsIndex) := by
  have tokenised := (regexRules_ok made).tokenised
  rw [regexes] at tokenised
  have joined : Joined False False rules.flags (hasFlag rules.features bolBit) (first :: rest) (root, heap, map, nlId) :=
    joined_buildTree tokenised False.elim False.elim tree
  have numbered := joined.numbered
  have few := length_partitionCharsets numbered
  exact ⟨few, fun b b' => numbered.lookup_eq_iff few, fun entry member b => numbered.mem_iff_class few member⟩

theorem partition_classes_overlapping : (partitionCharsets overlappingMap).length ≤ 256 ∧
    (∀ b b', (setMapping overlappingMap).lookup b = (setMapping overlappingMap).lookup b' ↔
      ∀ entry ∈ overlappingMap, b ∈ entry.1 ↔ b' ∈ entry.1) ∧
    ∀ entry ∈ overlappingMap, ∀ b, b ∈ entry.1 ↔ ∃ k ∈ (setMapping overlappingMap).classes entry.2,
      (setMapping overlappingMap).lookup b = BitVec.ofNat 32 (k + transitionsIndex) :=
  partition_classes overlapping_made rfl overlapping_tree

/-- **When there is a table.**  The list is not empty and all its rules are accepted; such a list has a tree, the generator
makes a table of it, and that table is refused only for its number of rows. -/
theorem build_accepts (made : regexRules unicode apps = .ok rules) (noEol : ∀ rule ∈ rules.regexes, rule.Without .eol) :
    (∀ table, rules.build = .ok table → apps ≠ [] ∧ ∀ rule ∈ rules.regexes, rule.Accepted icase) ∧
      (apps ≠ [] → (∀ rule ∈ rules.regexes, rule.Accepted icase) →
        ∃ (first : Rule) (rest : List Rule) (root : Node) (heap : Heap) (map : CharsetMap) (nlId : Option Nat) (table : LexTable),
          rules.regexes = first :: rest ∧
          buildTree rules.flags (hasFlag rules.features bolBit) first rest = .ok (root, heap, map, nlId) ∧
          buildDfa map root heap nlId = .ok table ∧ rules.build =
            if table.rows ≥ npos.toNat then .error "The data type you have chosen cannot hold this many DFA rows."
            else .ok table) := by
  have rulesFor := regexRules_ok made
  have nonempty : rules.regexes ≠ [] ↔ apps ≠ [] := by
    have length := rulesFor.regexes.length_eq
    rw [← List.length_pos_iff, ← List.length_pos_iff, length]
  unfold Rules.build
  rw [rulesFor.flags]
  constructor
  · intro table built
    obtain ⟨inhabited, accepted⟩ := build_accepted rulesFor.tokenised noEol built
    exact ⟨nonempty.1 inhabited, accepted⟩
  · intro entries accepted
    obtain ⟨first, rest, table, root, heap, map, nlId, -, -, regexes, tree, made, -, built⟩ :=
      @build_accept _ (hasFlag rules.features bolBit) _ rulesFor.tokenised noEol (nonempty.2 entries) accepted
    exact ⟨first, rest, root, heap, map, nlId, table, regexes, tree, made, built⟩

theorem build_accepts_overlapping : ∃ (first : Rule) (rest : List Rule) (root : Node) (heap : Heap) (map : CharsetMap)
    (nlId : Option Nat) (table : LexTable), overlappingRules.regexes = first :: rest ∧
      buildTree overlappingRules.flags (hasFlag overlappingRules.features bolBit) first rest = .ok (root, heap, map, nlId) ∧
      buildDfa map root heap nlId = .ok table ∧ overlappingRules.build =
        if table.rows ≥ npos.toNat then .error "The data type you have chosen cannot hold this many DFA rows." else .ok table :=
  (build_accepts overlapping_made fun rule there => (overlapping_plain rule there).2).2 (by decide) overlapping_accepted

/-- **What the table finds.**  A run that ends in an end row has read a text of a rule, and the row has the id of the first
entry with that text; if nothing is lazy, every text of every entry is found. -/
theorem build_recognises (made : regexRules unicode apps = .ok rules) (noEol : ∀ rule ∈ rules.regexes, rule.Without .eol)
    (built : rules.build = .ok table) :
    (∀ text row, run table.step 1 text = some row → table.isEnd row →
      ∃ (k : Nat) (app : AppEntryT), apps[k]? = some app ∧ text ∈ app.lang unicode ∧
        (∀ j < k, ∀ earlier : AppEntryT, apps[j]? = some earlier → text ∉ earlier.lang unicode) ∧ table.id row = app.appId) ∧
      ((∀ rule ∈ rules.regexes, rule.Eager) → ∀ app ∈ apps, ∀ text ∈ app.lang unicode,
        ∃ row, run table.step 1 text = some row ∧ table.isEnd row) := by
  have rulesFor := regexRules_ok made
  obtain ⟨root, heap, map, exprs, seen, source⟩ := build_source rulesFor.tokenised noEol built
  refine ⟨fun text row ran isEnd => ?_, fun eager app member text inside => ?_⟩
  · obtain ⟨app, ⟨k, here, inside, earlier⟩, id⟩ := source.ends rulesFor (build_few built) ran isEnd
    exact ⟨k, app, here, inside, earlier, id⟩
  · exact source.complete rulesFor (build_few built) eager member inside

theorem build_recognises_overlapping : ∃ table, overlappingRules.build = .ok table ∧
    (∀ text row, run table.step 1 text = some row → table.isEnd row →
      ∃ (k : Nat) (app : AppEntryT), overlapping[k]? = some app ∧ text ∈ app.lang (fun _ _ => []) ∧
        (∀ j < k, ∀ earlier : AppEntryT, overlapping[j]? = some earlier → text ∉ earlier.lang fun _ _ => []) ∧
        table.id row = app.appId) ∧
    ∀ app ∈ overlapping, ∀ text ∈ app.lang (fun _ _ => []), ∃ row, run table.step 1 text = some row ∧ table.isEnd row := by
  obtain ⟨table, built, -⟩ := overlapping_table
  obtain ⟨ends, complete⟩ := build_recognises overlapping_made (fun rule there => (overlapping_plain rule there).2) built
  exact ⟨table, built, ends, complete overlapping_eager⟩

section Plain

variable (made : regexRules unicode apps = .ok rules) (plain : ∀ rule ∈ rules.regexes, rule.Without .bol ∧ rule.Without .eol)
  (built : rules.build = .ok table)

include made plain built

/-- **No row is a dead end**: without `^` and `$` whatever can be read is the start of a text of some entry. -/
theorem build_trim {text : CStr} {row : Nat} (ran : run table.step 1 text = some row) :
    text = [] ∨ ∃ app ∈ apps, ∃ more, text ++ more ∈ app.lang unicode := by
  have rulesFor := regexRules_ok made
  obtain ⟨root, heap, map, exprs, seen, source⟩ := build_source rulesFor.tokenised (fun rule there => (plain rule there).2) built
  exact source.starts rulesFor (build_few built) plain ran

/-- **How many rows there are.**  `fold` may take bytes together that no set of the rules tells apart; then there is at most
one row for each folded start of a text of some entry. -/
theorem build_rows_le {κ : Type} [DecidableEq κ] {fold : UInt8 → κ}
    (folded : ∀ rule ∈ rules.regexes, ∀ t ∈ rule.body, t.type = .charset → ∀ b b', fold b = fold b' → b ∈ t.str → b' ∈ t.str)
    {keys : List (List κ)}
    (starts : ∀ text : CStr, (text = [] ∨ ∃ app ∈ apps, ∃ more, text ++ more ∈ app.lang unicode) → text.map fold ∈ keys) :
    table.rows ≤ keys.length + 1 := by
  have rulesFor := regexRules_ok made
  obtain ⟨root, heap, map, exprs, seen, source⟩ := build_source rulesFor.tokenised (fun rule there => (plain rule there).2) built
  exact source.rows_le rulesFor plain folded starts

end Plain

theorem build_trim_overlapping : ∃ table, overlappingRules.build = .ok table ∧ ∀ text row, run table.step 1 text = some row →
    text = [] ∨ ∃ app ∈ overlapping, ∃ more, text ++ more ∈ app.lang fun _ _ => [] := by
  obtain ⟨table, built, -⟩ := overlapping_table
  exact ⟨table, built, fun text row ran => build_trim overlapping_made overlapping_plain built ran⟩

/-! ### The texts of the two entries -/

theorem group_means : groupRule.Means (.sequence
    (.dup (.sequence (.charset (literal icase (byte 'a'))) (.charset lettersBC)) (.ofType .opt))
    (.charset (literal icase (byte 'd')))) := by
  have inner := Derives.join (.sub (.expression (.charset (t := .ofSet (literal icase (byte 'a'))) rfl)))
    (.expression (.charset (t := .ofSet lettersBC) rfl))
  have group := Derives.paren (o := .ofType .openparen) (c := .ofType .closeparen) rfl (.regex (.orexp (.sequence inner))) rfl
  have optional := Derives.dup (t := .ofType .opt) group rfl
  exact .regex (.orexp (.sequence (.join (.sub (.expression optional))
    (.expression (.charset (t := .ofSet (literal icase (byte 'd'))) rfl)))))

theorem range_means : rangeRule.Means (.sequence
    (.sequence (.charset (literal icase (byte 'a'))) (.dup (.charset lettersBC) ⟨.repeatn, cstr "1,2", .empty⟩))
    (.charset (literal icase (byte 'd')))) := by
  have repeats := Derives.dup (t := ⟨.repeatn, cstr "1,2", .empty⟩) (.charset (t := .ofSet lettersBC) rfl) rfl
  have front := Derives.join (.sub (.expression (.charset (t := .ofSet (literal icase (byte 'a'))) rfl))) (.expression repeats)
  exact .regex (.orexp (.sequence (.join front (.expression (.charset (t := .ofSet (literal icase (byte 'd'))) rfl)))))

/-- Case does not count, and `b` and `c` are one. -/
def foldBC (b : UInt8) : UInt8 := if xlatcase b = byte 'C' then byte 'B' else xlatcase b

theorem foldBC_letter {c b : UInt8} (other : xlatcase c ≠ byte 'B' ∧ xlatcase c ≠ byte 'C') :
    b ∈ literal icase c ↔ foldBC b = xlatcase c := by
  rw [mem_literal]
  unfold foldBC
  split
  · next same =>
    rw [same]
    exact iff_of_false (Ne.symm other.2) (Ne.symm other.1)
  · exact Iff.rfl

theorem foldBC_letterA {b : UInt8} : b ∈ literal icase (byte 'a') ↔ foldBC b = byte 'A' := foldBC_letter (by decide)

theorem foldBC_letterD {b : UInt8} : b ∈ literal icase (byte 'd') ↔ foldBC b = byte 'D' := foldBC_letter (by decide)

theorem foldBC_lettersBC {b : UInt8} : b ∈ lettersBC ↔ foldBC b = byte 'B' := by
  have letterB : xlatcase (byte 'b') = byte 'B' := by decide
  have letterC : xlatcase (byte 'c') = byte 'C' := by decide
  unfold lettersBC
  rw [StringToken.mem_insertToken, mem_literal, mem_literal, letterB, letterC]
  unfold foldBC
  split
  · next same => exact iff_of_true (Or.inl same) rfl
  · next differs => simp [differs]

theorem map_foldBC_charset {str : StringToken} {folded : UInt8} (same : ∀ b, b ∈ str ↔ foldBC b = folded) {w : CStr}
    (inside : w ∈ (Regex.charset str).lang) : w.map foldBC = [folded] := by
  obtain ⟨b, member, rfl⟩ := inside
  rw [List.map_singleton, (same b).1 member]

/-- Folded, the texts of the first entry are `D` and `ABD`. -/
theorem group_words {w : CStr} (inside : w ∈ groupRule.lang) : w.map foldBC ∈ [cstr "D", cstr "ABD"] := by
  obtain ⟨-, -, single, -⟩ := overlapping_accepted groupRule (by simp [overlappingRules])
  rw [Rule.mem_lang group_tokenised single group_means] at inside
  obtain ⟨front, ⟨i, few, repeated⟩, back, isD, rfl⟩ := Language.mem_mul.1 inside
  rw [List.map_append, map_foldBC_charset (fun _ => foldBC_letterD) isD]
  have atMost : i ≤ 1 := few
  obtain rfl | rfl : i = 0 ∨ i = 1 := by omega
  · rw [pow_zero, Language.mem_one] at repeated
    rw [repeated]
    decide
  · rw [pow_one] at repeated
    obtain ⟨u, isA, v, isBC, rfl⟩ := Language.mem_mul.1 repeated
    rw [List.map_append, map_foldBC_charset (fun _ => foldBC_letterA) isA, map_foldBC_charset (fun _ => foldBC_lettersBC) isBC]
    decide

/-- Those of the second one are `ABD` and `ABBD`. -/
theorem range_words {w : CStr} (inside : w ∈ rangeRule.lang) : w.map foldBC ∈ [cstr "ABD", cstr "ABBD"] := by
  have lettersB : ∀ {u : CStr}, u ∈ (Regex.charset lettersBC).lang → u.map foldBC = [byte 'B'] :=
    map_foldBC_charset fun _ => foldBC_lettersBC
  obtain ⟨-, -, single, -⟩ := overlapping_accepted rangeRule (by simp [overlappingRules])
  rw [Rule.mem_lang range_tokenised single range_means] at inside
  obtain ⟨front, ahead, back, isD, rfl⟩ := Language.mem_mul.1 inside
  obtain ⟨u, isA, v, ⟨i, allowed, repeated⟩, rfl⟩ := Language.mem_mul.1 ahead
  rw [List.map_append, List.map_append, map_foldBC_charset (fun _ => foldBC_letterA) isA, map_foldBC_charset (fun _ => foldBC_letterD) isD]
  have between : 1 ≤ i ∧ i ≤ 2 := by
    have known : readRepeats (cstr "1,2") = ⟨1, true, 2⟩ := by decide
    have bounds : (readRepeats (cstr "1,2")).Allows i := allowed
    rw [known] at bounds
    exact ⟨bounds.1, bounds.2.resolve_left (by decide)⟩
  obtain rfl | rfl : i = 1 ∨ i = 2 := by omega
  · rw [pow_one] at repeated
    rw [lettersB repeated]
    decide
  · rw [pow_two] at repeated
    obtain ⟨x, isB, y, isB', rfl⟩ := Language.mem_mul.1 repeated
    rw [List.map_append, lettersB isB, lettersB isB']
    decide

/-- The starts of `D`, `ABD` and `ABBD`. -/
def overlappingStarts : List CStr := ["", "D", "A", "AB", "ABD", "ABB", "ABBD"].map cstr

theorem overlapping_starts {text : CStr}
    (start : text = [] ∨ ∃ app ∈ overlapping, ∃ more, text ++ more ∈ app.lang fun _ _ => []) : text.map foldBC ∈ overlappingStarts := by
  have inits : ∀ word ∈ ["D", "ABD", "ABBD"].map cstr, ∀ front ∈ word.inits, front ∈ overlappingStarts := by decide
  rcases start with rfl | ⟨app, member, more, inside⟩
  · exact List.mem_cons_self
  · have word : (text ++ more).map foldBC ∈ ["D", "ABD", "ABBD"].map cstr := by
      obtain ⟨rule, there, ruleFor⟩ := (regexRules_ok overlapping_made).app member
      rw [ruleFor.mem_lang] at inside
      rcases List.mem_cons.1 there with rfl | there
      · have two := group_words inside
        simp only [List.map_cons, List.mem_cons, List.not_mem_nil, or_false] at two ⊢
        exact or_assoc.1 (Or.inl two)
      · obtain rfl := List.mem_singleton.1 there
        exact List.mem_cons_of_mem _ (range_words inside)
    exact inits _ word _ ((List.mem_inits ..).2 ⟨more.map foldBC, (List.map_append ..).symm⟩)

theorem overlapping_folded : ∀ rule ∈ overlappingRules.regexes, ∀ t ∈ rule.body, t.type = .charset →
    ∀ b b', foldBC b = foldBC b' → b ∈ t.str → b' ∈ t.str := by
  have sets : ∀ rule ∈ overlappingRules.regexes, ∀ t ∈ rule.body, t.type = .charset →
      t.str = literal icase (byte 'a') ∨ t.str = lettersBC ∨ t.str = literal icase (byte 'd') := by
    decide +kernel
  intro rule there t inside type b b' same
  rcases sets rule there t inside type with set | set | set <;> rw [set]
  · rw [foldBC_letterA, foldBC_letterA, same]
    exact id
  · rw [foldBC_lettersBC, foldBC_lettersBC, same]
    exact id
  · rw [foldBC_letterD, foldBC_letterD, same]
    exact id

theorem build_rows_overlapping : ∃ table, overlappingRules.build = .ok table ∧ table.rows ≤ 8 := by
  obtain ⟨table, built, -⟩ := overlapping_table
  exact ⟨table, built, build_rows_le overlapping_made overlapping_plain built overlapping_folded fun _ => overlapping_starts⟩

/-- **The table is what the copy and the search take.**  `denotes` is any reading of the texts that agrees with the grammar. -/
theorem build_contract (made : regexRules unicode apps = .ok rules) (noEol : ∀ rule ∈ rules.regexes, rule.Without .eol)
    (built : rules.build = .ok table) (few : table.rows < 65535) (classes : table.alphabet ≤ 7 + 255)
    (eager : ∀ rule ∈ rules.regexes, rule.Eager) {denotes : CStr → CStr → Prop}
    (means : ∀ app ∈ apps, ∀ text, denotes app.regex text ↔ text ∈ app.lang unicode) :
    Recognises table table.rows (table.alphabet - 7) apps denotes ∧
      ((∀ rule ∈ rules.regexes, rule.Without .bol) → Trim table apps denotes) := by
  have rulesFor := regexRules_ok made
  obtain ⟨root, heap, map, exprs, seen, source⟩ := build_source rulesFor.tokenised noEol built
  exact ⟨source.recognises rulesFor means eager few classes,
    fun noBol => source.trim rulesFor means (fun rule there => ⟨noBol rule there, noEol rule there⟩) (few.trans (by decide))⟩

/-- A text stands for the words of the entry with it. -/
def overlappingDenotes (regex text : CStr) : Prop := ∃ app ∈ overlapping, app.regex = regex ∧ text ∈ app.lang fun _ _ => []

theorem overlappingDenotes_iff : ∀ app ∈ overlapping, ∀ text, overlappingDenotes app.regex text ↔ text ∈ app.lang fun _ _ => [] := by
  intro app member text
  have once : ∀ app ∈ overlapping, ∀ other ∈ overlapping, other.regex = app.regex → other = app := by decide
  constructor
  · rintro ⟨other, member', same, inside⟩
    rwa [once app member other member' same] at inside
  · exact fun inside => ⟨app, member, rfl, inside⟩

theorem build_contract_overlapping : ∃ table, overlappingRules.build = .ok table ∧
    Recognises table table.rows (table.alphabet - 7) overlapping overlappingDenotes ∧
    Trim table overlapping overlappingDenotes := by
  obtain ⟨table, built, few, classes⟩ := overlapping_table
  obtain ⟨recognises, trim⟩ := build_contract overlapping_made (fun rule there => (overlapping_plain rule there).2) built few
    classes overlapping_eager overlappingDenotes_iff
  exact ⟨table, built, recognises, trim fun rule there => (overlapping_plain rule there).1⟩

/-- **What a minimised table finds** is what the table of the rules finds: the texts of the first entry with them. -/
theorem build_minimise (made : regexRules unicode apps = .ok rules) (noEol : ∀ rule ∈ rules.regexes, rule.Without .eol)
    (built : rules.build = .ok table) : table.minimise.rows ≤ table.rows ∧
      (∀ text row, run table.minimise.step 1 text = some row → table.minimise.isEnd row →
        ∃ app, FirstWith unicode apps text app ∧ table.minimise.id row = app.appId) ∧
      ((∀ rule ∈ rules.regexes, rule.Eager) → ∀ app ∈ apps, ∀ text ∈ app.lang unicode,
        ∃ row, run table.minimise.step 1 text = some row ∧ table.minimise.isEnd row) := by
  have rulesFor := regexRules_ok made
  have few := build_few built
  obtain ⟨root, heap, map, exprs, seen, source⟩ := build_source rulesFor.tokenised noEol built
  have sound := source.sound few
  obtain ⟨rows', m, merges, -⟩ := minimiseLoop_merges sound.rows
  rw [sound.minimise_eq]
  refine ⟨merges.rows_le sound, fun text row ran isEnd => ?_, fun eager app member text inside => ?_⟩
  · rw [merges.run sound] at ran
    obtain ⟨row, first, rfl⟩ := Option.map_eq_some_iff.1 ran
    unfold LexTable.isEnd at isEnd
    unfold LexTable.id
    rw [merges.values sound first (by decide)] at isEnd ⊢
    exact source.ends rulesFor few first isEnd
  · obtain ⟨row, ran, isEnd⟩ := source.complete rulesFor few eager member inside
    refine ⟨m row, by rw [merges.run sound, ran]; rfl, ?_⟩
    unfold LexTable.isEnd at *
    rwa [merges.values sound ran (by decide)]

theorem build_minimise_overlapping : ∃ table, overlappingRules.build = .ok table ∧ table.minimise.rows ≤ table.rows ∧
    (∀ text row, run table.minimise.step 1 text = some row → table.minimise.isEnd row →
      ∃ app, FirstWith (fun _ _ => []) overlapping text app ∧ table.minimise.id row = app.appId) ∧
    ∀ app ∈ overlapping, ∀ text ∈ app.lang (fun _ _ => []),
      ∃ row, run table.minimise.step 1 text = some row ∧ table.minimise.isEnd row := by
  obtain ⟨table, built, -⟩ := overlapping_table
  obtain ⟨fewer, ends, complete⟩ := build_minimise overlapping_made (fun rule there => (overlapping_plain rule there).2) built
  exact ⟨table, built, fewer, ends, complete overlapping_eager⟩

/-! ## The search -/

/-- `httpParse` over the ids that something finds behind what has been read. -/
def searchLoop (found : CStr → Option Uint) (tx : CStr) : CStr → CStr → Uint → SearchM Unit
  | _, [], _ => return ()
  | before, c :: text, elementLast =>
      match found (before ++ [c]) with
      | none => searchLoop found tx (before ++ [c]) text elementLast
      | some matchId => do
          let elementLast ← httpParseEnd tx (before.length + 1) matchId elementLast
          searchLoop found tx (before ++ [c]) text elementLast

theorem Simulates.httpParseLoop_eq {R C : Nat} {graph : DfaGraphT} (simulates : Simulates table R C graph) (shaped : Shaped table R C)
    (tx text : CStr) : ∀ {before : CStr} {elementLast : Uint},
      httpParseLoop graph tx text before.length ((7 + C) * (table.rowAfter before - 1)) elementLast =
        searchLoop (graph.idAfter 0) tx before text elementLast := by
  induction text with
  | nil => exact rfl
  | cons c text ih =>
      intro before elementLast
      obtain ⟨moved, read⟩ := simulates.snoc shaped before c
      have rest := fun elementLast => @ih (before ++ [c]) elementLast
      rw [List.length_append, List.length_singleton] at rest
      rw [httpParseLoop, searchLoop, moved]
      dsimp only
      rw [read]
      cases graph.idAfter 0 (before ++ [c]) with
      | none => exact rest elementLast
      | some matchId => exact bind_congr rest

open Classical in
/-- What has been read since a byte with which no text of an entry went on. -/
noncomputable def sinceStuck (unicode : Char → Char → CStr) (apps : List AppEntryT) (text : CStr) : CStr :=
  restartWord (StartsText unicode apps) text

open Classical in
/-- The id of the first entry with what has been read since then. -/
noncomputable def foundId (unicode : Char → Char → CStr) (apps : List AppEntryT) (text : CStr) : Option Uint :=
  if first : ∃ app, FirstWith unicode apps (sinceStuck unicode apps text) app then some first.choose.appId else none

theorem foundId_eq_some_iff {text : CStr} {id : Uint} : foundId unicode apps text = some id ↔
    ∃ app, FirstWith unicode apps (sinceStuck unicode apps text) app ∧ app.appId = id := by
  unfold foundId
  split
  · next first =>
    constructor
    · exact fun same => ⟨first.choose, first.choose_spec, Option.some.inj same⟩
    · rintro ⟨app, here, rfl⟩
      rw [first.choose_spec.unique here]
  · next none_ => exact iff_of_false (fun impossible => by cases impossible) fun ⟨app, here, _⟩ => none_ ⟨app, here⟩

section Search

variable (made : regexRules unicode apps = .ok rules) (plain : ∀ rule ∈ rules.regexes, rule.Without .bol ∧ rule.Without .eol)
  (eager : ∀ rule ∈ rules.regexes, rule.Eager) (built : rules.build = .ok table)

include made plain eager built

/-- The words that the table can read are the starts of the texts. -/
theorem startsText_iff (word : CStr) : StartsText unicode apps word ↔ ∃ row, run table.step 1 word = some row := by
  have rulesFor := regexRules_ok made
  have below := build_few built
  obtain ⟨root, heap, map, exprs, seen, source⟩ := build_source rulesFor.tokenised (fun rule there => (plain rule there).2) built
  refine ⟨?_, fun ⟨row, ran⟩ => source.starts rulesFor below plain ran⟩
  rintro (rfl | ⟨app, member, more, inside⟩)
  · exact ⟨1, rfl⟩
  · obtain ⟨row, ran, -⟩ := source.complete rulesFor below eager member inside
    rw [run_append] at ran
    obtain ⟨between, first, -⟩ := Option.bind_eq_some_iff.1 ran
    exact ⟨between, first⟩

/-- So the row behind a text is that of the word since the search was stuck. -/
theorem foundId_table (text : CStr) : foundId unicode apps text =
    if table.isEnd (table.rowAfter text) then some (table.id (table.rowAfter text)) else none := by
  have rulesFor := regexRules_ok made
  have below := build_few built
  have ran : run table.step 1 (sinceStuck unicode apps text) = some (table.rowAfter text) := by
    classical
    exact run_restartWord table.step (StartsText unicode apps) (startsText_iff made plain eager built) text
  obtain ⟨root, heap, map, exprs, seen, source⟩ := build_source rulesFor.tokenised (fun rule there => (plain rule there).2) built
  refine Option.ext fun id => ?_
  rw [foundId_eq_some_iff]
  constructor
  · rintro ⟨app, ⟨k, here, inside, earlier⟩, rfl⟩
    obtain ⟨row, ran', isEnd⟩ := source.complete rulesFor below eager (List.mem_of_getElem? here) inside
    obtain rfl : table.rowAfter text = row := Option.some.inj (ran.symm.trans ran')
    obtain ⟨other, first, same⟩ := source.ends rulesFor below ran isEnd
    rw [if_pos isEnd, same, first.unique ⟨k, here, inside, earlier⟩]
  · intro found
    split at found
    · next isEnd =>
      obtain ⟨app, first, same⟩ := source.ends rulesFor below ran isEnd
      exact ⟨app, first, same.symm.trans (Option.some.inj found)⟩
    · cases found

/-- The graph that `Regex_Parse` returns. -/
theorem regexParse_graph (old : Nat → Ushort) (few : table.rows < 65535) (classes : table.alphabet ≤ 7 + 255) :
    Shaped table table.rows (table.alphabet - 7) ∧ ∃ graph, regexParse unicode old apps = .ok graph ∧
      Simulates table table.rows (table.alphabet - 7) graph ∧ graph.idAfter 0 = foundId unicode apps := by
  have rulesFor := regexRules_ok made
  obtain ⟨root, heap, map, exprs, seen, source⟩ := build_source rulesFor.tokenised (fun rule there => (plain rule there).2) built
  have shaped := source.shaped few classes
  obtain ⟨graph, copied, -⟩ := shaped.reassembled old
  have simulates := shaped.simulates copied
  refine ⟨shaped, graph, ?_, simulates, funext fun text => ?_⟩
  · unfold regexParse
    rw [bind_of_ok made, bind_of_ok built]
    exact copied
  · rw [simulates.idAfter shaped, foundId_table made plain eager built]

/-- **What the search of any list finds.**  Behind a text it stands at an end row exactly if what it has read since it was last
stuck is a text of some entry, and the row has the id of the first such entry. -/
theorem regexParse_search (old : Nat → Ushort) (few : table.rows < 65535) (classes : table.alphabet ≤ 7 + 255) :
    ∃ graph, regexParse unicode old apps = .ok graph ∧ ∀ text id, graph.idAfter 0 text = some id ↔
      ∃ app, FirstWith unicode apps (sinceStuck unicode apps text) app ∧ app.appId = id := by
  obtain ⟨-, graph, parsed, -, found⟩ := regexParse_graph made plain eager built old few classes
  refine ⟨graph, parsed, fun text id => ?_⟩
  rw [found, foundId_eq_some_iff]

/-- **The search of any list is the search for its entries**: behind each byte `httpParse` does what the id of the first entry
with the word since it was last stuck makes it do, failed assertions and stored words with it. -/
theorem regexParse_httpParse (old : Nat → Ushort) (few : table.rows < 65535) (classes : table.alphabet ≤ 7 + 255) :
    ∃ graph, regexParse unicode old apps = .ok graph ∧ ∀ tx, httpParse graph tx = do
      searchLoop (foundId unicode apps) tx [] tx 0
      return 0 := by
  obtain ⟨shaped, graph, parsed, simulates, found⟩ := regexParse_graph made plain eager built old few classes
  refine ⟨graph, parsed, fun tx => ?_⟩
  have loop := @Simulates.httpParseLoop_eq _ _ _ _ simulates shaped tx tx [] 0
  rw [found] at loop
  rw [httpParse, ← loop]
  rfl

/-- **`dfaSearch`** returns the low half of the id of the first entry that is found, and zero if there is none. -/
theorem regexParse_dfaSearch (old : Nat → Ushort) (few : table.rows < 65535) (classes : table.alphabet ≤ 7 + 255) :
    ∃ graph, regexParse unicode old apps = .ok graph ∧ ∀ text, dfaSearch graph text =
      .ok (((firstFound (foundId unicode apps) [] text).map (BitVec.setWidth 16)).getD 0) := by
  obtain ⟨shaped, graph, parsed, simulates, found⟩ := regexParse_graph made plain eager built old few classes
  refine ⟨graph, parsed, fun text => ?_⟩
  rw [← found]
  exact @Simulates.dfaSearchLoop_eq _ _ _ _ simulates shaped text []

end Search

theorem regexParse_search_overlapping : ∃ graph, regexParse (fun _ _ => []) (fun _ => 0) overlapping = .ok graph ∧
    ∀ text id, graph.idAfter 0 text = some id ↔
      ∃ app, FirstWith (fun _ _ => []) overlapping (sinceStuck (fun _ _ => []) overlapping text) app ∧ app.appId = id := by
  obtain ⟨table, built, few, classes⟩ := overlapping_table
  exact regexParse_search overlapping_made overlapping_plain overlapping_eager built (fun _ => 0) few classes

theorem regexParse_httpParse_overlapping : ∃ graph, regexParse (fun _ _ => []) (fun _ => 0) overlapping = .ok graph ∧
    ∀ tx, httpParse graph tx = do
      searchLoop (foundId (fun _ _ => []) overlapping) tx [] tx 0
      return 0 := by
  obtain ⟨table, built, few, classes⟩ := overlapping_table
  exact regexParse_httpParse overlapping_made overlapping_plain overlapping_eager built (fun _ => 0) few classes

theorem regexParse_dfaSearch_overlapping : ∃ graph, regexParse (fun _ _ => []) (fun _ => 0) overlapping = .ok graph ∧
    ∀ text, dfaSearch graph text =
      .ok (((firstFound (foundId (fun _ _ => []) overlapping) [] text).map (BitVec.setWidth 16)).getD 0) := by
  obtain ⟨table, built, few, classes⟩ := overlapping_table
  exact regexParse_dfaSearch overlapping_made overlapping_plain overlapping_eager built (fun _ => 0) few classes

end Table

end Orchid
