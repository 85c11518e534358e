/-
# RegexParse.RegexRules -- the table of the pattern list

The rules of the pattern list are those of its entries, in their order (`RulesFor`).  A
table that is built of them meets the contract with lexertl, whatever the texts stand
for (`Rules.recognises`): the words are those that the grammar gives to the tokens of a
text.  It holds for lists without `$` and without lazy quantifiers, as long as the
graph has room for the rows and the classes.
-/
import Orchid.RegexParse.PlainTable
import Orchid.RegexParse.TokeniserRuns
import Orchid.Searcher.IdWord

namespace Orchid

open Orchid.Theory

set_option autoImplicit false

/-! ## The rules of the entries -/

variable {unicode : Char → Char → CStr}

/-- The end of an entry's rule. -/
def AppEntryT.endState (app : AppEntryT) : EndState := ⟨app.appId, npos, 0, npos, false⟩

/-- What `push` makes of an entry. -/
structure RuleFor (unicode : Char → Char → CStr) (app : AppEntryT) (rule : Rule) : Prop where
  known : app.appId ≠ 0 ∧ app.appId ≠ npos
  regex : tokenise unicode app.regex app.appId icase = .ok rule.regex
  end_ : rule.end_ = app.endState

theorem RuleFor.tokenised {app : AppEntryT} {rule : Rule} (ruleFor : RuleFor unicode app rule) : rule.Tokenised :=
  tokenise_tokenised rule.end_ ruleFor.regex

theorem RuleFor.unique {app : AppEntryT} {rule rule' : Rule} (ruleFor : RuleFor unicode app rule)
    (ruleFor' : RuleFor unicode app rule') : rule = rule' := by
  obtain ⟨regex, end_⟩ := rule
  obtain ⟨regex', end_'⟩ := rule'
  obtain rfl : end_ = end_' := ruleFor.end_.trans ruleFor'.end_.symm
  obtain rfl : regex = regex' := Except.ok.inj (ruleFor.regex.symm.trans ruleFor'.regex)
  rfl

/-- The words that the grammar gives to an entry's text. -/
def AppEntryT.lang (unicode : Char → Char → CStr) (app : AppEntryT) : Language UInt8 :=
  {text | ∃ rule, RuleFor unicode app rule ∧ text ∈ rule.lang}

theorem RuleFor.mem_lang {app : AppEntryT} {rule : Rule} (ruleFor : RuleFor unicode app rule) {text : CStr} :
    text ∈ app.lang unicode ↔ text ∈ rule.lang := by
  constructor
  · rintro ⟨rule', ruleFor', inside⟩
    rwa [ruleFor.unique ruleFor']
  · exact fun inside => ⟨rule, ruleFor, inside⟩

theorem checkForInvalidId_ok {id : Uint} : Rules.checkForInvalidId id = .ok () ↔ id ≠ 0 ∧ id ≠ npos := by
  unfold Rules.checkForInvalidId
  by_cases zero : id = 0
  · simp [zero]
  · by_cases last : id = npos
    · rw [if_neg zero, if_pos last]
      simp [last]
    · simp [last]

theorem bol_pushFeatures {regex : CStr} (id : Uint) {features : Nat} (notBol : regex.head? ≠ some (byte '^')) :
    hasFlag (Rules.pushFeatures regex id features) bolBit = hasFlag features bolBit := by
  have other : ∀ f bit : Nat, bit &&& bolBit = 0 → hasFlag (f ||| bit) bolBit = hasFlag f bolBit := by
    intro f bit apart
    unfold hasFlag
    rw [Nat.and_or_distrib_right, apart, Nat.or_zero]
  unfold Rules.pushFeatures
  rw [if_neg notBol]
  split_ifs
  · rw [other _ _ (by decide), other _ _ (by decide)]
  · rw [other _ _ (by decide), other _ _ (by decide)]
  · rw [other _ _ (by decide)]
  · rw [other _ _ (by decide)]
  · rw [other _ _ (by decide)]
  · rfl

/-! ### A `^` in front -/

section Caret

variable {state : ReState} {lhs : ReToken} {rest : CStr}

/-- Without the flag nothing is skipped in front of a byte that begins neither a string nor a comment, and at the end. -/
theorem skipAll_same {rounds : Nat} (flags : state.flags = icase)
    (begins : ∀ c rest, state.rest = c :: rest → c ≠ byte '"' ∧ c ≠ byte '(') : ReState.skipAll rounds state = .ok state := by
  have quoted : quotes state.rest state.inString = (state.rest, state.inString) := by
    cases here : state.rest with
    | nil => rfl
    | cons c rest =>
        unfold quotes
        rw [if_neg (begins c rest here).1]
  have comment : state.comment = .ok (false, state) := by
    unfold ReState.comment
    rw [if_neg]
    rintro ⟨-, three⟩
    cases here : state.rest with
    | nil =>
        rw [here] at three
        cases three
    | cons c rest =>
        rw [here] at three
        exact (begins c rest here).2 (List.cons.inj three).1
  have skip : state.skip = .ok (false, state) := by
    unfold ReState.skip
    rw [flags, if_neg fun both => absurd both.1 (by decide)]
  unfold ReState.skipAll
  rw [quoted]
  exact (bind_of_ok comment).trans (bind_of_ok skip)

theorem next_caret (outside : state.inString = false) (flags : state.flags = icase) (here : state.rest = byte '^' :: rest)
    (front : state.total = state.rest.length) : next unicode lhs state = .ok (.ofType .bol, state.setRest rest) := by
  have skipped : ReState.skipAll state.rest.length state = .ok state := by
    refine skipAll_same flags fun d later there => ?_
    rw [here] at there
    rw [← (List.cons.inj there).1]
    decide
  have index : (state.setRest rest).index = 1 := by
    unfold ReState.index ReState.setRest
    rw [front, here, List.length_cons]
    exact Nat.add_sub_cancel_left ..
  unfold next
  rw [bind_of_ok skipped]
  simp only [here, ReState.inString_setRest, outside, Bool.false_eq_true, if_false]
  rw [if_neg (by decide)]
  unfold meta_
  rw [if_neg (by decide), if_neg (by decide), if_neg (by decide), if_neg (by decide), if_neg (by decide), if_neg (by decide),
    if_neg (by decide), if_pos rfl, index]
  rfl

/-- A token keeps its type when others are read behind it. -/
theorem tokeniseLoop_keeps {type : TokenType} {rounds : Nat} : ∀ {state : ReState} {tokens : TokenList} {out : List ReToken},
    (∃ t ∈ tokens.before ++ [tokens.last], t.type = type) → tokeniseLoop unicode rounds state tokens = .ok out →
      ∃ t ∈ out, t.type = type := by
  have step : ∀ {state : ReState} {tokens tokens' : TokenList} {rhs : ReToken}, addToken rhs state tokens = .ok tokens' →
      (∃ t ∈ tokens.before ++ [tokens.last], t.type = type) → ∃ t ∈ tokens'.before ++ [tokens'.last], t.type = type := by
    rintro state tokens tokens' rhs added ⟨t, member, same⟩
    rcases addToken_ok added with ⟨-, before, last⟩ | ⟨-, -, rfl⟩ | ⟨-, before, last, -⟩
    · exact ⟨t, by rw [before, last]; exact member, same⟩
    · exact ⟨t, List.mem_append_left _ member, same⟩
    · rw [before]
      rcases List.mem_append.1 member with member | member
      · exact ⟨t, List.mem_append_left _ member, same⟩
      · rw [List.mem_singleton.1 member] at same
        exact ⟨tokens'.last, by simp, last.trans same⟩
  induction rounds with
  | zero =>
      intro state tokens out has done
      unfold tokeniseLoop at done
      obtain ⟨⟨rhs, state'⟩, -, done⟩ := bind_ok done
      obtain ⟨tokens', added, done⟩ := bind_ok done
      split at done
      · obtain rfl := Except.ok.inj done
        exact step added has
      · cases done
  | succ rounds ih =>
      intro state tokens out has done
      unfold tokeniseLoop at done
      obtain ⟨⟨rhs, state'⟩, -, done⟩ := bind_ok done
      obtain ⟨tokens', added, done⟩ := bind_ok done
      split at done
      · obtain rfl := Except.ok.inj done
        exact step added has
      · exact ih (step added has) done

/-- A `^` in front of the text is an anchor of the rule. -/
theorem RuleFor.notBol {app : AppEntryT} {rule : Rule} (ruleFor : RuleFor unicode app rule) (without : rule.Without .bol) :
    app.regex.head? ≠ some (byte '^') := by
  intro front
  obtain ⟨rest, here⟩ : ∃ rest, app.regex = byte '^' :: rest := by
    cases text : app.regex with
    | nil =>
        rw [text] at front
        cases front
    | cons c rest =>
        rw [text] at front
        exact ⟨rest, by rw [Option.some.inj front]⟩
  have read := ruleFor.regex
  unfold tokenise at read
  obtain ⟨tokens, looped, read⟩ := bind_ok read
  obtain ⟨t, member, type⟩ : ∃ t ∈ tokens, t.type = .bol := by
    rw [here, List.length_cons] at looped
    unfold tokeniseLoop at looped
    rw [bind_of_ok (next_caret rfl rfl rfl rfl)] at looped
    have added : addToken (.ofType .bol) ((ReState.ofText (byte '^' :: rest) app.appId icase).setRest rest)
        ⟨[], .ofType .begin_, none⟩ = .ok ⟨[.ofType .begin_], .ofType .bol, none⟩ := rfl
    dsimp only at looped
    rw [bind_of_ok added] at looped
    exact tokeniseLoop_keeps ⟨.ofType .bol, by simp, rfl⟩ looped
  split at read
  · cases read
  · obtain rfl := Except.ok.inj read
    obtain ⟨first, last, regex, typeF, typeL⟩ := ruleFor.tokenised.regex
    rw [regex] at member
    rcases List.mem_cons.1 member with rfl | member
    · rw [typeF] at type
      cases type
    · rcases List.mem_append.1 member with inside | ends
      · exact without t inside type
      · rw [List.mem_singleton.1 ends, typeL] at type
        cases type

end Caret

/-- What is known of the rules of a list. -/
structure RulesFor (unicode : Char → Char → CStr) (apps : List AppEntryT) (rules : Rules) : Prop where
  flags : rules.flags = icase
  regexes : List.Forall₂ (RuleFor unicode) apps rules.regexes
  bol : (∀ app ∈ apps, app.regex.head? ≠ some (byte '^')) → hasFlag rules.features bolBit = false

theorem RulesFor.nil : RulesFor unicode [] Rules.empty where
  flags := rfl
  regexes := List.Forall₂.nil
  bol _ := rfl

/-- One more entry. -/
theorem RulesFor.push {apps : List AppEntryT} {rules : Rules} (rulesFor : RulesFor unicode apps rules) {app : AppEntryT}
    {tokens : List ReToken} (known : app.appId ≠ 0 ∧ app.appId ≠ npos)
    (read : tokenise unicode app.regex app.appId icase = .ok tokens) :
    ∃ rules', rules.push unicode app.regex app.appId = .ok rules' ∧ RulesFor unicode (apps ++ [app]) rules' := by
  refine ⟨{ rules with
    regexes := rules.regexes ++ [⟨tokens, app.endState⟩]
    features := Rules.pushFeatures app.regex app.appId rules.features }, ?_, rulesFor.flags, ?_, fun notBol => ?_⟩
  · unfold Rules.push
    rw [bind_of_ok (checkForInvalidId_ok.2 known), rulesFor.flags, bind_of_ok read]
    rfl
  · exact List.rel_append rulesFor.regexes (.cons ⟨known, read, rfl⟩ .nil)
  · have front := rulesFor.bol fun other member => notBol other (List.mem_append_left _ member)
    show hasFlag (Rules.pushFeatures app.regex app.appId rules.features) bolBit = false
    rw [bol_pushFeatures _ (notBol app (by simp)), front]

theorem push_ok {rules rules' : Rules} {app : AppEntryT} (flags : rules.flags = icase)
    (pushed : rules.push unicode app.regex app.appId = .ok rules') :
    (app.appId ≠ 0 ∧ app.appId ≠ npos) ∧ ∃ tokens, tokenise unicode app.regex app.appId icase = .ok tokens := by
  unfold Rules.push at pushed
  obtain ⟨_, known, pushed⟩ := bind_ok pushed
  obtain ⟨tokens, read, -⟩ := bind_ok pushed
  rw [flags] at read
  exact ⟨checkForInvalidId_ok.1 known, tokens, read⟩

theorem regexRules_ok {apps : List AppEntryT} {rules : Rules} (made : regexRules unicode apps = .ok rules) :
    RulesFor unicode apps rules := by
  refine foldlM_ok (P := RulesFor unicode) (fun app _ done before after rulesFor pushed => ?_) RulesFor.nil made
  obtain ⟨known, tokens, read⟩ := push_ok rulesFor.flags pushed
  obtain ⟨rules', pushed', rulesFor'⟩ := rulesFor.push known read
  obtain rfl := Except.ok.inj (pushed.symm.trans pushed')
  exact rulesFor'

section Contract

variable {apps : List AppEntryT} {rules : Rules} {table : LexTable} {denotes : CStr → CStr → Prop}

theorem RulesFor.rule (rulesFor : RulesFor unicode apps rules) {rule : Rule} (member : rule ∈ rules.regexes) :
    ∃ app ∈ apps, RuleFor unicode app rule := by
  obtain ⟨k, there⟩ := List.getElem?_of_mem member
  obtain ⟨app, here, ruleFor⟩ := (forall₂_getElem? rulesFor.regexes).2 rule there
  exact ⟨app, List.mem_of_getElem? here, ruleFor⟩

theorem RulesFor.app (rulesFor : RulesFor unicode apps rules) {app : AppEntryT} (member : app ∈ apps) :
    ∃ rule ∈ rules.regexes, RuleFor unicode app rule := by
  obtain ⟨k, there⟩ := List.getElem?_of_mem member
  obtain ⟨rule, here, ruleFor⟩ := (forall₂_getElem? rulesFor.regexes).1 app there
  exact ⟨rule, List.mem_of_getElem? here, ruleFor⟩

theorem RulesFor.tokenised (rulesFor : RulesFor unicode apps rules) : ∀ rule ∈ rules.regexes, rule.Tokenised := by
  intro rule member
  obtain ⟨app, -, ruleFor⟩ := rulesFor.rule member
  exact ruleFor.tokenised

/-- Without anchors in the rules the lexer knows of none. -/
theorem RulesFor.notBol (rulesFor : RulesFor unicode apps rules) (without : ∀ rule ∈ rules.regexes, rule.Without .bol) :
    hasFlag rules.features bolBit = false := by
  refine rulesFor.bol fun app member => ?_
  obtain ⟨rule, there, ruleFor⟩ := rulesFor.app member
  exact ruleFor.notBol (without rule there)

/-- The first entry with the text. -/
def FirstWith (unicode : Char → Char → CStr) (apps : List AppEntryT) (text : CStr) (app : AppEntryT) : Prop :=
  ∃ k : Nat, apps[k]? = some app ∧ text ∈ app.lang unicode ∧
    ∀ j < k, ∀ earlier : AppEntryT, apps[j]? = some earlier → text ∉ earlier.lang unicode

theorem FirstWith.unique {text : CStr} {app other : AppEntryT} (first : FirstWith unicode apps text app)
    (first' : FirstWith unicode apps text other) : app = other := by
  obtain ⟨k, here, inside, before⟩ := first
  obtain ⟨k', here', inside', before'⟩ := first'
  rcases Nat.lt_trichotomy k k' with less | rfl | more
  · exact absurd inside (before' k less app here)
  · exact Option.some.inj (here.symm.trans here')
  · exact absurd inside' (before k' more other here')

/-- A text of some entry goes on with the word. -/
def StartsText (unicode : Char → Char → CStr) (apps : List AppEntryT) (word : CStr) : Prop :=
  word = [] ∨ ∃ app ∈ apps, ∃ more, word ++ more ∈ app.lang unicode

variable (rulesFor : RulesFor unicode apps rules) {root : Node} {heap : Heap} {map : CharsetMap} {exprs : List (Expr Nat)}
  {seen : List (List Nat)}
  (source : Source rules.flags (hasFlag rules.features bolBit) rules.regexes table root heap map exprs seen)

include rulesFor source

/-- An end row has been led to by a text of an entry, the first with it. -/
theorem Source.ends (few : table.rows < npos.toNat) {text : CStr} {row : Nat} (ran : run table.step 1 text = some row)
    (isEnd : table.isEnd row) : ∃ app, FirstWith unicode apps text app ∧ table.id row = app.appId := by
  obtain ⟨e, es, rfl, expr⟩ := source.expr
  obtain ⟨k, rule, here, inside, earlier, columns⟩ :=
    source.joined.ends rulesFor.tokenised expr source.trees source.built (source.rows ▸ few) ran isEnd
  obtain ⟨app, there, ruleFor⟩ := (forall₂_getElem? rulesFor.regexes).2 rule here
  refine ⟨app, ⟨k, there, ruleFor.mem_lang.2 inside, fun j before other thereO inOther => ?_⟩, ?_⟩
  · obtain ⟨ruleO, hereO, ruleForO⟩ := (forall₂_getElem? rulesFor.regexes).1 other thereO
    exact earlier j before ruleO hereO (ruleForO.mem_lang.1 inOther)
  · unfold LexTable.id
    rw [columns idIndex (by decide) (by decide), ruleFor.end_]
    rfl

/-- If nothing is lazy, every text of every entry leads to an end row. -/
theorem Source.complete (few : table.rows < npos.toNat) (eager : ∀ rule ∈ rules.regexes, rule.Eager) {app : AppEntryT}
    (member : app ∈ apps) {text : CStr} (inside : text ∈ app.lang unicode) :
    ∃ row, run table.step 1 text = some row ∧ table.isEnd row := by
  obtain ⟨e, es, rfl, expr⟩ := source.expr
  obtain ⟨rule, there, ruleFor⟩ := rulesFor.app member
  exact source.joined.complete rulesFor.tokenised expr source.trees source.built (source.rows ▸ few)
    (source.joined.greedy eager) there (ruleFor.mem_lang.1 inside)

/-- No row is a dead end. -/
theorem Source.starts (few : table.rows < npos.toNat) (plain : ∀ rule ∈ rules.regexes, rule.Without .bol ∧ rule.Without .eol)
    {text : CStr} {row : Nat} (ran : run table.step 1 text = some row) : StartsText unicode apps text := by
  obtain ⟨e, es, rfl, expr⟩ := source.expr
  refine (source.joined.trim rulesFor.tokenised expr source.trees source.built (source.rows ▸ few) plain ran).imp_right ?_
  rintro ⟨rule, there, more, inside⟩
  obtain ⟨app, member, ruleFor⟩ := rulesFor.rule there
  exact ⟨app, member, more, ruleFor.mem_lang.2 inside⟩

/-- There are no more rows than starts of texts that the sets of the rules tell apart. -/
theorem Source.rows_le (plain : ∀ rule ∈ rules.regexes, rule.Without .bol ∧ rule.Without .eol) {κ : Type} [DecidableEq κ] {fold : UInt8 → κ}
    (folded : ∀ rule ∈ rules.regexes, ∀ t ∈ rule.body, t.type = .charset → ∀ b b', fold b = fold b' → b ∈ t.str → b' ∈ t.str)
    {keys : List (List κ)} (starts : ∀ text : CStr, StartsText unicode apps text → text.map fold ∈ keys) :
    table.rows ≤ keys.length + 1 := by
  obtain ⟨e, es, rfl, expr⟩ := source.expr
  rw [source.rows]
  apply Nat.succ_le_succ
  have notBol := rulesFor.notBol fun rule there => (plain rule there).1
  refine source.joined.length_le rulesFor.tokenised expr source.trees source.built plain notBol folded fun text start => ?_
  refine starts text (start.imp_right ?_)
  rintro ⟨rule, there, more, inside⟩
  obtain ⟨app, member, ruleFor⟩ := rulesFor.rule there
  exact ⟨app, member, more, ruleFor.mem_lang.2 inside⟩

omit rulesFor in
theorem Source.shaped (few : table.rows < 65535) (classes : table.alphabet ≤ 7 + 255) :
    Shaped table table.rows (table.alphabet - 7) := by
  obtain ⟨e, es, rfl, expr⟩ := source.expr
  have alphabet := source.alphabet
  unfold transitionsIndex at alphabet
  rw [source.rows, alphabet, Nat.add_sub_cancel]
  exact source.built.shaped (source.joined.ready expr source.trees) (source.rows ▸ few) source.alphabet (by omega)

variable (means : ∀ app ∈ apps, ∀ text, denotes app.regex text ↔ text ∈ app.lang unicode)

include means

/-- **The table that is built meets the contract with lexertl.** -/
theorem Source.recognises (eager : ∀ rule ∈ rules.regexes, rule.Eager) (few : table.rows < 65535)
    (classes : table.alphabet ≤ 7 + 255) : Recognises table table.rows (table.alphabet - 7) apps denotes := by
  have below : table.rows < npos.toNat := few.trans (by decide)
  refine ⟨source.shaped few classes, fun text row ran isEnd => ?_, fun text app member denoted => ?_⟩
  · obtain ⟨app, ⟨k, there, inside, earlier⟩, id⟩ := source.ends rulesFor below ran isEnd
    refine ⟨app, ⟨k, there, (means app (List.mem_of_getElem? there) text).2 inside, fun j before other thereO denoted => ?_⟩, id⟩
    exact earlier j before other thereO ((means other (List.mem_of_getElem? thereO) text).1 denoted)
  · exact source.complete rulesFor below eager member ((means app member text).1 denoted)

/-- **And no row is a dead end.** -/
theorem Source.trim (plain : ∀ rule ∈ rules.regexes, rule.Without .bol ∧ rule.Without .eol) (few : table.rows < npos.toNat) :
    Trim table apps denotes := by
  intro text row ran
  refine (source.starts rulesFor few plain ran).imp_right ?_
  rintro ⟨app, member, more, inside⟩
  exact ⟨app, member, more, (means app member _).2 inside⟩

end Contract

end Orchid
