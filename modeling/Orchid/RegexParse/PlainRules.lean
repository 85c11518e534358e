/-
# RegexParse.PlainRules -- texts without metacharacters

A text without metacharacters is read as one set for each of its bytes, the byte in both
cases (`tokenise_plain`), and it stands for itself up to case (`plainRule_means`).  So the
rules of a list of such texts are accepted, and the table of the rules meets the contract
with lexertl that `Recognises` and `Trim` state (`PlainList.exists_table`).

The table has a row for every left factor of the texts at most, so a list that leaves
room for these has its graph.
-/
import Orchid.RegexParse.RegexRules

namespace Orchid

open Orchid.Theory

set_option autoImplicit false

/-! ## A byte in both cases -/

theorem toNat_toupper (c : UInt8) :
    (toupper c).toNat = if 97 ≤ c.toNat ∧ c.toNat ≤ 122 then c.toNat - 32 else c.toNat := by
  have range : 97 ≤ c ∧ c ≤ 122 ↔ 97 ≤ c.toNat ∧ c.toNat ≤ 122 := and_congr UInt8.le_iff_toNat_le UInt8.le_iff_toNat_le
  unfold toupper
  by_cases small : 97 ≤ c.toNat ∧ c.toNat ≤ 122
  · have above : (32 : UInt8) ≤ c := UInt8.le_iff_toNat_le.2 (by show 32 ≤ c.toNat; omega)
    rw [if_pos (range.2 small), if_pos small, UInt8.toNat_sub_of_le _ _ above]
    rfl
  · rw [if_neg (mt range.1 small), if_neg small]

theorem toNat_tolower (c : UInt8) :
    (tolower c).toNat = if 65 ≤ c.toNat ∧ c.toNat ≤ 90 then c.toNat + 32 else c.toNat := by
  have range : 65 ≤ c ∧ c ≤ 90 ↔ 65 ≤ c.toNat ∧ c.toNat ≤ 90 := and_congr UInt8.le_iff_toNat_le UInt8.le_iff_toNat_le
  unfold tolower
  by_cases big : 65 ≤ c.toNat ∧ c.toNat ≤ 90
  · rw [if_pos (range.2 big), if_pos big, UInt8.toNat_add]
    exact Nat.mod_eq_of_lt (by show c.toNat + 32 < 256; omega)
  · rw [if_neg (mt range.1 big), if_neg big]

theorem mem_foldByte {c b : UInt8} : b ∈ foldByte .empty c ↔ (b = toupper c ∧ toupper c ≠ c) ∨ b = tolower c ∧ tolower c ≠ c := by
  unfold foldByte
  have one : ∀ {token : StringToken} {d : UInt8}, b ∈ token.insert (ByteRange.one d) ↔ b = d ∨ b ∈ token := by
    intro token d
    rw [StringToken.mem_insert, ← UInt8.toNat_inj]
    unfold ByteRange.has ByteRange.one
    exact or_congr_left ⟨fun inside => Nat.le_antisymm inside.2 inside.1, fun same => ⟨Nat.le_of_eq same.symm, Nat.le_of_eq same⟩⟩
  have none_ : b ∉ StringToken.empty := StringToken.not_mem_empty b
  by_cases upper : toupper c = c <;> by_cases lower : tolower c = c <;> simp [upper, lower, one, none_]
  exact or_comm

theorem fold_one (c : UInt8) : fold (ByteRange.one c) = foldByte .empty c := by
  unfold fold ByteRange.one ByteRange.size
  simp

/-- The set of a byte has the bytes that are the same up to case. -/
theorem mem_literal {c b : UInt8} : b ∈ literal icase c ↔ xlatcase b = xlatcase c := by
  have cases_ : b ∈ literal icase c ↔ b = c ∨ b = toupper c ∨ b = tolower c := by
    unfold literal insertFolded
    have icase_ : hasFlag icase icase = true := by decide
    simp only [fold_one, icase_, true_and]
    split
    · rw [StringToken.mem_insertToken, StringToken.mem_one, mem_foldByte]
      by_cases upper : toupper c = c <;> by_cases lower : tolower c = c <;> simp [upper, lower] <;> tauto
    · next empty =>
      rw [StringToken.mem_one]
      have none_ := StringToken.isEmpty_iff.1 (by simpa using empty : (foldByte .empty c).isEmpty = true)
      refine ⟨Or.inl, ?_⟩
      rintro (same | same | same)
      · exact same
      · by_contra differs
        exact none_ b (mem_foldByte.2 (Or.inl ⟨same, fun this => differs (same.trans this)⟩))
      · by_contra differs
        exact none_ b (mem_foldByte.2 (Or.inr ⟨same, fun this => differs (same.trans this)⟩))
  rw [cases_]
  show _ ↔ toupper b = toupper c
  simp only [← UInt8.toNat_inj, toNat_toupper, toNat_tolower]
  split_ifs <;> omega

theorem zero_not_mem_literal {c : UInt8} (nonempty : c ≠ 0) : 0 ∉ literal icase c := by
  rw [mem_literal]
  intro same
  have value : (toupper 0).toNat = (toupper c).toNat := congrArg UInt8.toNat same
  have zero : c.toNat ≠ 0 := fun zero => nonempty (UInt8.toNat_inj.1 zero)
  rw [toNat_toupper, toNat_toupper] at value
  split_ifs at value <;> simp at value <;> omega

/-! ## The tokens -/

def plainToken (c : UInt8) : ReToken := .ofSet (literal icase c)

def plainTokens (text : CStr) : List ReToken := .ofType .begin_ :: (text.map plainToken ++ [.ofType .end_])

section Read

variable {unicode : Char → Char → CStr} {state : ReState} {lhs : ReToken} {c : UInt8} {rest : CStr}

theorem ne_byte {ch : Char} (plain : c ∉ metacharacters) (is_meta : byte ch ∈ metacharacters) : c ≠ byte ch := by
  rintro rfl
  exact plain is_meta

/-- Nothing is skipped in front of a byte that is no metacharacter, and at the end. -/
theorem skipAll_plain {rounds : Nat} (flags : state.flags = icase)
    (plain : ∀ c rest, state.rest = c :: rest → c ∉ metacharacters) : ReState.skipAll rounds state = .ok state :=
  skipAll_same flags fun c rest here =>
    ⟨ne_byte (plain c rest here) (by decide), ne_byte (plain c rest here) (by decide)⟩

theorem next_plain (outside : state.inString = false) (flags : state.flags = icase) (here : state.rest = c :: rest)
    (plain : c ∉ metacharacters) : next unicode lhs state = .ok (plainToken c, state.setRest rest) := by
  have skipped : ReState.skipAll state.rest.length state = .ok state := by
    refine skipAll_plain flags fun d later there => ?_
    rw [here] at there
    rwa [← (List.cons.inj there).1]
  have other : ∀ {ch : Char}, byte ch ∈ metacharacters → ¬ c = byte ch := fun is_meta => ne_byte plain is_meta
  unfold next
  rw [bind_of_ok skipped]
  simp only [here, ReState.inString_setRest, outside, Bool.false_eq_true, if_false]
  rw [if_neg (other (by decide))]
  unfold meta_
  rw [if_neg (other (by decide)), if_neg (other (by decide)), if_neg (other (by decide)), if_neg (other (by decide)),
    if_neg (other (by decide)), if_neg (other (by decide)), if_neg (other (by decide)), if_neg (other (by decide)),
    if_neg (other (by decide)), if_neg (other (by decide)), if_neg (other (by decide)), if_neg (other (by decide)),
    ReState.flags_setRest, flags]
  rfl

theorem next_end (outside : state.inString = false) (flags : state.flags = icase) (closed : state.parenCount = 0)
    (here : state.rest = []) : next unicode lhs state = .ok (.ofType .end_, state) := by
  have skipped : ReState.skipAll state.rest.length state = .ok state := by
    refine skipAll_plain flags fun d later there => ?_
    rw [here] at there
    cases there
  unfold next
  rw [bind_of_ok skipped]
  simp only [here, outside, closed, Bool.false_eq_true, if_false, ne_eq, not_true_eq_false]
  rfl

/-- A set or the end goes behind the others. -/
theorem addToken_plain {rhs : ReToken} {tokens : TokenList} (diff : tokens.diff = none)
    (last : tokens.last.type = .begin_ ∨ tokens.last.type = .charset) (type : rhs.type = .charset ∨ rhs.type = .end_) :
    addToken rhs state tokens = .ok ⟨tokens.before ++ [tokens.last], rhs, none⟩ := by
  have notDiff : ¬ rhs.type = .diff := by
    rcases type with type | type <;> rw [type] <;> decide
  have notMacro : ¬ rhs.type = .macro_ := by
    rcases type with type | type <;> rw [type] <;> decide
  have fits : ¬ tokens.last.type.precedence rhs.type = ' ' := by
    rcases last with last | last <;> rcases type with type | type <;> rw [last, type] <;> decide
  unfold addToken
  rw [if_neg notDiff, if_neg fits, if_neg notMacro, diff]

theorem tokeniseLoop_plain {text : CStr} : ∀ {rounds : Nat} {state : ReState} {tokens : TokenList}, text.length ≤ rounds →
    state.rest = text → state.inString = false → state.flags = icase → state.parenCount = 0 →
    (∀ c ∈ text, c ∉ metacharacters) → tokens.diff = none → tokens.last.type = .begin_ ∨ tokens.last.type = .charset →
      tokeniseLoop unicode rounds state tokens =
        .ok (tokens.before ++ tokens.last :: (text.map plainToken ++ [.ofType .end_])) := by
  induction text with
  | nil =>
      intro rounds state tokens _ here outside flags closed _ diff last
      have ended : (ReToken.ofType .end_).type = .end_ := rfl
      unfold tokeniseLoop
      simp only [bind_of_ok (next_end outside flags closed here), bind_of_ok (addToken_plain diff last (Or.inr ended))]
      rw [if_pos ended]
      simp
      rfl
  | cons c text ih =>
      intro rounds state tokens enough here outside flags closed plain diff last
      obtain ⟨rounds, rfl⟩ : ∃ k, rounds = k + 1 := ⟨rounds - 1, by rw [List.length_cons] at enough; omega⟩
      unfold tokeniseLoop
      simp only [bind_of_ok (next_plain outside flags here (plain c List.mem_cons_self)),
        bind_of_ok (addToken_plain diff last (Or.inl (rfl : (plainToken c).type = .charset)))]
      have notEnd : ¬ (plainToken c).type = .end_ := fun type => by cases type
      have onward := @ih rounds (state.setRest text) ⟨tokens.before ++ [tokens.last], plainToken c, none⟩
        (Nat.le_of_succ_le_succ enough) rfl outside flags closed (fun d member => plain d (List.mem_cons_of_mem _ member)) rfl
        (Or.inr rfl)
      rw [if_neg notEnd, onward]
      simp

/-- **One set for each byte.** -/
theorem tokenise_plain {text : CStr} (plain : ∀ c ∈ text, c ∉ metacharacters) (nonempty : text ≠ []) (id : Uint) :
    tokenise unicode text id icase = .ok (plainTokens text) := by
  have looped : tokeniseLoop unicode text.length (ReState.ofText text id icase) ⟨[], .ofType .begin_, none⟩ =
      .ok (plainTokens text) :=
    tokeniseLoop_plain (Nat.le_refl _) rfl rfl rfl rfl plain rfl (Or.inl rfl)
  have long : ¬ (plainTokens text).length = 2 := by
    have positive := List.length_pos_iff.2 nonempty
    simp [plainTokens]
    omega
  unfold tokenise
  rw [bind_of_ok looped, if_neg long]
  rfl

end Read

/-! ## The meaning -/

theorem forall₂_snoc {α β : Type} {R : α → β → Prop} {xs : List α} {x : α} : ∀ {w : List β},
    List.Forall₂ R (xs ++ [x]) w ↔ ∃ v b, w = v ++ [b] ∧ List.Forall₂ R xs v ∧ R x b := by
  induction xs with
  | nil =>
      intro w
      constructor
      · intro related
        obtain ⟨b, v, here, done, rfl⟩ := List.forall₂_cons_left_iff.1 related
        obtain rfl := List.forall₂_nil_left_iff.1 done
        exact ⟨[], b, rfl, .nil, here⟩
      · rintro ⟨v, b, rfl, related, here⟩
        obtain rfl := List.forall₂_nil_left_iff.1 related
        exact .cons here .nil
  | cons y xs ih =>
      intro w
      constructor
      · intro related
        obtain ⟨b, v, here, later, rfl⟩ := List.forall₂_cons_left_iff.1 related
        obtain ⟨u, c, rfl, front, last⟩ := ih.1 later
        exact ⟨b :: u, c, rfl, .cons here front, last⟩
      · rintro ⟨v, b, rfl, related, last⟩
        obtain ⟨c, u, here, front, rfl⟩ := List.forall₂_cons_left_iff.1 related
        exact .cons here (ih.2 ⟨u, b, rfl, front, last⟩)

/-- Sets one behind the other match one byte of each. -/
theorem derives_sets {tokens : List ReToken} (nonempty : tokens ≠ []) (sets : ∀ t ∈ tokens, t.type = .charset) :
    ∃ r, Derives .regex tokens r ∧ ∀ w, w ∈ r.lang ↔ List.Forall₂ (fun t b => b ∈ t.str) tokens w := by
  have one : ∀ {t : ReToken}, t.type = .charset → Derives .expression [t] (.charset t.str) := fun type =>
    .expression (.charset type)
  have sub : ∃ r, Derives .sub tokens r ∧ ∀ w, w ∈ r.lang ↔ List.Forall₂ (fun t b => b ∈ t.str) tokens w := by
    induction tokens using List.reverseRecOn with
    | nil => exact absurd rfl nonempty
    | append_singleton tokens t ih =>
        have type : t.type = .charset := sets t (by simp)
        by_cases empty : tokens = []
        · subst empty
          refine ⟨.charset t.str, .sub (one type), fun w => ?_⟩
          simp only [List.nil_append, List.forall₂_cons_left_iff, List.forall₂_nil_left_iff]
          constructor
          · rintro ⟨b, here, rfl⟩
            exact ⟨b, [], here, rfl, rfl⟩
          · rintro ⟨b, v, here, rfl, rfl⟩
            exact ⟨b, here, rfl⟩
        · obtain ⟨r, derives, means⟩ := ih empty fun u member => sets u (List.mem_append_left _ member)
          refine ⟨.sequence r (.charset t.str), .join derives (one type), fun w => ?_⟩
          rw [forall₂_snoc]
          constructor
          · rintro ⟨v, inside, _, ⟨b, here, rfl⟩, rfl⟩
            exact ⟨v, b, rfl, (means v).1 inside, here⟩
          · rintro ⟨v, b, rfl, front, here⟩
            exact ⟨v, (means v).2 front, [b], ⟨b, here, rfl⟩, rfl⟩
  obtain ⟨r, derives, means⟩ := sub
  exact ⟨r, .regex (.orexp (.sequence derives)), means⟩

/-- The rule of an entry without metacharacters. -/
def plainRule (app : AppEntryT) : Rule := ⟨plainTokens app.regex, app.endState⟩

theorem body_plainRule (app : AppEntryT) : (plainRule app).body = app.regex.map plainToken := by
  simp [plainRule, plainTokens, Rule.body]

theorem plainRule_charset {app : AppEntryT} : ∀ t ∈ (plainRule app).body, t.type = .charset := by
  intro t member
  rw [body_plainRule] at member
  obtain ⟨c, -, rfl⟩ := List.mem_map.1 member
  rfl

theorem plainRule_without {app : AppEntryT} {type : TokenType} (other : type ≠ .charset) : (plainRule app).Without type :=
  fun t member same => other (same.symm.trans (plainRule_charset t member))

theorem plainRule_eager {app : AppEntryT} : (plainRule app).Eager := by
  intro t member
  rw [plainRule_charset t member]
  rfl

theorem plainRule_single (app : AppEntryT) : Single (plainRule app).body := by
  refine List.Pairwise.isChain (List.pairwise_of_forall_mem_list fun t member u _ both => ?_)
  rw [plainRule_charset t member] at both
  exact absurd both.1 (by decide)

/-- A set does not tell a byte from itself in the other case. -/
theorem plainRule_folded {app : AppEntryT} :
    ∀ t ∈ (plainRule app).body, ∀ b b', xlatcase b = xlatcase b' → b ∈ t.str → b' ∈ t.str := by
  intro t member b b' same inside
  rw [body_plainRule] at member
  obtain ⟨c, -, rfl⟩ := List.mem_map.1 member
  exact mem_literal.2 (same.symm.trans (mem_literal.1 inside))

theorem sameText_iff {text w : CStr} : List.Forall₂ (fun t b => b ∈ t.str) (text.map plainToken) w ↔ SameText text w := by
  rw [List.forall₂_map_left_iff]
  unfold SameText convertCaseEx
  constructor
  · intro related
    have folded : List.Forall₂ (· = ·) (w.map xlatcase) (text.map xlatcase) := by
      rw [List.forall₂_map_left_iff, List.forall₂_map_right_iff]
      exact related.flip.imp fun b c inside => mem_literal.1 inside
    rwa [List.forall₂_eq_eq_eq] at folded
  · intro same
    have folded : List.Forall₂ (· = ·) (w.map xlatcase) (text.map xlatcase) := by
      rw [List.forall₂_eq_eq_eq]
      exact same
    rw [List.forall₂_map_left_iff, List.forall₂_map_right_iff] at folded
    exact folded.flip.imp fun c b inside => mem_literal.2 inside

/-- **The text stands for itself up to case.** -/
theorem plainRule_means {app : AppEntryT} (inhabited : app.regex ≠ []) :
    ∃ r, (plainRule app).Means r ∧ ∀ w, w ∈ r.lang ↔ SameText app.regex w := by
  have nonempty : (plainRule app).body ≠ [] := by
    rw [body_plainRule]
    simpa using inhabited
  obtain ⟨r, means, lang⟩ := derives_sets nonempty plainRule_charset
  refine ⟨r, means, fun w => ?_⟩
  rw [lang, body_plainRule, sameText_iff]

theorem plainRule_accepted {app : AppEntryT} (nonempty : app.regex ≠ []) : (plainRule app).Accepted icase := by
  obtain ⟨r, means, lang⟩ := plainRule_means nonempty
  refine ⟨r, means, plainRule_single app, fun refused => nonempty ?_⟩
  exact List.map_eq_nil_iff.1 ((lang []).1 refused.2).symm

/-! ## The table -/

/-- A list of texts that stand for themselves, with ids that a rule may have; there is room for its left factors. -/
structure PlainList (apps : List AppEntryT) : Prop where
  nonempty : apps ≠ []
  plain : Plain apps
  texts : ∀ app ∈ apps, app.regex ≠ [] ∧ 0 ∉ app.regex
  known : ∀ app ∈ apps, app.appId ≠ 0 ∧ app.appId ≠ npos
  few : plainRows apps < 65535

section PlainList

variable {unicode : Char → Char → CStr} {apps : List AppEntryT} {rules : Rules}

theorem PlainList.ruleFor (list : PlainList apps) {app : AppEntryT} (member : app ∈ apps) : RuleFor unicode app (plainRule app) :=
  ⟨list.known app member, tokenise_plain (list.plain app member) (list.texts app member).1 app.appId, rfl⟩

theorem PlainList.rule (list : PlainList apps) (rulesFor : RulesFor unicode apps rules) {rule : Rule}
    (there : rule ∈ rules.regexes) : ∃ app ∈ apps, rule = plainRule app := by
  obtain ⟨app, member, ruleFor⟩ := rulesFor.rule there
  exact ⟨app, member, ruleFor.unique (list.ruleFor member)⟩

theorem PlainList.mem_lang (list : PlainList apps) {app : AppEntryT} (member : app ∈ apps) {text : CStr} :
    text ∈ (plainRule app).lang ↔ SameText app.regex text := by
  have ruleFor : RuleFor (fun _ _ => []) app (plainRule app) := list.ruleFor member
  obtain ⟨r, means, lang⟩ := plainRule_means (list.texts app member).1
  rw [Rule.mem_lang ruleFor.tokenised (plainRule_single app) means, lang]

/-- No rule reads the end of a C string. -/
theorem PlainList.unread (list : PlainList apps) {app : AppEntryT} (member : app ∈ apps) {str : StringToken}
    (has : (plainRule app).HasSet str) : 0 ∉ str := by
  obtain ⟨t, inside, ⟨type, rfl⟩ | ⟨type, -⟩⟩ := has
  · rw [body_plainRule] at inside
    obtain ⟨c, here, rfl⟩ := List.mem_map.1 inside
    exact zero_not_mem_literal fun zero => (list.texts app member).2 (zero ▸ here)
  · rw [plainRule_charset t inside] at type
    cases type

variable {table : LexTable} {root : Node} {heap : Heap} {map : CharsetMap} {exprs : List (Expr Nat)} {seen : List (List Nat)}

/-- The rules have no anchors and nothing lazy, and they are accepted. -/
theorem PlainList.each (list : PlainList apps) (rulesFor : RulesFor unicode apps rules) :
    ∀ rule ∈ rules.regexes, (rule.Without .bol ∧ rule.Without .eol) ∧ rule.Eager ∧ rule.Accepted icase := by
  intro rule there
  obtain ⟨app, member, rfl⟩ := list.rule rulesFor there
  exact ⟨⟨plainRule_without (by decide), plainRule_without (by decide)⟩, plainRule_eager,
    plainRule_accepted (list.texts app member).1⟩

theorem PlainList.folded (list : PlainList apps) (rulesFor : RulesFor unicode apps rules) :
    ∀ rule ∈ rules.regexes, ∀ t ∈ rule.body, t.type = .charset → ∀ b b', xlatcase b = xlatcase b' → b ∈ t.str → b' ∈ t.str := by
  intro rule there t inside _
  obtain ⟨app, -, rfl⟩ := list.rule rulesFor there
  exact plainRule_folded t inside

theorem PlainList.means (list : PlainList apps) : ∀ app ∈ apps, ∀ text, SameText app.regex text ↔ text ∈ app.lang unicode := by
  intro app member text
  rw [(list.ruleFor member).mem_lang, list.mem_lang member]

/-- There are no more rows than left factors. -/
theorem PlainList.rows_le (list : PlainList apps) (rulesFor : RulesFor unicode apps rules)
    (source : Source rules.flags (hasFlag rules.features bolBit) rules.regexes table root heap map exprs seen) :
    table.rows ≤ plainRows apps := by
  refine source.rows_le rulesFor (fun rule there => (list.each rulesFor rule there).1) (list.folded rulesFor) fun text start => ?_
  rcases start with rfl | ⟨app, member, more, inside⟩
  · exact mem_stemList.2 (Or.inl rfl)
  · have same : convertCaseEx (text ++ more) = foldedText app := (list.means app member _).2 inside
    refine mem_stemList.2 (Or.inr ⟨app, member, convertCaseEx more, ?_⟩)
    rw [← same]
    exact (convertCaseEx_append text more).symm

end PlainList

end Orchid
