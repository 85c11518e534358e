/-
# RegexParse.Build -- the table of a list of rules

`buildTree` puts the trees of the rules side by side (`Joined`), and `build` makes the
table of that tree.  A run of the table ends in an end row only on the texts of some
rule, and the row has the values of the first one of them (`Joined.ends`); if nothing
is lazy, every text of every rule ends in one (`Joined.complete`).  Without `^` and `$` no run
is a dead end (`Joined.trim`).
-/
import Orchid.RegexParse.BuildTree

namespace Orchid

open Orchid.Theory

set_option autoImplicit false

/-- A rule of the default state: the tokens of its text, and the values of its end. -/
structure Rule where
  regex : List ReToken
  end_ : EndState
  deriving DecidableEq

/-- The tree of another rule goes beside the others. -/
def addRule (flags : Nat) (seenBol : Bool) (state : Node × Heap × CharsetMap × Option Nat) (rule : Rule) :
    Except String (Node × Heap × CharsetMap × Option Nat) := do
  let (root, heap, map, nlId) := state
  let (rhs, heap, map, nlId) ← parse rule.regex rule.end_ flags seenBol heap map nlId
  return (selectionNode root rhs, heap, map, nlId)

def buildTree (flags : Nat) (seenBol : Bool) (first : Rule) (rest : List Rule) :
    Except String (Node × Heap × CharsetMap × Option Nat) := do
  let state ← parse first.regex first.end_ flags seenBol [] [] none
  rest.foldlM (addRule flags seenBol) state

/-- `build` for the one state of the lexer. -/
def build (flags : Nat) (seenBol : Bool) : List Rule → Except String LexTable
  | [] => .error "Lexer states with no rules are not allowed (lexer state 0.)"
  | first :: rest => do
      let (root, heap, map, nlId) ← buildTree flags seenBol first rest
      let table ← buildDfa map root heap nlId
      if table.dfa.length / table.alphabet ≥ npos.toNat then
        throw "The data type you have chosen cannot hold this many DFA rows."
      return table

/-! ## What a rule stands for -/

namespace Rule

/-- The tokens between the first and the last one. -/
def body (rule : Rule) : List ReToken := rule.regex.tail.dropLast

/-- The tokens are as the tokeniser leaves them. -/
structure Tokenised (rule : Rule) : Prop where
  regex : ∃ first last : ReToken, rule.regex = first :: (rule.body ++ [last]) ∧ first.type = .begin_ ∧ last.type = .end_
  input : ∀ t ∈ rule.body, t.type.isTerminal = true ∨ t.type.isDup = true
  fine : ∀ t ∈ rule.body, t.Fine
  balanced : ∀ u v, rule.body = u ++ v → closes u ≤ opens u

def Means (rule : Rule) (r : Regex) : Prop := Derives .regex rule.body r

def Accepted (flags : Nat) (rule : Rule) : Prop := ∃ r, rule.Means r ∧ Single rule.body ∧ NotEmpty flags r

/-- The texts of a rule. -/
def lang (rule : Rule) : Language UInt8 := {w | ∃ r, rule.Means r ∧ w ∈ r.lang}

/-- No token of the rule has the type. -/
def Without (type : TokenType) (rule : Rule) : Prop := ∀ t ∈ rule.body, t.type ≠ type

def Eager (rule : Rule) : Prop := ∀ t ∈ rule.body, t.type.isLazy = false

/-- The sets of a rule; a `$` has that of the newline. -/
def HasSet (rule : Rule) (str : StringToken) : Prop :=
  ∃ t ∈ rule.body, t.type = .charset ∧ str = t.str ∨ t.type = .eol ∧ str = RegexParser.newline

theorem mem_lang {rule : Rule} (tokenised : rule.Tokenised) (single : Single rule.body) {r : Regex} (means : rule.Means r)
    {w : CStr} : w ∈ rule.lang ↔ w ∈ r.lang := by
  constructor
  · rintro ⟨s, means', inside⟩
    rwa [means.lang_unique means' single tokenised.fine]
  · exact fun inside => ⟨r, means, inside⟩

end Rule

/-! ## The trees side by side -/

/-- The tree of a rule is that of what the rule means. -/
def HasRule (flags : Nat) (seenBol : Bool) (map : CharsetMap) (kinds : Kinds) (rule : Rule) (x : Expr Nat) : Prop :=
  ∃ r, rule.Means r ∧ Single rule.body ∧ NotEmpty flags r ∧ RuleTree map kinds rule.end_ seenBol r x

/-- The trees of the rules so far. -/
structure Joined (eager noEol : Prop) (flags : Nat) (seenBol : Bool) (rules : List Rule)
    (state : Node × Heap × CharsetMap × Option Nat) : Prop where
  numbered : Numbered state.2.2.1
  sets : ∀ entry ∈ state.2.2.1, ∃ rule ∈ rules, rule.HasSet entry.1
  greedy : eager → state.2.1.Eager
  newline : noEol → state.2.2.2 = none
  linked : Linked state.2.1 [state.1]
  trees : ∃ e es, state.1.expr = e.alts es ∧ List.Forall₂ (HasRule flags seenBol state.2.2.1 state.2.1.kinds) rules (e :: es)

section Trees

variable {eager noEol : Prop} {flags : Nat} {seenBol : Bool} {rules done : List Rule} {rule : Rule}
  {state state' : Node × Heap × CharsetMap × Option Nat}

theorem Rule.Tokenised.known (tokenised : rule.Tokenised) (eager_ : eager → rule.Eager) (noEol_ : noEol → rule.Without .eol)
    (others : List Node) (kinds : Kinds) (map : CharsetMap) : Body ⟨eager, noEol, others, kinds, map, rule.HasSet⟩ rule.body where
  input := tokenised.input
  allowed t member := ⟨tokenised.fine t member, fun told => eager_ told t member, fun told => noEol_ told t member,
    fun type => ⟨t, member, Or.inl ⟨type, rfl⟩⟩, fun type => ⟨t, member, Or.inr ⟨type, rfl⟩⟩⟩
  balanced := tokenised.balanced

theorem Joined.before (joined : Joined eager noEol flags seenBol done state) (sets : StringToken → Prop) :
    Before ⟨eager, noEol, [state.1], state.2.1.kinds, state.2.2.1, sets⟩ state.2.1 state.2.2.1 state.2.2.2 :=
  ⟨joined.numbered, rfl, rfl, joined.greedy, joined.newline, joined.linked⟩

theorem before_first (sets : StringToken → Prop) : Before ⟨eager, noEol, [], Heap.kinds [], [], sets⟩ [] [] none :=
  ⟨numbered_nil, rfl, rfl, fun _ _ => rfl, fun _ => rfl, linked_nil _⟩

/-- The first rule. -/
theorem joined_first (tokenised : rule.Tokenised) (eager_ : eager → rule.Eager) (noEol_ : noEol → rule.Without .eol)
    (parsed : parse rule.regex rule.end_ flags seenBol [] [] none = .ok state) : Joined eager noEol flags seenBol [rule] state := by
  obtain ⟨first, last, regex, typeF, typeL⟩ := tokenised.regex
  rw [regex] at parsed
  obtain ⟨root, heap, map, nlId⟩ := state
  obtain ⟨r, means, single, notEmpty, tree⟩ := parse_sound (tokenised.known eager_ noEol_ _ _ _) typeF typeL (before_first _) parsed
  have sets : ∀ entry ∈ map, ∃ other ∈ [rule], other.HasSet entry.1 := by
    intro entry member
    rcases tree.grown.new entry member with old | new
    · cases old
    · exact ⟨rule, List.mem_singleton.2 rfl, new⟩
  exact ⟨tree.numbered, sets, tree.greedy, tree.newline, tree.linked, root.expr, [], rfl,
    List.Forall₂.cons ⟨r, means, single, notEmpty, tree.tree⟩ List.Forall₂.nil⟩

/-- And every other one. -/
theorem Joined.addRule (joined : Joined eager noEol flags seenBol done state) (tokenised : rule.Tokenised)
    (eager_ : eager → rule.Eager) (noEol_ : noEol → rule.Without .eol)
    (added : addRule flags seenBol state rule = .ok state') : Joined eager noEol flags seenBol (done ++ [rule]) state' := by
  obtain ⟨first, last, regex, typeF, typeL⟩ := tokenised.regex
  unfold Orchid.addRule at added
  rw [regex] at added
  obtain ⟨⟨rhs, heap, map, nlId⟩, parsed, same⟩ := bind_ok added
  obtain rfl := Except.ok.inj same
  obtain ⟨r, means, single, notEmpty, tree⟩ :=
    parse_sound (tokenised.known eager_ noEol_ [state.1] state.2.1.kinds state.2.2.1) typeF typeL (joined.before _) parsed
  obtain ⟨e, es, expr, trees⟩ := joined.trees
  have sets : ∀ entry ∈ map, ∃ other ∈ done ++ [rule], other.HasSet entry.1 := by
    intro entry member
    rcases tree.grown.new entry member with old | new
    · obtain ⟨other, there, has⟩ := joined.sets entry old
      exact ⟨other, List.mem_append_left _ there, has⟩
    · exact ⟨rule, by simp, new⟩
  refine ⟨tree.numbered, sets, tree.greedy, tree.newline, tree.linked.selectionNode, e, es ++ [rhs.expr], ?_, ?_⟩
  · rw [Expr.alts_snoc, ← expr]
    rfl
  · rw [← List.cons_append]
    refine List.rel_append (trees.imp fun other x has => ?_)
      (List.Forall₂.cons ⟨r, means, single, notEmpty, tree.tree⟩ List.Forall₂.nil)
    obtain ⟨s, means', single', notEmpty', old⟩ := has
    exact ⟨s, means', single', notEmpty', old.mono tree.grown.more tree.more⟩

/-- **The trees of all the rules.** -/
theorem joined_buildTree {first : Rule} {rest : List Rule} (tokenised : ∀ rule ∈ first :: rest, rule.Tokenised)
    (eager_ : eager → ∀ rule ∈ first :: rest, rule.Eager) (noEol_ : noEol → ∀ rule ∈ first :: rest, rule.Without .eol)
    (built : buildTree flags seenBol first rest = .ok state) : Joined eager noEol flags seenBol (first :: rest) state := by
  unfold buildTree at built
  obtain ⟨state0, parsed, built⟩ := bind_ok built
  have here : first ∈ first :: rest := List.mem_cons_self
  refine foldlM_ok (P := Joined eager noEol flags seenBol) (fun rule member done before after joined added => ?_)
    (joined_first (tokenised _ here) (fun told => eager_ told _ here) (fun told => noEol_ told _ here) parsed) built
  have there : rule ∈ first :: rest := List.mem_cons_of_mem _ member
  exact joined.addRule (tokenised _ there) (fun told => eager_ told _ there) (fun told => noEol_ told _ there) added

section Behind

variable {others : List Node} {heap : Heap} {map : CharsetMap}

/-- What rules leave is what there may be before the next one. -/
theorem before_of (nlId : Option Nat) (sets : StringToken → Prop) (numbered : Numbered map) (linked : Linked heap others) :
    Before ⟨False, False, others, heap.kinds, map, sets⟩ heap map nlId :=
  ⟨numbered, rfl, rfl, False.elim, False.elim, linked⟩

/-- A rule that is parsed behind others has a meaning and the tree of it. -/
theorem Rule.Tokenised.parsed (tokenised : rule.Tokenised) (numbered : Numbered map) (linked : Linked heap others)
    {nlId nlId' : Option Nat} {root : Node} {heap' : Heap} {map' : CharsetMap}
    (done : parse rule.regex rule.end_ flags seenBol heap map nlId = .ok (root, heap', map', nlId')) :
    ∃ r, rule.Means r ∧ Single rule.body ∧ NotEmpty flags r ∧
      HasTree ⟨False, False, others, heap.kinds, map, rule.HasSet⟩ rule.end_ seenBol r root heap' map' nlId' := by
  obtain ⟨first, last, regex, typeF, typeL⟩ := tokenised.regex
  rw [regex] at done
  exact parse_sound (tokenised.known False.elim False.elim _ _ _) typeF typeL (before_of nlId rule.HasSet numbered linked) done

end Behind

/-- An accepted rule is parsed, whatever was parsed before. -/
theorem Rule.Accepted.parse (accepted : rule.Accepted flags) (tokenised : rule.Tokenised) (seenBol : Bool) {others : List Node}
    {heap : Heap} {map : CharsetMap} {nlId : Option Nat}
    (before : Before ⟨False, False, others, heap.kinds, map, rule.HasSet⟩ heap map nlId) :
    ∃ out, parse rule.regex rule.end_ flags seenBol heap map nlId = .ok out := by
  obtain ⟨r, means, single, notEmpty⟩ := accepted
  obtain ⟨first, last, regex, typeF, typeL⟩ := tokenised.regex
  rw [regex]
  obtain ⟨root, heap', map', nlId', parsed, -⟩ :=
    parse_complete (tokenised.known False.elim False.elim _ _ _) typeF typeL before means single notEmpty
  exact ⟨_, parsed⟩

/-- Every list of accepted rules has its tree. -/
theorem buildTree_total {first : Rule} {rest : List Rule} (tokenised : ∀ rule ∈ first :: rest, rule.Tokenised)
    (accepted : ∀ rule ∈ first :: rest, rule.Accepted flags) : ∃ state, buildTree flags seenBol first rest = .ok state := by
  have here : first ∈ first :: rest := List.mem_cons_self
  obtain ⟨start, parsed⟩ := (accepted _ here).parse (tokenised _ here) seenBol (before_first _)
  have joined : Joined False False flags seenBol [first] start := joined_first (tokenised _ here) False.elim False.elim parsed
  have step : ∀ done rule later, rest = done ++ rule :: later → ∀ before, Joined False False flags seenBol (first :: done) before →
      ∃ after, Orchid.addRule flags seenBol before rule = .ok after ∧
        Joined False False flags seenBol (first :: (done ++ [rule])) after := by
    intro done rule later whole before joined
    have there : rule ∈ first :: rest := by simp [whole]
    obtain ⟨⟨rhs, heap, map, nlId⟩, parsed⟩ := (accepted _ there).parse (tokenised _ there) seenBol (joined.before _)
    have added : Orchid.addRule flags seenBol before rule = .ok (selectionNode before.1 rhs, heap, map, nlId) := by
      unfold Orchid.addRule
      exact bind_of_ok parsed
    exact ⟨_, added, joined.addRule (tokenised _ there) False.elim False.elim added⟩
  obtain ⟨state, built, -⟩ := foldlM_total (P := fun done => Joined False False flags seenBol (first :: done)) step joined
  refine ⟨state, ?_⟩
  unfold buildTree
  rw [bind_of_ok parsed]
  exact built

end Trees

/-! ## What the table of the rules recognises -/

section Table

variable {eager noEol : Prop} {flags : Nat} {seenBol : Bool} {rules : List Rule} {root : Node} {heap : Heap} {map : CharsetMap}
  {nlId : Option Nat}

/-- The leaves of the tree are those of the rules, their ends, and the `^` put in front of the others. -/
theorem joined_leaf {e : Expr Nat} {es : List (Expr Nat)} (expr : root.expr = e.alts es)
    (trees : List.Forall₂ (HasRule flags seenBol map heap.kinds) rules (e :: es)) {p : Nat} (member : p ∈ root.expr.positions) :
    (∃ rule ∈ rules, ∃ r, rule.Means r ∧ LeafOf map r heap.kinds[p]?) ∨
      heap.kinds[p]? = some (Sum.inl .bol) ∧ seenBol = true ∨ ∃ end_, heap.kinds[p]? = some (Sum.inr end_) := by
  rw [expr, Expr.positions_alts] at member
  obtain ⟨x, inside, member⟩ := List.mem_flatMap.1 member
  obtain ⟨k, there⟩ := List.getElem?_of_mem inside
  obtain ⟨below', rfl⟩ := List.getElem?_eq_some_iff.1 there
  have below : k < rules.length := trees.length_eq ▸ below'
  obtain ⟨r, means, -, -, tree⟩ := (List.forall₂_iff_get.1 trees).2 k below below'
  rcases tree.leaf p member with leaf | bol | ends
  · exact Or.inl ⟨_, List.getElem_mem below, r, means, leaf⟩
  · exact Or.inr (Or.inl bol)
  · exact Or.inr (Or.inr ⟨_, ends⟩)

/-- What the parser leaves is what `buildDfa` takes; the rank of a leaf is the number of its rule. -/
theorem Joined.ready (joined : Joined eager noEol flags seenBol rules (root, heap, map, nlId)) {e : Expr Nat} {es : List (Expr Nat)}
    (expr : root.expr = e.alts es) (trees : List.Forall₂ (HasRule flags seenBol map heap.kinds) rules (e :: es)) :
    Ready map heap root (Expr.rankOf (e :: es)) := by
  have once : ((e :: es).flatMap Expr.positions).Nodup := by
    rw [← Expr.positions_alts, ← expr]
    simpa using joined.linked.once
  have each : ∀ x ∈ e :: es, ∃ rule, HasRule flags seenBol map heap.kinds rule x := by
    intro x member
    obtain ⟨k, there⟩ := List.getElem?_of_mem member
    obtain ⟨below, same⟩ := List.getElem?_eq_some_iff.1 there
    have has := (List.forall₂_iff_get.1 trees).2 k (by rw [trees.length_eq]; exact below) below
    exact ⟨_, by rw [← same]; exact has⟩
  refine ⟨joined.numbered, joined.linked, fun p member => ?_, ?_, fun p q follows => ?_, ?_⟩
  · rcases joined_leaf expr trees member with ⟨rule, -, r, -, leaf⟩ | ⟨kind, -⟩ | kind
    · refine Or.inl ?_
      generalize heap.kinds[p]? = found at leaf ⊢
      cases leaf with
      | charset entry _ => exact ⟨_, rfl, _, entry, rfl⟩
      | bol _ => exact ⟨_, rfl, trivial⟩
      | eol _ => exact ⟨_, rfl, trivial⟩
    · exact Or.inl ⟨.bol, kind, trivial⟩
    · exact Or.inr kind
  · rw [expr, Expr.first_alts]
    obtain ⟨rule, r, -, -, -, tree⟩ := each e List.mem_cons_self
    obtain ⟨p, starts⟩ := List.exists_mem_of_ne_nil _ tree.first
    exact List.ne_nil_of_mem (List.mem_flatMap.2 ⟨e, List.mem_cons_self, starts⟩)
  · rw [expr, Expr.follows_alts] at follows
    obtain ⟨x, member, follows⟩ := follows
    exact Expr.rankOf_follows once member follows
  · rw [expr, Expr.first_alts]
    exact Expr.rankOf_first once

/-- A leaf that a word leads to belongs to a rule, and a word leads to a rule's end if it is a text of the rule. -/
theorem Joined.reach (joined : Joined eager noEol flags seenBol rules (root, heap, map, nlId)) {e : Expr Nat} {es : List (Expr Nat)}
    (expr : root.expr = e.alts es) (trees : List.Forall₂ (HasRule flags seenBol map heap.kinds) rules (e :: es))
    (tokenised : ∀ rule ∈ rules, rule.Tokenised) {k : Nat} {rule : Rule} (here : rules[k]? = some rule) :
    ∃ x, (e :: es)[k]? = some x ∧ HasRule flags seenBol map heap.kinds rule x ∧ ∀ p ∈ x.positions, ∀ other,
      heap.kinds[p]? = some (Sum.inr other) → other = rule.end_ ∧
        ∀ w, root.expr.Reach (LeafReads map heap.kinds) w p ↔ w ∈ rule.lang := by
  have onceAll : (e.alts es).positions.Nodup := by
    rw [← expr]
    simpa using joined.linked.once
  have once := onceAll
  rw [Expr.positions_alts] at once
  obtain ⟨below, rfl⟩ := List.getElem?_eq_some_iff.1 here
  have below' : k < (e :: es).length := trees.length_eq ▸ below
  have has := (List.forall₂_iff_get.1 trees).2 k below below'
  refine ⟨(e :: es)[k], List.getElem?_eq_getElem below', has, fun p member other kind => ?_⟩
  obtain ⟨r, means, single, -, tree⟩ := has
  have fine := tokenised _ (List.getElem_mem below)
  have nodup : ((e :: es)[k]).positions.Nodup := (List.nodup_flatMap.1 once).1 _ (List.getElem_mem below')
  obtain ⟨same, reach⟩ := tree.reach joined.numbered (means.fine fine.fine) nodup member kind
  refine ⟨same, fun w => ?_⟩
  rw [Rule.mem_lang fine single means, ← reach w, expr, Expr.reach_alts onceAll]
  constructor
  · rintro ⟨x, inside, led⟩
    obtain ⟨l, there⟩ := List.getElem?_of_mem inside
    obtain rfl := Expr.eq_of_mem_positions once there (List.getElem?_eq_getElem below') led.subset member
    obtain rfl : x = (e :: es)[l] := Option.some.inj (there.symm.trans (List.getElem?_eq_getElem below'))
    exact led
  · exact fun led => ⟨_, List.getElem_mem below', led⟩

section Plain

variable {e : Expr Nat} {es : List (Expr Nat)} (expr : root.expr = e.alts es)
  (trees : List.Forall₂ (HasRule flags seenBol map heap.kinds) rules (e :: es))

include expr trees

theorem joined_noEol (noEol : ∀ rule ∈ rules, rule.Without .eol) : NoEol heap root := by
  intro p member kind
  rcases joined_leaf expr trees member with ⟨rule, there, r, means, leaf⟩ | ⟨bol, -⟩ | ⟨end_, ends⟩
  · rw [kind] at leaf
    cases leaf with
    | eol uses =>
        obtain ⟨t, member, same⟩ := means.uses uses
        exact noEol _ there t member (ReToken.atom_eol same)
  · rw [kind] at bol
    cases bol
  · rw [kind] at ends
    cases ends

theorem joined_noBol (noBol : ∀ rule ∈ rules, rule.Without .bol) (unseen : seenBol = false) : NoBol heap root := by
  intro p member kind
  rcases joined_leaf expr trees member with ⟨rule, there, r, means, leaf⟩ | ⟨-, seen⟩ | ⟨end_, ends⟩
  · rw [kind] at leaf
    cases leaf with
    | bol uses =>
        obtain ⟨t, member, same⟩ := means.uses uses
        exact noBol _ there t member (ReToken.atom_bol same)
  · rw [unseen] at seen
    cases seen
  · rw [kind] at ends
    cases ends

/-- Letters that no set of the rules tells apart are read by the same leaves. -/
theorem joined_letters (numbered : Numbered map) {b b' : UInt8}
    (same : ∀ rule ∈ rules, ∀ t ∈ rule.body, t.type = .charset → b ∈ t.str → b' ∈ t.str) :
    ∀ p ∈ root.expr.positions, LeafReads map heap.kinds b p → LeafReads map heap.kinds b' p := by
  rintro p member ⟨entry, inside, kind, read⟩
  rcases joined_leaf expr trees member with ⟨rule, there, r, means, leaf⟩ | ⟨bol, -⟩ | ⟨end_, ends⟩
  · rw [kind] at leaf
    cases leaf with
    | @charset str _ member uses =>
        obtain ⟨t, inBody, here⟩ := means.uses uses
        obtain ⟨type, rfl⟩ := ReToken.atom_charset here
        have str : entry.1 = t.str := congrArg Prod.fst (numbered.once entry inside _ member rfl)
        rw [str] at read
        exact ⟨entry, inside, kind, str ▸ same rule there t inBody type read⟩
  · rw [kind] at bol
    cases bol
  · rw [kind] at ends
    cases ends

end Plain

variable {seen : List (List Nat)} {table : LexTable} (joined : Joined eager noEol flags seenBol rules (root, heap, map, nlId))
  (tokenised : ∀ rule ∈ rules, rule.Tokenised) {e : Expr Nat} {es : List (Expr Nat)} (expr : root.expr = e.alts es)
  (trees : List.Forall₂ (HasRule flags seenBol map heap.kinds) rules (e :: es))
  (built : Built map heap root (Expr.rankOf (e :: es)) seen table.dfa table) (few : seen.length + 1 < npos.toNat)

include joined tokenised expr trees built few

/-- **An end row has been led to by a text of a rule, and has the values of the first such rule.** -/
theorem Joined.ends {text : CStr} {row : Nat} (ran : run table.step 1 text = some row) (isEnd : table.isEnd row) :
    ∃ (k : Nat) (rule : Rule), rules[k]? = some rule ∧ text ∈ rule.lang ∧
      (∀ j < k, ∀ earlier, rules[j]? = some earlier → text ∉ earlier.lang) ∧
      ∀ c < transitionsIndex, c ≠ eolIndex → table.cell row c = endCell (some rule.end_) c := by
  have ready := joined.ready expr trees
  have once : ((e :: es).flatMap Expr.positions).Nodup := by
    rw [← Expr.positions_alts, ← expr]
    simpa using joined.linked.once
  obtain ⟨i, vector, rfl, here, same⟩ := built.run_reach ready few ran
  obtain ⟨end_, found⟩ := (built.isEnd_iff here).1 isEnd
  obtain ⟨p, inside, kind, least⟩ := endOf_first (built.row here).order found
  have member := (built.row here).inside p inside
  rw [expr, Expr.positions_alts] at member
  obtain ⟨x, inX, member⟩ := List.mem_flatMap.1 member
  obtain ⟨k, there⟩ := List.getElem?_of_mem inX
  have below : k < rules.length := trees.length_eq ▸ (List.getElem?_eq_some_iff.1 there).1
  obtain ⟨x', there', has, ends⟩ := joined.reach expr trees tokenised (List.getElem?_eq_getElem below)
  obtain rfl : x = x' := Option.some.inj (there.symm.trans there')
  obtain ⟨rfl, led⟩ := ends p member end_ kind
  refine ⟨k, rules[k], List.getElem?_eq_getElem below, (led text).1 ((same p).1 inside), fun j less earlier earlierHere inLang => ?_,
    fun c low notEol => ?_⟩
  · -- the end of an earlier rule would come first
    obtain ⟨y, thereY, ⟨r, means, single, notEmpty, tree⟩, endsY⟩ := joined.reach expr trees tokenised earlierHere
    obtain ⟨z, memberZ, kindZ⟩ := tree.exists_end
    have reached := (same z).2 (((endsY z memberZ _ kindZ).2 text).2 inLang)
    have order := least z reached _ kindZ
    rw [Expr.rankOf_eq once there member, Expr.rankOf_eq once thereY memberZ] at order
    exact absurd less (Nat.not_lt.2 order)
  · rw [built.low_column here low notEol, found]

/-- **If nothing is lazy, every text of every rule leads to an end row.** -/
theorem Joined.complete (eager_ : heap.Eager) {text : CStr} {rule : Rule} (member : rule ∈ rules) (inLang : text ∈ rule.lang) :
    ∃ row, run table.step 1 text = some row ∧ table.isEnd row := by
  have ready := joined.ready expr trees
  obtain ⟨k, here⟩ := List.getElem?_of_mem member
  obtain ⟨x, there, ⟨r, means, single, notEmpty, tree⟩, ends⟩ := joined.reach expr trees tokenised here
  obtain ⟨z, memberZ, kindZ⟩ := tree.exists_end
  have reach := ((ends z memberZ _ kindZ).2 text).2 inLang
  obtain ⟨row, ran⟩ := built.run_some ready few eager_ ⟨z, reach⟩
  obtain ⟨i, vector, rfl, at_, same⟩ := built.run_reach ready few ran
  refine ⟨i + 1, ran, (built.isEnd_iff at_).2 (Option.ne_none_iff_exists'.1 fun none_ => ?_)⟩
  exact endOf_eq_none.1 none_ z ((same z).2 reach) _ kindZ

omit built few in
/-- Without `^` and `$` whatever leads anywhere is the start of a text of some rule. -/
theorem Joined.start (plain : ∀ rule ∈ rules, rule.Without .bol ∧ rule.Without .eol) {text : CStr} {q : Nat}
    (reach : root.expr.Reach (LeafReads map heap.kinds) text q) : text = [] ∨ ∃ rule ∈ rules, ∃ more, text ++ more ∈ rule.lang := by
  have onceAll : (e.alts es).positions.Nodup := by
    rw [← expr]
    simpa using joined.linked.once
  rw [expr, Expr.reach_alts onceAll] at reach
  obtain ⟨x, member, reach⟩ := reach
  obtain ⟨k, there⟩ := List.getElem?_of_mem member
  have below : k < rules.length := trees.length_eq ▸ (List.getElem?_eq_some_iff.1 there).1
  obtain ⟨x', there', ⟨r, means, single, notEmpty, tree⟩, -⟩ := joined.reach expr trees tokenised (List.getElem?_eq_getElem below)
  obtain rfl : x = x' := Option.some.inj (there.symm.trans there')
  have rule := List.getElem_mem below
  have nodup : x.positions.Nodup := by
    rw [Expr.positions_alts] at onceAll
    exact (List.nodup_flatMap.1 onceAll).1 x member
  have noBol : ¬ r.Uses .bol := by
    intro uses
    obtain ⟨t, member, same⟩ := means.uses uses
    exact (plain _ rule).1 t member (ReToken.atom_bol same)
  have noEol : ¬ r.Uses .eol := by
    intro uses
    obtain ⟨t, member, same⟩ := means.uses uses
    exact (plain _ rule).2 t member (ReToken.atom_eol same)
  refine (tree.completion joined.numbered (means.fine (tokenised _ rule).fine) nodup noBol noEol reach).imp_right
    fun ⟨more, word⟩ => ⟨_, rule, more, ?_⟩
  exact (Rule.mem_lang (tokenised _ rule) single means).2 word

/-- **Without `^` and `$` whatever can be read is the start of a text of some rule.** -/
theorem Joined.trim (plain : ∀ rule ∈ rules, rule.Without .bol ∧ rule.Without .eol) {text : CStr} {row : Nat}
    (ran : run table.step 1 text = some row) : text = [] ∨ ∃ rule ∈ rules, ∃ more, text ++ more ∈ rule.lang := by
  obtain ⟨i, vector, rfl, here, same⟩ := built.run_reach (joined.ready expr trees) few ran
  obtain ⟨q, inside⟩ := List.exists_mem_of_ne_nil _ (built.row here).nonempty
  exact joined.start tokenised expr trees plain ((same q).1 inside)

omit few in
/-- **And there are no more rows than starts of texts that the sets of the rules tell apart.** -/
theorem Joined.length_le (plain : ∀ rule ∈ rules, rule.Without .bol ∧ rule.Without .eol) (unseen : seenBol = false) {κ : Type}
    [DecidableEq κ] {fold : UInt8 → κ}
    (folded : ∀ rule ∈ rules, ∀ t ∈ rule.body, t.type = .charset → ∀ b b', fold b = fold b' → b ∈ t.str → b' ∈ t.str)
    {keys : List (List κ)}
    (inside : ∀ text : CStr, (text = [] ∨ ∃ rule ∈ rules, ∃ more, text ++ more ∈ rule.lang) → text.map fold ∈ keys) :
    seen.length ≤ keys.length := by
  apply built.length_le (joined_noBol expr trees (fun rule there => (plain rule there).1) unseen)
    (joined_noEol expr trees fun rule there => (plain rule there).2)
  · exact fun b b' same => joined_letters expr trees joined.numbered fun rule there t member type =>
      folded rule there t member type b b' same
  · exact fun text q reach => inside text (joined.start tokenised expr trees plain reach)

end Table

/-! ## build -/

section Build

variable {flags : Nat} {seenBol : Bool} {rules : List Rule} {table : LexTable}

/-- The number of rows of a table, the jam row with them. -/
def LexTable.rows (table : LexTable) : Nat := table.dfa.length / table.alphabet

/-- What is behind a table that was built. -/
structure Source (flags : Nat) (seenBol : Bool) (rules : List Rule) (table : LexTable) (root : Node) (heap : Heap) (map : CharsetMap)
    (exprs : List (Expr Nat)) (seen : List (List Nat)) : Prop where
  joined : Joined (∀ rule ∈ rules, rule.Eager) True flags seenBol rules (root, heap, map, none)
  expr : ∃ e es, exprs = e :: es ∧ root.expr = e.alts es
  trees : List.Forall₂ (HasRule flags seenBol map heap.kinds) rules exprs
  built : Built map heap root (Expr.rankOf exprs) seen table.dfa table
  alphabet : table.alphabet = (partitionCharsets map).length + transitionsIndex
  rows : table.rows = seen.length + 1

theorem Built.length {map : CharsetMap} {heap : Heap} {root : Node} {rank : Nat → Nat} {seen : List (List Nat)}
    (built : Built map heap root rank seen table.dfa table) : table.dfa.length = table.alphabet * (seen.length + 1) := by
  obtain ⟨eolSet, rows⟩ := built.rows
  exact rows.length

/-- The trees of the rules have their table. -/
theorem Joined.source {root : Node} {heap : Heap} {map : CharsetMap} {nlId : Option Nat}
    (joined : Joined (∀ rule ∈ rules, rule.Eager) True flags seenBol rules (root, heap, map, nlId))
    (noEol : ∀ rule ∈ rules, rule.Without .eol) :
    ∃ table trees seen, buildDfa map root heap nlId = .ok table ∧ Source flags seenBol rules table root heap map trees seen := by
  obtain rfl : nlId = none := joined.newline trivial
  obtain ⟨e, es, expr, trees⟩ := joined.trees
  have ready := joined.ready expr trees
  have no : NoEol heap root := joined_noEol expr trees noEol
  obtain ⟨table, seen, done, built, alphabet⟩ := ready.buildDfa no
  refine ⟨table, e :: es, seen, done, joined, ⟨e, es, rfl, expr⟩, trees, built, alphabet, ?_⟩
  unfold LexTable.rows
  rw [built.length]
  apply Nat.mul_div_cancel_left
  rw [alphabet]
  exact Nat.add_pos_right _ (by decide)

theorem build_source (tokenised : ∀ rule ∈ rules, rule.Tokenised) (noEol : ∀ rule ∈ rules, rule.Without .eol)
    (done : build flags seenBol rules = .ok table) :
    ∃ root heap map trees seen, Source flags seenBol rules table root heap map trees seen := by
  cases rules with
  | nil => cases done
  | cons first rest =>
      unfold build at done
      obtain ⟨⟨root, heap, map, nlId⟩, tree, done⟩ := bind_ok done
      have joined : Joined (∀ rule ∈ first :: rest, rule.Eager) True flags seenBol (first :: rest) (root, heap, map, nlId) :=
        joined_buildTree tokenised id (fun _ => noEol) tree
      obtain ⟨table', trees, seen, made, source⟩ := joined.source noEol
      simp only [bind_of_ok made] at done
      split at done
      · cases done
      · obtain rfl : table' = table := Except.ok.inj done
        exact ⟨root, heap, map, trees, seen, source⟩

/-- A table with `npos` rows is refused. -/
theorem build_few (done : build flags seenBol rules = .ok table) : table.rows < npos.toNat := by
  cases rules with
  | nil => cases done
  | cons first rest =>
      unfold build at done
      obtain ⟨⟨root, heap, map, nlId⟩, -, done⟩ := bind_ok done
      obtain ⟨table', -, done⟩ := bind_ok done
      split at done
      · cases done
      · next few =>
        obtain rfl : table' = table := Except.ok.inj done
        exact Nat.not_le.1 few

/-- A byte that no rule reads leaves the classes below 256. -/
theorem Source.classes {root : Node} {heap : Heap} {map : CharsetMap} {exprs : List (Expr Nat)} {seen : List (List Nat)}
    (source : Source flags seenBol rules table root heap map exprs seen) {b : UInt8}
    (unread : ∀ rule ∈ rules, ∀ str, rule.HasSet str → b ∉ str) : (partitionCharsets map).length ≤ 255 := by
  refine length_partitionCharsets_lt (b := b) source.joined.numbered fun entry member read => ?_
  obtain ⟨rule, there, has⟩ := source.joined.sets entry member
  exact unread rule there entry.1 has read

/-- A table that was built is one of accepted rules. -/
theorem build_accepted (tokenised : ∀ rule ∈ rules, rule.Tokenised) (noEol : ∀ rule ∈ rules, rule.Without .eol)
    (done : build flags seenBol rules = .ok table) : rules ≠ [] ∧ ∀ rule ∈ rules, rule.Accepted flags := by
  obtain ⟨root, heap, map, trees, seen, source⟩ := build_source tokenised noEol done
  obtain ⟨e, es, rfl, -⟩ := source.expr
  refine ⟨fun empty => ?_, fun rule member => ?_⟩
  · have length := source.trees.length_eq
    rw [empty] at length
    cases length
  · obtain ⟨k, here⟩ := List.getElem?_of_mem member
    obtain ⟨below, rfl⟩ := List.getElem?_eq_some_iff.1 here
    obtain ⟨r, means, single, notEmpty, -⟩ := (List.forall₂_iff_get.1 source.trees).2 k below (source.trees.length_eq ▸ below)
    exact ⟨r, means, single, notEmpty⟩

/-- Accepted rules have a table; it is refused if it has too many rows. -/
theorem build_accept (tokenised : ∀ rule ∈ rules, rule.Tokenised) (noEol : ∀ rule ∈ rules, rule.Without .eol)
    (nonempty : rules ≠ []) (accepted : ∀ rule ∈ rules, rule.Accepted flags) :
    ∃ first rest table root heap map nlId trees seen, rules = first :: rest ∧
      buildTree flags seenBol first rest = .ok (root, heap, map, nlId) ∧ buildDfa map root heap nlId = .ok table ∧
      Source flags seenBol rules table root heap map trees seen ∧
      build flags seenBol rules =
        if table.rows ≥ npos.toNat then .error "The data type you have chosen cannot hold this many DFA rows." else .ok table := by
  cases rules with
  | nil => exact absurd rfl nonempty
  | cons first rest =>
      obtain ⟨⟨root, heap, map, nlId⟩, tree⟩ : ∃ state, buildTree flags seenBol first rest = .ok state :=
        buildTree_total tokenised accepted
      have joined : Joined (∀ rule ∈ first :: rest, rule.Eager) True flags seenBol (first :: rest) (root, heap, map, nlId) :=
        joined_buildTree tokenised id (fun _ => noEol) tree
      obtain ⟨table, trees, seen, made, source⟩ := joined.source noEol
      refine ⟨first, rest, table, root, heap, map, nlId, trees, seen, rfl, tree, made, source, ?_⟩
      unfold build
      simp only [bind_of_ok tree, bind_of_ok made]
      rfl

end Build

end Orchid
