/-
# Loader.SigParser -- the grammar of a configuration and its parser

The relations `KeyValuePair` to `Applications` are the rules of `sig.y`.  `appSig` and
`createApplication` are the actions of its two rules that build a record.

`yyparse` is the shift-reduce parser of this grammar.  Every rule of it is reduced as
soon as its last token is read, so a state is the place in the open rules together
with the values on the stack, and an application is in the list before the next token
decides whether it may follow.  The parser accepts what the grammar derives
(`yyparse_derives`, `derives_of_accepted`), stops where an action does
(`yyparse_error_iff`), and leaves the list as it is at a syntax error.
-/
import Orchid.Loader.HttpParse
import Orchid.Loader.KeyPair
import Orchid.Loader.Lexer
import Orchid.Theory.LeftList

namespace Orchid

open Orchid.Theory

set_option autoImplicit false

/-! ## The grammar -/

/-- What `app_sig` derives: a name and its pairs. -/
structure SigBlock where
  name : CStr
  pairs : List KeyPairS
  deriving DecidableEq, Repr

/-- What `application` derives. -/
structure AppBlock where
  pairs : List KeyPairS
  sigs : List SigBlock
  deriving DecidableEq, Repr

inductive KeyValuePair : List Token → KeyPairS → Prop where
  | mk (key value : CStr) : KeyValuePair [.symbol key, .value value, .comma] ⟨key, value⟩

abbrev KeyValueList := LeftList KeyValuePair

inductive AppSig : List Token → SigBlock → Prop where
  | mk (name : CStr) {ts : List Token} {pairs : List KeyPairS} :
      KeyValueList ts pairs → AppSig ([.symbol name, .lbranch] ++ ts ++ [.rbranch]) ⟨name, pairs⟩

abbrev AppSigList := LeftList AppSig

inductive AppSigNode : List Token → List SigBlock → Prop where
  | mk {ts : List Token} {sigs : List SigBlock} :
      AppSigList ts sigs → AppSigNode ([.signature, .lbranch] ++ ts ++ [.rbranch]) sigs

inductive Application : List Token → AppBlock → Prop where
  | mk {ts us : List Token} {pairs : List KeyPairS} {sigs : List SigBlock} :
      KeyValueList ts pairs → AppSigNode us sigs →
      Application ([.application, .lbranch] ++ ts ++ us ++ [.rbranch]) ⟨pairs, sigs⟩

abbrev Applications := LeftList Application

/-! ## Actions -/

/-- The action of `app_sig`. -/
def appSig (pairs : List KeyPairS) : Except Trap SigS := do
  match getStrValueFromKey pairs (cstr "sig_match") with
  | none => throw .nullString
  | some sigMatch =>
      if sigMatch.length ≥ MAX_SIG_LENGTH then throw .assertion
      let (elements, eleNum) ← parseHttpSigInto_ [] sigMatch (getMatchTypeValue pairs)
      return { id := getIntValueFromKey pairs (cstr "sig_id")
               proto := getSigProtoValue pairs
               type := getMatchTypeValue pairs
               enable := getIntValueFromKey pairs (cstr "sig_enable")
               priority := getIntValueFromKey pairs (cstr "sig_priority")
               dir := getIntValueFromKey pairs (cstr "sig_dir")
               matchStr := sigMatch
               eleNum := BitVec.ofNat 32 eleNum
               elements := elements }

/-- The action of `application`. -/
def createApplication (pairs : List KeyPairS) (sigs : List SigS) : Except Trap ApplicationS := do
  match getStrValueFromKey pairs (cstr "appname") with
  | none => throw .nullString
  | some name =>
      if name.length ≥ MAX_APP_LENGTH then throw .assertion
      return { id := getIntValueFromKey pairs (cstr "appid")
               category := getIntValueFromKey pairs (cstr "category")
               name := name
               sigs := sigs }

/-- All actions of an application's block, in the order of the reductions. -/
def buildApplication (app : AppBlock) : Except Trap ApplicationS := do
  let sigs ← app.sigs.mapM fun sig => appSig sig.pairs
  createApplication app.pairs sigs

/-! ## The parser -/

/-- The place in a `key_value_list` and the pairs reduced so far. -/
inductive PairState where
  | list (pairs : List KeyPairS)
  | symbol (pairs : List KeyPairS) (key : CStr)
  | value (pairs : List KeyPairS) (key value : CStr)

def PairState.next : PairState → Token → Option PairState
  | .list pairs, .symbol ptr => some (.symbol pairs ptr)
  | .symbol pairs key, .value ptr => some (.value pairs key ptr)
  | .value pairs key ptr, .comma => some (.list (pairs ++ [⟨key, ptr⟩]))
  | _, _ => none

/-- The place in the open rules and the values on the stack. -/
inductive ParserState where
  | applications
  | application
  | keyValueList (pairs : PairState)
  | signature (pairs : List KeyPairS)
  | appSigList (pairs : List KeyPairS) (sigs : List SigS)
  | sigSymbol (pairs : List KeyPairS) (sigs : List SigS)
  | sigKeyValueList (pairs : List KeyPairS) (sigs : List SigS) (sigPairs : PairState)
  | appSigNode (pairs : List KeyPairS) (sigs : List SigS)

/-- The parser and the global `app_root`, null before the first application. -/
structure Parser where
  appRoot : Option (List ApplicationS)
  state : ParserState

def Parser.goto (parser : Parser) (state : ParserState) : Except Trap (Option Parser) :=
  .ok (some { parser with state := state })

/-- One token: the next state, or `none` if the token cannot follow. -/
def Parser.step (parser : Parser) (token : Token) : Except Trap (Option Parser) :=
  match parser.state, token with
  | .applications, .application => parser.goto .application
  | .application, .lbranch => parser.goto (.keyValueList (.list []))
  | .keyValueList (.list (pair :: pairs)), .signature => parser.goto (.signature (pair :: pairs))
  | .keyValueList pairs, token => .ok ((pairs.next token).map fun pairs => { parser with state := .keyValueList pairs })
  | .signature pairs, .lbranch => parser.goto (.appSigList pairs [])
  | .appSigList pairs sigs, .symbol _ => parser.goto (.sigSymbol pairs sigs)
  | .appSigList pairs (sig :: sigs), .rbranch => parser.goto (.appSigNode pairs (sig :: sigs))
  | .sigSymbol pairs sigs, .lbranch => parser.goto (.sigKeyValueList pairs sigs (.list []))
  | .sigKeyValueList pairs sigs (.list (pair :: sigPairs)), .rbranch => do
      let sig ← appSig (pair :: sigPairs)
      parser.goto (.appSigList pairs (sigs ++ [sig]))
  | .sigKeyValueList pairs sigs sigPairs, token =>
      .ok ((sigPairs.next token).map fun sigPairs => { parser with state := .sigKeyValueList pairs sigs sigPairs })
  | .appSigNode pairs sigs, .rbranch => do
      let app ← createApplication pairs sigs
      return some ⟨some (parser.appRoot.getD [] ++ [app]), .applications⟩
  | _, _ => .ok none

/-- At the end of the file: between applications, and behind at least one. -/
def Parser.accepts (parser : Parser) : Bool :=
  match parser.state with
  | .applications => parser.appRoot.isSome
  | _ => false

/-- What `yyparse` returns and leaves in `app_root`. -/
structure ParseResult where
  status : Nat
  appRoot : Option (List ApplicationS)

def Parser.loop (parser : Parser) : List Token → Except Trap ParseResult
  | [] => .ok ⟨if parser.accepts then 0 else 1, parser.appRoot⟩
  | token :: tokens => do
      match ← parser.step token with
      | none => return ⟨1, parser.appRoot⟩
      | some next => next.loop tokens

def yyparse (tokens : List Token) : Except Trap ParseResult :=
  Parser.loop ⟨none, .applications⟩ tokens

/-! ## What the grammar derives is parsed -/

section Complete

theorem Parser.loop_cons {parser next : Parser} {token : Token} (steps : parser.step token = .ok (some next))
    (tokens : List Token) : parser.loop (token :: tokens) = next.loop tokens := by
  rw [Parser.loop, steps]
  rfl

/-- A state that works off pairs. -/
structure Pairing (appRoot : Option (List ApplicationS)) (wrap : PairState → ParserState) : Prop where
  steps : ∀ {pairs token next}, pairs.next token = some next →
    Parser.step ⟨appRoot, wrap pairs⟩ token = .ok (some ⟨appRoot, wrap next⟩)

theorem pairing_keyValueList (appRoot : Option (List ApplicationS)) : Pairing appRoot .keyValueList where
  steps := by
    intro pairs token next found
    cases pairs with
    | list pairs =>
        cases pairs <;> cases token <;> cases found <;> rfl
    | symbol pairs key => cases token <;> cases found; rfl
    | value pairs key value => cases token <;> cases found; rfl

theorem pairing_sigKeyValueList (appRoot : Option (List ApplicationS)) (pairs : List KeyPairS)
    (sigs : List SigS) : Pairing appRoot (.sigKeyValueList pairs sigs) where
  steps := by
    intro pairs token next found
    cases pairs with
    | list pairs =>
        cases pairs <;> cases token <;> cases found <;> rfl
    | symbol pairs key => cases token <;> cases found; rfl
    | value pairs key value => cases token <;> cases found; rfl

theorem Pairing.loop {appRoot : Option (List ApplicationS)} {wrap : PairState → ParserState}
    (pairing : Pairing appRoot wrap) {ts : List Token} {pairs : List KeyPairS} (list : KeyValueList ts pairs) :
    ∀ before rest, Parser.loop ⟨appRoot, wrap (.list before)⟩ (ts ++ rest) =
      Parser.loop ⟨appRoot, wrap (.list (before ++ pairs))⟩ rest := by
  have pair : ∀ {word value}, KeyValuePair word value → ∀ before rest,
      Parser.loop ⟨appRoot, wrap (.list before)⟩ (word ++ rest) =
        Parser.loop ⟨appRoot, wrap (.list (before ++ [value]))⟩ rest := by
    rintro word value ⟨key, ptr⟩ before rest
    exact (Parser.loop_cons (pairing.steps rfl) _).trans
      ((Parser.loop_cons (pairing.steps rfl) _).trans (Parser.loop_cons (pairing.steps rfl) _))
  induction list with
  | one item => exact pair item
  | snoc list item ih =>
      intro before rest
      rw [List.append_assoc, ih, pair item, List.append_assoc]

theorem step_appSig (appRoot : Option (List ApplicationS)) (pairs : List KeyPairS) (sigs : List SigS)
    (pair : KeyPairS) (sigPairs : List KeyPairS) :
    Parser.step ⟨appRoot, .sigKeyValueList pairs sigs (.list (pair :: sigPairs))⟩ .rbranch =
      (appSig (pair :: sigPairs)).map fun sig => some ⟨appRoot, .appSigList pairs (sigs ++ [sig])⟩ := by
  show (appSig (pair :: sigPairs) >>= _) = _
  cases appSig (pair :: sigPairs) <;> rfl

theorem step_createApplication (appRoot : Option (List ApplicationS)) (pairs : List KeyPairS)
    (sigs : List SigS) : Parser.step ⟨appRoot, .appSigNode pairs sigs⟩ .rbranch =
      (createApplication pairs sigs).map fun app =>
        some ⟨some (appRoot.getD [] ++ [app]), .applications⟩ := by
  show (createApplication pairs sigs >>= _) = _
  cases createApplication pairs sigs <;> rfl

/-- One signature's block. -/
theorem AppSig.loop {ts : List Token} {sig : SigBlock} (block : AppSig ts sig)
    (appRoot : Option (List ApplicationS)) (pairs : List KeyPairS) (sigs : List SigS) (rest : List Token) :
    Parser.loop ⟨appRoot, .appSigList pairs sigs⟩ (ts ++ rest) =
      appSig sig.pairs >>= fun new => Parser.loop ⟨appRoot, .appSigList pairs (sigs ++ [new])⟩ rest := by
  obtain ⟨name, list⟩ := block
  rename_i ts sigPairs
  rw [List.append_assoc, List.append_assoc]
  have opened : Parser.step ⟨appRoot, .appSigList pairs sigs⟩ (.symbol name) =
      .ok (some ⟨appRoot, .sigSymbol pairs sigs⟩) := by
    cases sigs <;> rfl
  have inside := (pairing_sigKeyValueList appRoot pairs sigs).loop list [] ([.rbranch] ++ rest)
  refine (Parser.loop_cons opened _).trans ((Parser.loop_cons rfl _).trans (inside.trans ?_))
  obtain ⟨pair, more, rfl⟩ := List.exists_cons_of_ne_nil list.ne_nil
  show Parser.loop ⟨appRoot, .sigKeyValueList pairs sigs (.list (pair :: more))⟩ (.rbranch :: rest) = _
  rw [Parser.loop, step_appSig]
  cases appSig (pair :: more) <;> rfl

theorem AppSigList.loop {ts : List Token} {blocks : List SigBlock} (list : AppSigList ts blocks)
    (appRoot : Option (List ApplicationS)) (pairs : List KeyPairS) (sigs : List SigS) (rest : List Token) :
    Parser.loop ⟨appRoot, .appSigList pairs sigs⟩ (ts ++ rest) =
      blocks.mapM (fun sig => appSig sig.pairs) >>= fun new =>
        Parser.loop ⟨appRoot, .appSigList pairs (sigs ++ new)⟩ rest :=
  @LeftList.run _ _ AppSig _ _ _ _ (fun sigs tokens => Parser.loop ⟨appRoot, .appSigList pairs sigs⟩ tokens)
    (fun block built rest => block.loop appRoot pairs built rest) _ _ list sigs rest

/-- The beginning of an application, up to its signatures. -/
theorem openSigs_loop {ts : List Token} {pairs : List KeyPairS} (list : KeyValueList ts pairs)
    (appRoot : Option (List ApplicationS)) (rest : List Token) :
    Parser.loop ⟨appRoot, .applications⟩
        ([.application, .lbranch] ++ ts ++ [.signature, .lbranch] ++ rest) =
      Parser.loop ⟨appRoot, .appSigList pairs []⟩ rest := by
  have inside := (pairing_keyValueList appRoot).loop list [] (.signature :: .lbranch :: rest)
  have shape : [Token.application, .lbranch] ++ ts ++ [.signature, .lbranch] ++ rest =
      .application :: .lbranch :: (ts ++ .signature :: .lbranch :: rest) := by
    simp
  rw [shape]
  refine (Parser.loop_cons rfl _).trans ((Parser.loop_cons rfl _).trans (inside.trans ?_))
  obtain ⟨pair, more, rfl⟩ := List.exists_cons_of_ne_nil list.ne_nil
  exact (Parser.loop_cons rfl _).trans (Parser.loop_cons rfl _)

/-- The signatures of an application, up to the end of their node. -/
theorem AppSigNode.loop {ts us : List Token} {pairs : List KeyPairS} {blocks : List SigBlock}
    (list : KeyValueList ts pairs) (node : AppSigNode us blocks) (appRoot : Option (List ApplicationS))
    (rest : List Token) :
    Parser.loop ⟨appRoot, .applications⟩ ([.application, .lbranch] ++ ts ++ us ++ rest) =
      blocks.mapM (fun sig => appSig sig.pairs) >>= fun sigs =>
        Parser.loop ⟨appRoot, .appSigNode pairs sigs⟩ rest := by
  obtain ⟨sigs⟩ := node
  rename_i vs
  have shape : [Token.application, .lbranch] ++ ts ++ ([.signature, .lbranch] ++ vs ++ [.rbranch]) ++ rest =
      [.application, .lbranch] ++ ts ++ [.signature, .lbranch] ++ (vs ++ .rbranch :: rest) := by
    simp
  rw [shape, openSigs_loop list, sigs.loop]
  cases built : blocks.mapM fun sig => appSig sig.pairs with
  | error trap => rfl
  | ok new =>
      have nonempty : new ≠ [] := by
        rintro rfl
        exact sigs.ne_nil (List.length_eq_zero_iff.1 (mapM_length built).symm)
      obtain ⟨sig, others, rfl⟩ := List.exists_cons_of_ne_nil nonempty
      have closed : Parser.step ⟨appRoot, .appSigList pairs (sig :: others)⟩ .rbranch =
          .ok (some ⟨appRoot, .appSigNode pairs (sig :: others)⟩) := rfl
      exact Parser.loop_cons closed rest

/-- One application's block. -/
theorem Application.loop {ts : List Token} {app : AppBlock} (block : Application ts app)
    (appRoot : Option (List ApplicationS)) (rest : List Token) :
    Parser.loop ⟨appRoot, .applications⟩ (ts ++ rest) =
      buildApplication app >>= fun new =>
        Parser.loop ⟨some (appRoot.getD [] ++ [new]), .applications⟩ rest := by
  obtain ⟨list, node⟩ := block
  rename_i ts us pairs blocks
  rw [List.append_assoc, AppSigNode.loop list node, buildApplication]
  cases blocks.mapM fun sig => appSig sig.pairs with
  | error trap => rfl
  | ok sigs =>
      show Parser.loop ⟨appRoot, .appSigNode pairs sigs⟩ (.rbranch :: rest) =
        createApplication pairs sigs >>= _
      rw [Parser.loop, step_createApplication]
      cases createApplication pairs sigs <;> rfl

/-- `app_root` after so many applications. -/
def rootOf : List ApplicationS → Option (List ApplicationS)
  | [] => none
  | app :: apps => some (app :: apps)

theorem rootOf_getD (apps : List ApplicationS) : (rootOf apps).getD [] = apps := by
  cases apps <;> rfl

theorem rootOf_snoc (apps : List ApplicationS) (app : ApplicationS) : rootOf (apps ++ [app]) = some (apps ++ [app]) := by
  cases apps <;> rfl

theorem Applications.loop {ts : List Token} {apps : List AppBlock} (list : Applications ts apps)
    (before : List ApplicationS) (rest : List Token) :
    Parser.loop ⟨rootOf before, .applications⟩ (ts ++ rest) =
      apps.mapM buildApplication >>= fun new =>
        Parser.loop ⟨rootOf (before ++ new), .applications⟩ rest := by
  refine @LeftList.run _ _ Application _ _ _ _
    (fun before tokens => Parser.loop ⟨rootOf before, .applications⟩ tokens)
    (fun block before rest => ?_) _ _ list before rest
  rw [block.loop]
  simp only [rootOf_getD, rootOf_snoc]

/-- **What the grammar derives is accepted**, unless an action stops. -/
theorem yyparse_derives {ts : List Token} {apps : List AppBlock} (list : Applications ts apps) :
    yyparse ts = apps.mapM buildApplication >>= fun built => .ok ⟨0, some built⟩ := by
  have ran := list.loop [] []
  rw [List.append_nil] at ran
  show Parser.loop ⟨rootOf [], .applications⟩ ts = _
  rw [ran]
  cases done : apps.mapM buildApplication with
  | error trap => rfl
  | ok built =>
      have nonempty : built ≠ [] := by
        rintro rfl
        exact list.ne_nil (List.length_eq_zero_iff.1 (mapM_length done).symm)
      obtain ⟨app, more, rfl⟩ := List.exists_cons_of_ne_nil nonempty
      rfl

end Complete

/-! ## What is parsed is derived -/

section Sound

/-- The pairs behind the tokens read in a `key_value_list`. -/
def PairsRead (ts : List Token) : PairState → Prop
  | .list pairs => LeftList? KeyValuePair ts pairs
  | .symbol pairs key => ∃ us, ts = us ++ [.symbol key] ∧ LeftList? KeyValuePair us pairs
  | .value pairs key value => ∃ us, ts = us ++ [.symbol key, .value value] ∧ LeftList? KeyValuePair us pairs

/-- The tokens of an open application up to its signatures. -/
inductive SigsRead : List Token → List KeyPairS → List SigS → List SigBlock → Prop where
  | mk {ts us : List Token} {pairs : List KeyPairS} {sigs : List SigS} {blocks : List SigBlock} :
      KeyValueList ts pairs → LeftList? AppSig us blocks →
      (blocks.mapM fun sig => appSig sig.pairs) = .ok sigs →
      SigsRead ([.application, .lbranch] ++ ts ++ [.signature, .lbranch] ++ us) pairs sigs blocks

/-- What was read of an application that is not yet reduced. -/
def BlockRead (ts : List Token) : ParserState → Prop
  | .applications => ts = []
  | .application => ts = [.application]
  | .keyValueList pairs => ∃ us, ts = [.application, .lbranch] ++ us ∧ PairsRead us pairs
  | .signature pairs => ∃ us, ts = [.application, .lbranch] ++ us ++ [.signature] ∧ KeyValueList us pairs
  | .appSigList pairs sigs => ∃ blocks, SigsRead ts pairs sigs blocks
  | .sigSymbol pairs sigs => ∃ us name blocks, ts = us ++ [.symbol name] ∧ SigsRead us pairs sigs blocks
  | .sigKeyValueList pairs sigs sigPairs => ∃ us vs name blocks,
      ts = us ++ [.symbol name, .lbranch] ++ vs ∧ SigsRead us pairs sigs blocks ∧ PairsRead vs sigPairs
  | .appSigNode pairs sigs => ∃ us blocks, ts = us ++ [.rbranch] ∧ SigsRead us pairs sigs blocks ∧ blocks ≠ []

/-- The tokens read are applications and the beginning of another; the actions of the
reduced rules have run. -/
def Read (ts : List Token) (parser : Parser) : Prop :=
  ∃ us vs blocks apps, ts = us ++ vs ∧ LeftList? Application us blocks ∧
    blocks.mapM buildApplication = .ok apps ∧ parser.appRoot = rootOf apps ∧ BlockRead vs parser.state

theorem PairsRead.next {ts : List Token} {pairs pairs' : PairState} {token : Token} (read : PairsRead ts pairs)
    (found : pairs.next token = some pairs') : PairsRead (ts ++ [token]) pairs' := by
  cases pairs with
  | list pairs =>
      cases token <;> cases found
      exact ⟨ts, rfl, read⟩
  | symbol pairs key =>
      obtain ⟨us, rfl, list⟩ := read
      cases token <;> cases found
      exact ⟨us, by simp, list⟩
  | value pairs key value =>
      obtain ⟨us, rfl, list⟩ := read
      cases token <;> cases found
      have whole : us ++ [Token.symbol key, .value value] ++ [.comma] =
          us ++ [.symbol key, .value value, .comma] := by simp
      rw [whole]
      exact list.snoc (KeyValuePair.mk key value)

/-- What a token does to the state: it is shifted, or it is the last of a block whose
action runs. -/
inductive Steps (root : Option (List ApplicationS)) : ParserState → Token → Except Trap Parser → Prop where
  | application : Steps root .applications .application (.ok ⟨root, .application⟩)
  | lbranch : Steps root .application .lbranch (.ok ⟨root, .keyValueList (.list [])⟩)
  | pair {pairs token next} : pairs.next token = some next →
      Steps root (.keyValueList pairs) token (.ok ⟨root, .keyValueList next⟩)
  | signature (pair pairs) :
      Steps root (.keyValueList (.list (pair :: pairs))) .signature (.ok ⟨root, .signature (pair :: pairs)⟩)
  | sigs (pairs) : Steps root (.signature pairs) .lbranch (.ok ⟨root, .appSigList pairs []⟩)
  | name (pairs sigs ptr) : Steps root (.appSigList pairs sigs) (.symbol ptr) (.ok ⟨root, .sigSymbol pairs sigs⟩)
  | node (pairs sig sigs) : Steps root (.appSigList pairs (sig :: sigs)) .rbranch
      (.ok ⟨root, .appSigNode pairs (sig :: sigs)⟩)
  | sigLbranch (pairs sigs) : Steps root (.sigSymbol pairs sigs) .lbranch
      (.ok ⟨root, .sigKeyValueList pairs sigs (.list [])⟩)
  | sigPair {pairs sigs sigPairs token next} : sigPairs.next token = some next →
      Steps root (.sigKeyValueList pairs sigs sigPairs) token (.ok ⟨root, .sigKeyValueList pairs sigs next⟩)
  | appSig (pairs sigs pair sigPairs) :
      Steps root (.sigKeyValueList pairs sigs (.list (pair :: sigPairs))) .rbranch
        ((appSig (pair :: sigPairs)).map fun sig => ⟨root, .appSigList pairs (sigs ++ [sig])⟩)
  | createApplication (pairs sigs) : Steps root (.appSigNode pairs sigs) .rbranch
      ((createApplication pairs sigs).map fun app => ⟨some (root.getD [] ++ [app]), .applications⟩)

/-- **What one token does.** -/
theorem step_cases (parser : Parser) (token : Token) :
    parser.step token = .ok none ∨
      ∃ outcome, parser.step token = outcome.map some ∧ Steps parser.appRoot parser.state token outcome := by
  obtain ⟨root, state⟩ := parser
  have paired : ∀ {pairs : PairState} {wrap : PairState → ParserState},
      Parser.step ⟨root, wrap pairs⟩ token = .ok ((pairs.next token).map fun next => ⟨root, wrap next⟩) →
      (∀ next, pairs.next token = some next → Steps root (wrap pairs) token (.ok ⟨root, wrap next⟩)) →
      Parser.step ⟨root, wrap pairs⟩ token = .ok none ∨ ∃ outcome,
        Parser.step ⟨root, wrap pairs⟩ token = outcome.map some ∧ Steps root (wrap pairs) token outcome := by
    intro pairs wrap stepped taken
    cases found : pairs.next token with
    | none =>
        rw [found] at stepped
        exact Or.inl stepped
    | some next =>
        rw [found] at stepped
        exact Or.inr ⟨.ok ⟨root, wrap next⟩, stepped, taken next found⟩
  cases state with
  | applications => cases token <;> first | exact Or.inl rfl | exact Or.inr ⟨_, rfl, .application⟩
  | application => cases token <;> first | exact Or.inl rfl | exact Or.inr ⟨_, rfl, .lbranch⟩
  | signature pairs => cases token <;> first | exact Or.inl rfl | exact Or.inr ⟨_, rfl, .sigs pairs⟩
  | sigSymbol pairs sigs => cases token <;> first | exact Or.inl rfl | exact Or.inr ⟨_, rfl, .sigLbranch pairs sigs⟩
  | appSigNode pairs sigs =>
      cases token with
      | rbranch =>
          refine Or.inr ⟨_, ?_, .createApplication pairs sigs⟩
          rw [step_createApplication]
          cases createApplication pairs sigs <;> rfl
      | _ => exact Or.inl rfl
  | appSigList pairs sigs =>
      cases token with
      | symbol ptr => exact Or.inr ⟨_, by cases sigs <;> rfl, .name pairs sigs ptr⟩
      | rbranch =>
          cases sigs with
          | nil => exact Or.inl rfl
          | cons sig sigs => exact Or.inr ⟨_, rfl, .node pairs sig sigs⟩
      | _ => cases sigs <;> exact Or.inl rfl
  | keyValueList pairs =>
      by_cases opens : ∃ pair more, pairs = .list (pair :: more) ∧ token = .signature
      · obtain ⟨pair, more, rfl, rfl⟩ := opens
        exact Or.inr ⟨_, rfl, .signature pair more⟩
      · refine paired ?_ fun next found => .pair found
        cases pairs with
        | list pairs =>
            cases pairs with
            | nil => cases token <;> rfl
            | cons pair more =>
                cases token with
                | signature => exact absurd ⟨pair, more, rfl, rfl⟩ opens
                | _ => rfl
        | symbol pairs key => cases token <;> rfl
        | value pairs key value => cases token <;> rfl
  | sigKeyValueList pairs sigs sigPairs =>
      by_cases closes : ∃ pair more, sigPairs = .list (pair :: more) ∧ token = .rbranch
      · obtain ⟨pair, more, rfl, rfl⟩ := closes
        refine Or.inr ⟨_, ?_, .appSig pairs sigs pair more⟩
        rw [step_appSig]
        cases appSig (pair :: more) <;> rfl
      · refine paired ?_ fun next found => .sigPair found
        cases sigPairs with
        | list sigPairs =>
            cases sigPairs with
            | nil => cases token <;> rfl
            | cons pair more =>
                cases token with
                | rbranch => exact absurd ⟨pair, more, rfl, rfl⟩ closes
                | _ => rfl
        | symbol sigPairs key => cases token <;> rfl
        | value sigPairs key value => cases token <;> rfl

theorem Read.steps {ts : List Token} {parser parser' : Parser} {token : Token} (read : Read ts parser)
    (step : Steps parser.appRoot parser.state token (.ok parser')) : Read (ts ++ [token]) parser' := by
  obtain ⟨us, vs, done, apps, rfl, list, ran, root, open_⟩ := read
  obtain ⟨appRoot, state⟩ := parser
  dsimp only at root step open_
  have shift : ∀ {state'}, BlockRead (vs ++ [token]) state' → Read (us ++ vs ++ [token]) ⟨appRoot, state'⟩ :=
    fun block => ⟨us, vs ++ [token], done, apps, List.append_assoc .., list, ran, root, block⟩
  generalize outcome : Except.ok parser' = result at step
  cases step with
  | application =>
      cases outcome
      obtain rfl : vs = [] := open_
      exact shift rfl
  | lbranch =>
      cases outcome
      obtain rfl : vs = [.application] := open_
      exact shift ⟨[], rfl, LeftList?.nil⟩
  | pair found =>
      cases outcome
      obtain ⟨ws, rfl, pairs⟩ := open_
      exact shift ⟨ws ++ [token], List.append_assoc .., pairs.next found⟩
  | signature pair pairs =>
      cases outcome
      obtain ⟨ws, rfl, pairs⟩ := open_
      exact shift ⟨ws, rfl, pairs.of_ne_nil (List.cons_ne_nil _ _)⟩
  | sigs pairs =>
      cases outcome
      obtain ⟨ws, rfl, pairs⟩ := open_
      have opened := SigsRead.mk pairs (LeftList?.nil (R := AppSig)) (List.mapM_nil (m := Except Trap))
      simp only [List.append_nil] at opened
      exact shift ⟨[], by simpa using opened⟩
  | name pairs sigs ptr =>
      cases outcome
      obtain ⟨blocks, opened⟩ := open_
      exact shift ⟨vs, ptr, blocks, rfl, opened⟩
  | node pairs sig sigs =>
      cases outcome
      obtain ⟨blocks, opened⟩ := open_
      refine shift ⟨vs, blocks, rfl, opened, ?_⟩
      rintro rfl
      obtain ⟨-, -, built⟩ := opened
      cases built
  | sigLbranch pairs sigs =>
      cases outcome
      obtain ⟨ws, name, blocks, rfl, opened⟩ := open_
      exact shift ⟨ws, [], name, blocks, by simp, opened, LeftList?.nil⟩
  | sigPair found =>
      cases outcome
      obtain ⟨ws, xs, name, blocks, rfl, opened, pairs⟩ := open_
      exact shift ⟨ws, xs ++ [token], name, blocks, List.append_assoc .., opened, pairs.next found⟩
  | appSig pairs sigs pair sigPairs =>
      obtain ⟨sig, built, rfl⟩ := map_ok outcome.symm
      obtain ⟨ws, xs, name, blocks, rfl, opened, sigList⟩ := open_
      obtain ⟨pairList, before, mapped⟩ := opened
      rename_i ts' us'
      have block := AppSig.mk name (sigList.of_ne_nil (List.cons_ne_nil _ _))
      refine shift ⟨blocks ++ [⟨name, pair :: sigPairs⟩], ?_⟩
      have opened := SigsRead.mk pairList (before.snoc block) (mapM_snoc mapped built)
      simpa using opened
  | createApplication pairs sigs =>
      obtain ⟨app, built, rfl⟩ := map_ok outcome.symm
      obtain ⟨ws, blocks, rfl, ⟨pairList, sigList, mapped⟩, nonempty⟩ := open_
      rename_i ts' us'
      have block := Application.mk pairList (AppSigNode.mk (sigList.of_ne_nil nonempty))
      have whole : buildApplication ⟨pairs, blocks⟩ = .ok app := by
        rw [buildApplication, mapped]
        exact built
      refine ⟨us ++ _, [], done ++ [⟨pairs, blocks⟩], apps ++ [app], ?_, list.snoc block,
        mapM_snoc ran whole, ?_, rfl⟩
      · simp
      · show some _ = _
        rw [rootOf_snoc, root, rootOf_getD]

/-- The block that ends with the tokens is one whose action stops, and no action before
it does. -/
inductive Fails (trap : Trap) : List Token → Prop where
  | appSig {us ts vs : List Token} {done : List AppBlock} {apps : List ApplicationS} {pairs : List KeyPairS}
      {blocks : List SigBlock} :
      LeftList? Application us done → done.mapM buildApplication = .ok apps → KeyValueList ts pairs →
      AppSigList vs blocks → (blocks.mapM fun sig => appSig sig.pairs) = .error trap →
      Fails trap (us ++ ([.application, .lbranch] ++ ts ++ [.signature, .lbranch] ++ vs))
  | createApplication {ts : List Token} {blocks : List AppBlock} :
      Applications ts blocks → blocks.mapM buildApplication = .error trap → Fails trap ts

theorem Read.fails {ts : List Token} {parser : Parser} {token : Token} {trap : Trap} (read : Read ts parser)
    (step : Steps parser.appRoot parser.state token (.error trap)) : Fails trap (ts ++ [token]) := by
  obtain ⟨us, vs, done, apps, rfl, list, ran, root, open_⟩ := read
  obtain ⟨appRoot, state⟩ := parser
  dsimp only at root step open_
  generalize outcome : (Except.error trap : Except Trap Parser) = result at step
  cases step with
  | appSig pairs sigs pair sigPairs =>
      have built := map_error_iff.1 outcome.symm
      obtain ⟨ws, xs, name, blocks, rfl, opened, sigList⟩ := open_
      obtain ⟨pairList, before, mapped⟩ := opened
      have block := AppSig.mk name (sigList.of_ne_nil (List.cons_ne_nil _ _))
      have more := (before.snoc block).of_ne_nil (by simp)
      have failed := Fails.appSig list ran pairList more (mapM_snoc_error mapped built)
      simpa using failed
  | createApplication pairs sigs =>
      have built := map_error_iff.1 outcome.symm
      obtain ⟨ws, blocks, rfl, ⟨pairList, sigList, mapped⟩, nonempty⟩ := open_
      have block := Application.mk pairList (AppSigNode.mk (sigList.of_ne_nil nonempty))
      have whole : buildApplication ⟨pairs, blocks⟩ = .error trap := by
        rw [buildApplication, mapped]
        exact built
      have failed := Fails.createApplication ((list.snoc block).of_ne_nil (by simp))
        (mapM_snoc_error ran whole)
      simpa using failed
  | application => cases outcome
  | lbranch => cases outcome
  | pair found => cases outcome
  | signature pair pairs => cases outcome
  | sigs pairs => cases outcome
  | name pairs sigs ptr => cases outcome
  | node pairs sig sigs => cases outcome
  | sigLbranch pairs sigs => cases outcome
  | sigPair found => cases outcome

/-- What the loop ends with, from a state behind some tokens. -/
theorem Read.loop (rest : List Token) : ∀ {ts : List Token} {parser : Parser}, Read ts parser →
    match parser.loop rest with
    | .error trap => ∃ front back, ts ++ rest = front ++ back ∧ Fails trap front
    | .ok result => (result.status = 0 ∧ ∃ blocks, Applications (ts ++ rest) blocks) ∨ result.status = 1 := by
  induction rest with
  | nil =>
      intro ts parser read
      rw [Parser.loop, List.append_nil]
      by_cases accepts : parser.accepts = true
      · refine Or.inl ⟨if_pos accepts, ?_⟩
        obtain ⟨us, vs, done, apps, rfl, list, ran, root, open_⟩ := read
        obtain ⟨appRoot, state⟩ := parser
        cases state with
        | applications =>
            obtain rfl : vs = [] := open_
            refine ⟨done, ?_⟩
            rw [List.append_nil]
            refine list.of_ne_nil ?_
            rintro rfl
            obtain rfl : [] = apps := Except.ok.inj ran
            rw [show appRoot = none from root] at accepts
            cases accepts
        | _ => cases accepts
      · exact Or.inr (if_neg accepts)
  | cons token rest ih =>
      intro ts parser read
      rw [Parser.loop]
      rcases step_cases parser token with stuck | ⟨outcome, stepped, steps⟩
      · rw [stuck]
        exact Or.inr rfl
      · rw [stepped]
        cases outcome with
        | error trap => exact ⟨ts ++ [token], rest, by simp, read.fails steps⟩
        | ok next =>
            have later := ih (read.steps steps)
            rw [List.append_assoc] at later
            exact later

theorem read_nil : Read [] ⟨none, .applications⟩ :=
  ⟨[], [], [], [], rfl, LeftList?.nil, rfl, rfl, rfl⟩

/-- **Only what the grammar derives is accepted.** -/
theorem derives_of_accepted {ts : List Token} {root : Option (List ApplicationS)}
    (accepted : yyparse ts = .ok ⟨0, root⟩) : ∃ blocks, Applications ts blocks := by
  have ended := read_nil.loop ts
  rw [show Parser.loop ⟨none, .applications⟩ ts = _ from accepted] at ended
  rcases ended with ⟨-, derived⟩ | impossible
  · exact derived
  · cases impossible

/-- What the parser returns says whether the grammar derives the tokens. -/
theorem yyparse_status_iff {ts : List Token} {result : ParseResult} (ran : yyparse ts = .ok result) :
    result.status = 0 ↔ ∃ blocks, Applications ts blocks := by
  constructor
  · intro zero
    obtain ⟨status, root⟩ := result
    obtain rfl : status = 0 := zero
    exact derives_of_accepted ran
  · rintro ⟨blocks, list⟩
    rw [yyparse_derives list] at ran
    obtain ⟨built, -, same⟩ := bind_ok ran
    cases same
    rfl

/-- **Where the parser stops in an action.** -/
theorem yyparse_error_iff {ts : List Token} {trap : Trap} :
    yyparse ts = .error trap ↔ ∃ front back, ts = front ++ back ∧ Fails trap front := by
  constructor
  · intro ran
    have ended := read_nil.loop ts
    rw [show Parser.loop ⟨none, .applications⟩ ts = _ from ran] at ended
    exact ended
  · rintro ⟨front, back, rfl, failed⟩
    show Parser.loop ⟨rootOf [], .applications⟩ _ = _
    cases failed with
    | createApplication list failed => rw [list.loop, failed]; rfl
    | appSig list ran pairs sigs failed =>
        rename_i us ts vs done apps ps blocks
        have block : ∀ root, Parser.loop ⟨root, .applications⟩
            ([.application, .lbranch] ++ ts ++ [.signature, .lbranch] ++ vs ++ back) = .error trap := by
          intro root
          rw [List.append_assoc _ vs, openSigs_loop pairs, sigs.loop, failed]
          rfl
        rcases list with ⟨rfl, rfl⟩ | list
        · exact block none
        · rw [List.append_assoc, Applications.loop list, ran]
          exact block _

end Sound

end Orchid
