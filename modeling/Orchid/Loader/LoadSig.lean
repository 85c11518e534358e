/-
# Loader.LoadSig -- which configurations are loaded, and which stop the loader

`loadApp` parses the file and does not look at what `yyparse` returns, so after a
syntax error `load_sig` goes on with the applications in front of the error, or with a
null list.

Behind an accepted file the installation is safe where all strings were present, up to
the first assert that fails, and the categories are in range
(`safe_install_iff`): the lookups return null for a missing string and nothing checks
it, and nothing checks a category.  So the whole file is installed or the loader stops
exactly if the file is derivable and safe or one of the asserts fails in front of the
error (`whole_or_nothing_iff`).
-/
import Orchid.Loader.Install
import Orchid.Loader.Items
import Orchid.Loader.SigParser

namespace Orchid

open Orchid.Theory

set_option autoImplicit false

/-! ## Loading -/

/-- `loadApp`: what it leaves in `app_root`.  The status of the parser is ignored. -/
def loadApp (file : CStr) : Except Trap (Option (List ApplicationS)) := do
  let result ← yyparse (yylex file)
  return result.appRoot

/-- `dump_applications` walks the list through its head. -/
def dumpApplications : Option (List ApplicationS) → Except Trap (List ApplicationS)
  | none => .error .nullList
  | some root => .ok root

/-- The two passes over the list. -/
def installAll (mem : Memory) (root : List ApplicationS) : Except Trap (AppInfoS × List AppEntryT) := do
  let summary ← getApplicationSummary root
  installApplication mem summary root

/-- `load_sig` up to the pattern lists. -/
def loadSig (mem : Memory) (file : CStr) : Except Trap (AppInfoS × List AppEntryT) := do
  let root ← loadApp file
  let root ← dumpApplications root
  installAll mem root

/-! ## The actions of a configuration -/

/-- The two actions that can stop, with the pairs they look at. -/
inductive Action where
  | appSig (pairs : List KeyPairS)
  | createApplication (pairs : List KeyPairS)

/-- The actions in the order the parser runs them. -/
def actions (blocks : List AppBlock) : List Action :=
  blocks.flatMap fun app => (app.sigs.map fun sig => .appSig sig.pairs) ++ [.createApplication app.pairs]

/-- A null pointer is handed to `strlen`: there is no `sig_match`, or an item of it
that the splitter gets to has no `=` behind its first byte. -/
def MatchAbsent (type : Uint) : Option CStr → Prop
  | none => True
  | some text => text.length < MAX_SIG_LENGTH ∧ ∃ k item, (items text)[k]? = some item ∧
      getKeyFromSig item = none ∧ (k = 0 ∨ type ≠ SIG_SINGLE)

/-- An assert fails: `sig_match` is too long, or a single signature has a second item. -/
def MatchRejected (type : Uint) : Option CStr → Prop
  | none => False
  | some text => MAX_SIG_LENGTH ≤ text.length ∨ (type = SIG_SINGLE ∧ 2 ≤ (items text).length ∧
      ∃ item ∈ (items text).head?, getKeyFromSig item ≠ none)

/-- The action hands an absent string to `strlen`. -/
def Action.Absent : Action → Prop
  | .appSig pairs => MatchAbsent (getMatchTypeValue pairs) (getStrValueFromKey pairs (cstr "sig_match"))
  | .createApplication pairs => getStrValueFromKey pairs (cstr "appname") = none

/-- An assert of the action fails. -/
def Action.Rejected : Action → Prop
  | .appSig pairs => MatchRejected (getMatchTypeValue pairs) (getStrValueFromKey pairs (cstr "sig_match"))
  | .createApplication pairs => ∃ name, getStrValueFromKey pairs (cstr "appname") = some name ∧
      MAX_APP_LENGTH ≤ name.length

/-- The action on its own. -/
def Action.run : Action → Except Trap Unit
  | .appSig pairs => (Orchid.appSig pairs).map fun _ => ()
  | .createApplication pairs => (Orchid.createApplication pairs []).map fun _ => ()

theorem appSig_error_iff {pairs : List KeyPairS} {trap : Trap} : appSig pairs = .error trap ↔
    (trap = .nullString ∧ (Action.appSig pairs).Absent) ∨
      (trap = .assertion ∧ (Action.appSig pairs).Rejected) := by
  show _ ↔ (trap = .nullString ∧ MatchAbsent (getMatchTypeValue pairs) _) ∨
    (trap = .assertion ∧ MatchRejected (getMatchTypeValue pairs) _)
  unfold appSig
  cases getStrValueFromKey pairs (cstr "sig_match") with
  | none =>
      constructor
      · intro stopped
        cases stopped
        exact Or.inl ⟨rfl, trivial⟩
      · rintro (⟨rfl, -⟩ | ⟨-, impossible⟩)
        · rfl
        · cases impossible
  | some text =>
      unfold MatchAbsent MatchRejected
      by_cases long : text.length ≥ MAX_SIG_LENGTH
      · simp only [if_pos long]
        constructor
        · intro stopped
          cases stopped
          exact Or.inr ⟨rfl, Or.inl long⟩
        · rintro (⟨-, short, -⟩ | ⟨rfl, -⟩)
          · omega
          · rfl
      · have short : text.length < MAX_SIG_LENGTH := Nat.lt_of_not_le long
        simp only [parseHttpSigInto_eq, parseHttpSig_eq short, short, true_and, Nat.not_le.2 short, false_or]
        rw [← splitElements_error_iff]
        cases splitElements (getMatchTypeValue pairs) (items text) with
        | error trap' =>
            constructor <;> intro stopped <;> cases stopped <;> rfl
        | ok es => exact iff_of_false (fun impossible => nomatch impossible) fun impossible => nomatch impossible

theorem createApplication_error_iff {pairs : List KeyPairS} {sigs : List SigS} {trap : Trap} :
    createApplication pairs sigs = .error trap ↔
      (trap = .nullString ∧ (Action.createApplication pairs).Absent) ∨
        (trap = .assertion ∧ (Action.createApplication pairs).Rejected) := by
  show _ ↔ (trap = .nullString ∧ _ = none) ∨ (trap = .assertion ∧ ∃ name, _ = some name ∧ _)
  unfold createApplication
  cases getStrValueFromKey pairs (cstr "appname") with
  | none =>
      constructor
      · intro stopped
        cases stopped
        exact Or.inl ⟨rfl, rfl⟩
      · rintro (⟨rfl, -⟩ | ⟨-, name, impossible, -⟩)
        · rfl
        · cases impossible
  | some name =>
      by_cases long : name.length ≥ MAX_APP_LENGTH
      · simp only [if_pos long]
        constructor
        · intro stopped
          cases stopped
          exact Or.inr ⟨rfl, name, rfl, long⟩
        · rintro (⟨-, impossible⟩ | ⟨rfl, -⟩)
          · cases impossible
          · rfl
      · simp only [if_neg long]
        refine iff_of_false (fun impossible => nomatch impossible) ?_
        rintro (⟨-, impossible⟩ | ⟨-, name', same, long'⟩)
        · cases impossible
        · obtain rfl := Option.some.inj same
          exact long long'

theorem Action.run_error_iff {action : Action} {trap : Trap} : action.run = .error trap ↔
    (trap = .nullString ∧ action.Absent) ∨ (trap = .assertion ∧ action.Rejected) := by
  cases action with
  | appSig pairs => exact map_error_iff.trans appSig_error_iff
  | createApplication pairs => exact map_error_iff.trans createApplication_error_iff

/-- The actions one after another. -/
def runActions : List Action → Except Trap Unit
  | [] => .ok ()
  | action :: rest => do
      action.run
      runActions rest

theorem runActions_append (first second : List Action) :
    runActions (first ++ second) = runActions first >>= fun _ => runActions second := by
  induction first with
  | nil => rfl
  | cons action first ih =>
      rw [List.cons_append, runActions, runActions, ih]
      cases action.run <;> rfl

theorem mapM_appSig (blocks : List SigBlock) : (blocks.mapM fun sig => appSig sig.pairs).map (fun _ => ()) =
    runActions (blocks.map fun sig => .appSig sig.pairs) := by
  induction blocks with
  | nil => rfl
  | cons sig blocks ih =>
      rw [List.mapM_cons, List.map_cons, runActions, ← ih, Action.run]
      cases appSig sig.pairs with
      | error trap => rfl
      | ok new => cases blocks.mapM fun sig => appSig sig.pairs <;> rfl

/-- Building the applications is running the actions. -/
theorem mapM_buildApplication (blocks : List AppBlock) :
    (blocks.mapM buildApplication).map (fun _ => ()) = runActions (actions blocks) := by
  have whole : ∀ app : AppBlock, (buildApplication app).map (fun _ => ()) =
      runActions ((app.sigs.map fun sig => .appSig sig.pairs) ++ [.createApplication app.pairs]) := by
    intro app
    rw [runActions_append, ← mapM_appSig, buildApplication]
    cases app.sigs.mapM fun sig => appSig sig.pairs with
    | error trap => rfl
    | ok built =>
        show (createApplication app.pairs built).map _ = runActions [.createApplication app.pairs]
        rw [runActions, Action.run]
        unfold createApplication
        cases getStrValueFromKey app.pairs (cstr "appname") with
        | none => rfl
        | some name =>
            dsimp only
            split <;> rfl
  induction blocks with
  | nil => rfl
  | cons app blocks ih =>
      rw [List.mapM_cons, actions, List.flatMap_cons, runActions_append, ← whole]
      show _ = _ >>= fun _ => runActions (actions blocks)
      rw [← ih]
      cases buildApplication app with
      | error trap => rfl
      | ok new => cases blocks.mapM buildApplication <;> rfl

/-- **The first action that stops.** -/
theorem runActions_error_iff {list : List Action} {trap : Trap} : runActions list = .error trap ↔
    ∃ (i : Nat) (action : Action), list[i]? = some action ∧ action.run = .error trap ∧
      ∀ j < i, ∀ before : Action, list[j]? = some before → before.run = .ok () := by
  induction list with
  | nil => simp [runActions]
  | cons first rest ih =>
      rw [runActions]
      cases ran : first.run with
      | error trap' =>
          constructor
          · intro stopped
            cases stopped
            exact ⟨0, first, rfl, ran, fun j impossible => absurd impossible (Nat.not_lt_zero j)⟩
          · rintro ⟨i, action, here, stopped, before⟩
            cases i with
            | zero =>
                obtain rfl : first = action := Option.some.inj here
                rw [ran] at stopped
                cases stopped
                rfl
            | succ i =>
                have passed := before 0 (Nat.succ_pos i) first rfl
                rw [ran] at passed
                cases passed
      | ok _ =>
          refine Iff.trans ih ⟨?_, ?_⟩
          · rintro ⟨i, action, here, stopped, before⟩
            refine ⟨i + 1, action, here, stopped, fun j below other there => ?_⟩
            cases j with
            | zero =>
                obtain rfl : first = other := Option.some.inj there
                exact ran
            | succ j => exact before j (Nat.lt_of_succ_lt_succ below) other there
          · rintro ⟨i, action, here, stopped, before⟩
            cases i with
            | zero =>
                obtain rfl : first = action := Option.some.inj here
                rw [ran] at stopped
                cases stopped
            | succ i =>
                exact ⟨i, action, here, stopped, fun j below other there =>
                  before (j + 1) (Nat.succ_lt_succ below) other there⟩

theorem runActions_ok {list : List Action} (ran : runActions list = .ok ()) :
    ∀ action ∈ list, action.run = .ok () := by
  induction list with
  | nil => exact fun _ impossible => nomatch impossible
  | cons first rest ih =>
      obtain ⟨_, done, ran⟩ := bind_ok ran
      intro action member
      rcases List.mem_cons.1 member with rfl | later
      · exact done
      · exact ih ran action later

/-! ## What was built -/

theorem appSig_ok {pairs : List KeyPairS} {sig : SigS} (built : appSig pairs = .ok sig) :
    sig.matchStr.length < MAX_SIG_LENGTH ∧ parseHttpSig_ sig.matchStr sig.type = .ok sig.elements := by
  unfold appSig at built
  cases found : getStrValueFromKey pairs (cstr "sig_match") with
  | none =>
      rw [found] at built
      cases built
  | some text =>
      rw [found] at built
      dsimp only at built
      by_cases long : text.length ≥ MAX_SIG_LENGTH
      · rw [if_pos long] at built
        cases built
      · rw [if_neg long] at built
        obtain ⟨⟨es, n⟩, split, made⟩ := bind_ok built
        cases made
        refine ⟨Nat.lt_of_not_le long, ?_⟩
        rw [parseHttpSig_, split]
        rfl

theorem buildApplication_ok {block : AppBlock} {app : ApplicationS} (built : buildApplication block = .ok app) :
    app.category = getIntValueFromKey block.pairs (cstr "category") ∧
      (block.sigs.mapM fun sig => appSig sig.pairs) = .ok app.sigs := by
  obtain ⟨new, sigs, made⟩ := bind_ok built
  unfold createApplication at made
  cases found : getStrValueFromKey block.pairs (cstr "appname") with
  | none =>
      rw [found] at made
      cases made
  | some name =>
      rw [found] at made
      dsimp only at made
      by_cases long : name.length ≥ MAX_APP_LENGTH
      · rw [if_pos long] at made
        cases made
      · rw [if_neg long] at made
        cases made
        exact ⟨rfl, sigs⟩

/-- **The parser builds what the installation relies on**: every signature holds the
elements of its text, and every text fits. -/
theorem built_parsed {blocks : List AppBlock} {apps : List ApplicationS}
    (built : blocks.mapM buildApplication = .ok apps) :
    Parsed apps ∧ (∀ e ∈ (signatures apps).flatten, e.matchStr.length < MAX_SIG_LENGTH) ∧
      List.Forall₂ (fun (block : AppBlock) app => app.category = getIntValueFromKey block.pairs (cstr "category"))
        blocks apps := by
  have related := mapM_ok_iff.1 built
  have sigs : ∀ app ∈ apps, ∀ sig ∈ app.sigs, sig.matchStr.length < MAX_SIG_LENGTH ∧
      parseHttpSig_ sig.matchStr sig.type = .ok sig.elements := by
    intro app member sig inside
    obtain ⟨block, -, done⟩ := forall₂_right related member
    obtain ⟨-, sigsBuilt⟩ := buildApplication_ok done
    obtain ⟨sigBlock, -, sigDone⟩ := forall₂_right (mapM_ok_iff.1 sigsBuilt) inside
    exact appSig_ok sigDone
  refine ⟨⟨fun app member sig inside => (sigs app member sig inside).2⟩, fun e member => ?_,
    related.imp fun block app done => (buildApplication_ok done).1⟩
  obtain ⟨app, inApps, sig, inSigs, inElements⟩ := mem_signatures_flatten.1 member
  obtain ⟨short, split⟩ := sigs app inApps sig inSigs
  exact (parseHttpSig_texts split inElements).trans short

/-- A category out of range stops the counting. -/
theorem getApplicationSummary_error {root : List ApplicationS}
    (outside : ∃ app ∈ root, MAX_CATEGORY_ID ≤ app.category.toNat) :
    getApplicationSummary root = .error .cateRange := by
  have walk : ∀ (root : List ApplicationS) (summary : AppStatisticsS),
      (∃ app ∈ root, MAX_CATEGORY_ID ≤ app.category.toNat) →
      root.foldlM countApplication summary = .error .cateRange := by
    intro root
    induction root with
    | nil => exact fun summary ⟨app, impossible, _⟩ => nomatch impossible
    | cons first root ih =>
        rintro summary ⟨app, member, large⟩
        rw [List.foldlM_cons, countApplication]
        by_cases small : first.category.toNat < MAX_CATEGORY_ID
        · simp only [if_pos small]
          rcases List.mem_cons.1 member with rfl | later
          · omega
          · exact ih _ ⟨app, later, large⟩
        · simp only [if_neg small]
          rfl
  rw [getApplicationSummary, walk root _ outside]
  rfl

/-! ## Rejected or safe -/

/-- What follows an accepted parse. -/
def installTokens (mem : Memory) (tokens : List Token) : Except Trap (AppInfoS × List AppEntryT) := do
  let result ← yyparse tokens
  let root ← dumpApplications result.appRoot
  installAll mem root

/-- The run ends, or an assert of the loader stops it: no index is out of range, no
absent string handed on and no null element inserted. -/
def SafeRun (mem : Memory) (tokens : List Token) : Prop :=
  ∀ trap, installTokens mem tokens = .error trap → trap = .assertion

/-- Where a string is absent, an assert has failed before; and if none fails, all
categories are below the number of categories. -/
structure SafeConfig (blocks : List AppBlock) : Prop where
  strings : ∀ (i : Nat) (action : Action), (actions blocks)[i]? = some action → action.Absent →
    ∃ j < i, ∃ before : Action, (actions blocks)[j]? = some before ∧ before.Rejected
  categories : (∀ action ∈ actions blocks, ¬ action.Rejected) → ∀ app ∈ blocks,
    (getIntValueFromKey app.pairs (cstr "category")).toNat < MAX_CATEGORY_ID

theorem Action.passes {action : Action} (ran : action.run = .ok ()) : ¬ action.Absent ∧ ¬ action.Rejected := by
  refine ⟨fun absent => ?_, fun rejected => ?_⟩
  · rw [Action.run_error_iff.2 (Or.inl ⟨rfl, absent⟩)] at ran
    cases ran
  · rw [Action.run_error_iff.2 (Or.inr ⟨rfl, rejected⟩)] at ran
    cases ran

/-- An action does not do both. -/
theorem Action.not_both {action : Action} (absent : action.Absent) (rejected : action.Rejected) : False := by
  have first := Action.run_error_iff.2 (Or.inl ⟨rfl, absent⟩)
  have second := Action.run_error_iff.2 (Or.inr ⟨rfl, rejected⟩)
  rw [first] at second
  cases second

/-- Where an action stops, the configuration is safe if an assert stopped it. -/
theorem safeConfig_of_error {blocks : List AppBlock} {trap : Trap}
    (built : blocks.mapM buildApplication = .error trap) : SafeConfig blocks ↔ trap = .assertion := by
  have ran := mapM_buildApplication blocks
  rw [built] at ran
  obtain ⟨i, action, here, stopped, before⟩ := runActions_error_iff.1 ran.symm
  rcases Action.run_error_iff.1 stopped with ⟨rfl, absent⟩ | ⟨rfl, rejected⟩
  · refine iff_of_false (fun safe => ?_) fun impossible => nomatch impossible
    obtain ⟨j, below, other, there, rejected⟩ := safe.strings i action here absent
    exact (Action.passes (before j below other there)).2 rejected
  · refine iff_of_true ⟨fun j other there absent => ?_, fun none_ => ?_⟩ rfl
    · refine ⟨i, ?_, action, here, rejected⟩
      rcases Nat.lt_trichotomy i j with less | same | more
      · exact less
      · subst same
        obtain rfl := Option.some.inj (here.symm.trans there)
        exact absurd rejected fun rejected => Action.not_both absent rejected
      · exact absurd absent (Action.passes (before j more other there)).1
    · exact absurd rejected (none_ action (List.mem_of_getElem? here))

/-- Where every action passes, the configuration is safe if its categories are. -/
theorem safeConfig_of_ok {blocks : List AppBlock} {apps : List ApplicationS}
    (built : blocks.mapM buildApplication = .ok apps) :
    SafeConfig blocks ↔ ∀ app ∈ apps, app.category.toNat < MAX_CATEGORY_ID := by
  have ran := mapM_buildApplication blocks
  rw [built] at ran
  have passes : ∀ action ∈ actions blocks, ¬ action.Absent ∧ ¬ action.Rejected :=
    fun action member => Action.passes (runActions_ok ran.symm action member)
  obtain ⟨-, -, categories⟩ := built_parsed built
  constructor
  · intro safe app member
    obtain ⟨block, inBlocks, category⟩ := forall₂_right categories member
    rw [category]
    exact safe.categories (fun action inside => (passes action inside).2) block inBlocks
  · refine fun inRange => ⟨fun i action here absent => ?_, fun _ block member => ?_⟩
    · exact absurd absent (passes action (List.mem_of_getElem? here)).1
    · obtain ⟨app, inApps, category⟩ := forall₂_left categories member
      rw [← category]
      exact inRange app inApps

/-- The two passes over what the parser built end, or a category is out of range. -/
theorem installAll_built (mem : Memory) {blocks : List AppBlock} {apps : List ApplicationS}
    (built : blocks.mapM buildApplication = .ok apps) :
    (∀ trap, installAll mem apps = .error trap → trap = .assertion) ↔
      ∀ app ∈ apps, app.category.toNat < MAX_CATEGORY_ID := by
  obtain ⟨-, texts, -⟩ := built_parsed built
  by_cases inRange : ∀ app ∈ apps, app.category.toNat < MAX_CATEGORY_ID
  · obtain ⟨summary, st, counted, installed, -⟩ := installApplication_total mem inRange texts
    have done : installAll mem apps = .ok (st.info, st.appList) := by
      rw [installAll, counted]
      exact installed
    refine iff_of_true (fun trap stopped => ?_) inRange
    rw [done] at stopped
    cases stopped
  · obtain ⟨app, member, large⟩ : ∃ app ∈ apps, MAX_CATEGORY_ID ≤ app.category.toNat := by
      simpa using inRange
    have stopped : installAll mem apps = .error .cateRange := by
      rw [installAll, getApplicationSummary_error ⟨app, member, large⟩]
      rfl
    exact iff_of_false (fun safe => nomatch safe _ stopped) inRange

/-- What the grammar derives is built and installed. -/
theorem installTokens_derives (mem : Memory) {tokens : List Token} {blocks : List AppBlock}
    (derived : Applications tokens blocks) :
    installTokens mem tokens = blocks.mapM buildApplication >>= installAll mem := by
  rw [installTokens, yyparse_derives derived]
  cases blocks.mapM buildApplication <;> rfl

/-- Building and installing ends or stops at an assert exactly for a safe configuration. -/
theorem safeConfig_iff (mem : Memory) (blocks : List AppBlock) :
    (∀ trap, (blocks.mapM buildApplication >>= installAll mem) = .error trap → trap = .assertion) ↔
      SafeConfig blocks := by
  cases built : blocks.mapM buildApplication with
  | error trap =>
      rw [safeConfig_of_error built]
      exact ⟨fun all => all trap rfl, fun same trap' other => by cases other; exact same⟩
  | ok apps =>
      rw [safeConfig_of_ok built]
      exact installAll_built mem built

/-- **When an accepted configuration is rejected or safe to install.** -/
theorem safe_install_iff (mem : Memory) {tokens : List Token} {blocks : List AppBlock}
    (derived : Applications tokens blocks) : SafeRun mem tokens ↔ SafeConfig blocks := by
  rw [SafeRun, installTokens_derives mem derived]
  exact safeConfig_iff mem blocks

/-- The tokens of an application with one pair and one signature. -/
def smallTokens (key value sigMatch : CStr) : List Token :=
  [.application, .lbranch] ++ [.symbol key, .value value, .comma] ++
    ([.signature, .lbranch] ++
      ([.symbol (cstr "s"), .lbranch] ++ [.symbol (cstr "sig_match"), .value sigMatch, .comma] ++ [.rbranch]) ++
      [.rbranch]) ++ [.rbranch]

theorem smallTokens_derived (key value sigMatch : CStr) : Applications (smallTokens key value sigMatch)
    [⟨[⟨key, value⟩], [⟨cstr "s", [⟨cstr "sig_match", sigMatch⟩]⟩]⟩] := by
  have pairs := LeftList.one (KeyValuePair.mk key value)
  have sigPairs := LeftList.one (KeyValuePair.mk (cstr "sig_match") sigMatch)
  have sigs := LeftList.one (AppSig.mk (cstr "s") sigPairs)
  exact LeftList.one (Application.mk pairs (AppSigNode.mk sigs))

theorem safe_install_small : SafeConfig
    [⟨[⟨cstr "appname", cstr "a"⟩], [⟨cstr "s", [⟨cstr "sig_match", cstr "http_host=a"⟩]⟩]⟩] := by
  refine (safe_install_iff clearedMemory (smallTokens_derived _ _ _)).1 fun trap stopped => ?_
  have ends : ∃ installed, installTokens clearedMemory
      (smallTokens (cstr "appname") (cstr "a") (cstr "http_host=a")) = .ok installed := ⟨_, rfl⟩
  obtain ⟨installed, done⟩ := ends
  rw [done] at stopped
  cases stopped

/-- An application without a name is neither rejected nor safe. -/
theorem missing_name_is_read : ¬ ∀ (mem : Memory) (tokens : List Token) (blocks : List AppBlock),
    Applications tokens blocks → SafeRun mem tokens := by
  intro safe
  have run := safe clearedMemory _ _ (smallTokens_derived (cstr "appid") (cstr "1") (cstr "http_host=a"))
  exact nomatch run .nullString rfl

/-! ## Whole or not at all -/

/-- The token sequence is derivable from the grammar. -/
def Derivable (tokens : List Token) : Prop := ∃ blocks, Applications tokens blocks

/-- A derivable file is installed with all its applications or stops at an assert; any
other file stops `load_sig` in the parser. -/
structure WholeOrNothing (mem : Memory) (file : CStr) : Prop where
  whole : ∀ blocks, Applications (yylex file) blocks →
    (∃ apps installed, blocks.mapM buildApplication = .ok apps ∧ installAll mem apps = .ok installed ∧
      loadSig mem file = .ok installed) ∨ loadSig mem file = .error .assertion
  nothing : ¬ Derivable (yylex file) → loadApp file = .error .assertion

/-- The actions of all blocks that end in the tokens: those of whole applications, and
those of the signatures of an application that is still open. -/
inductive Ending : List Token → List Action → Prop where
  | applications {ts : List Token} {blocks : List AppBlock} :
      LeftList? Application ts blocks → Ending ts (actions blocks)
  | signatures {us ts vs : List Token} {done : List AppBlock} {pairs : List KeyPairS} {sigs : List SigBlock} :
      LeftList? Application us done → KeyValueList ts pairs → AppSigList vs sigs →
      Ending (us ++ ([.application, .lbranch] ++ ts ++ [.signature, .lbranch] ++ vs))
        (actions done ++ sigs.map fun sig => .appSig sig.pairs)

/-- An assert fails in one of the actions, and no action before hands on an absent string. -/
def Rejects (list : List Action) : Prop :=
  ∃ (i : Nat) (action : Action), list[i]? = some action ∧ action.Rejected ∧
    ∀ j < i, ∀ before : Action, list[j]? = some before → ¬ before.Absent

/-- Some first part of the tokens ends blocks whose actions an assert stops. -/
def FailsAssert (tokens : List Token) : Prop :=
  ∃ front back list, tokens = front ++ back ∧ Ending front list ∧ Rejects list

/-- The first action that stops is one that an assert stops. -/
theorem rejects_iff {list : List Action} : Rejects list ↔ runActions list = .error .assertion := by
  constructor
  · rintro ⟨i, action, here, rejected, present⟩
    cases ran : runActions list with
    | ok _ => exact absurd rejected (Action.passes (runActions_ok ran action (List.mem_of_getElem? here))).2
    | error trap =>
        obtain ⟨j, first, there, stopped, before⟩ := runActions_error_iff.1 ran
        rcases Action.run_error_iff.1 stopped with ⟨-, absent⟩ | ⟨rfl, -⟩
        · -- an absent string would come after the assert that stops
          rcases Nat.lt_trichotomy i j with less | same | more
          · exact absurd rejected (Action.passes (before i less action here)).2
          · subst same
            obtain rfl := Option.some.inj (here.symm.trans there)
            exact (Action.not_both absent rejected).elim
          · exact absurd absent (present j more first there)
        · rfl
  · intro ran
    obtain ⟨i, action, here, stopped, before⟩ := runActions_error_iff.1 ran
    rcases Action.run_error_iff.1 stopped with ⟨impossible, -⟩ | ⟨-, rejected⟩
    · cases impossible
    · exact ⟨i, action, here, rejected, fun j below other there => (Action.passes (before j below other there)).1⟩

/-- The parser stops where the actions of the blocks that have ended do. -/
theorem yyparse_error_iff_actions {tokens : List Token} {trap : Trap} : yyparse tokens = .error trap ↔
    ∃ front back list, tokens = front ++ back ∧ Ending front list ∧ runActions list = .error trap := by
  rw [yyparse_error_iff]
  constructor
  · rintro ⟨front, back, rfl, failed⟩
    cases failed with
    | createApplication list failed =>
        refine ⟨front, back, _, rfl, .applications (Or.inr list), ?_⟩
        rw [← mapM_buildApplication, failed]
        rfl
    | appSig list ran pairs sigs failed =>
        refine ⟨_, back, _, rfl, .signatures list pairs sigs, ?_⟩
        rw [runActions_append, ← mapM_buildApplication, ← mapM_appSig, ran, failed]
        rfl
  · rintro ⟨front, back, list, rfl, ending, stopped⟩
    cases ending with
    | applications list =>
        rw [← mapM_buildApplication, map_error_iff] at stopped
        rcases list with ⟨-, rfl⟩ | list
        · cases stopped
        · exact ⟨front, back, rfl, .createApplication list stopped⟩
    | signatures list pairs sigs =>
        rename_i us ts vs done ps blocks
        rw [runActions_append, ← mapM_buildApplication, ← mapM_appSig] at stopped
        cases built : done.mapM buildApplication with
        | ok apps =>
            rw [built] at stopped
            exact ⟨_, back, rfl, .appSig list built pairs sigs (map_error_iff.1 stopped)⟩
        | error trap' =>
            -- an application before the open one stops
            rw [built] at stopped
            cases stopped
            rcases list with ⟨-, rfl⟩ | list
            · cases built
            · exact ⟨us, _, List.append_assoc .., .createApplication list built⟩

theorem failsAssert_iff {tokens : List Token} : FailsAssert tokens ↔ yyparse tokens = .error .assertion := by
  simp only [FailsAssert, rejects_iff]
  exact yyparse_error_iff_actions.symm

theorem loadApp_error_iff {file : CStr} {trap : Trap} :
    loadApp file = .error trap ↔ yyparse (yylex file) = .error trap := by
  unfold loadApp
  cases yyparse (yylex file) with
  | error trap' =>
      constructor <;> intro stopped <;> cases stopped <;> rfl
  | ok result => exact iff_of_false (fun impossible => nomatch impossible) fun impossible => nomatch impossible

theorem loadSig_eq (mem : Memory) (file : CStr) : loadSig mem file = installTokens mem (yylex file) := by
  unfold loadSig loadApp installTokens
  cases yyparse (yylex file) <;> rfl

/-- **When a configuration is loaded whole or not at all**: it is derivable and safe to
install, or an assert stops it.  The status that `loadApp` ignores says whether it is
derivable. -/
theorem whole_or_nothing_iff (mem : Memory) (file : CStr) :
    (WholeOrNothing mem file ↔
      (∃ blocks, Applications (yylex file) blocks ∧ SafeConfig blocks) ∨ FailsAssert (yylex file)) ∧
    ∀ result, yyparse (yylex file) = .ok result → (result.status = 0 ↔ Derivable (yylex file)) := by
  refine ⟨⟨fun either => ?_, ?_⟩, fun result ran => yyparse_status_iff ran⟩
  · by_cases derivable : Derivable (yylex file)
    · obtain ⟨blocks, list⟩ := derivable
      refine Or.inl ⟨blocks, list, (safeConfig_iff mem blocks).1 fun trap stopped => ?_⟩
      rw [← installTokens_derives mem list, ← loadSig_eq] at stopped
      rcases either.whole blocks list with ⟨_, _, _, _, ended⟩ | asserted
      · rw [ended] at stopped
        cases stopped
      · rw [asserted] at stopped
        cases stopped
        rfl
    · exact Or.inr (failsAssert_iff.2 (loadApp_error_iff.1 (either.nothing derivable)))
  · rintro (⟨blocks, list, safe⟩ | fails)
    · have stops := (safeConfig_iff mem blocks).2 safe
      rw [← installTokens_derives mem list, ← loadSig_eq] at stops
      refine ⟨fun blocks' list' => ?_, fun underivable => absurd ⟨blocks, list⟩ underivable⟩
      have ran := loadSig_eq mem file
      rw [installTokens_derives mem list'] at ran
      cases ended : loadSig mem file with
      | error trap =>
          obtain rfl := stops trap ended
          exact Or.inr rfl
      | ok installed =>
          rw [ended] at ran
          obtain ⟨apps, built, done⟩ := bind_ok ran.symm
          exact Or.inl ⟨apps, installed, built, done, rfl⟩
    · have stopped := loadApp_error_iff.2 (failsAssert_iff.1 fails)
      refine ⟨fun _ _ => Or.inr ?_, fun _ => stopped⟩
      rw [loadSig, stopped]
      rfl

/-- A file with one application is loaded whole. -/
theorem whole_small : WholeOrNothing clearedMemory
    (cstr "application \x7b appname a; sign \x7b s \x7b sig_match http_host=a; \x7d \x7d \x7d") := by
  have tokens : yylex (cstr "application \x7b appname a; sign \x7b s \x7b sig_match http_host=a; \x7d \x7d \x7d") =
      smallTokens (cstr "appname") (cstr "a") (cstr "http_host=a") := rfl
  refine (whole_or_nothing_iff clearedMemory _).1.2 (Or.inl ⟨_, tokens ▸ smallTokens_derived _ _ _, ?_⟩)
  refine (safeConfig_iff clearedMemory _).1 fun trap stopped => ?_
  have ends : ∃ installed, (List.mapM buildApplication
      [⟨[⟨cstr "appname", cstr "a"⟩], [⟨cstr "s", [⟨cstr "sig_match", cstr "http_host=a"⟩]⟩]⟩] >>=
        installAll clearedMemory) = .ok installed := ⟨_, rfl⟩
  obtain ⟨installed, done⟩ := ends
  rw [done] at stopped
  cases stopped

/-- A file with one complete application and a closing brace too many. -/
def trailingBrace : CStr := cstr "application \x7b appname a; sign \x7b s \x7b sig_match k=v; \x7d \x7d \x7d \x7d"

theorem trailingBrace_parse : ∃ app, yyparse (yylex trailingBrace) = .ok ⟨1, some [app]⟩ := ⟨_, rfl⟩

/-- The list in front of the error is kept. -/
theorem partial_list_is_loaded : ¬ ∀ (mem : Memory) (file : CStr), WholeOrNothing mem file := by
  intro either
  obtain ⟨app, parsed⟩ := trailingBrace_parse
  have underivable : ¬ Derivable (yylex trailingBrace) := by
    intro derivable
    cases (yyparse_status_iff parsed).2 derivable
  have stops := (either clearedMemory trailingBrace).nothing underivable
  rw [loadApp_error_iff, parsed] at stops
  cases stops

end Orchid
