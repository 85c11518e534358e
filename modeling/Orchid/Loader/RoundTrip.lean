/-
# Loader.RoundTrip -- a written configuration is loaded as it was meant

`AppConf` is an application as its author means it: numbers, words and items that the
format can hold.  `ConfText` is how a list of them is written in the layout of
`sig.conf`, with numbers in any base, pairs in any order, and blanks and comment lines
between them.

Every such text lexes as tokens of the grammar, and the actions build the meant record
from each of its blocks (`load_written`).  There is such a text for every list of
applications (`exists_written`).
-/
import Orchid.Loader.Items
import Orchid.Loader.SigParser
import Orchid.Loader.Written
import Mathlib.Data.Nat.Digits.Lemmas

namespace Orchid

open Orchid.Theory

set_option autoImplicit false

/-! ## What is written -/

/-- One `key=value` of a `sig_match`. -/
structure ItemConf where
  key : CStr
  value : CStr
  nonempty : key ≠ []
  notEquals : 61 ∉ key
  keyFree : delims ∉ key
  valueFree : delims ∉ value

def ItemConf.text (item : ItemConf) : CStr := item.key ++ 61 :: item.value

/-- The key says where the text is looked for. -/
def ItemConf.element (item : ItemConf) : ElementS := ⟨getElementIdFromSig item.key, item.value⟩

inductive ProtoConf where
  | udp
  | tcp
  | http
  deriving DecidableEq, Repr

def ProtoConf.text : ProtoConf → CStr
  | .udp => cstr "UDP"
  | .tcp => cstr "TCP"
  | .http => cstr "HTTP"

def ProtoConf.value : ProtoConf → Uint
  | .udp => PROTOCOL_UDP
  | .tcp => PROTOCOL_TCP
  | .http => PROTOCOL_HTTP

inductive TypeConf where
  | acSingle
  | acMulti
  | regex
  deriving DecidableEq, Repr

def TypeConf.text : TypeConf → CStr
  | .acSingle => cstr "AC_SINGLE"
  | .acMulti => cstr "AC_MULTI"
  | .regex => cstr "REGEX"

def TypeConf.value : TypeConf → Uint
  | .acSingle => SIG_SINGLE
  | .acMulti => SIG_MULTI
  | .regex => SIG_REGEX

/-- The text of a `sig_match`. -/
def joinItems (items : List ItemConf) : CStr := List.intercalate [delims] (items.map ItemConf.text)

structure SigConf where
  name : CStr
  id : Nat
  proto : ProtoConf
  type : TypeConf
  enable : Nat
  priority : Nat
  dir : Nat
  items : List ItemConf
  named : Name name
  small : id < 2 ^ 31 ∧ enable < 2 ^ 31 ∧ priority < 2 ^ 31 ∧ dir < 2 ^ 31
  nonempty : items ≠ []
  single : type = .acSingle → items.length = 1
  word : Word (joinItems items)
  short : (joinItems items).length < MAX_SIG_LENGTH

structure AppConf where
  id : Nat
  category : Nat
  name : CStr
  sigs : List SigConf
  small : id < 2 ^ 31 ∧ category < 2 ^ 31
  word : Word name
  short : name.length < MAX_APP_LENGTH
  nonempty : sigs ≠ []

/-- The record of a signature.  Its name is not kept. -/
def SigConf.record (sig : SigConf) : SigS where
  id := BitVec.ofNat 32 sig.id
  proto := sig.proto.value
  type := sig.type.value
  enable := BitVec.ofNat 32 sig.enable
  priority := BitVec.ofNat 32 sig.priority
  dir := BitVec.ofNat 32 sig.dir
  matchStr := joinItems sig.items
  eleNum := BitVec.ofNat 32 sig.items.length
  elements := sig.items.map ItemConf.element

def AppConf.record (app : AppConf) : ApplicationS where
  id := BitVec.ofNat 32 app.id
  category := BitVec.ofNat 32 app.category
  name := app.name
  sigs := app.sigs.map SigConf.record

/-! ## How it is written -/

/-- The pairs of a signature, with its numbers as numerals. -/
inductive SigPairs (sig : SigConf) : List KeyPairS → Prop where
  | mk {id enable priority dir : CStr} : Numeral id sig.id → Numeral enable sig.enable →
      Numeral priority sig.priority → Numeral dir sig.dir →
      SigPairs sig [⟨cstr "sig_id", id⟩, ⟨cstr "sig_proto", sig.proto.text⟩, ⟨cstr "sig_type", sig.type.text⟩,
        ⟨cstr "sig_enable", enable⟩, ⟨cstr "sig_priority", priority⟩, ⟨cstr "sig_dir", dir⟩,
        ⟨cstr "sig_match", joinItems sig.items⟩]

inductive AppPairs (app : AppConf) : List KeyPairS → Prop where
  | mk {id category : CStr} : Numeral id app.id → Numeral category app.category →
      AppPairs app [⟨cstr "appid", id⟩, ⟨cstr "appname", app.name⟩, ⟨cstr "category", category⟩]

inductive SigText : CStr → SigConf → Prop where
  | mk {sig : SigConf} {pairs : List KeyPairS} {front inside back : CStr} :
      OpenText sig.name front → SigPairs sig pairs → PairsText inside pairs → CloseText back →
      SigText (front ++ (inside ++ back)) sig

inductive AppText : CStr → AppConf → Prop where
  | mk {app : AppConf} {pairs : List KeyPairS} {front inside node back close : CStr} {sigs : List CStr} :
      OpenText (cstr "application") front → AppPairs app pairs → PairsText inside pairs →
      OpenText (cstr "sign") node → List.Forall₂ SigText sigs app.sigs → CloseText back → CloseText close →
      AppText (front ++ (inside ++ (node ++ (sigs.flatten ++ (back ++ close))))) app

/-- A configuration file. -/
def ConfText (text : CStr) (apps : List AppConf) : Prop :=
  ∃ gap texts, Gap gap ∧ List.Forall₂ AppText texts apps ∧ text = gap ++ texts.flatten

/-- A pair with one blank at each place. -/
def plainText (pair : KeyPairS) : CStr := pair.key ++ ([32] ++ (pair.value ++ [59, 32]))

theorem plainText_written (pairs : List KeyPairS) : List.Forall₂ PairText (pairs.map plainText) pairs := by
  rw [List.forall₂_map_left_iff, List.forall₂_same]
  exact fun pair _ => @PairText.mk pair.key [32] pair.value [] 32 (by decide) (by simp) (by decide) Gap.nil

/-! ## Items -/

theorem getKeyFromSig_item {key : CStr} (value : CStr) (nonempty : key ≠ []) (notEquals : 61 ∉ key) :
    getKeyFromSig (key ++ 61 :: value) = some value := by
  induction key with
  | nil => exact absurd rfl nonempty
  | cons b key ih =>
      cases key with
      | nil => rfl
      | cons c key =>
          have differs : c ≠ 61 := by
            rintro rfl
            exact notEquals (List.mem_cons_of_mem _ (List.mem_cons_self ..))
          rw [List.cons_append, List.cons_append, getKeyFromSig, if_neg differs]
          exact ih (List.cons_ne_nil _ _) fun inside => notEquals (List.mem_cons_of_mem _ inside)

/-- A prefix without `=` ends before the first one. -/
theorem prefix_item {front key value : CStr} (free : 61 ∉ front) : front <+: key ++ 61 :: value ↔ front <+: key := by
  constructor
  · intro begins
    have whole : key ++ [61] <+: key ++ 61 :: value := ⟨value, by simp⟩
    rcases List.prefix_or_prefix_of_prefix begins whole with short | long
    · rcases List.prefix_concat_iff.1 short with rfl | inside
      · exact absurd (List.mem_append_right _ (List.mem_singleton_self _)) free
      · exact inside
    · exact absurd (long.subset (List.mem_append_right _ (List.mem_singleton_self _))) free
  · exact fun begins => begins.trans (List.prefix_append ..)

theorem getElementIdFromSig_item (key value : CStr) :
    getElementIdFromSig (key ++ 61 :: value) = getElementIdFromSig key := by
  have host : 61 ∉ cstr "http_host" := by decide
  have ua : 61 ∉ cstr "http_ua" := by decide
  have re : 61 ∉ cstr "http_re" := by decide
  have url : 61 ∉ cstr "http_url" := by decide
  unfold getElementIdFromSig
  simp only [prefix_item host, prefix_item ua, prefix_item re, prefix_item url]

theorem splitElements_items {type : Uint} {items : List ItemConf} (single : type = SIG_SINGLE → items.length ≤ 1) :
    splitElements type (items.map ItemConf.text) = .ok (items.map ItemConf.element) := by
  induction items with
  | nil => rfl
  | cons item items ih =>
      have key : getKeyFromSig item.text = some item.value :=
        getKeyFromSig_item item.value item.nonempty item.notEquals
      have alone : ¬ (type = SIG_SINGLE ∧ items.map ItemConf.text ≠ []) := by
        rintro ⟨same, more⟩
        have length := single same
        rw [List.length_cons] at length
        exact more (List.map_eq_nil_iff.2 (List.length_eq_zero_iff.1 (by omega)))
      have tail := ih fun same => by
        have length := single same
        rw [List.length_cons] at length
        omega
      rw [List.map_cons, splitElements, key]
      dsimp only
      rw [if_neg alone, tail, List.map_cons, ItemConf.element, ← getElementIdFromSig_item item.key item.value]
      rfl

theorem items_joinItems (list : List ItemConf) : items (joinItems list) = list.map ItemConf.text := by
  refine items_join (fun text inside => ?_) (fun text inside => ?_)
  · obtain ⟨item, -, rfl⟩ := List.mem_map.1 inside
    exact List.append_ne_nil_of_right_ne_nil _ (List.cons_ne_nil _ _)
  · obtain ⟨item, -, rfl⟩ := List.mem_map.1 inside
    intro among
    rcases List.mem_append.1 among with among | among
    · exact item.keyFree among
    · rcases List.mem_cons.1 among with impossible | among
      · exact absurd impossible (by decide)
      · exact item.valueFree among

/-! ## Lookups -/

theorem valueFromKey_perm {order pairs : List KeyPairS} (perm : order.Perm pairs)
    (keys : (pairs.map KeyPairS.key).Nodup) {key value : CStr} (inside : (⟨key, value⟩ : KeyPairS) ∈ pairs) :
    valueFromKey order key = some value :=
  valueFromKey_eq ((perm.map KeyPairS.key).nodup_iff.2 keys) (perm.mem_iff.2 inside)

theorem getIntValueFromKey_numeral {pairs : List KeyPairS} {key text : CStr} {n : Nat}
    (found : valueFromKey pairs key = some text) (written : Numeral text n) (small : n < 2 ^ 31) :
    getIntValueFromKey pairs key = BitVec.ofNat 32 n := by
  rw [getIntValueFromKey, found]
  show BitVec.ofInt 32 (strtol text) = _
  rw [strtol_numeral written small]
  exact BitVec.ofInt_natCast 32 n

/-! ## Actions -/

theorem protoToValue_text (proto : ProtoConf) : protoToValue proto.text = proto.value := by
  cases proto <;> decide

theorem matchTypeToValue_text (type : TypeConf) : matchTypeToValue type.text = type.value := by
  cases type <;> decide

/-- **The action of `app_sig`** on the pairs of a signature, in any order. -/
theorem appSig_record {sig : SigConf} {pairs order : List KeyPairS} (written : SigPairs sig pairs)
    (perm : order.Perm pairs) : appSig order = .ok sig.record := by
  obtain ⟨id, enable, priority, dir⟩ := written
  have keys : ([cstr "sig_id", cstr "sig_proto", cstr "sig_type", cstr "sig_enable", cstr "sig_priority",
      cstr "sig_dir", cstr "sig_match"] : List CStr).Nodup := by decide
  have found := @valueFromKey_perm order _ perm keys
  have match_ : getStrValueFromKey order (cstr "sig_match") = some (joinItems sig.items) := found (by simp)
  have type : getMatchTypeValue order = sig.type.value := by
    have here : valueFromKey order (cstr "sig_type") = some sig.type.text := found (by simp)
    rw [getMatchTypeValue, here]
    exact matchTypeToValue_text sig.type
  have proto : getSigProtoValue order = sig.proto.value := by
    have here : valueFromKey order (cstr "sig_proto") = some sig.proto.text := found (by simp)
    rw [getSigProtoValue, here]
    exact protoToValue_text sig.proto
  have single : sig.type.value = SIG_SINGLE → sig.items.length ≤ 1 := by
    intro same
    refine Nat.le_of_eq (sig.single ?_)
    cases type : sig.type with
    | acSingle => rfl
    | acMulti => rw [type] at same; exact absurd same (by decide)
    | regex => rw [type] at same; exact absurd same (by decide)
  have split_ : parseHttpSigInto_ [] (joinItems sig.items) sig.type.value =
      .ok (sig.items.map ItemConf.element, sig.items.length) := by
    rw [parseHttpSigInto_eq, parseHttpSig_eq sig.short, items_joinItems, splitElements_items single]
    show Except.ok (_, (sig.items.map ItemConf.element).length) = _
    rw [List.length_map, List.nil_append]
  unfold appSig
  rw [match_, type, proto, getIntValueFromKey_numeral (found (by simp)) id sig.small.1,
    getIntValueFromKey_numeral (found (by simp)) enable sig.small.2.1,
    getIntValueFromKey_numeral (found (by simp)) priority sig.small.2.2.1,
    getIntValueFromKey_numeral (found (by simp)) dir sig.small.2.2.2]
  simp only [if_neg (Nat.not_le.2 sig.short), split_]
  rfl

theorem createApplication_record {app : AppConf} {pairs order : List KeyPairS} (written : AppPairs app pairs)
    (perm : order.Perm pairs) : createApplication order (app.sigs.map SigConf.record) = .ok app.record := by
  obtain ⟨id, category⟩ := written
  have keys : ([cstr "appid", cstr "appname", cstr "category"] : List CStr).Nodup := by decide
  have found := @valueFromKey_perm order _ perm keys
  have name : getStrValueFromKey order (cstr "appname") = some app.name := found (by simp)
  unfold createApplication
  rw [name, getIntValueFromKey_numeral (found (by simp)) id app.small.1,
    getIntValueFromKey_numeral (found (by simp)) category app.small.2]
  simp only [if_neg (Nat.not_le.2 app.short)]
  rfl

/-! ## Texts, tokens and blocks -/

/-- A list of texts, each of which is read as tokens that derive a block with some
property. -/
theorem texts_lexed {β γ : Type} {Text : CStr → β → Prop} {Derives : List Token → γ → Prop}
    {Built : β → γ → Prop}
    (each : ∀ text value, Text text value →
      ∃ tokens block, Lexes text tokens ∧ Derives tokens block ∧ Built value block)
    {texts : List CStr} {values : List β} (written : List.Forall₂ Text texts values) (nonempty : values ≠ []) :
    ∃ tokens blocks, Lexes texts.flatten tokens ∧ LeftList Derives tokens blocks ∧
      List.Forall₂ Built values blocks := by
  have all : ∃ (words : List (List Token)) (blocks : List γ), List.Forall₂ Lexes texts words ∧
      List.Forall₂ Derives words blocks ∧ List.Forall₂ Built values blocks := by
    clear nonempty
    induction written with
    | nil => exact ⟨[], [], List.Forall₂.nil, List.Forall₂.nil, List.Forall₂.nil⟩
    | cons first _ ih =>
        obtain ⟨tokens, block, lexed, derived, built⟩ := each _ _ first
        obtain ⟨words, blocks, lexed', derived', built'⟩ := ih
        exact ⟨tokens :: words, block :: blocks, lexed'.cons lexed, derived'.cons derived, built'.cons built⟩
  obtain ⟨words, blocks, lexed, derived, built⟩ := all
  refine ⟨words.flatten, blocks, Reads.flatten lexed, leftList_flatten derived ?_, built⟩
  rintro rfl
  cases built
  exact nonempty rfl

/-- **The pairs of a block.** -/
theorem PairsText.lexed {text : CStr} {pairs : List KeyPairS} (written : PairsText text pairs) (inhabited : pairs ≠ [])
    (words : ∀ pair ∈ pairs, Name pair.key ∧ Word pair.value) :
    ∃ tokens order, Lexes text tokens ∧ KeyValueList tokens order ∧ order.Perm pairs := by
  obtain ⟨texts, order, rfl, each, perm⟩ := written
  have worded : List.Forall₂ (fun text pair => PairText text pair ∧ Name pair.key ∧ Word pair.value) texts order := by
    refine List.forall₂_iff_get.2 ⟨each.length_eq, fun i below below' => ?_⟩
    exact ⟨each.get below below', words _ (perm.mem_iff.1 (List.get_mem ..))⟩
  have nonempty : order ≠ [] := by
    rintro rfl
    exact inhabited perm.symm.eq_nil
  obtain ⟨tokens, blocks, lexed, derived, same⟩ := @texts_lexed _ _ _ KeyValuePair (· = ·)
    (fun text pair both => ⟨_, pair, both.1.lexes both.2.1 both.2.2, KeyValuePair.mk _ _, rfl⟩)
    _ _ worded nonempty
  obtain rfl := List.forall₂_eq_eq_eq ▸ same
  exact ⟨tokens, order, lexed, derived, perm⟩

theorem SigPairs.words {sig : SigConf} {pairs : List KeyPairS} (written : SigPairs sig pairs) :
    ∀ pair ∈ pairs, Name pair.key ∧ Word pair.value := by
  obtain ⟨id, enable, priority, dir⟩ := written
  have proto : Word sig.proto.text := by cases sig.proto <;> decide
  have type : Word sig.type.text := by cases sig.type <;> decide
  simp only [List.forall_mem_cons]
  exact ⟨⟨by decide, id.word⟩, ⟨by decide, proto⟩, ⟨by decide, type⟩, ⟨by decide, enable.word⟩,
    ⟨by decide, priority.word⟩, ⟨by decide, dir.word⟩, ⟨by decide, sig.word⟩,
    fun _ impossible => nomatch impossible⟩

theorem AppPairs.words {app : AppConf} {pairs : List KeyPairS} (written : AppPairs app pairs) :
    ∀ pair ∈ pairs, Name pair.key ∧ Word pair.value := by
  obtain ⟨id, category⟩ := written
  simp only [List.forall_mem_cons]
  exact ⟨⟨by decide, id.word⟩, ⟨by decide, app.word⟩, ⟨by decide, category.word⟩,
    fun _ impossible => nomatch impossible⟩

/-- **The block of a signature.** -/
theorem SigText.lexed {text : CStr} {sig : SigConf} (written : SigText text sig) :
    ∃ tokens block, Lexes text tokens ∧ AppSig tokens block ∧ appSig block.pairs = .ok sig.record := by
  obtain ⟨front, pairs, inside, back⟩ := written
  obtain ⟨tokens, order, lexed, list, perm⟩ := inside.lexed (by cases pairs; exact List.cons_ne_nil _ _) pairs.words
  have opened := front.lexes sig.named.toWord sig.named.notComma
  rw [sig.named.symbolToken] at opened
  have derived : AppSig ([.symbol sig.name, .lbranch] ++ (tokens ++ [.rbranch])) ⟨sig.name, order⟩ := by
    rw [← List.append_assoc]
    exact AppSig.mk sig.name list
  exact ⟨_, _, opened.append (lexed.append back.lexes), derived, appSig_record pairs perm⟩

/-- **The block of an application.** -/
theorem AppText.lexed {text : CStr} {app : AppConf} (written : AppText text app) :
    ∃ tokens block, Lexes text tokens ∧ Application tokens block ∧ buildApplication block = .ok app.record := by
  obtain ⟨front, pairs, inside, node, sigs, back, close⟩ := written
  obtain ⟨ts, order, lexed, list, perm⟩ := inside.lexed (by cases pairs; exact List.cons_ne_nil _ _) pairs.words
  obtain ⟨us, blocks, lexedSigs, sigList, built⟩ := texts_lexed (fun _ _ sig => SigText.lexed sig) sigs app.nonempty
  have opened := front.lexes (by decide) (by decide)
  have openedNode := node.lexes (by decide) (by decide)
  have whole := opened.append (lexed.append (openedNode.append (lexedSigs.append (back.lexes.append close.lexes))))
  have derived : Application ([.application, .lbranch] ++ (ts ++ ([.signature, .lbranch] ++
      (us ++ ([.rbranch] ++ [.rbranch]))))) ⟨order, blocks⟩ := by
    have block := Application.mk list (AppSigNode.mk sigList)
    simpa only [List.append_assoc] using block
  have ran : (blocks.mapM fun sig => appSig sig.pairs) = .ok (app.sigs.map SigConf.record) :=
    mapM_ok_iff.2 (List.forall₂_map_right_iff.2 built.flip)
  refine ⟨_, ⟨order, blocks⟩, whole, derived, ?_⟩
  rw [buildApplication, ran]
  exact createApplication_record pairs perm

/-- **Loading undoes writing.** -/
theorem load_written {apps : List AppConf} {text : CStr} (nonempty : apps ≠ []) (written : ConfText text apps) :
    yyparse (yylex text) = .ok ⟨0, some (apps.map AppConf.record)⟩ := by
  obtain ⟨gap, texts, blanks, each, rfl⟩ := written
  obtain ⟨tokens, blocks, lexed, list, built⟩ := texts_lexed (fun _ _ app => AppText.lexed app) each nonempty
  have ran : blocks.mapM buildApplication = .ok (apps.map AppConf.record) :=
    mapM_ok_iff.2 (List.forall₂_map_right_iff.2 built.flip)
  have all : yylex (gap ++ texts.flatten) = tokens := (blanks.lexes.append lexed).all
  rw [all, yyparse_derives list, ran]
  rfl

def smallItems : List ItemConf :=
  [⟨cstr "http_host", cstr "a", by decide, by decide, by decide, by decide⟩,
    ⟨cstr "http_ua", cstr "b=c", by decide, by decide, by decide, by decide⟩]

def smallSig : SigConf where
  name := cstr "qq"
  id := 5
  proto := .http
  type := .acMulti
  enable := 1
  priority := 0
  dir := 0
  items := smallItems
  named := by decide
  small := by decide
  nonempty := by decide
  single := by decide
  word := by decide
  short := by decide

def smallConf : AppConf where
  id := 3
  category := 2
  name := cstr "QQ"
  sigs := [smallSig]
  small := by decide
  word := by decide
  short := by decide
  nonempty := by decide

/-- Pairs out of order and a comment. -/
def smallSigText : CStr :=
  cstr "qq \x7b sig_match " ++ cstr "http_host=a&http_ua=b=c; " ++ cstr "# two items\n" ++ cstr "sig_id 5; " ++
    cstr "sig_proto HTTP; " ++ cstr "sig_type AC_MULTI; " ++ cstr "sig_enable 1; " ++ cstr "sig_priority 0; " ++
    cstr "sig_dir 0; \x7d"

def smallText : CStr :=
  cstr "application \x7b " ++ cstr "appname QQ; " ++ cstr "category 2; " ++ cstr "appid 0x3; " ++ cstr "sign \x7b " ++
    smallSigText ++ cstr "\x7d\x7d"

theorem smallSig_written : SigText smallSigText smallSig := by
  have space : Gap [32] := Gap.blank (by decide) Gap.nil
  have five : Numeral (cstr "5") 5 := @numeral_digits [5] 5 (by decide) (by decide) (by decide) rfl
  have one : Numeral (cstr "1") 1 := @numeral_digits [1] 1 (by decide) (by decide) (by decide) rfl
  have commented : PairText (cstr "sig_match " ++ cstr "http_host=a&http_ua=b=c; " ++ cstr "# two items\n")
      ⟨cstr "sig_match", joinItems smallItems⟩ :=
    @PairText.mk (cstr "sig_match") [32] (joinItems smallItems) (cstr "# two items\n") 32 (by decide) (by simp)
      (by decide) (@Gap.comment (cstr " two items") [] (by decide) Gap.nil)
  have inside := @List.Forall₂.cons _ _ PairText _ _ _ _ commented
    (plainText_written [⟨cstr "sig_id", cstr "5"⟩, ⟨cstr "sig_proto", cstr "HTTP"⟩,
      ⟨cstr "sig_type", cstr "AC_MULTI"⟩, ⟨cstr "sig_enable", cstr "1"⟩, ⟨cstr "sig_priority", [48]⟩,
      ⟨cstr "sig_dir", [48]⟩])
  have written := @SigText.mk smallSig _ _ _ _ (OpenText.mk space (by decide) space)
    (SigPairs.mk five one numeral_zero numeral_zero)
    ⟨_, _, rfl, inside, (List.perm_append_singleton _ _).symm⟩ (CloseText.mk Gap.nil)
  refine Eq.mp (congrArg (SigText · smallSig) ?_) written
  decide +kernel

theorem smallText_written : ConfText smallText [smallConf] := by
  have space : Gap [32] := Gap.blank (by decide) Gap.nil
  have three : Numeral (cstr "0x3") 3 := Numeral.hex (Or.inl rfl) (by decide) ⟨[3], rfl, by decide, rfl⟩
  have two : Numeral (cstr "2") 2 := @numeral_digits [2] 2 (by decide) (by decide) (by decide) rfl
  have inside := plainText_written [⟨cstr "appname", cstr "QQ"⟩, ⟨cstr "category", cstr "2"⟩,
    ⟨cstr "appid", cstr "0x3"⟩]
  have app := @AppText.mk smallConf _ _ _ _ _ _ _ (OpenText.mk space (by decide) space) (AppPairs.mk three two)
    ⟨_, _, rfl, inside, List.perm_append_singleton _ [_, _]⟩ (OpenText.mk space (by decide) space)
    (List.Forall₂.cons smallSig_written List.Forall₂.nil) (CloseText.mk Gap.nil) (CloseText.mk Gap.nil)
  refine ⟨[], _, Gap.nil, List.Forall₂.cons app List.Forall₂.nil, ?_⟩
  decide +kernel

theorem load_written_small : yyparse (yylex smallText) = .ok ⟨0, some [smallConf.record]⟩ :=
  load_written (List.cons_ne_nil _ _) smallText_written

/-! ## Every configuration can be written -/

theorem exists_numeral (n : Nat) : ∃ text, Numeral text n := by
  by_cases zero : n = 0
  · exact ⟨[48], zero ▸ numeral_zero⟩
  · have nonempty : (Nat.digits 10 n).reverse ≠ [] :=
      fun none_ => Nat.digits_ne_nil_iff_ne_zero.2 zero (List.reverse_eq_nil_iff.1 none_)
    refine ⟨_, @numeral_digits (Nat.digits 10 n).reverse n nonempty (fun d inside => ?_) ?_ ?_⟩
    · exact Nat.digits_lt_base (by decide) (List.mem_reverse.1 inside)
    · rw [List.head_reverse]
      exact Nat.getLast_digit_ne_zero 10 zero
    · rw [List.reverse_reverse, Nat.ofDigits_digits]

theorem exists_texts {β : Type} {Text : CStr → β → Prop} {values : List β}
    (each : ∀ value ∈ values, ∃ text, Text text value) : ∃ texts, List.Forall₂ Text texts values := by
  induction values with
  | nil => exact ⟨[], List.Forall₂.nil⟩
  | cons value values ih =>
      obtain ⟨text, written⟩ := each value (List.mem_cons_self ..)
      obtain ⟨texts, writtens⟩ := ih fun other inside => each other (List.mem_cons_of_mem _ inside)
      exact ⟨text :: texts, writtens.cons written⟩

theorem exists_openText (name : CStr) : ∃ text, OpenText name text :=
  ⟨_, OpenText.mk Gap.nil (by decide) Gap.nil⟩

theorem exists_pairsText (pairs : List KeyPairS) : ∃ text, PairsText text pairs :=
  ⟨_, pairs.map plainText, pairs, rfl, plainText_written pairs, List.Perm.refl _⟩

theorem exists_sigText (sig : SigConf) : ∃ text, SigText text sig := by
  obtain ⟨id, idText⟩ := exists_numeral sig.id
  obtain ⟨enable, enableText⟩ := exists_numeral sig.enable
  obtain ⟨priority, priorityText⟩ := exists_numeral sig.priority
  obtain ⟨dir, dirText⟩ := exists_numeral sig.dir
  obtain ⟨front, opened⟩ := exists_openText sig.name
  obtain ⟨inside, pairs⟩ := exists_pairsText _
  exact ⟨_, SigText.mk opened (SigPairs.mk idText enableText priorityText dirText) pairs (CloseText.mk Gap.nil)⟩

theorem exists_appText (app : AppConf) : ∃ text, AppText text app := by
  obtain ⟨id, idText⟩ := exists_numeral app.id
  obtain ⟨category, categoryText⟩ := exists_numeral app.category
  obtain ⟨front, opened⟩ := exists_openText (cstr "application")
  obtain ⟨inside, pairs⟩ := exists_pairsText _
  obtain ⟨node, openedNode⟩ := exists_openText (cstr "sign")
  obtain ⟨sigs, written⟩ := exists_texts fun sig (_ : sig ∈ app.sigs) => exists_sigText sig
  exact ⟨_, AppText.mk opened (AppPairs.mk idText categoryText) pairs openedNode written (CloseText.mk Gap.nil)
    (CloseText.mk Gap.nil)⟩

/-- So what `load_written` says of a configuration is said of some text. -/
theorem exists_written (apps : List AppConf) : ∃ text, ConfText text apps := by
  obtain ⟨texts, written⟩ := exists_texts fun app (_ : app ∈ apps) => exists_appText app
  exact ⟨_, [], texts, Gap.nil, written, rfl⟩

end Orchid
