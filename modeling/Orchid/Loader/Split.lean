/-
# Loader.Split -- the two splitters produce the same items

`parse_http_sig_` and `parse_http_sig` have the same loop over `strtok` tokens
(`tokenLoop`) and differ in what they make of a token.  The rounds always suffice, so
both walk along the items of the text (`parseHttpSig_items_`, `parseHttpSig_items`).

They take the element id and the text of an item in the same way, so the pattern
entries of the regex engine run parallel to the parsed elements: entry for element,
same text, the element id above the signature's own id (`parseApplication_ok`).
-/
import Orchid.Loader.Layout

namespace Orchid

open Orchid.Theory

set_option autoImplicit false

/-! ## Lists in step -/

theorem forall₂_right {α β : Type} {R : α → β → Prop} {xs : List α} {ys : List β}
    (related : List.Forall₂ R xs ys) {y : β} (member : y ∈ ys) : ∃ x ∈ xs, R x y := by
  induction related with
  | nil => cases member
  | cons head tail ih =>
      rcases List.mem_cons.1 member with rfl | later
      · exact ⟨_, List.mem_cons_self .., head⟩
      · obtain ⟨x, inside, relates⟩ := ih later
        exact ⟨x, List.mem_cons_of_mem _ inside, relates⟩

theorem forall₂_left {α β : Type} {R : α → β → Prop} {xs : List α} {ys : List β}
    (related : List.Forall₂ R xs ys) {x : α} (member : x ∈ xs) : ∃ y ∈ ys, R x y :=
  forall₂_right related.flip member

theorem forall₂_join {α β γ : Type} {R : α → β → Prop} {S : α → γ → Prop} {T : β → γ → Prop} {xs : List α}
    {ys : List β} {zs : List γ} (first : List.Forall₂ R xs ys) (second : List.Forall₂ S xs zs)
    (join : ∀ x y z, R x y → S x z → T y z) : List.Forall₂ T ys zs := by
  induction first generalizing zs with
  | nil =>
      cases second
      exact List.Forall₂.nil
  | cons head _ ih =>
      cases second with
      | cons head' tail' => exact List.Forall₂.cons (join _ _ _ head head') (ih tail')

/-! ## Tokens -/

/-- The tokens a walk from a `strtok` result visits in at most `n` rounds. -/
def tokensFrom : Nat → Option (CStr × CStr) → List CStr
  | _, none => []
  | 0, some _ => []
  | n + 1, some (result, saved) => result :: tokensFrom n (strtok delims saved)

/-- The items of a `sig_match` value. -/
def items (sig : CStr) : List CStr := tokensFrom (sig.length + 1) (strtok delims sig)

/-- The element of an item. -/
def ItemElement (item : CStr) (e : ElementS) : Prop :=
  e.id = getElementIdFromSig item ∧ getKeyFromSig item = some e.matchStr

/-- The pattern entry of an item of the signature `sigIndex`. -/
def ItemPattern (sigIndex : Uint) (item : CStr) (app : AppEntryT) : Prop :=
  app.appId = httpSigId (getElementIdFromSig item) sigIndex ∧ getKeyFromSig item = some app.regex

/-- The pattern entry of an element of the signature `sigIndex`. -/
def ElementPattern (sigIndex : Uint) (e : ElementS) (app : AppEntryT) : Prop :=
  app.appId = httpSigId e.id sigIndex ∧ app.regex = e.matchStr

theorem ElementPattern.of_item (sigIndex : Uint) (item : CStr) (e : ElementS) (app : AppEntryT)
    (element : ItemElement item e) (pattern : ItemPattern sigIndex item app) : ElementPattern sigIndex e app :=
  ⟨by rw [pattern.1, element.1], Option.some.inj (pattern.2.symm.trans element.2)⟩

theorem getElementIdFromSig_lt (item : CStr) : (getElementIdFromSig item).toNat < 5 := by
  have small : ∀ key ∈ elementKeys, key.2.toNat < 5 := by decide
  rcases getElementIdFromSig_eq_iff.1 (rfl : getElementIdFromSig item = _) with ⟨key, member, -, same⟩ | ⟨-, zero⟩
  · rw [← same]
    exact small key member
  · rw [zero]
    decide

theorem strtok_some {delim : UInt8} {s result saved : CStr} (found : strtok delim s = some (result, saved)) :
    result.length ≤ s.length ∧ saved.length < s.length := by
  unfold strtok at found
  cases skipped : s.dropWhile (· == delim) with
  | nil =>
      rw [skipped] at found
      cases found
  | cons c rest =>
      rw [skipped] at found
      cases found
      have notDelim : (c != delim) = true := by
        have head := List.head?_dropWhile_not (· == delim) s
        rw [skipped] at head
        simpa using head
      have bound : (c :: rest).length ≤ s.length := skipped ▸ (List.dropWhile_suffix _).length_le
      have parts := congrArg List.length (@List.takeWhile_append_dropWhile _ (· != delim) (c :: rest))
      rw [List.length_append] at parts
      have nonempty : 0 < ((c :: rest).takeWhile (· != delim)).length := by
        rw [List.takeWhile_cons, if_pos notDelim]
        exact Nat.succ_pos _
      rw [List.length_drop]
      exact ⟨by omega, by omega⟩

/-- The loop of both splitters: `push` works off one token. -/
def tokenLoop {σ : Type} (type : Uint) (push : σ → CStr → Except Trap σ) :
    Nat → Option (CStr × CStr) → σ → Except Trap σ
  | _, none, st => .ok st
  | 0, some _, _ => .error .fuel
  | n + 1, some (result, saved), st => do
      let st ← push st result
      let result := strtok delims saved
      if type = SIG_SINGLE ∧ result.isSome then throw .assertion
      tokenLoop type push n result st

/-- The same walk along the items themselves. -/
def itemLoop {σ : Type} (type : Uint) (push : σ → CStr → Except Trap σ) : List CStr → σ → Except Trap σ
  | [], st => .ok st
  | item :: rest, st => do
      let st ← push st item
      if type = SIG_SINGLE ∧ rest ≠ [] then throw .assertion
      itemLoop type push rest st

section Loop

variable {σ : Type} {type : Uint} {push : σ → CStr → Except Trap σ}

/-- The rounds suffice: every token is taken from what is left of the text. -/
theorem tokenLoop_eq (n : Nat) : ∀ (s : CStr) (st : σ), s.length < n →
    tokenLoop type push n (strtok delims s) st = itemLoop type push (tokensFrom n (strtok delims s)) st := by
  induction n with
  | zero => exact fun s st impossible => absurd impossible (Nat.not_lt_zero _)
  | succ n ih =>
      intro s st rounds
      cases found : strtok delims s with
      | none => rfl
      | some pair =>
          obtain ⟨result, saved⟩ := pair
          obtain ⟨-, less⟩ := strtok_some found
          have more : (strtok delims saved).isSome = true ↔ tokensFrom n (strtok delims saved) ≠ [] := by
            cases next : strtok delims saved with
            | none => cases n <;> simp [tokensFrom]
            | some pair' =>
                obtain ⟨k, rfl⟩ : ∃ k, n = k + 1 := ⟨n - 1, by omega⟩
                simp [tokensFrom]
          rw [tokenLoop, tokensFrom, itemLoop]
          simp only [more, ih saved _ (show saved.length < n by omega)]

theorem itemLoop_cons {item : CStr} {rest : List CStr} {before next : σ} (first : push before item = .ok next) :
    itemLoop type push (item :: rest) before =
      if type = SIG_SINGLE ∧ rest ≠ [] then .error .assertion else itemLoop type push rest next := by
  rw [itemLoop, first]
  by_cases second : type = SIG_SINGLE ∧ rest ≠ []
  · rw [if_pos second]
    exact if_pos second
  · rw [if_neg second]
    exact if_neg second

/-- **When the walk ends**: a single signature has no second item, and no item stops it. -/
theorem itemLoop_ok_iff {texts : List CStr} {before after : σ} :
    itemLoop type push texts before = .ok after ↔
      texts.foldlM push before = .ok after ∧ (type = SIG_SINGLE → texts.length ≤ 1) := by
  induction texts generalizing before with
  | nil => exact ⟨fun ran => ⟨ran, fun _ => Nat.zero_le 1⟩, And.left⟩
  | cons item rest ih =>
      rw [List.foldlM_cons]
      cases first : push before item with
      | error trap =>
          rw [itemLoop, first]
          exact iff_of_false (fun ran => nomatch ran) fun both => nomatch both.1
      | ok next =>
          rw [itemLoop_cons first]
          show _ ↔ rest.foldlM push next = _ ∧ _
          by_cases second : type = SIG_SINGLE ∧ rest ≠ []
          · rw [if_pos second]
            refine iff_of_false (fun ran => nomatch ran) fun both => ?_
            have short := both.2 second.1
            rw [List.length_cons] at short
            exact second.2 (List.length_eq_zero_iff.1 (by omega))
          · rw [if_neg second]
            refine ih.trans (and_congr_right fun _ => imp_congr_right fun single => ?_)
            have none_ : rest = [] := by_contra fun nonempty => second ⟨single, nonempty⟩
            simp [none_]

/-- Two walks in step. -/
theorem itemLoop_map {τ : Type} {push' : τ → CStr → Except Trap τ} (f : σ → τ)
    (step : ∀ st item, push' (f st) item = (push st item).map f) (texts : List CStr) (st : σ) :
    itemLoop type push' texts (f st) = (itemLoop type push texts st).map f := by
  induction texts generalizing st with
  | nil => rfl
  | cons item rest ih =>
      have first := step st item
      cases pushed : push st item with
      | error trap =>
          rw [pushed] at first
          rw [itemLoop, itemLoop, pushed, first]
          rfl
      | ok next =>
          rw [pushed] at first
          rw [itemLoop_cons pushed, itemLoop_cons first, ih]
          split <;> rfl

end Loop

/-! ## What an item is made into -/

/-- What the loop of `parse_http_sig_` does to the list. -/
def pushElement (list : List ElementS) (item : CStr) : Except Trap (List ElementS) :=
  newSigElement (getElementIdFromSig item) (getKeyFromSig item) >>= stailqInsertTail list

/-- The body of that loop. -/
def pushCounted (st : List ElementS × Nat) (item : CStr) : Except Trap (List ElementS × Nat) :=
  (pushElement st.1 item).map fun list => (list, st.2 + 1)

/-- The body of the loop of `parse_http_sig`. -/
def pushPattern (alloc : Nat → Uint) (sigIndex : Uint) (list : List AppEntryT) (item : CStr) :
    Except Trap (List AppEntryT) :=
  pushAppSig alloc list (httpSigId (getElementIdFromSig item) sigIndex) (getKeyFromSig item)

theorem parseHttpSigLoop_eq_ (type : Uint) (rounds : Nat) :
    ∀ (cur : Option (CStr × CStr)) (list : List ElementS) (n : Nat),
      parseHttpSigLoop_ type rounds cur list n = tokenLoop type pushCounted rounds cur (list, n) := by
  induction rounds with
  | zero => rintro (_ | pair) list n <;> rfl
  | succ rounds ih =>
      rintro (_ | pair) list n
      · rfl
      · rw [parseHttpSigLoop_, tokenLoop, pushCounted, pushElement, ← bind_assoc]
        simp only [ih]
        cases newSigElement (getElementIdFromSig pair.1) (getKeyFromSig pair.1) >>= stailqInsertTail list <;> rfl

theorem parseHttpSigLoop_eq (alloc : Nat → Uint) (sigIndex type : Uint) (n : Nat) :
    ∀ (cur : Option (CStr × CStr)) (list : List AppEntryT),
      parseHttpSigLoop alloc sigIndex type n cur list = tokenLoop type (pushPattern alloc sigIndex) n cur list := by
  induction n with
  | zero => rintro (_ | pair) list <;> rfl
  | succ n ih =>
      rintro (_ | pair) list
      · rfl
      · rw [parseHttpSigLoop, tokenLoop, pushPattern]
        simp only [ih]

/-- An element is appended and counted, whatever the list held before. -/
theorem pushCounted_behind (list es : List ElementS) (item : CStr) : pushCounted (list ++ es, es.length) item =
    (pushElement es item).map fun es => (list ++ es, es.length) := by
  unfold pushCounted pushElement newSigElement
  cases getKeyFromSig item with
  | none => rfl
  | some text =>
      by_cases long : text.length ≥ MAX_SIG_LENGTH
      · simp only [if_pos long]
        rfl
      · simp only [if_neg long]
        show Except.ok (list ++ es ++ [_], es.length + 1) = Except.ok (list ++ (es ++ [_]), (es ++ [_]).length)
        rw [List.append_assoc, List.length_append, List.length_singleton]

/-- **The element splitter** walks along the items; what it counts is the list's growth. -/
theorem parseHttpSigInto_items (list : List ElementS) (sig : CStr) (type : Uint) : parseHttpSigInto_ list sig type =
    (itemLoop type pushElement (items sig) []).map fun es => (list ++ es, es.length) := by
  have walk := @itemLoop_map _ type pushElement _ pushCounted (fun es => (list ++ es, es.length))
    (pushCounted_behind list) (items sig) []
  rw [List.append_nil] at walk
  rw [← walk]
  exact (parseHttpSigLoop_eq_ ..).trans (tokenLoop_eq _ sig (list, 0) (Nat.lt_succ_self _))

theorem parseHttpSig_items_ (sig : CStr) (type : Uint) :
    parseHttpSig_ sig type = itemLoop type pushElement (items sig) [] := by
  rw [parseHttpSig_, parseHttpSigInto_items]
  cases itemLoop type pushElement (items sig) [] <;> rfl

theorem parseHttpSigInto_eq (list : List ElementS) (sig : CStr) (type : Uint) :
    parseHttpSigInto_ list sig type = (parseHttpSig_ sig type).map fun es => (list ++ es, es.length) := by
  rw [parseHttpSigInto_items, parseHttpSig_items_]

/-- **The pattern splitter** walks along the same items. -/
theorem parseHttpSig_items (alloc : Nat → Uint) (list : List AppEntryT) (sig : CStr) (sigIndex type : Uint) :
    parseHttpSig alloc list sig sigIndex type = itemLoop type (pushPattern alloc sigIndex) (items sig) list :=
  (parseHttpSigLoop_eq ..).trans (tokenLoop_eq _ sig list (Nat.lt_succ_self _))

theorem pushElement_ok {item : CStr} {list list' : List ElementS} (ran : pushElement list item = .ok list') :
    ∃ text, getKeyFromSig item = some text ∧ list' = list ++ [⟨getElementIdFromSig item, text⟩] := by
  unfold pushElement at ran
  cases key : getKeyFromSig item with
  | none =>
      rw [key] at ran
      cases ran
  | some text =>
      rw [key, newSigElement] at ran
      by_cases long : text.length ≥ MAX_SIG_LENGTH
      · rw [if_pos long] at ran
        cases ran
      · rw [if_neg long] at ran
        exact ⟨text, rfl, (Except.ok.inj ran).symm⟩

theorem pushPattern_ok {alloc : Nat → Uint} {sigIndex : Uint} {item : CStr} {list list' : List AppEntryT}
    (ran : pushPattern alloc sigIndex list item = .ok list') : ∃ text, getKeyFromSig item = some text ∧
      list' = list ++ [⟨httpSigId (getElementIdFromSig item) sigIndex, text, alloc list.length⟩] := by
  unfold pushPattern at ran
  cases key : getKeyFromSig item with
  | none =>
      rw [key] at ran
      cases ran
  | some text =>
      rw [key, pushAppSig_some] at ran
      by_cases long : text.length ≥ MAX_SIG_LENGTH
      · rw [if_pos long] at ran
        cases ran
      · rw [if_neg long] at ran
        exact ⟨text, rfl, (Except.ok.inj ran).symm⟩

/-- A fold that appends to a list, block by block. -/
theorem foldlM_append {α β γ : Type} {R : γ → β → Prop} {block : α → List γ}
    {step : List β → α → Except Trap (List β)} (xs : List α)
    (appends : ∀ x ∈ xs, ∀ before after, step before x = .ok after →
      ∃ ys, after = before ++ ys ∧ List.Forall₂ R (block x) ys)
    {before after : List β} (ran : xs.foldlM step before = .ok after) :
    ∃ ys, after = before ++ ys ∧ List.Forall₂ R (xs.flatMap block) ys := by
  refine @foldlM_ok _ _ _ _
    (fun done after => ∃ ys, after = before ++ ys ∧ List.Forall₂ R (done.flatMap block) ys) _
    (fun x member done middle after held ran => ?_) [] _ _ ⟨[], by simp, List.Forall₂.nil⟩ ran
  obtain ⟨ys, rfl, related⟩ := held
  obtain ⟨zs, rfl, later⟩ := appends x member _ _ ran
  exact ⟨ys ++ zs, by simp, by simpa using List.rel_append related later⟩

/-- The elements of the items. -/
theorem parseHttpSig_ok_ {sig : CStr} {type : Uint} {es : List ElementS} (ran : parseHttpSig_ sig type = .ok es) :
    List.Forall₂ ItemElement (items sig) es := by
  rw [parseHttpSig_items_, itemLoop_ok_iff] at ran
  obtain ⟨ys, same, pairs⟩ := @foldlM_append _ _ _ ItemElement (fun item => [item]) pushElement (items sig)
    (fun item _ before after step => by
      obtain ⟨text, key, rfl⟩ := pushElement_ok step
      exact ⟨_, rfl, List.Forall₂.cons ⟨rfl, key⟩ List.Forall₂.nil⟩) _ _ ran.1
  rw [List.nil_append] at same
  simpa [same] using pairs

/-- The pattern entries of the items. -/
theorem parseHttpSig_ok {alloc : Nat → Uint} {list list' : List AppEntryT} {sig : CStr} {sigIndex type : Uint}
    (ran : parseHttpSig alloc list sig sigIndex type = .ok list') :
    ∃ apps, list' = list ++ apps ∧ List.Forall₂ (ItemPattern sigIndex) (items sig) apps := by
  rw [parseHttpSig_items, itemLoop_ok_iff] at ran
  obtain ⟨apps, same, pairs⟩ := @foldlM_append _ _ _ (ItemPattern sigIndex) (fun item => [item])
    (pushPattern alloc sigIndex) (items sig) (fun item _ before after step => by
      obtain ⟨text, key, rfl⟩ := pushPattern_ok step
      exact ⟨_, rfl, List.Forall₂.cons ⟨rfl, key⟩ List.Forall₂.nil⟩) _ _ ran.1
  exact ⟨apps, same, by simpa using pairs⟩

/-! ## A configuration as the parser builds it -/

/-- Every signature holds the elements `parse_http_sig_` made of its text. -/
structure Parsed (root : List ApplicationS) : Prop where
  elements : ∀ app ∈ root, ∀ sig ∈ app.sigs, parseHttpSig_ sig.matchStr sig.type = .ok sig.elements

theorem mem_signatures_flatten {root : List ApplicationS} {e : ElementS} :
    e ∈ (signatures root).flatten ↔ ∃ app ∈ root, ∃ sig ∈ app.sigs, e ∈ sig.elements := by
  simp [signatures, and_assoc]

/-- An element id is one of the five the keys stand for. -/
theorem Parsed.id_lt {root : List ApplicationS} (parsed : Parsed root) {e : ElementS}
    (member : e ∈ (signatures root).flatten) : e.id.toNat < 5 := by
  obtain ⟨app, inRoot, sig, inApp, inSig⟩ := mem_signatures_flatten.1 member
  obtain ⟨item, -, element⟩ := forall₂_right (parseHttpSig_ok_ (parsed.elements app inRoot sig inApp)) inSig
  rw [element.1]
  exact getElementIdFromSig_lt item

/-- The elements of the HTTP signatures with their signature's id. -/
def httpElements (root : List ApplicationS) : List (Uint × ElementS) :=
  root.flatMap fun app => app.sigs.flatMap fun sig =>
    if sig.proto = PROTOCOL_HTTP then sig.elements.map fun e => (sig.id, e) else []

/-- One signature of the regex engine's pattern list. -/
theorem patternStep_ok {alloc : Nat → Uint} {sig : SigS} {before after : List AppEntryT}
    (elements : parseHttpSig_ sig.matchStr sig.type = .ok sig.elements)
    (step : (if sig.proto = PROTOCOL_HTTP then parseHttpSig alloc before sig.matchStr sig.id sig.type
      else .ok before) = .ok after) :
    ∃ apps, after = before ++ apps ∧
      List.Forall₂ (fun (pair : Uint × ElementS) app => ElementPattern pair.1 pair.2 app)
        (if sig.proto = PROTOCOL_HTTP then sig.elements.map fun e => (sig.id, e) else []) apps := by
  by_cases http : sig.proto = PROTOCOL_HTTP
  · rw [if_pos http] at step ⊢
    obtain ⟨apps, rfl, patterns⟩ := parseHttpSig_ok step
    have patterns := forall₂_join (parseHttpSig_ok_ elements) patterns (ElementPattern.of_item sig.id)
    exact ⟨apps, rfl, List.forall₂_map_left_iff.2 patterns⟩
  · rw [if_neg http] at step ⊢
    exact ⟨[], by simpa using (Except.ok.inj step).symm, List.Forall₂.nil⟩

/-- The pattern list of the regex engine runs parallel to the HTTP elements. -/
theorem parseApplication_ok {alloc : Nat → Uint} {root : List ApplicationS} {list : List AppEntryT}
    (parsed : Parsed root) (ran : parseApplication alloc root = .ok list) :
    ∃ apps, list = markerEntries alloc ++ apps ∧
      List.Forall₂ (fun pair app => ElementPattern pair.1 pair.2 app) (httpElements root) apps := by
  rw [parseApplication, initHttpSig_eq] at ran
  refine foldlM_append root (fun app inRoot before after step => ?_) ran
  refine foldlM_append app.sigs (fun sig inApp before after step => ?_) step
  exact patternStep_ok (parsed.elements app inRoot sig inApp) step

/-! ## A small configuration -/

/-- One application with one HTTP signature, its elements parsed from the text. -/
def oneSignature (sigId : Uint) (text : CStr) : List ApplicationS :=
  [{ id := 7
     category := 1
     name := cstr "app"
     sigs :=
       [{ id := sigId
          proto := PROTOCOL_HTTP
          type := SIG_MULTI
          enable := 1
          priority := 1
          dir := 0
          matchStr := text
          eleNum := BitVec.ofNat 32 (items text).length
          elements := (parseHttpSig_ text SIG_MULTI).toOption.getD [] }] }]

/-- Memory that was zero, with the pattern buffers in one heap. -/
def clearedMemory : Memory :=
  { apps := fun _ => ⟨0, 0, 0, 0⟩
    sigs := fun _ => ⟨0, 0, 0, 0, 0⟩
    eles := fun _ => ⟨0, 0, 0⟩
    alloc := fun k => 0x08050010 + BitVec.ofNat 32 (k * 160) }

theorem oneSignature_parsed {sigId : Uint} {text : CStr} {es : List ElementS}
    (parsed : parseHttpSig_ text SIG_MULTI = .ok es) : Parsed (oneSignature sigId text) := by
  constructor
  intro app inRoot sig inApp
  obtain rfl := List.mem_singleton.1 inRoot
  obtain rfl := List.mem_singleton.1 inApp
  simp [parsed, Except.toOption]

/-- The tables of one application with one element. -/
def oneElementInfo : AppInfoS :=
  { apps := [⟨0, 7, 0, 1⟩], sigs := [⟨0x10007, 3, 1, 1, 0⟩], eles := [⟨0, 5, 0xFFFF⟩] }

/-- The Aho-Corasick patterns of one element. -/
def oneElementList (id : Uint) (text : CStr) : List AppEntryT :=
  markerEntries clearedMemory.alloc ++ [⟨id, text, 0x08050330⟩]

theorem oneSignature_host :
    ∃ summary, getApplicationSummary (oneSignature 0x10001 (cstr "http_host=a")) = .ok summary ∧
      installApplication clearedMemory summary (oneSignature 0x10001 (cstr "http_host=a")) =
        .ok (oneElementInfo, oneElementList 0x01000000 (cstr "a")) := ⟨_, rfl, rfl⟩

end Orchid
