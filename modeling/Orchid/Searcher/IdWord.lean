/-
# Searcher.IdWord -- what the two encoders put into an id word

Both encoders place an element id in the top byte over a lower part: the
Aho-Corasick side over an element offset, the regex side over the signature's own
id.  The three macros decide by the top byte alone, and the top byte of such a word
is the element id together with whatever the lower part has there
(`topByte_word`).  So a word decodes to what it was made of exactly when the
element id is known and covers the lower part's top byte (`decodesTo_word_iff`).
-/
import Orchid.Loader.Split
import Orchid.Searcher.HttpSearch
import Mathlib.Tactic.IntervalCases

namespace Orchid

set_option autoImplicit false

/-! ## The macros -/

theorem topByte_eq_zero_iff (x : Uint) : x &&& 0xFF000000 = 0 ↔ x >>> 24 = 0 := by
  constructor
  · intro masked
    ext i below
    have bit := congrArg (fun b : Uint => b.getLsbD (24 + i)) masked
    simp at bit
    interval_cases i <;> simp_all
  · intro shifted
    ext i below
    have bit := congrArg (fun b : Uint => b.getLsbD (i - 24)) shifted
    simp at bit
    interval_cases i <;> simp_all

theorem shiftRight_byte (x : Uint) : (x >>> 24) &&& (0xFF : Uint) = x >>> 24 := by
  ext i below
  interval_cases i <;> simp

theorem isHttpElement_iff (x : Uint) : isHttpElement x = true ↔ x >>> 24 = 0 := by
  rw [isHttpElement, beq_iff_eq, topByte_eq_zero_iff]

/-- Outside the markers the element id is the top byte. -/
theorem httpElementId_of_not_marker {x : Uint} (element : isHttpElement x = false) :
    httpElementId x = x >>> 24 := by
  have top : ¬ (x &&& 0xFF000000 = 0) := by
    rw [topByte_eq_zero_iff, ← isHttpElement_iff, element]
    decide
  rw [httpElementId, if_pos top, shiftRight_byte]

/-! ## Encoded words -/

theorem topByte_word (e s : Uint) :
    ((e &&& 0xFF) <<< 24 ||| s) >>> 24 = (e &&& (0xFF : Uint)) ||| (s >>> 24) := by
  ext i below
  interval_cases i <;> simp

theorem lowWord_word (e s : Uint) : ((e &&& 0xFF) <<< 24 ||| s) &&& 0xFFFF = s &&& 0xFFFF := by
  ext i below
  interval_cases i <;> simp

/-- The word is no marker, its element id is `e` and its low half is `low`. -/
def DecodesTo (w e low : Uint) : Prop :=
  isHttpElement w = false ∧ httpElementId w = e ∧ w &&& 0xFFFF = low

instance (w e low : Uint) : Decidable (DecodesTo w e low) :=
  inferInstanceAs (Decidable (_ ∧ _ ∧ _))

/-- **When a word decodes to what it was made of.** -/
theorem decodesTo_word_iff {e : Uint} (byte : e &&& 0xFF = e) (s : Uint) :
    DecodesTo ((e &&& 0xFF) <<< 24 ||| s) e (s &&& 0xFFFF) ↔ e ≠ 0 ∧ e ||| (s >>> 24) = e := by
  have top := topByte_word e s
  rw [byte] at top ⊢
  have low := lowWord_word e s
  rw [byte] at low
  constructor
  · rintro ⟨element, id, -⟩
    rw [httpElementId_of_not_marker element, top] at id
    refine ⟨?_, id⟩
    intro unknown
    have marker := (isHttpElement_iff (e <<< 24 ||| s)).2 (top.trans (id.trans unknown))
    rw [element] at marker
    exact absurd marker (by decide)
  · rintro ⟨known, covers⟩
    have element : isHttpElement (e <<< 24 ||| s) = false := by
      rw [Bool.eq_false_iff, Ne, isHttpElement_iff, top, covers]
      exact known
    exact ⟨element, by rw [httpElementId_of_not_marker element, top, covers], low⟩

theorem byte_of_lt {e : Uint} (small : e.toNat < 5) : e &&& 0xFF = e := by
  obtain ⟨k, inRange, rfl⟩ : ∃ k, k < 5 ∧ e = BitVec.ofNat 32 k :=
    ⟨e.toNat, small, by simp⟩
  interval_cases k <;> decide

theorem offset_top {o : Nat} (small : o < 2 ^ 24) : BitVec.ofNat 32 o >>> 24 = (0 : Uint) := by
  apply BitVec.eq_of_toNat_eq
  rw [BitVec.toNat_ushiftRight, BitVec.toNat_ofNat, Nat.mod_eq_of_lt (by omega),
    Nat.shiftRight_eq_div_pow]
  show o / 2 ^ 24 = 0
  omega

theorem offset_low {o : Nat} (small : o < 65536) :
    BitVec.ofNat 32 o &&& 0xFFFF = (BitVec.ofNat 32 o : Uint) := by
  apply BitVec.eq_of_toNat_eq
  rw [BitVec.toNat_and, BitVec.toNat_ofNat, Nat.mod_eq_of_lt (by omega)]
  show o &&& (2 ^ 16 - 1) = o
  rw [Nat.and_two_pow_sub_one_eq_mod, Nat.mod_eq_of_lt small]

/-- The word of an installed element decodes exactly when its key is known, as long as
the offset leaves the top byte alone. -/
theorem decodesTo_elementWord_iff {e : Uint} {o : Nat} (known : e.toNat < 5) (small : o < 2 ^ 24) :
    DecodesTo (elementWord e o) e (BitVec.ofNat 32 o &&& 0xFFFF) ↔ e ≠ 0 := by
  have iff := decodesTo_word_iff (byte_of_lt known) (BitVec.ofNat 32 o)
  rw [offset_top small] at iff
  rw [elementWord, iff]
  exact ⟨And.left, fun nonzero => ⟨nonzero, BitVec.or_zero⟩⟩

/-! ## All id words of a configuration -/

/-- The word of every installed element decodes to the element's id and offset,
the word of every regex pattern to its element id and the low half of the
signature's id, and only the five markers' words are marker words. -/
structure WordsDecode (root : List ApplicationS) (appList dfaList : List AppEntryT) : Prop where
  installed : ∀ i e, (signatures root).flatten[i]? = some e →
    ∃ app, appList[httpMarkers.length + i]? = some app ∧ app.regex = e.matchStr ∧
      DecodesTo app.appId e.id (BitVec.ofNat 32 i)
  regex : ∀ i sigId e, (httpElements root)[i]? = some (sigId, e) →
    ∃ app, dfaList[httpMarkers.length + i]? = some app ∧ app.regex = e.matchStr ∧
      DecodesTo app.appId e.id (sigId &&& 0xFFFF)
  markers : ∀ app ∈ appList ++ dfaList, isHttpElement app.appId = true →
    (app.appId, app.regex) ∈ httpMarkers

/-- Every key is known, and no signature id has a bit in its top byte that the
element ids of its signature lack. -/
def KeysKnown (root : List ApplicationS) : Prop :=
  (∀ e ∈ (signatures root).flatten, e.id ≠ 0) ∧
    ∀ pair ∈ httpElements root, pair.2.id ||| (pair.1 >>> 24) = pair.2.id

instance (root : List ApplicationS) : Decidable (KeysKnown root) :=
  inferInstanceAs (Decidable (_ ∧ _))

theorem httpElements_mem {root : List ApplicationS} {pair : Uint × ElementS}
    (member : pair ∈ httpElements root) : pair.2 ∈ (signatures root).flatten := by
  simp only [httpElements, List.mem_flatMap] at member
  obtain ⟨app, inRoot, sig, inApp, inSig⟩ := member
  refine mem_signatures_flatten.2 ⟨app, inRoot, sig, inApp, ?_⟩
  split at inSig
  · obtain ⟨e, inside, rfl⟩ := List.mem_map.1 inSig
    exact inside
  · exact absurd inSig (List.not_mem_nil)

theorem markerEntries_mem {alloc : Nat → Uint} {app : AppEntryT} (member : app ∈ markerEntries alloc) :
    (app.appId, app.regex) ∈ httpMarkers := by
  obtain ⟨k, below, rfl⟩ := List.mem_mapIdx.1 member
  exact List.getElem_mem below

theorem forall₂_getElem? {α β : Type} {R : α → β → Prop} {xs : List α} {ys : List β}
    (related : List.Forall₂ R xs ys) {i : Nat} :
    (∀ x, xs[i]? = some x → ∃ y, ys[i]? = some y ∧ R x y) ∧
      ∀ y, ys[i]? = some y → ∃ x, xs[i]? = some x ∧ R x y := by
  induction related generalizing i with
  | nil => simp
  | cons head tail ih =>
      cases i with
      | zero => simpa using head
      | succ i => simpa using ih

/-- The entry of an installed element. -/
theorem installed_entry {root : List ApplicationS} {mem : Memory} {summary : AppStatisticsS}
    {info : AppInfoS} {appList : List AppEntryT}
    (installed : installApplication mem summary root = .ok (info, appList)) {i : Nat} {e : ElementS}
    (here : (signatures root).flatten[i]? = some e) :
    appList[httpMarkers.length + i]? =
      some ⟨elementWord e.id i, e.matchStr, mem.alloc (httpMarkers.length + i)⟩ := by
  obtain ⟨-, words, -, -⟩ := installApplication_ok installed
  rw [words, List.getElem?_append_right (by rw [length_markerEntries]; omega), length_markerEntries,
    Nat.add_sub_cancel_left, getElem?_elementEntries, here, Nat.zero_add]
  rfl

theorem httpMarkers_isHttpElement : ∀ marker ∈ httpMarkers, isHttpElement marker.1 = true := by
  decide

/-- What the entries of the pattern list are, when every key is known. -/
theorem entry_cases {root : List ApplicationS} {mem : Memory} {summary : AppStatisticsS}
    {info : AppInfoS} {appList : List AppEntryT} (parsed : Parsed root)
    (fits : (signatures root).flatten.length ≤ 2 ^ 24)
    (installed : installApplication mem summary root = .ok (info, appList))
    (known : ∀ e ∈ (signatures root).flatten, e.id ≠ 0) {app : AppEntryT} (member : app ∈ appList) :
    (app.appId, app.regex) ∈ httpMarkers ∨
      ∃ i e, (signatures root).flatten[i]? = some e ∧ app.appId = elementWord e.id i ∧
        app.regex = e.matchStr ∧ DecodesTo app.appId e.id (BitVec.ofNat 32 i &&& 0xFFFF) := by
  obtain ⟨-, words, -, -⟩ := installApplication_ok installed
  rw [words] at member
  rcases List.mem_append.1 member with isMarker | isElement
  · exact Or.inl (markerEntries_mem isMarker)
  · obtain ⟨i, e, here, rfl⟩ := mem_elementEntries.1 isElement
    have inSigs := List.mem_of_getElem? here
    have small : i < 2 ^ 24 := (List.getElem?_eq_some_iff.1 here).1.trans_le fits
    refine Or.inr ⟨i, e, here, by rw [Nat.zero_add], rfl, ?_⟩
    rw [Nat.zero_add]
    exact (decodesTo_elementWord_iff (parsed.id_lt inSigs) small).2 (known e inSigs)

/-- What the regex engine's patterns are. -/
theorem pattern_cases {root : List ApplicationS} {dfaList : List AppEntryT} {alloc : Nat → Uint}
    (parsed : Parsed root) (collected : parseApplication alloc root = .ok dfaList)
    (keys : KeysKnown root) {app : AppEntryT} (member : app ∈ dfaList) :
    (app.appId, app.regex) ∈ httpMarkers ∨
      ∃ pair ∈ httpElements root, app.appId = httpSigId pair.2.id pair.1 ∧
        app.regex = pair.2.matchStr ∧ DecodesTo app.appId pair.2.id (pair.1 &&& 0xFFFF) := by
  obtain ⟨apps, list, parallel⟩ := parseApplication_ok parsed collected
  rw [list] at member
  rcases List.mem_append.1 member with isMarker | isPattern
  · exact Or.inl (markerEntries_mem isMarker)
  · obtain ⟨i, entry⟩ := List.mem_iff_getElem?.1 isPattern
    obtain ⟨pair, here, word, text⟩ := (forall₂_getElem? parallel).2 app entry
    have inElements := List.mem_of_getElem? here
    have inSigs := httpElements_mem inElements
    refine Or.inr ⟨pair, inElements, word, text, ?_⟩
    rw [word]
    exact (decodesTo_word_iff (byte_of_lt (parsed.id_lt inSigs)) pair.1).2
      ⟨keys.1 _ inSigs, keys.2 pair inElements⟩

/-- **When the id words of a configuration decode.**  Exactly when every key is known
and no signature id reaches into the element ids of its signature. -/
theorem wordsDecode_iff {root : List ApplicationS} {mem : Memory} {summary : AppStatisticsS}
    {info : AppInfoS} {appList dfaList : List AppEntryT} {alloc : Nat → Uint} (parsed : Parsed root)
    (few : (signatures root).flatten.length < 65535)
    (installed : installApplication mem summary root = .ok (info, appList))
    (collected : parseApplication alloc root = .ok dfaList) :
    WordsDecode root appList dfaList ↔ KeysKnown root := by
  have small : ∀ {i e}, (signatures root).flatten[i]? = some e → i < 65536 := by
    intro i e here
    have below := (List.getElem?_eq_some_iff.1 here).1
    omega
  have element : ∀ {i e}, (signatures root).flatten[i]? = some e →
      (DecodesTo (elementWord e.id i) e.id (BitVec.ofNat 32 i) ↔ e.id ≠ 0) := by
    intro i e here
    have below := small here
    have decodes := decodesTo_elementWord_iff (parsed.id_lt (List.mem_of_getElem? here))
      (show i < 2 ^ 24 by omega)
    rwa [offset_low below] at decodes
  have pattern : ∀ pair ∈ httpElements root,
      (DecodesTo (httpSigId pair.2.id pair.1) pair.2.id (pair.1 &&& 0xFFFF) ↔
        pair.2.id ≠ 0 ∧ pair.2.id ||| (pair.1 >>> 24) = pair.2.id) := fun pair member =>
    decodesTo_word_iff (byte_of_lt (parsed.id_lt (httpElements_mem member))) pair.1
  obtain ⟨apps, list, parallel⟩ := parseApplication_ok parsed collected
  have shifted : ∀ i, dfaList[httpMarkers.length + i]? = apps[i]? := by
    intro i
    rw [list, List.getElem?_append_right (by rw [length_markerEntries]; omega), length_markerEntries,
      Nat.add_sub_cancel_left]
  constructor
  · intro decode
    refine ⟨fun e member => ?_, fun pair member => ?_⟩
    · obtain ⟨i, here⟩ := List.mem_iff_getElem?.1 member
      obtain ⟨app, entry, -, decodes⟩ := decode.installed i e here
      rw [installed_entry installed here] at entry
      obtain rfl := Option.some.inj entry
      exact (element here).1 decodes
    · obtain ⟨i, here⟩ := List.mem_iff_getElem?.1 member
      obtain ⟨app, entry, -, decodes⟩ := decode.regex i pair.1 pair.2 here
      obtain ⟨app', entry', word, -⟩ := (forall₂_getElem? parallel).1 pair here
      rw [shifted, entry'] at entry
      obtain rfl := Option.some.inj entry
      rw [word] at decodes
      exact ((pattern pair member).1 decodes).2
  · rintro ⟨known, covered⟩
    refine ⟨fun i e here => ?_, fun i sigId e here => ?_, fun app member marker => ?_⟩
    · exact ⟨_, installed_entry installed here, rfl,
        (element here).2 (known e (List.mem_of_getElem? here))⟩
    · have member := List.mem_of_getElem? here
      obtain ⟨app, entry, word, text⟩ := (forall₂_getElem? parallel).1 _ here
      refine ⟨app, (shifted i).trans entry, text, ?_⟩
      rw [word]
      exact (pattern _ member).2 ⟨known e (httpElements_mem member), covered _ member⟩
    · have cases_ : (app.appId, app.regex) ∈ httpMarkers ∨ ∃ e low, DecodesTo app.appId e low := by
        rcases List.mem_append.1 member with inList | inList
        · rcases entry_cases parsed (by omega) installed known inList with
            isMarker | ⟨i, e, -, -, -, decodes⟩
          · exact Or.inl isMarker
          · exact Or.inr ⟨_, _, decodes⟩
        · rcases pattern_cases parsed collected ⟨known, covered⟩ inList with
            isMarker | ⟨pair, -, -, -, decodes⟩
          · exact Or.inl isMarker
          · exact Or.inr ⟨_, _, decodes⟩
      rcases cases_ with isMarker | ⟨e, low, element, -, -⟩
      · exact isMarker
      · exact absurd (marker.symm.trans element) (by decide)

/-- A signature on a known key whose id stays below the top byte. -/
theorem wordsDecode_host : WordsDecode (oneSignature 0x10001 (cstr "http_host=a"))
    (oneElementList 0x01000000 (cstr "a"))
    (markerEntries clearedMemory.alloc ++ [⟨0x01010001, cstr "a", 0x08050330⟩]) := by
  obtain ⟨summary, -, installed⟩ := oneSignature_host
  have collected : parseApplication clearedMemory.alloc (oneSignature 0x10001 (cstr "http_host=a")) =
      .ok (markerEntries clearedMemory.alloc ++ [⟨0x01010001, cstr "a", 0x08050330⟩]) := rfl
  exact (wordsDecode_iff (oneSignature_parsed rfl) (by decide) installed collected).2 (by decide)

/-- With an unknown key the word of the first element is a marker word. -/
theorem unknown_key_poses_as_marker :
    ¬ ∀ (root : List ApplicationS) (mem : Memory) (summary : AppStatisticsS) (info : AppInfoS)
        (appList dfaList : List AppEntryT), Parsed root → (signatures root).flatten.length < 65535 →
      getApplicationSummary root = .ok summary →
      installApplication mem summary root = .ok (info, appList) →
      parseApplication mem.alloc root = .ok dfaList → WordsDecode root appList dfaList := by
  intro decode
  have decoded := decode (oneSignature 0x10001 (cstr "http_uri=a")) clearedMemory _ oneElementInfo
    (oneElementList 0 (cstr "a"))
    (markerEntries clearedMemory.alloc ++ [⟨0x00010001, cstr "a", 0x08050330⟩])
    (oneSignature_parsed rfl) (by decide) rfl rfl rfl
  obtain ⟨app, entry, -, element, -, -⟩ := decoded.installed 0 ⟨0, cstr "a"⟩ rfl
  obtain rfl : (⟨0, cstr "a", 0x08050330⟩ : AppEntryT) = app := Option.some.inj entry
  exact absurd element (by decide)

end Orchid
