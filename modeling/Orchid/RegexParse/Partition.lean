/-
# RegexParse.Partition -- character classes

The rules name sets of bytes, and the table has a column for each class of bytes that no
set tells apart.  `partitionCharsets` cuts the sets into classes with the loop of
`Theory.Overlap`: a class is a set of bytes with the numbers of the sets it lies in.
`buildSetMapping` turns this round, into the numbers of the classes that make up a set,
and fills the lookup from bytes to columns.

So a byte is in a set exactly if the class that the lookup gives it is one of the set's
(`reads_iff`).
-/
import Orchid.RegexParse.Reassemble
import Orchid.RegexParse.StringToken
import Orchid.Theory.Overlap

namespace Orchid

open Orchid.Theory

set_option autoImplicit false

/-! ## Sets of numbers -/

/-- `insert` into a `std::set` of numbers, kept in order. -/
def setInsert (i : Nat) : List Nat → List Nat
  | [] => [i]
  | j :: js => if i < j then i :: j :: js else if j < i then j :: setInsert i js else j :: js

@[simp] theorem mem_setInsert {i k : Nat} {js : List Nat} : k ∈ setInsert i js ↔ k = i ∨ k ∈ js := by
  induction js with
  | nil => simp [setInsert]
  | cons j js ih =>
      unfold setInsert
      split
      · simp
      · split
        · simp [ih, or_left_comm]
        · obtain rfl : i = j := by omega
          simp

theorem setInsert_sorted {i : Nat} {js : List Nat} (sorted : js.Pairwise (· < ·)) :
    (setInsert i js).Pairwise (· < ·) := by
  induction js with
  | nil => exact List.pairwise_singleton ..
  | cons j js ih =>
      obtain ⟨above, rest⟩ := List.pairwise_cons.1 sorted
      unfold setInsert
      split
      · next less =>
        refine List.pairwise_cons.2 ⟨fun k member => ?_, sorted⟩
        rcases List.mem_cons.1 member with rfl | member
        · exact less
        · exact Nat.lt_trans less (above k member)
      · split
        · next more =>
          refine List.pairwise_cons.2 ⟨fun k member => ?_, ih rest⟩
          rcases mem_setInsert.1 member with rfl | member
          · exact more
          · exact above k member
        · exact sorted

/-- `std::merge` with an inserter. -/
def setMerge (lhs rhs : List Nat) : List Nat := rhs.foldl (fun set i => setInsert i set) lhs

@[simp] theorem mem_setMerge {lhs rhs : List Nat} {k : Nat} : k ∈ setMerge lhs rhs ↔ k ∈ lhs ∨ k ∈ rhs := by
  unfold setMerge
  induction rhs generalizing lhs with
  | nil => simp
  | cons i rhs ih =>
      rw [List.foldl_cons, ih, mem_setInsert, List.mem_cons]
      tauto

/-! ## partition_charsets -/

/-- `basic_charset`. -/
structure Charset where
  token : StringToken
  indexSet : List Nat
  deriving DecidableEq

namespace Charset

def isEmpty (charset : Charset) : Bool := charset.token.isEmpty && charset.indexSet.isEmpty

/-- `intersect` with an empty `overlap_`: what is left of both, and the overlap. -/
def intersect (lhs rhs : Charset) : Charset × Charset × Charset :=
  let (left, right, overlap) := lhs.token.intersect rhs.token
  if overlap.isEmpty then (⟨left, lhs.indexSet⟩, ⟨right, rhs.indexSet⟩, ⟨overlap, []⟩)
  else
    (⟨left, if left.isEmpty then [] else lhs.indexSet⟩,
      ⟨right, if right.isEmpty then [] else rhs.indexSet⟩,
      ⟨overlap, setMerge lhs.indexSet rhs.indexSet⟩)

def has (charset : Charset) (b : UInt8) : Prop := b ∈ charset.token

/-- No numbers are kept without bytes. -/
def Good (charset : Charset) : Prop := charset.token.isEmpty = true → charset.indexSet = []

theorem isEmpty_iff {charset : Charset} (good : charset.Good) : charset.isEmpty = true ↔ ∀ b, ¬ charset.has b := by
  unfold isEmpty has
  rw [← StringToken.isEmpty_iff, Bool.and_eq_true, List.isEmpty_iff]
  exact and_iff_left_of_imp good

theorem not_isEmpty {token : StringToken} {b : UInt8} (here : b ∈ token) : token.isEmpty = false :=
  Bool.eq_false_iff.2 fun empty => StringToken.isEmpty_iff.1 empty b here

section Intersect

variable (lhs rhs : Charset)

theorem intersect_left_token : (lhs.intersect rhs).1.token = (lhs.token.intersect rhs.token).1 := by
  unfold intersect
  dsimp only
  split <;> rfl

theorem intersect_right_token : (lhs.intersect rhs).2.1.token = (lhs.token.intersect rhs.token).2.1 := by
  unfold intersect
  dsimp only
  split <;> rfl

theorem intersect_overlap_token : (lhs.intersect rhs).2.2.token = (lhs.token.intersect rhs.token).2.2 := by
  unfold intersect
  dsimp only
  split <;> rfl

/-- The loop of the library cuts charsets. -/
theorem meets : Meets isEmpty intersect Good has indexSet setMerge where
  empty := isEmpty_iff
  keeps {l r} goodL goodR := by
    unfold intersect
    dsimp only
    split
    · next none_ =>
      -- without an overlap nothing was taken away
      have apart : ∀ b, b ∈ l.token → b ∉ r.token := fun b left right =>
        StringToken.isEmpty_iff.1 none_ b (StringToken.mem_intersect_overlap.2 ⟨left, right⟩)
      refine ⟨fun empty => goodL ?_, fun empty => goodR ?_, fun _ => rfl⟩
      · rw [StringToken.isEmpty_iff] at empty ⊢
        exact fun b left => empty b (StringToken.mem_intersect_left.2 ⟨left, apart b left⟩)
      · rw [StringToken.isEmpty_iff] at empty ⊢
        exact fun b right => empty b (StringToken.mem_intersect_right.2 ⟨right, fun left => apart b left right⟩)
    · next nonempty =>
      exact ⟨fun empty => if_pos empty, fun empty => if_pos empty, fun empty => absurd empty nonempty⟩
  left {l r} _ _ b := by
    unfold has
    rw [intersect_left_token]
    exact StringToken.mem_intersect_left
  right {l r} _ _ b := by
    unfold has
    rw [intersect_right_token]
    exact StringToken.mem_intersect_right
  overlap {l r} _ _ b := by
    unfold has
    rw [intersect_overlap_token]
    exact StringToken.mem_intersect_overlap
  valueLeft {l r} _ _ b here := by
    unfold has at here
    rw [intersect_left_token] at here
    unfold intersect
    dsimp only
    split
    · rfl
    · simp [not_isEmpty here]
  valueRight {l r} _ _ b here := by
    unfold has at here
    rw [intersect_right_token] at here
    unfold intersect
    dsimp only
    split
    · rfl
    · simp [not_isEmpty here]
  valueOverlap {l r} _ _ b here := by
    unfold has at here
    rw [intersect_overlap_token] at here
    unfold intersect
    dsimp only
    rw [if_neg (by simp [not_isEmpty here])]

end Intersect

end Charset

/-- The parser's map from sets to their numbers, in the map's order. -/
abbrev CharsetMap := List (StringToken × Nat)

def fillRhsList (map : CharsetMap) : List Charset := map.map fun entry => ⟨entry.1, [entry.2]⟩

def partitionCharsets (map : CharsetMap) : List Charset :=
  refine Charset.isEmpty Charset.intersect (fillRhsList map)

theorem fillRhsList_good {map : CharsetMap} (nonempty : ∀ entry ∈ map, ∃ b : UInt8, b ∈ entry.1) :
    ∀ charset ∈ fillRhsList map, charset.Good ∧ ∃ b, charset.has b := by
  intro charset member
  obtain ⟨entry, inside, rfl⟩ := List.mem_map.1 member
  obtain ⟨b, here⟩ := nonempty entry inside
  refine ⟨fun empty => ?_, b, here⟩
  rw [Charset.not_isEmpty here] at empty
  cases empty

/-- A class has the numbers of the sets that its bytes are in. -/
theorem partitionCharsets_spec {map : CharsetMap} (nonempty : ∀ entry ∈ map, ∃ b : UInt8, b ∈ entry.1) :
    Parts Charset.Good Charset.has (partitionCharsets map) ∧
      (∀ b, (∃ charset ∈ partitionCharsets map, b ∈ charset.token) ↔ ∃ entry ∈ map, b ∈ entry.1) ∧
      ∀ charset ∈ partitionCharsets map, ∀ b ∈ charset.token, ∀ i,
        i ∈ charset.indexSet ↔ ∃ entry ∈ map, b ∈ entry.1 ∧ entry.2 = i := by
  have each := fillRhsList_good nonempty
  obtain ⟨parts, values⟩ := Charset.meets.refine (fun charset member => (each charset member).1)
    fun charset member => (each charset member).2
  have listed : ∀ b, (∃ charset ∈ fillRhsList map, charset.has b) ↔ ∃ entry ∈ map, b ∈ entry.1 := by
    simp [fillRhsList, Charset.has]
  refine ⟨parts, fun b => ?_, fun charset member b here i => ?_⟩
  · rw [← listed]
    constructor
    · rintro ⟨charset, member, here⟩
      by_contra none_
      have value := (values b charset.indexSet).1 ⟨charset, member, here, rfl⟩
      rw [mergeAt_eq_none_iff.2 fun c inside there => none_ ⟨c, inside, there⟩] at value
      cases value
    · rintro ⟨c, inside, there⟩
      cases value : mergeAt Charset.has Charset.indexSet setMerge (fillRhsList map) b with
      | none => exact absurd there (mergeAt_eq_none_iff.1 value c inside)
      | some p =>
          obtain ⟨charset, member, here, -⟩ := (values b p).2 value
          exact ⟨charset, member, here⟩
  · have value := (values b charset.indexSet).1 ⟨charset, member, here, rfl⟩
    have collected : (∃ p, mergeAt Charset.has Charset.indexSet setMerge (fillRhsList map) b = some p ∧ i ∈ p) ↔
        ∃ charset ∈ fillRhsList map, charset.has b ∧ i ∈ charset.indexSet := mem_mergeAt fun p q => mem_setMerge
    rw [value] at collected
    simpa [fillRhsList, Charset.has, eq_comm] using collected

theorem classColumn_toNat {k : Nat} (below : k < 256) : (BitVec.ofNat 32 (k + transitionsIndex)).toNat = k + transitionsIndex := by
  rw [BitVec.toNat_ofNat, Nat.mod_eq_of_lt (by unfold transitionsIndex; omega)]

/-- No set of the map tells the bytes apart. -/
def Alike (map : CharsetMap) (b b' : UInt8) : Prop := ∀ entry ∈ map, b ∈ entry.1 ↔ b' ∈ entry.1

/-- No class tells bytes apart that the sets do not tell apart. -/
theorem partitionCharsets_alike {map : CharsetMap} {b b' : UInt8} (alike : Alike map b b') :
    ∀ charset ∈ partitionCharsets map, b ∈ charset.token ↔ b' ∈ charset.token := by
  refine refine_closed (P := fun charset : Charset => b ∈ charset.token ↔ b' ∈ charset.token) (fun {l r} left right => ?_) ?_
  · rw [Charset.intersect_left_token, Charset.intersect_right_token, Charset.intersect_overlap_token]
    simp only [StringToken.mem_intersect_left, StringToken.mem_intersect_right, StringToken.mem_intersect_overlap, left, right,
      and_self]
  · intro charset member
    obtain ⟨entry, inside, rfl⟩ := List.mem_map.1 member
    exact alike entry inside

/-! ## build_set_mapping -/

/-- The bytes of a class get its column. -/
def fillLookup (token : StringToken) (index : Nat) (lookup : UInt8 → Uint) : UInt8 → Uint :=
  token.ranges.foldl (fun lookup range b =>
    if range.has b.toNat then BitVec.ofNat 32 (index + transitionsIndex) else lookup b) lookup

/-- The lookup and the mapping from sets to their classes. -/
structure SetMapping where
  lookup : UInt8 → Uint
  mapping : List (List Nat)

def SetMapping.classes (sets : SetMapping) (i : Nat) : List Nat := sets.mapping[i]?.getD []

def buildSetMappingLoop : Nat → List Charset → SetMapping → SetMapping
  | _, [], sets => sets
  | index, charset :: rest, sets =>
      buildSetMappingLoop (index + 1) rest
        { lookup := fillLookup charset.token index sets.lookup
          mapping := charset.indexSet.foldl (fun mapping i => mapping.modify i (setInsert index)) sets.mapping }

/-- The lookup starts with the dead column everywhere. -/
def buildSetMapping (charsetList : List Charset) (size : Nat) : SetMapping :=
  buildSetMappingLoop 0 charsetList
    { lookup := fun _ => BitVec.ofNat 32 deadStateIndex, mapping := List.replicate size [] }

theorem fillLookup_apply (token : StringToken) (index : Nat) (lookup : UInt8 → Uint) (b : UInt8) :
    fillLookup token index lookup b = if b ∈ token then BitVec.ofNat 32 (index + transitionsIndex) else lookup b := by
  have fold : ∀ (ranges : List ByteRange) (lookup : UInt8 → Uint),
      ranges.foldl (fun lookup range b =>
        if range.has b.toNat then BitVec.ofNat 32 (index + transitionsIndex) else lookup b) lookup b =
        if Holds ranges b.toNat then BitVec.ofNat 32 (index + transitionsIndex) else lookup b := by
    intro ranges
    induction ranges with
    | nil => intro lookup; simp
    | cons range ranges ih =>
        intro lookup
        rw [List.foldl_cons, ih]
        by_cases later : Holds ranges b.toNat <;> by_cases here : range.has b.toNat <;>
          simp [holds_cons range ranges, later, here]
  exact fold token.ranges lookup

theorem mem_foldl_modify {index : Nat} (ids : List Nat) : ∀ {mapping : List (List Nat)} {i k : Nat}, i < mapping.length →
    (k ∈ (ids.foldl (fun mapping i => mapping.modify i (setInsert index)) mapping)[i]?.getD [] ↔
      k ∈ mapping[i]?.getD [] ∨ i ∈ ids ∧ k = index) := by
  induction ids with
  | nil => simp
  | cons j ids ih =>
      intro mapping i k inside
      have inside' : i < (mapping.modify j (setInsert index)).length := by rwa [List.length_modify]
      rw [List.foldl_cons, ih inside', List.getElem?_modify, List.getElem?_eq_getElem inside]
      by_cases here : j = i
      · subst here
        simp
        tauto
      · simp [here, Ne.symm here]

theorem length_foldl_modify {index : Nat} (ids : List Nat) : ∀ {mapping : List (List Nat)},
    (ids.foldl (fun mapping i => mapping.modify i (setInsert index)) mapping).length = mapping.length := by
  induction ids with
  | nil => exact rfl
  | cons j ids ih =>
      intro mapping
      rw [List.foldl_cons, ih, List.length_modify]

theorem sorted_foldl_modify {index : Nat} (ids : List Nat) : ∀ {mapping : List (List Nat)},
    (∀ set ∈ mapping, set.Pairwise (· < ·)) →
      ∀ set ∈ ids.foldl (fun mapping i => mapping.modify i (setInsert index)) mapping, set.Pairwise (· < ·) := by
  induction ids with
  | nil => exact fun sorted => sorted
  | cons j ids ih =>
      intro mapping sorted
      apply ih
      intro set member
      obtain ⟨k, inside, rfl⟩ := List.mem_iff_getElem.1 member
      rw [List.getElem_modify]
      rw [List.length_modify] at inside
      split
      · exact setInsert_sorted (sorted _ (List.getElem_mem inside))
      · exact sorted _ (List.getElem_mem inside)

/-- The state of the loop: the classes from `index` on are added to what there was. -/
structure Mapped (index : Nat) (charsetList : List Charset) (old new : SetMapping) : Prop where
  length : new.mapping.length = old.mapping.length
  sorted : (∀ set ∈ old.mapping, set.Pairwise (· < ·)) → ∀ set ∈ new.mapping, set.Pairwise (· < ·)
  lookup : ∀ b, (∀ charset ∈ charsetList, b ∉ charset.token) → new.lookup b = old.lookup b
  column : ∀ k charset, charsetList[k]? = some charset → ∀ b ∈ charset.token,
    new.lookup b = BitVec.ofNat 32 (index + k + transitionsIndex)
  mapping : ∀ i < old.mapping.length, ∀ k, k ∈ new.classes i ↔ k ∈ old.classes i ∨
    ∃ j charset, charsetList[j]? = some charset ∧ i ∈ charset.indexSet ∧ k = index + j

theorem buildSetMappingLoop_spec {charsetList : List Charset} : ∀ {index : Nat} {sets : SetMapping},
    (charsetList.Pairwise fun c d => ∀ b, c.has b → ¬ d.has b) →
      Mapped index charsetList sets (buildSetMappingLoop index charsetList sets) := by
  induction charsetList with
  | nil =>
      intro index sets _
      exact ⟨rfl, fun sorted => sorted, fun _ _ => rfl, by simp, by simp [buildSetMappingLoop]⟩
  | cons charset rest ih =>
      intro index sets apart
      obtain ⟨length, sorted, lookup, column, mapping⟩ := @ih (index + 1)
        { lookup := fillLookup charset.token index sets.lookup
          mapping := charset.indexSet.foldl (fun mapping i => mapping.modify i (setInsert index)) sets.mapping }
        apart.of_cons
      rw [length_foldl_modify] at length mapping
      refine ⟨length, fun old => sorted (sorted_foldl_modify _ old), fun b none_ => ?_, fun k other here b inside => ?_,
        fun i below k => ?_⟩
      · show (buildSetMappingLoop (index + 1) rest _).lookup b = _
        rw [lookup b fun other member => none_ other (List.mem_cons_of_mem _ member)]
        show fillLookup charset.token index sets.lookup b = _
        rw [fillLookup_apply, if_neg (none_ charset List.mem_cons_self)]
      · cases k with
        | zero =>
            obtain rfl : charset = other := Option.some.inj here
            show (buildSetMappingLoop (index + 1) rest _).lookup b = _
            rw [lookup b fun later member there => List.rel_of_pairwise_cons apart member b inside there]
            show fillLookup charset.token index sets.lookup b = _
            rw [fillLookup_apply, if_pos inside, Nat.add_zero]
        | succ k =>
            have order : index + (k + 1) + transitionsIndex = index + 1 + k + transitionsIndex := by omega
            rw [order]
            exact column k other here b inside
      · show k ∈ (buildSetMappingLoop (index + 1) rest _).classes i ↔ _
        rw [mapping i below k]
        show k ∈ (charset.indexSet.foldl _ sets.mapping)[i]?.getD [] ∨ _ ↔ _
        rw [mem_foldl_modify _ below, or_assoc]
        refine or_congr_right ?_
        constructor
        · rintro (⟨member, rfl⟩ | ⟨j, other, here, member, rfl⟩)
          · exact ⟨0, charset, rfl, member, rfl⟩
          · exact ⟨j + 1, other, here, member, by omega⟩
        · rintro ⟨j, other, here, member, rfl⟩
          cases j with
          | zero =>
              obtain rfl : charset = other := Option.some.inj here
              exact Or.inl ⟨member, rfl⟩
          | succ j => exact Or.inr ⟨j, other, here, member, by omega⟩

/-! ## What the lookup and the mapping say -/

/-- The parser numbers the sets of its map from zero, and none of them is empty. -/
structure Numbered (map : CharsetMap) : Prop where
  nonempty : ∀ entry ∈ map, ∃ b : UInt8, b ∈ entry.1
  once : ∀ entry ∈ map, ∀ entry' ∈ map, entry.2 = entry'.2 → entry = entry'
  below : ∀ entry ∈ map, entry.2 < map.length

/-- The lookup and the mapping of a map. -/
def setMapping (map : CharsetMap) : SetMapping := buildSetMapping (partitionCharsets map) map.length

section Numbered

variable {map : CharsetMap} (numbered : Numbered map)

include numbered

theorem Numbered.mapped : Mapped 0 (partitionCharsets map)
    { lookup := fun _ => BitVec.ofNat 32 deadStateIndex, mapping := List.replicate map.length [] } (setMapping map) :=
  buildSetMappingLoop_spec (partitionCharsets_spec numbered.nonempty).1.apart

theorem Numbered.sorted (i : Nat) : ((setMapping map).classes i).Pairwise (· < ·) := by
  unfold SetMapping.classes
  cases here : (setMapping map).mapping[i]? with
  | none => exact List.Pairwise.nil
  | some set =>
      apply numbered.mapped.sorted _ set (List.mem_of_getElem? here)
      intro set member
      rw [List.eq_of_mem_replicate member]
      exact List.Pairwise.nil

theorem Numbered.mem_classes {i k : Nat} (below : i < map.length) : k ∈ (setMapping map).classes i ↔
    ∃ charset, (partitionCharsets map)[k]? = some charset ∧ i ∈ charset.indexSet := by
  rw [numbered.mapped.mapping i (by simpa using below)]
  have none_ : k ∉ SetMapping.classes
      { lookup := fun _ => BitVec.ofNat 32 deadStateIndex, mapping := List.replicate map.length [] } i := by
    simp [SetMapping.classes, below]
  rw [or_iff_right none_]
  simp

/-- The column of a byte is that of its class. -/
theorem Numbered.lookup_class {b : UInt8} {k : Nat} {charset : Charset} (here : (partitionCharsets map)[k]? = some charset)
    (inside : b ∈ charset.token) : (setMapping map).lookup b = BitVec.ofNat 32 (k + transitionsIndex) := by
  rw [numbered.mapped.column k charset here b inside, Nat.zero_add]

/-- The bytes of no set are sent to the dead column, any other byte to one of the
classes. -/
theorem Numbered.lookup (b : UInt8) :
    (setMapping map).lookup b = BitVec.ofNat 32 deadStateIndex ∧ (∀ entry ∈ map, b ∉ entry.1) ∨
      ∃ k charset, (partitionCharsets map)[k]? = some charset ∧ b ∈ charset.token ∧
        (setMapping map).lookup b = BitVec.ofNat 32 (k + transitionsIndex) := by
  have covers := (partitionCharsets_spec numbered.nonempty).2.1 b
  by_cases nonempty : ∃ charset ∈ partitionCharsets map, b ∈ charset.token
  · obtain ⟨charset, member, here⟩ := nonempty
    obtain ⟨k, there⟩ := List.getElem?_of_mem member
    exact Or.inr ⟨k, charset, there, here, numbered.lookup_class there here⟩
  · refine Or.inl ⟨?_, fun entry member here => nonempty (covers.2 ⟨entry, member, here⟩)⟩
    exact numbered.mapped.lookup b fun charset member here => nonempty ⟨charset, member, here⟩

/-- **A byte is in a set if the class that the lookup gives it is one of the set's.** -/
theorem Numbered.reads_iff {entry : StringToken × Nat} (member : entry ∈ map) {b : UInt8} {k : Nat} {charset : Charset}
    (here : (partitionCharsets map)[k]? = some charset) (inside : b ∈ charset.token) :
    b ∈ entry.1 ↔ k ∈ (setMapping map).classes entry.2 := by
  rw [numbered.mem_classes (numbered.below entry member)]
  have numbers := (partitionCharsets_spec numbered.nonempty).2.2 charset (List.mem_of_getElem? here) b inside entry.2
  constructor
  · exact fun read => ⟨charset, here, numbers.2 ⟨entry, member, read, rfl⟩⟩
  · rintro ⟨charset', here', number⟩
    obtain rfl : charset' = charset := Option.some.inj (here'.symm.trans here)
    obtain ⟨entry', member', read, same⟩ := numbers.1 number
    obtain rfl := numbered.once entry' member' entry member same
    exact read

/-- **Bytes get one column if no set tells them apart, and only then** -- there are fewer classes than a column can count. -/
theorem Numbered.lookup_eq_iff (few : (partitionCharsets map).length ≤ 256) {b b' : UInt8} :
    (setMapping map).lookup b = (setMapping map).lookup b' ↔ Alike map b b' := by
  have inRange : ∀ {k : Nat} {charset : Charset}, (partitionCharsets map)[k]? = some charset → k < 256 :=
    fun here => Nat.lt_of_lt_of_le (List.getElem?_eq_some_iff.1 here).1 few
  constructor
  · intro same entry member
    rcases numbered.lookup b with ⟨dead, outside⟩ | ⟨k, charset, here, inside, value⟩ <;>
      rcases numbered.lookup b' with ⟨dead', outside'⟩ | ⟨k', charset', here', inside', value'⟩
    · exact iff_of_false (outside entry member) (outside' entry member)
    · have value := congrArg BitVec.toNat (dead.symm.trans (same.trans value'))
      rw [classColumn_toNat (inRange here')] at value
      exact absurd value (by show ¬ 6 = k' + 7; omega)
    · have value := congrArg BitVec.toNat (dead'.symm.trans (same.symm.trans value))
      rw [classColumn_toNat (inRange here)] at value
      exact absurd value (by show ¬ 6 = k + 7; omega)
    · have equal := congrArg BitVec.toNat (value.symm.trans (same.trans value'))
      rw [classColumn_toNat (inRange here), classColumn_toNat (inRange here')] at equal
      obtain rfl : k = k' := Nat.add_right_cancel equal
      obtain rfl : charset = charset' := Option.some.inj (here.symm.trans here')
      rw [numbered.reads_iff member here inside, numbered.reads_iff member here inside']
  · intro alike
    rcases numbered.lookup b with ⟨dead, outside⟩ | ⟨k, charset, here, inside, value⟩
    · rcases numbered.lookup b' with ⟨dead', -⟩ | ⟨k', charset', here', inside', -⟩
      · rw [dead, dead']
      · have inside := (partitionCharsets_alike alike charset' (List.mem_of_getElem? here')).2 inside'
        obtain ⟨entry, member, read⟩ :=
          ((partitionCharsets_spec numbered.nonempty).2.1 b).1 ⟨charset', List.mem_of_getElem? here', inside⟩
        exact absurd read (outside entry member)
    · rw [value, numbered.lookup_class here ((partitionCharsets_alike alike charset (List.mem_of_getElem? here)).1 inside)]

/-- **A set is the union of its classes.** -/
theorem Numbered.mem_iff_class (few : (partitionCharsets map).length ≤ 256) {entry : StringToken × Nat} (member : entry ∈ map)
    {b : UInt8} : b ∈ entry.1 ↔
      ∃ k ∈ (setMapping map).classes entry.2, (setMapping map).lookup b = BitVec.ofNat 32 (k + transitionsIndex) := by
  constructor
  · intro read
    rcases numbered.lookup b with ⟨-, outside⟩ | ⟨k, charset, here, inside, value⟩
    · exact absurd read (outside entry member)
    · exact ⟨k, (numbered.reads_iff member here inside).1 read, value⟩
  · rintro ⟨k, class_, value⟩
    obtain ⟨charset, here, -⟩ := (numbered.mem_classes (numbered.below entry member)).1 class_
    obtain ⟨c, inside⟩ := (partitionCharsets_spec numbered.nonempty).1.nonempty charset (List.mem_of_getElem? here)
    have read : c ∈ entry.1 := (numbered.reads_iff member here inside).2 class_
    have alike := (numbered.lookup_eq_iff few).1 (value.trans (numbered.lookup_class here inside).symm)
    exact (alike entry member).2 read

end Numbered

end Orchid
