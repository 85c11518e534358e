/-
# RegexParse.PlainTable -- what is relied on of lexertl, and a table that meets it

`Recognises` is the contract with lexertl: the runs of the table from its start row
reach an end row exactly on the words an entry's text stands for, and the end row has
the id of the first such entry.  `Trim` adds that no row is reached from which nothing
can be matched any more.

`plainTable` is a table for entries whose texts stand for themselves up to case: its
rows are the left factors of the texts, its classes the bytes up to case.  It meets
the contract for every list that leaves the rows below 65535
(`plainTable_recognises`), so the contract is not an empty one.
-/
import Orchid.RegexParse.Reassemble

namespace Orchid

open Orchid.Theory

set_option autoImplicit false

/-! ## The contract -/

/-- The meaning of a text without metacharacters. -/
def SameText (regex text : CStr) : Prop := convertCaseEx text = convertCaseEx regex

/-- The bytes lexertl's regular expressions give a meaning of their own. -/
def metacharacters : CStr := cstr "\"\\()?*+\x7b|^$./["

def Plain (apps : List AppEntryT) : Prop := ∀ app ∈ apps, ∀ c ∈ app.regex, c ∉ metacharacters

/-- The first entry of the list that stands for the word. -/
def FirstMatch (denotes : CStr → CStr → Prop) (apps : List AppEntryT) (text : CStr) (app : AppEntryT) : Prop :=
  ∃ k : Nat, apps[k]? = some app ∧ denotes app.regex text ∧
    ∀ j < k, ∀ earlier : AppEntryT, apps[j]? = some earlier → ¬ denotes earlier.regex text

structure Recognises (table : LexTable) (R C : Nat) (apps : List AppEntryT)
    (denotes : CStr → CStr → Prop) : Prop where
  shaped : Shaped table R C
  ends : ∀ text row, run table.step 1 text = some row → table.isEnd row →
    ∃ app, FirstMatch denotes apps text app ∧ table.id row = app.appId
  complete : ∀ text, ∀ app ∈ apps, denotes app.regex text →
    ∃ row, run table.step 1 text = some row ∧ table.isEnd row

/-- A missing transition is missing: what has been read is the start of something. -/
def Trim (table : LexTable) (apps : List AppEntryT) (denotes : CStr → CStr → Prop) : Prop :=
  ∀ text row, run table.step 1 text = some row →
    text = [] ∨ ∃ app ∈ apps, ∃ more, denotes app.regex (text ++ more)

/-! ## Character classes -/

/-- The class of a byte: the 230 bytes that are no small letter. -/
def foldClass (b : UInt8) : Nat :=
  if (xlatcase b).toNat < 97 then (xlatcase b).toNat else (xlatcase b).toNat - 26

def classByte (k : Nat) : UInt8 := UInt8.ofNat (if k < 97 then k else k + 26)

/-- No small letter is left. -/
theorem xlatcase_range (b : UInt8) : (xlatcase b).toNat < 97 ∨ 122 < (xlatcase b).toNat := by
  unfold xlatcase
  by_cases small : 97 ≤ b ∧ b ≤ 122
  · have low : 97 ≤ b.toNat := UInt8.le_iff_toNat_le.1 small.1
    have high : b.toNat ≤ 122 := UInt8.le_iff_toNat_le.1 small.2
    have above : (32 : UInt8) ≤ b := UInt8.le_iff_toNat_le.2 (by show 32 ≤ b.toNat; omega)
    rw [if_pos small, UInt8.toNat_sub_of_le _ _ above]
    show b.toNat - 32 < 97 ∨ _
    omega
  · rw [if_neg small]
    by_cases low : 97 ≤ b
    · refine Or.inr (Nat.lt_of_not_le fun high => small ⟨low, UInt8.le_iff_toNat_le.2 high⟩)
    · exact Or.inl (Nat.lt_of_not_le fun high => low (UInt8.le_iff_toNat_le.2 high))

theorem xlatcase_xlatcase (b : UInt8) : xlatcase (xlatcase b) = xlatcase b := by
  have big : ¬ (97 ≤ xlatcase b ∧ xlatcase b ≤ 122) := by
    rintro ⟨low, high⟩
    have low' : 97 ≤ (xlatcase b).toNat := UInt8.le_iff_toNat_le.1 low
    have high' : (xlatcase b).toNat ≤ 122 := UInt8.le_iff_toNat_le.1 high
    have := xlatcase_range b
    omega
  exact if_neg big

theorem convertCaseEx_convertCaseEx (text : CStr) : convertCaseEx (convertCaseEx text) = convertCaseEx text := by
  unfold convertCaseEx
  rw [List.map_map]
  exact List.map_congr_left fun b _ => xlatcase_xlatcase b

theorem convertCaseEx_append (u w : CStr) : convertCaseEx (u ++ w) = convertCaseEx u ++ convertCaseEx w :=
  List.map_append

theorem foldClass_lt (b : UInt8) : foldClass b < 230 := by
  have bound := UInt8.toNat_lt (xlatcase b)
  unfold foldClass
  rcases xlatcase_range b with low | high
  · rw [if_pos low]
    omega
  · rw [if_neg (by omega)]
    omega

theorem classByte_foldClass (b : UInt8) : classByte (foldClass b) = xlatcase b := by
  have bound := UInt8.toNat_lt (xlatcase b)
  unfold classByte foldClass
  rcases xlatcase_range b with low | high
  · rw [if_pos low, if_pos low, UInt8.ofNat_toNat]
  · have notLow : ¬ (xlatcase b).toNat < 97 := by omega
    have notLow' : ¬ (xlatcase b).toNat - 26 < 97 := by omega
    have back : (xlatcase b).toNat - 26 + 26 = (xlatcase b).toNat := by omega
    rw [if_neg notLow, if_neg notLow', back, UInt8.ofNat_toNat]

/-! ## The table -/

section PlainTable

variable (apps : List AppEntryT)

/-- The left factors of the texts, the empty word in front. -/
def stemList : List CStr :=
  [] :: ((apps.flatMap fun app => (foldedText app).inits).filter (· ≠ [])).dedup

def stemRow (u : CStr) : Nat := (stemList apps).idxOf u + 1

def rowStem (r : Nat) : CStr := (stemList apps)[r - 1]?.getD []

def plainRows : Nat := (stemList apps).length + 1

def plainCell (r c : Nat) : Uint :=
  if r = 0 then 0
  else if transitionsIndex ≤ c then
    let next := rowStem apps r ++ [classByte (c - transitionsIndex)]
    if next ∈ stemList apps then BitVec.ofNat 32 (stemRow apps next) else 0
  else
    match apps.find? fun app => foldedText app = rowStem apps r with
    | none => 0
    | some app =>
        if c = endStateIndex then 1
        else if c = idIndex then app.appId
        else if c = userIdIndex ∨ c = pushDfaIndex then npos
        else 0

/-- The number of columns: seven and the classes. -/
def plainAlphabet : Nat := 7 + 230

def plainTable : LexTable :=
  { alphabet := plainAlphabet
    lookup := fun b => BitVec.ofNat 32 (transitionsIndex + foldClass b)
    dfa := (List.range (plainAlphabet * plainRows apps)).map fun i =>
      plainCell apps (i / plainAlphabet) (i % plainAlphabet) }

variable {apps}

theorem mem_stemList {u : CStr} : u ∈ stemList apps ↔ Stem foldedText apps u := by
  by_cases empty : u = []
  · simp [stemList, Stem, empty]
  · simp [stemList, Stem, empty]

theorem stemRow_lt {u : CStr} (member : u ∈ stemList apps) : stemRow apps u < plainRows apps :=
  Nat.succ_lt_succ (List.idxOf_lt_length_of_mem member)

theorem rowStem_stemRow {u : CStr} (member : u ∈ stemList apps) : rowStem apps (stemRow apps u) = u := by
  rw [rowStem, stemRow, Nat.add_sub_cancel, List.getElem?_eq_getElem (List.idxOf_lt_length_of_mem member),
    List.getElem_idxOf]
  rfl

theorem stemRow_nil : stemRow apps [] = 1 := by
  simp [stemRow, stemList]

theorem plainTable_cell {r c : Nat} (row : r < plainRows apps) (column : c < plainAlphabet) :
    (plainTable apps).cell r c = plainCell apps r c := by
  have inside : plainAlphabet * r + c < plainAlphabet * plainRows apps := by
    have next : plainAlphabet * (r + 1) ≤ plainAlphabet * plainRows apps := Nat.mul_le_mul_left _ row
    rw [Nat.mul_succ] at next
    omega
  have positive : 0 < plainAlphabet := Nat.lt_of_le_of_lt (Nat.zero_le c) column
  show ((List.range (plainAlphabet * plainRows apps)).map _)[plainAlphabet * r + c]?.getD 0 = _
  rw [List.getElem?_map, List.getElem?_range inside, Option.map_some, Option.getD_some,
    Nat.mul_add_div positive, Nat.div_eq_of_lt column, Nat.add_zero, Nat.mul_add_mod,
    Nat.mod_eq_of_lt column]

/-- The cell a byte leads through. -/
theorem plainCell_transition {u : CStr} (member : u ∈ stemList apps) (b : UInt8) :
    plainCell apps (stemRow apps u) (transitionsIndex + foldClass b) =
      if u ++ [xlatcase b] ∈ stemList apps then BitVec.ofNat 32 (stemRow apps (u ++ [xlatcase b])) else 0 := by
  have row : ¬ stemRow apps u = 0 := Nat.succ_ne_zero _
  simp only [plainCell, if_neg row, if_pos (Nat.le_add_right transitionsIndex (foldClass b)),
    rowStem_stemRow member, Nat.add_sub_cancel_left, classByte_foldClass]

/-- The cells in front of the classes: those of the entry whose text is the stem. -/
theorem plainCell_low {u : CStr} (member : u ∈ stemList apps) {c : Nat} (low : c < 7) :
    plainCell apps (stemRow apps u) c =
      match apps.find? fun app => foldedText app = u with
      | none => 0
      | some app =>
          if c = endStateIndex then 1
          else if c = idIndex then app.appId
          else if c = userIdIndex ∨ c = pushDfaIndex then npos
          else 0 := by
  have row : ¬ stemRow apps u = 0 := Nat.succ_ne_zero _
  have column : ¬ transitionsIndex ≤ c := Nat.not_le.2 low
  simp only [plainCell, if_neg row, if_neg column, rowStem_stemRow member]

theorem plainTable_lookup (b : UInt8) :
    ((plainTable apps).lookup b).toNat = transitionsIndex + foldClass b := by
  have bound := foldClass_lt b
  show (BitVec.ofNat 32 (transitionsIndex + foldClass b)).toNat = _
  rw [BitVec.toNat_ofNat, Nat.mod_eq_of_lt (by unfold transitionsIndex; omega)]

section Few

variable (few : plainRows apps < 65535)

include few

theorem stemRow_toNat {u : CStr} (member : u ∈ stemList apps) :
    (BitVec.ofNat 32 (stemRow apps u) : Uint).toNat = stemRow apps u := by
  have := stemRow_lt member
  rw [BitVec.toNat_ofNat, Nat.mod_eq_of_lt (by omega)]

theorem plainCell_lt {r c : Nat} (high : 6 ≤ c) : (plainCell apps r c).toNat < plainRows apps := by
  have positive : 0 < plainRows apps := Nat.succ_pos _
  unfold plainCell
  by_cases jam : r = 0
  · rw [if_pos jam]
    exact positive
  · rw [if_neg jam]
    by_cases column : transitionsIndex ≤ c
    · rw [if_pos column]
      by_cases member : rowStem apps r ++ [classByte (c - transitionsIndex)] ∈ stemList apps
      · simp only [if_pos member, stemRow_toNat few member]
        exact stemRow_lt member
      · simp only [if_neg member]
        exact positive
    · obtain rfl : c = 6 := by unfold transitionsIndex at column; omega
      rw [if_neg column]
      split <;> exact positive

/-- The table is shaped like lexertl's. -/
theorem plainTable_shaped : Shaped (plainTable apps) (plainRows apps) 230 := by
  refine ⟨rfl, by decide, ?_, Nat.succ_le_succ (Nat.succ_pos _), few, fun b => ?_,
    fun r below c high column => ?_, fun r positive below => ?_⟩
  · show ((List.range _).map _).length = _
    rw [List.length_map, List.length_range]
    rfl
  · have bound := foldClass_lt b
    rw [plainTable_lookup]
    unfold transitionsIndex
    omega
  · rw [plainTable_cell below column]
    exact plainCell_lt few high
  · rw [plainTable_cell below (by decide)]
    unfold plainCell
    rw [if_neg (by omega), if_neg (by decide)]
    split
    · decide
    · show (1 : Uint).toNat < 4
      decide

theorem plainTable_step {u : CStr} (member : u ∈ stemList apps) (b : UInt8) :
    (plainTable apps).step (stemRow apps u) b =
      if u ++ [xlatcase b] ∈ stemList apps then some (stemRow apps (u ++ [xlatcase b])) else none := by
  have bound := foldClass_lt b
  have column : transitionsIndex + foldClass b < plainAlphabet := by
    unfold transitionsIndex plainAlphabet
    omega
  unfold LexTable.step
  rw [plainTable_lookup, plainTable_cell (stemRow_lt member) column, plainCell_transition member]
  by_cases next : u ++ [xlatcase b] ∈ stemList apps
  · have nonzero : ¬ (BitVec.ofNat 32 (stemRow apps (u ++ [xlatcase b])) : Uint) = 0 := by
      rw [← BitVec.toNat_inj, stemRow_toNat few next]
      exact Nat.succ_ne_zero _
    simp only [if_pos next, if_neg nonzero, stemRow_toNat few next]
  · simp only [if_neg next, if_true]

/-- The run on a word is the row of the word, if the word is a stem. -/
theorem plainTable_run (text : CStr) : ∀ {u : CStr}, u ∈ stemList apps →
    run (plainTable apps).step (stemRow apps u) text =
      if u ++ convertCaseEx text ∈ stemList apps then some (stemRow apps (u ++ convertCaseEx text))
      else none := by
  induction text with
  | nil =>
      intro u member
      show some (stemRow apps u) = if u ++ [] ∈ stemList apps then some (stemRow apps (u ++ [])) else none
      rw [List.append_nil, if_pos member]
  | cons b text ih =>
      intro u member
      have assoc : u ++ convertCaseEx (b :: text) = (u ++ [xlatcase b]) ++ convertCaseEx text := by
        simp [convertCaseEx]
      rw [run, plainTable_step few member, assoc]
      by_cases next : u ++ [xlatcase b] ∈ stemList apps
      · rw [if_pos next]
        exact ih next
      · have stuck : ¬ (u ++ [xlatcase b]) ++ convertCaseEx text ∈ stemList apps := by
          rw [mem_stemList] at next ⊢
          exact fun readable => next ((stem_leftClosed foldedText apps).left readable)
        rw [if_neg next, if_neg stuck]
        rfl

theorem plainTable_run_start (text : CStr) :
    run (plainTable apps).step 1 text =
      if Stem foldedText apps (convertCaseEx text) then some (stemRow apps (convertCaseEx text))
      else none := by
  have root : ([] : CStr) ∈ stemList apps := mem_stemList.2 (Or.inl rfl)
  have ran := plainTable_run few text root
  rw [stemRow_nil, List.nil_append] at ran
  rw [ran]
  exact if_congr mem_stemList rfl rfl

/-- The columns in front of the classes, at the row of a word. -/
theorem plainTable_cell_run {text : CStr} {row : Nat} (ran : run (plainTable apps).step 1 text = some row)
    {c : Nat} (low : c < 7) : (plainTable apps).cell row c =
      match apps.find? fun app => foldedText app = convertCaseEx text with
      | none => 0
      | some app =>
          if c = endStateIndex then 1
          else if c = idIndex then app.appId
          else if c = userIdIndex ∨ c = pushDfaIndex then npos
          else 0 := by
  rw [plainTable_run_start few] at ran
  by_cases stem : Stem foldedText apps (convertCaseEx text)
  · rw [if_pos stem] at ran
    obtain rfl := Option.some.inj ran
    have member := mem_stemList.2 stem
    rw [plainTable_cell (stemRow_lt member) (by unfold plainAlphabet; omega), plainCell_low member low]
  · rw [if_neg stem] at ran
    cases ran

omit few in
/-- The entry that a search of the list finds is the first one with the text. -/
theorem firstMatch_of_find? {text : CStr} {app : AppEntryT}
    (found : (apps.find? fun app => foldedText app = convertCaseEx text) = some app) :
    FirstMatch SameText apps text app := by
  obtain ⟨same, k, inside, here, earlier⟩ := List.find?_eq_some_iff_getElem.1 found
  refine ⟨k, List.getElem?_eq_some_iff.2 ⟨inside, here⟩, (decide_eq_true_eq.mp same).symm,
    fun j before other there denoted => ?_⟩
  obtain ⟨below, rfl⟩ := List.getElem?_eq_some_iff.1 there
  have differs := earlier j before
  simp only [Bool.not_eq_true', decide_eq_false_iff_not] at differs
  exact differs denoted.symm

/-- Every word that can be read is a prefix of some entry's text. -/
theorem plainTable_trim : Trim (plainTable apps) apps SameText := by
  intro text row ran
  rw [plainTable_run_start few] at ran
  by_cases stem : Stem foldedText apps (convertCaseEx text)
  · rcases stem with empty | ⟨app, member, more, split⟩
    · exact Or.inl (List.map_eq_nil_iff.1 empty)
    · refine Or.inr ⟨app, member, app.regex.drop text.length, ?_⟩
      show convertCaseEx (text ++ app.regex.drop text.length) = convertCaseEx app.regex
      have length : (convertCaseEx text).length = text.length := List.length_map ..
      have rest : convertCaseEx (app.regex.drop text.length) = more := by
        have folded : foldedText app = convertCaseEx text ++ more := split.symm
        show (app.regex.drop text.length).map xlatcase = more
        rw [List.map_drop]
        show (foldedText app).drop text.length = more
        rw [folded, ← length, List.drop_left]
      rw [convertCaseEx_append, rest, split]
      rfl
  · rw [if_neg stem] at ran
    cases ran

/-- **The table meets the contract.** -/
theorem plainTable_recognises :
    Recognises (plainTable apps) (plainRows apps) 230 apps SameText ∧ Trim (plainTable apps) apps SameText := by
  refine ⟨⟨plainTable_shaped few, fun text row ran isEnd => ?_, fun text app member same => ?_⟩,
    plainTable_trim few⟩
  · unfold LexTable.isEnd at isEnd
    rw [plainTable_cell_run few ran (by decide)] at isEnd
    cases found : apps.find? fun app => foldedText app = convertCaseEx text with
    | none =>
        rw [found] at isEnd
        exact absurd rfl isEnd
    | some app =>
        refine ⟨app, firstMatch_of_find? found, ?_⟩
        unfold LexTable.id
        rw [plainTable_cell_run few ran (by decide), found]
        rfl
  · have stem : Stem foldedText apps (convertCaseEx text) := by
      rw [same]
      exact stem_text foldedText apps member
    have ran := plainTable_run_start few text
    rw [if_pos stem] at ran
    refine ⟨_, ran, ?_⟩
    unfold LexTable.isEnd
    rw [plainTable_cell_run few ran (by decide)]
    cases found : apps.find? fun app => foldedText app = convertCaseEx text with
    | none =>
        have differs := List.find?_eq_none.1 found app member
        exact absurd (decide_eq_true same.symm) differs
    | some app =>
        show (1 : Uint) ≠ 0
        decide

end Few

end PlainTable

end Orchid
