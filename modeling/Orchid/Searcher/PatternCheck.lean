/-
# Searcher.PatternCheck -- which signatures the check reports

Over a table as installation lays it out, an offset is a place of a signature, a
slot of `exp_array` is a place waited for (or `0xFFFF`), and `patternCheck` is the
chain matcher of `Theory.ChainMatcher` with eight slots (`patternCheckLoop_run`).
The two laws of the matcher then say what is reported: only signatures whose
elements were all recorded in order, and all of those as long as fewer than eight
first elements were recorded before the last one.

A slot is never given back, and a row names its signature in 16 bits, so both
bounds are real: `ninth_chain_lost` and `report_names_another`.
-/
import Orchid.Loader.Split
import Orchid.Searcher.HttpSearch
import Orchid.Theory.ChainMatcher

namespace Orchid

open Orchid.Theory

set_option autoImplicit false

/-! ## The table -/

/-- The tables as installation lays them out for signatures of the sizes `ks`, with
exact flags. -/
structure LaidOut (info : AppInfoS) (ks : List Nat) : Prop where
  eles : info.eles = elementTable (fun _ => 0) ks
  few : ks.sum < 65535
  sigs : ks.length ≤ info.sigs.length

/-- What installation leaves over cleared flags. -/
theorem laidOut_of_installed {root : List ApplicationS} {mem : Memory} {summary : AppStatisticsS}
    {info : AppInfoS} {appList : List AppEntryT} (few : (signatures root).flatten.length < 65535)
    (counted : getApplicationSummary root = .ok summary)
    (installed : installApplication mem summary root = .ok (info, appList))
    (cleared : ∀ i, (mem.eles i).flag = 0) : LaidOut info (sigSizes root) := by
  obtain ⟨sigNums, eleNums⟩ := getApplicationSummary_counts counted
  obtain ⟨-, -, rows, sigs⟩ := installApplication_ok installed
  refine ⟨?_, ?_, ?_⟩
  · rw [rows, eleNums, Nat.sub_self]
    simp [cleared]
  · rwa [List.length_flatten] at few
  · rw [sigs, sigNums]

/-- The element offset in a recorded word. -/
def eleOffsetOf (word : Uint) : Nat := (word &&& 0xFFFF).toNat

def sizeAt (ks : List Nat) (g : Nat) : Nat := ks[g]?.getD 0

/-- The offset of a place. -/
def offsetOf (ks : List Nat) (place : Nat × Nat) : Nat := start ks place.1 + place.2

/-- What a slot holds. -/
def slotValue (ks : List Nat) : Option (Nat × Nat) → Nat
  | none => 0xFFFF
  | some place => offsetOf ks place

/-- The line printed for signature `g`: the row names it in 16 bits. -/
def reportOf (info : AppInfoS) (i g : Nat) : Report :=
  let sigid := ((info.sigs[(BitVec.ofNat 16 g : Ushort).toNat]?).map SigEntryS.sigid).getD 0
  { pos := i
    sigindex := BitVec.ofNat 16 g
    app := sigid &&& 0xFFFF
    category := (sigid &&& 0xFFFF0000) >>> 16 }

theorem sizeAt_eq {ks : List Nat} {g k : Nat} (here : ks[g]? = some k) : sizeAt ks g = k := by
  rw [sizeAt, here]
  rfl

theorem getElem?_of_lt_sizeAt {ks : List Nat} {g j : Nat} (below : j < sizeAt ks g) :
    ks[g]? = some (sizeAt ks g) := by
  cases here : ks[g]? with
  | none =>
      rw [sizeAt, here] at below
      exact absurd below (Nat.not_lt_zero j)
  | some k => rw [sizeAt_eq here]

/-- A waiting slot matches the offset of its own place only. -/
theorem offsetOf_inj {ks : List Nat} {p q : Nat × Nat} (hp : p.2 < sizeAt ks p.1)
    (hq : q.2 < sizeAt ks q.1) (same : offsetOf ks p = offsetOf ks q) : p = q := by
  obtain ⟨chain, place⟩ :=
    segment_unique (getElem?_of_lt_sizeAt hp) (getElem?_of_lt_sizeAt hq) hp hq same
  exact Prod.ext chain place

theorem offsetOf_lt {ks : List Nat} {p : Nat × Nat} (valid : p.2 < sizeAt ks p.1) :
    offsetOf ks p < ks.sum :=
  start_add_lt (getElem?_of_lt_sizeAt valid) valid

theorem slotValue_eq_iff {ks : List Nat} (few : ks.sum < 65535) {place : Nat × Nat}
    (valid : place.2 < sizeAt ks place.1) {slot : Option (Nat × Nat)}
    (waits : ∀ g j, slot = some (g, j) → j < sizeAt ks g) :
    slotValue ks slot = offsetOf ks place ↔ slot = some place := by
  cases slot with
  | none =>
      have below := offsetOf_lt valid
      constructor
      · intro same
        rw [slotValue] at same
        omega
      · intro impossible
        cases impossible
  | some p =>
      constructor
      · intro same
        exact congrArg some (offsetOf_inj (waits p.1 p.2 rfl) valid same)
      · intro same
        rw [same]
        rfl

section Layout

variable {info : AppInfoS} {ks : List Nat}

/-- The row at a place. -/
theorem LaidOut.row (layout : LaidOut info ks) {place : Nat × Nat}
    (valid : place.2 < sizeAt ks place.1) :
    info.eles[offsetOf ks place]? = some
      (elementRow (fun _ => 0) place.1 (start ks place.1) (sizeAt ks place.1) place.2) := by
  rw [layout.eles, offsetOf, elementTable, getElem?_spread _ (getElem?_of_lt_sizeAt valid) valid,
    Nat.zero_add, Nat.zero_add]

theorem LaidOut.printMatch (layout : LaidOut info ks) {place : Nat × Nat}
    (valid : place.2 < sizeAt ks place.1) (i : Nat) :
    printMatch info i
        (elementRow (fun _ => 0) place.1 (start ks place.1) (sizeAt ks place.1) place.2) =
      .ok (reportOf info i place.1) := by
  have inRange : place.1 < ks.length := (List.getElem?_eq_some_iff.1 (getElem?_of_lt_sizeAt valid)).1
  have found : (BitVec.ofNat 16 place.1 : Ushort).toNat < info.sigs.length := by
    rw [BitVec.toNat_ofNat]
    exact (Nat.mod_le ..).trans_lt (inRange.trans_le layout.sigs)
  simp only [Orchid.printMatch, elementRow, reportOf, List.getElem?_eq_getElem found]
  rfl

/-- The next offset in a row is what is waited for after its place. -/
theorem LaidOut.next (layout : LaidOut info ks) {place : Nat × Nat}
    (valid : place.2 < sizeAt ks place.1) :
    (elementRow (fun _ => 0) place.1 (start ks place.1) (sizeAt ks place.1)
      place.2).expEleIndex.toNat = slotValue ks (await (sizeAt ks) place.1 place.2) := by
  have below := offsetOf_lt valid
  have few := layout.few
  unfold offsetOf at below
  unfold elementRow await
  by_cases last : place.2 + 1 = sizeAt ks place.1
  · simp only [last, if_true]
    rfl
  · simp only [last, if_false, slotValue, offsetOf, BitVec.toNat_ofNat]
    omega

/-! ## One round -/

/-- The inner loop, where the row can be printed if it is an end. -/
theorem advanceSlots_eq {i eleOffset : Nat} {curEle : ElementEntryS} {report : Report}
    (prints : printMatch info i curEle = .ok report) (slots : List Nat) :
    advanceSlots info i eleOffset curEle slots =
      .ok (slots.map (fun exp => if exp = eleOffset then curEle.expEleIndex.toNat else exp),
        if curEle.flag &&& ELEMENT_END ≠ 0 then List.replicate (slots.count eleOffset) report else []) := by
  induction slots with
  | nil => simp [advanceSlots]
  | cons exp slots ih =>
      rw [advanceSlots, ih]
      by_cases hit : exp = eleOffset
      · rw [if_pos hit]
        by_cases last : curEle.flag &&& ELEMENT_END ≠ 0
        · simp only [if_pos last, prints, hit, if_true, bind, Except.bind, pure, Except.pure,
            List.map_cons, List.count_cons_self, List.replicate_succ, List.singleton_append]
        · simp only [if_neg last, hit, if_true, bind, Except.bind, pure, Except.pure, List.map_cons,
            List.nil_append]
      · rw [if_neg hit]
        simp only [hit, if_false, bind, Except.bind, pure, Except.pure, List.map_cons,
          List.count_cons_of_ne hit]

/-- What the flags of a row say about its place. -/
theorem elementRow_flag (g o k j : Nat) :
    ((elementRow (fun _ => 0) g o k j).flag = ELEMENT_END ||| ELEMENT_START ↔ j = 0 ∧ j + 1 = k) ∧
      ((elementRow (fun _ => 0) g o k j).flag &&& ELEMENT_START ≠ 0 ↔ j = 0) ∧
      ((elementRow (fun _ => 0) g o k j).flag &&& ELEMENT_END ≠ 0 ↔ j + 1 = k) := by
  by_cases first : j = 0
  · by_cases last : j + 1 = k
    · subst first last
      simp only [elementRow]
      decide
    · subst first
      simp only [elementRow, last]
      decide
  · by_cases last : j + 1 = k
    · simp only [elementRow, first, last]
      decide
    · simp only [elementRow, first, last]
      decide

/-- **One round is one step of the matcher.** -/
theorem patternCheckStep_eq (layout : LaidOut info ks) {seen : List (Nat × Nat)}
    {slots : List (Option (Nat × Nat))} (certified : Certified (sizeAt ks) seen slots)
    (free : slots.length < EXP_ARRYR_SIZE) {place : Nat × Nat} (valid : place.2 < sizeAt ks place.1)
    {word : Uint} (offset : eleOffsetOf word = offsetOf ks place) (i : Nat) :
    patternCheckStep info i word (slots.map (slotValue ks)) =
      .ok ((chainStep (sizeAt ks) slots place).1.map (slotValue ks),
        (chainStep (sizeAt ks) slots place).2.map (reportOf info i)) := by
  obtain ⟨single, first, last⟩ :=
    elementRow_flag place.1 (start ks place.1) (sizeAt ks place.1) place.2
  have prints := layout.printMatch valid i
  have next := layout.next valid
  have room : (slots.map (slotValue ks)).length < EXP_ARRYR_SIZE := by rwa [List.length_map]
  rw [patternCheckStep, ← eleOffsetOf, offset, layout.row valid]
  generalize elementRow (fun _ => 0) place.1 (start ks place.1) (sizeAt ks place.1) place.2 = row at *
  by_cases opens : place.2 = 0
  · rw [chainStep, if_pos opens]
    by_cases whole : place.2 + 1 = sizeAt ks place.1
    · have one : sizeAt ks place.1 = 1 := by omega
      simp only [if_pos (single.2 ⟨opens, whole⟩), prints, next, pushExp, if_pos room, if_pos one, bind,
        Except.bind, pure, Except.pure, List.map_append, List.map_cons, List.map_nil, opens]
    · have more : ¬ sizeAt ks place.1 = 1 := by omega
      have notSingle := fun flag => whole (single.1 flag).2
      simp only [if_neg notSingle, if_pos (first.2 opens), next, pushExp, if_pos room, if_neg more, bind,
        Except.bind, pure, Except.pure, List.map_append, List.map_cons, List.map_nil, opens]
  · rw [chainStep, if_neg opens]
    have notSingle := fun flag => opens (single.1 flag).1
    have waits : ∀ slot ∈ slots, (slotValue ks slot = offsetOf ks place ↔ slot = some place) := by
      intro slot inside
      refine slotValue_eq_iff layout.few valid fun g j same => ?_
      subst same
      exact (certified g j inside).1
    have moved : (slots.map (slotValue ks)).map (fun exp => if exp = offsetOf ks place then
          slotValue ks (await (sizeAt ks) place.1 place.2) else exp) =
        (slots.map fun slot => if slot = some place then await (sizeAt ks) place.1 place.2
          else slot).map (slotValue ks) := by
      rw [List.map_map, List.map_map]
      refine List.map_congr_left fun slot inside => ?_
      simp only [Function.comp_apply, waits slot inside]
      split <;> rfl
    have counted : (slots.map (slotValue ks)).count (offsetOf ks place) = slots.count (some place) := by
      rw [List.count, List.countP_map, List.count]
      refine List.countP_congr fun slot inside => ?_
      simpa using waits slot inside
    simp only [if_neg notSingle, if_neg (first.not.2 opens), advanceSlots_eq prints, next, moved, counted]
    by_cases ends_ : place.2 + 1 = sizeAt ks place.1
    · rw [if_pos (last.2 ends_), if_pos ends_, List.map_replicate]
    · rw [if_neg (last.not.2 ends_), if_neg ends_]
      rfl

/-! ## The run -/

/-- **The check is a run of the matcher with eight slots.** -/
theorem patternCheckLoop_run (layout : LaidOut info ks) (stream : List (Nat × Nat)) :
    ∀ (words : List Uint) (seen : List (Nat × Nat)) (slots : List (Option (Nat × Nat))),
      (∀ place ∈ stream, place.2 < sizeAt ks place.1) →
      words.map eleOffsetOf = stream.map (offsetOf ks) →
      Certified (sizeAt ks) seen slots → slots.length < EXP_ARRYR_SIZE →
      patternCheckLoop info seen.length (slots.map (slotValue ks)) words =
        .ok ((chainRun (sizeAt ks) EXP_ARRYR_SIZE seen.length slots stream).map
          fun done => reportOf info done.1 done.2) := by
  induction stream with
  | nil =>
      intro words seen slots _ offsets _ _
      rw [List.map_nil, List.map_eq_nil_iff] at offsets
      subst offsets
      rfl
  | cons place stream ih =>
      intro words seen slots valid offsets certified free
      obtain ⟨word, rest, rfl, first, others⟩ := List.map_eq_cons_iff.1 offsets
      have inChain := valid place (List.mem_cons_self ..)
      have next := certified.step inChain
      have length := length_chainStep (sizeAt ks) slots place
      rw [patternCheckLoop, patternCheckStep_eq layout certified free inChain first, chainRun]
      simp only [bind, Except.bind, pure, Except.pure, List.length_map, List.map_append, List.map_map]
      by_cases full : (chainStep (sizeAt ks) slots place).1.length = EXP_ARRYR_SIZE
      · rw [if_pos full, if_pos full, List.map_nil, List.append_nil]
        rfl
      · have position : seen.length + 1 = (seen ++ [place]).length := by simp
        have open_ : (chainStep (sizeAt ks) slots place).1.length < EXP_ARRYR_SIZE := by
          split at length <;> omega
        rw [if_neg full, if_neg full, position,
          ih _ _ _ (fun p inside => valid p (List.mem_cons_of_mem _ inside)) others next open_]
        rfl

/-- Words with valid offsets name places. -/
theorem exists_stream (ks : List Nat) (words : List Uint)
    (valid : ∀ word ∈ words, eleOffsetOf word < ks.sum) :
    ∃ stream : List (Nat × Nat), (∀ place ∈ stream, place.2 < sizeAt ks place.1) ∧
      words.map eleOffsetOf = stream.map (offsetOf ks) := by
  induction words with
  | nil => exact ⟨[], fun _ inside => absurd inside List.not_mem_nil, rfl⟩
  | cons word words ih =>
      obtain ⟨stream, inChain, offsets⟩ := ih fun w inside => valid w (List.mem_cons_of_mem _ inside)
      obtain ⟨g, k, j, here, below, offset⟩ := exists_segment (valid word (List.mem_cons_self ..))
      refine ⟨(g, j) :: stream, ?_, ?_⟩
      · intro place inside
        rcases List.mem_cons.1 inside with rfl | later
        · rw [sizeAt_eq here]
          exact below
        · exact inChain place later
      · rw [List.map_cons, List.map_cons, offsets, offset]
        rfl

/-- The check over words with valid offsets. -/
theorem patternCheck_run (layout : LaidOut info ks) {words : List Uint} {stream : List (Nat × Nat)}
    (inChain : ∀ place ∈ stream, place.2 < sizeAt ks place.1)
    (offsets : words.map eleOffsetOf = stream.map (offsetOf ks)) :
    patternCheck info words =
      .ok (0, (chainRun (sizeAt ks) EXP_ARRYR_SIZE 0 [] stream).map
        fun done => reportOf info done.1 done.2) := by
  have ran := patternCheckLoop_run layout stream words [] [] inChain offsets
    (Certified.nil _) (by decide)
  unfold patternCheck
  rw [List.length_nil, List.map_nil] at ran
  rw [ran]
  rfl

/-! ## What is reported -/

/-- The words name the elements of signature `g`, of `k` elements, in order at the
positions `pos`. -/
structure ElementsAt (ks : List Nat) (words : List Uint) (g k : Nat) (pos : Nat → Nat) : Prop where
  rising : ∀ j, j + 1 < k → pos j < pos (j + 1)
  here : ∀ j < k, ∃ word, words[pos j]? = some word ∧ eleOffsetOf word = start ks g + j

theorem elementsAt_iff {words : List Uint} {stream : List (Nat × Nat)}
    (inChain : ∀ place ∈ stream, place.2 < sizeAt ks place.1)
    (offsets : words.map eleOffsetOf = stream.map (offsetOf ks)) {g k : Nat} (size : ks[g]? = some k)
    {pos : Nat → Nat} : ElementsAt ks words g k pos ↔ StandAt stream g k pos := by
  have named : ∀ (i j : Nat), j < k →
      ((∃ word, words[i]? = some word ∧ eleOffsetOf word = start ks g + j) ↔
        stream[i]? = some (g, j)) := by
    intro i j below
    have same : words[i]?.map eleOffsetOf = stream[i]?.map (offsetOf ks) := by
      rw [← List.getElem?_map, offsets, List.getElem?_map]
    constructor
    · rintro ⟨word, found, offset⟩
      rw [found, Option.map_some, eq_comm, Option.map_eq_some_iff] at same
      obtain ⟨place, inStream, at_⟩ := same
      rw [inStream]
      have valid : j < sizeAt ks g := by rwa [sizeAt_eq size]
      exact congrArg some (offsetOf_inj (q := (g, j)) (inChain place (List.mem_of_getElem? inStream))
        valid (at_.trans offset))
    · intro found
      rw [found, Option.map_some, Option.map_eq_some_iff] at same
      exact same
  constructor
  · rintro ⟨rising, here⟩
    exact ⟨rising, fun j below => (named _ j below).1 (here j below)⟩
  · rintro ⟨rising, here⟩
    exact ⟨rising, fun j below => (named _ j below).2 (here j below)⟩

/-- The word is that of a first element. -/
def isStartWord (info : AppInfoS) (word : Uint) : Bool :=
  match info.eles[eleOffsetOf word]? with
  | none => false
  | some ele => ele.flag &&& ELEMENT_START != 0

/-- The first elements among the words are the first places of the stream. -/
theorem countP_isStartWord (layout : LaidOut info ks) {words : List Uint} {stream : List (Nat × Nat)}
    (inChain : ∀ place ∈ stream, place.2 < sizeAt ks place.1)
    (offsets : words.map eleOffsetOf = stream.map (offsetOf ks)) (n : Nat) :
    (stream.take n).countP (fun place => place.2 = 0) = (words.take n).countP (isStartWord info) := by
  let opens : Nat → Bool := fun offset =>
    match info.eles[offset]? with
    | none => false
    | some ele => ele.flag &&& ELEMENT_START != 0
  have left : (words.take n).countP (isStartWord info) =
      ((words.map eleOffsetOf).take n).countP opens := by
    rw [← List.map_take, List.countP_map]
    rfl
  rw [left, offsets, ← List.map_take, List.countP_map]
  refine List.countP_congr fun place inside => ?_
  have row := layout.row (inChain place (List.mem_of_mem_take inside))
  have first := (elementRow_flag place.1 (start ks place.1) (sizeAt ks place.1) place.2).2.1
  simp only [Function.comp_apply, opens, row, decide_eq_true_eq, bne_iff_ne]
  exact first.symm

theorem validWords {words : List Uint}
    (all : (words.all fun word => eleOffsetOf word < ks.sum) = true) :
    ∀ word ∈ words, eleOffsetOf word < ks.sum :=
  fun word inside => of_decide_eq_true (List.all_eq_true.1 all word inside)

/-- Installed tables of one signature with two elements. -/
def twoElementInfo : AppInfoS :=
  { apps := [⟨0, 7, 0, 1⟩], sigs := [⟨0x10007, 3, 1, 1, 0⟩], eles := [⟨0, 1, 1⟩, ⟨0, 6, 0xFFFF⟩] }

theorem twoElementInfo_laidOut : LaidOut twoElementInfo [2] := by
  obtain ⟨summary, list, counted, installed⟩ : ∃ summary list,
      getApplicationSummary (oneSignature 0x10001 (cstr "http_host=a&http_ua=b")) = .ok summary ∧
        installApplication clearedMemory summary
          (oneSignature 0x10001 (cstr "http_host=a&http_ua=b")) = .ok (twoElementInfo, list) :=
    ⟨_, _, rfl, rfl⟩
  exact laidOut_of_installed (by decide) counted installed fun _ => rfl

/-- **What the check reports was recorded in full.**  It ends without leaving a table,
every line is that of a signature whose elements were recorded in order, the last one
at the line's position, and no word has the offset that marks an end. -/
theorem reported_was_completed (layout : LaidOut info ks) {words : List Uint}
    (valid : ∀ word ∈ words, eleOffsetOf word < ks.sum) :
    ∃ reports, patternCheck info words = .ok (0, reports) ∧
      (∀ r ∈ reports, ∃ g k pos, ks[g]? = some (k + 1) ∧ ElementsAt ks words g (k + 1) pos ∧
        pos k = r.pos ∧ r = reportOf info r.pos g ∧ (ks.length ≤ 65536 → r.sigindex.toNat = g)) ∧
      ∀ word ∈ words, eleOffsetOf word ≠ 0xFFFF := by
  obtain ⟨stream, inChain, offsets⟩ := exists_stream ks words valid
  refine ⟨_, patternCheck_run layout inChain offsets, fun r reported => ?_, fun word inside => ?_⟩
  · obtain ⟨⟨i, g⟩, done, rfl⟩ := List.mem_map.1 reported
    have sound := chainRun_sound (sizeAt ks) stream inChain (Certified.nil _) done
    obtain ⟨positive, last, before⟩ := sound
    rw [List.nil_append] at last before
    obtain ⟨k, size⟩ : ∃ k, sizeAt ks g = k + 1 := Nat.exists_eq_succ_of_ne_zero positive.ne'
    rw [size, Nat.add_sub_cancel] at last before
    have here : ks[g]? = some (k + 1) := size ▸ getElem?_of_lt_sizeAt positive
    obtain ⟨pos, stands, final⟩ := exists_standAt last before
    refine ⟨g, k, pos, here, (elementsAt_iff inChain offsets here).2 stands, final, rfl, fun small => ?_⟩
    have inRange : g < ks.length := (List.getElem?_eq_some_iff.1 here).1
    show (BitVec.ofNat 16 g : Ushort).toNat = g
    rw [BitVec.toNat_ofNat]
    exact Nat.mod_eq_of_lt (by omega)
  · have below := valid word inside
    have few := layout.few
    omega

/-- Both elements of the signature, in order. -/
theorem reported_two_elements : ∃ reports,
    patternCheck twoElementInfo [0x01000000, 0x02000001] = .ok (0, reports) ∧
      (∀ r ∈ reports, ∃ g k pos, [2][g]? = some (k + 1) ∧
        ElementsAt [2] [0x01000000, 0x02000001] g (k + 1) pos ∧ pos k = r.pos ∧
        r = reportOf twoElementInfo r.pos g ∧ ([2].length ≤ 65536 → r.sigindex.toNat = g)) ∧
      ∀ word ∈ [0x01000000, 0x02000001], eleOffsetOf word ≠ 0xFFFF :=
  reported_was_completed twoElementInfo_laidOut (validWords (by decide))

/-- One signature of one element, `n` of none, and again one of one. -/
def gapSizes (n : Nat) : List Nat := 1 :: (List.replicate n 0 ++ [1])

theorem gapSizes_last (n : Nat) : (gapSizes n)[n + 1]? = some 1 := by
  rw [gapSizes, List.getElem?_cons_succ, List.getElem?_append_right (by rw [List.length_replicate]),
    List.length_replicate, Nat.sub_self]
  rfl

theorem gapSizes_sum (n : Nat) : (gapSizes n).sum = 2 := by
  simp [gapSizes]

theorem gapSizes_start (n : Nat) : start (gapSizes n) (n + 1) = 1 := by
  simp [gapSizes, start]

theorem gapSizes_report {info : AppInfoS} {n : Nat} (layout : LaidOut info (gapSizes n)) :
    patternCheck info [1] = .ok (0, [reportOf info 0 (n + 1)]) := by
  have size : sizeAt (gapSizes n) (n + 1) = 1 := sizeAt_eq (gapSizes_last n)
  have inChain : ∀ place ∈ [(n + 1, 0)], place.2 < sizeAt (gapSizes n) place.1 := by
    intro place inside
    rw [List.mem_singleton.1 inside, size]
    exact Nat.one_pos
  have one : eleOffsetOf 1 = 1 := by decide
  have offsets : [(1 : Uint)].map eleOffsetOf = [(n + 1, 0)].map (offsetOf (gapSizes n)) := by
    rw [List.map_singleton, List.map_singleton, offsetOf, gapSizes_start, one, Nat.add_zero]
  have run : chainRun (sizeAt (gapSizes n)) EXP_ARRYR_SIZE 0 [] [(n + 1, 0)] = [(0, n + 1)] := by
    simp [chainRun, chainStep, size]
  rw [patternCheck_run layout inChain offsets, run]
  rfl

/-- Tables over `gapSizes`. -/
def gapInfo (n : Nat) : AppInfoS :=
  { apps := [], sigs := (gapSizes n).map fun _ => ⟨0, 0, 0, 0, 0⟩
    eles := elementTable (fun _ => 0) (gapSizes n) }

theorem gapInfo_laidOut (n : Nat) : LaidOut (gapInfo n) (gapSizes n) :=
  ⟨rfl, by rw [gapSizes_sum]; decide, by rw [gapInfo, List.length_map]⟩

/-- The row of the signature with number 65536 names the signature with number 0. -/
theorem report_names_another :
    ¬ ∀ (info : AppInfoS) (ks : List Nat), LaidOut info ks →
      ∀ words : List Uint, (∀ word ∈ words, eleOffsetOf word < ks.sum) →
      ∃ reports, patternCheck info words = .ok (0, reports) ∧
        ∀ r ∈ reports, ∃ k pos, ks[r.sigindex.toNat]? = some (k + 1) ∧
          ElementsAt ks words r.sigindex.toNat (k + 1) pos ∧ pos k = r.pos := by
  intro named
  have layout := gapInfo_laidOut 65535
  have valid : ∀ word ∈ [(1 : Uint)], eleOffsetOf word < (gapSizes 65535).sum := by
    rw [gapSizes_sum]
    exact validWords (show ([(1 : Uint)].all fun word => eleOffsetOf word < [2].sum) = true by decide)
  obtain ⟨reports, ran, names⟩ := named (gapInfo 65535) (gapSizes 65535) layout [1] valid
  rw [gapSizes_report layout] at ran
  obtain rfl : [reportOf (gapInfo 65535) 0 (65535 + 1)] = reports :=
    congrArg Prod.snd (Except.ok.inj ran)
  obtain ⟨k, pos, -, elements, -⟩ := names _ (List.mem_singleton_self _)
  obtain ⟨word, found, at_⟩ := elements.here 0 (Nat.succ_pos k)
  obtain rfl : word = 1 := List.mem_singleton.1 (List.mem_of_getElem? found)
  have named : (BitVec.ofNat 16 (65535 + 1) : Ushort).toNat = 0 := by decide
  rw [reportOf, named, start_zero] at at_
  exact absurd at_ (by decide +kernel)

/-- **What was recorded in full is reported**, as long as fewer than eight first
elements were recorded before its last element. -/
theorem completed_is_reported (layout : LaidOut info ks) {words : List Uint}
    (valid : ∀ word ∈ words, eleOffsetOf word < ks.sum) {g k : Nat} {pos : Nat → Nat}
    (size : ks[g]? = some (k + 1)) (elements : ElementsAt ks words g (k + 1) pos)
    (room : (words.take (pos k)).countP (isStartWord info) < EXP_ARRYR_SIZE) :
    ∃ reports, patternCheck info words = .ok (0, reports) ∧
      ∃ r ∈ reports, r.pos ≤ pos k ∧ r = reportOf info r.pos g := by
  obtain ⟨stream, inChain, offsets⟩ := exists_stream ks words valid
  have stands := (elementsAt_iff inChain offsets size).1 elements
  have below : pos k < stream.length :=
    (List.getElem?_eq_some_iff.1 (stands.here k (Nat.lt_succ_self k))).1
  have here : sizeAt ks g = k + 1 := sizeAt_eq size
  obtain ⟨i, early, done⟩ := chainRun_complete (sizeAt ks) EXP_ARRYR_SIZE below
    (by rwa [countP_isStartWord layout inChain offsets]) (g := g) (by omega) (here ▸ stands.sublist)
  exact ⟨_, patternCheck_run layout inChain offsets, reportOf info i g,
    List.mem_map.2 ⟨(i, g), done, rfl⟩, early, rfl⟩

/-- Both elements of the signature, with another start between them. -/
theorem completed_two_elements : ∃ reports,
    patternCheck twoElementInfo [0x01000000, 0x01000000, 0x02000001] = .ok (0, reports) ∧
      ∃ r ∈ reports, r.pos ≤ 2 ∧ r = reportOf twoElementInfo r.pos 0 := by
  have elements : ElementsAt [2] [0x01000000, 0x01000000, 0x02000001] 0 (1 + 1) fun j => 2 * j := by
    refine ⟨fun j below => by omega, fun j below => ?_⟩
    cases j with
    | zero => exact ⟨0x01000000, rfl, rfl⟩
    | succ j =>
        obtain rfl : j = 0 := by omega
        exact ⟨0x02000001, rfl, rfl⟩
  exact completed_is_reported twoElementInfo_laidOut (validWords (by decide)) rfl elements (by decide)

/-- After eight starts the check stops, before the second element. -/
theorem ninth_chain_lost :
    ¬ ∀ (info : AppInfoS) (ks : List Nat), LaidOut info ks →
      ∀ words : List Uint, (∀ word ∈ words, eleOffsetOf word < ks.sum) →
      ∀ (g k : Nat) (pos : Nat → Nat), ks[g]? = some (k + 1) → ElementsAt ks words g (k + 1) pos →
      ∃ reports, patternCheck info words = .ok (0, reports) ∧
        ∃ r ∈ reports, r = reportOf info r.pos g := by
  intro complete
  let words : List Uint := List.replicate 8 0x01000000 ++ [0x02000001]
  have elements : ElementsAt [2] words 0 (1 + 1) fun j => 8 * j := by
    refine ⟨fun j below => by omega, fun j below => ?_⟩
    cases j with
    | zero => exact ⟨0x01000000, rfl, rfl⟩
    | succ j =>
        obtain rfl : j = 0 := by omega
        exact ⟨0x02000001, rfl, rfl⟩
  obtain ⟨reports, ran, r, reported, -⟩ :=
    complete twoElementInfo [2] twoElementInfo_laidOut words (validWords (by decide)) 0 1 _ rfl elements
  have silent : patternCheck twoElementInfo words = .ok (0, []) := rfl
  obtain rfl : [] = reports := congrArg Prod.snd (Except.ok.inj (silent.symm.trans ran))
  exact absurd reported List.not_mem_nil

end Layout

end Orchid
