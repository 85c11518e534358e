/-
# Loader.Chains -- the element rows as chains

A search relies on three things in an element row: the number of its signature, the
next place or `0xFFFF`, and flags that say first, middle and last and nothing else
(`PlaceExact`).  Installation ORs the flags into a cell it never cleared and keeps a
signature's number in 16 bits, so the rows are exact under a condition on the memory
and on the number of signatures (`chainsComplete_iff`).
-/
import Orchid.Loader.Install

namespace Orchid

open Orchid.Theory

set_option autoImplicit false

/-! ## Rows -/

/-- The flags of place `j` of a signature of `k` elements. -/
def placeFlags (k j : Nat) : Ushort :=
  (if j = 0 then ELEMENT_START else ELEMENT_MID) ||| (if j + 1 = k then ELEMENT_END else 0)

/-- A row that says all a search relies on: its signature's index, the next place or the
end, and its three flags and no other bit. -/
structure PlaceExact (row : ElementEntryS) (g o k j : Nat) : Prop where
  sigindex : row.sigindex.toNat = g
  exp : row.expEleIndex.toNat = if j + 1 = k then 0xFFFF else o + j + 1
  first : row.flag &&& ELEMENT_START ≠ 0 ↔ j = 0
  mid : row.flag &&& ELEMENT_MID ≠ 0 ↔ 0 < j
  last : row.flag &&& ELEMENT_END ≠ 0 ↔ j + 1 = k
  others : row.flag &&& ~~~(ELEMENT_START ||| ELEMENT_MID ||| ELEMENT_END) = 0

/-- Every signature is a complete chain of the element table. -/
def ChainsComplete (root : List ApplicationS) (info : AppInfoS) : Prop :=
  ∀ g k, (sigSizes root)[g]? = some k → ∀ j < k, ∃ row,
    info.eles[start (sigSizes root) g + j]? = some row ∧
      PlaceExact row g (start (sigSizes root) g) k j

/-- The old flags have no bit that is not set anyway, and the signatures with elements
are numbered in 16 bits. -/
def CleanMemory (root : List ApplicationS) (mem : Memory) : Prop :=
  ∀ g k, (sigSizes root)[g]? = some k → ∀ j < k,
    g < 2 ^ 16 ∧ (mem.eles (start (sigSizes root) g + j)).flag ||| placeFlags k j = placeFlags k j

theorem and_flag_ne_zero_iff (x : Ushort) (i : Nat) (below : i < 16) :
    x &&& BitVec.twoPow 16 i ≠ 0 ↔ x.getLsbD i = true := by
  rw [BitVec.and_twoPow]
  by_cases bit : x.getLsbD i = true
  · rw [if_pos bit]
    refine iff_of_true (fun zero => ?_) bit
    have same := congrArg (fun b : Ushort => b.getLsbD i) zero
    simp [below] at same
  · rw [if_neg bit]
    exact iff_of_false (fun nonzero => nonzero rfl) bit

/-- The flags are known bit by bit. -/
theorem flags_eq_iff (x y : Ushort) :
    x = y ↔ (x.getLsbD 0 = y.getLsbD 0 ∧ x.getLsbD 1 = y.getLsbD 1 ∧ x.getLsbD 2 = y.getLsbD 2) ∧
      ∀ i, 3 ≤ i → i < 16 → x.getLsbD i = y.getLsbD i := by
  constructor
  · rintro rfl
    exact ⟨⟨rfl, rfl, rfl⟩, fun _ _ _ => rfl⟩
  · rintro ⟨⟨first, mid, last⟩, others⟩
    apply BitVec.eq_of_getLsbD_eq
    intro i below
    by_cases high : 3 ≤ i
    · exact others i high below
    · have three : i = 0 ∨ i = 1 ∨ i = 2 := by omega
      rcases three with rfl | rfl | rfl
      · exact first
      · exact mid
      · exact last

theorem others_eq_zero_iff (x : Ushort) :
    x &&& ~~~(ELEMENT_START ||| ELEMENT_MID ||| ELEMENT_END) = 0 ↔
      ∀ i, 3 ≤ i → i < 16 → x.getLsbD i = false := by
  constructor
  · intro masked i low high
    have bit := congrArg (fun b : Ushort => b.getLsbD i) masked
    interval_cases i <;> simpa [ELEMENT_START, ELEMENT_MID, ELEMENT_END] using bit
  · intro clear
    refine (flags_eq_iff _ _).2 ⟨⟨?_, ?_, ?_⟩, fun i low high => ?_⟩
    · simp [ELEMENT_START, ELEMENT_MID, ELEMENT_END]
    · simp [ELEMENT_START, ELEMENT_MID, ELEMENT_END]
    · simp [ELEMENT_START, ELEMENT_MID, ELEMENT_END]
    · rw [BitVec.getLsbD_and, clear i low high]
      simp

/-- The four conditions on the flags say which flags they are. -/
theorem flags_exact_iff (x : Ushort) (k j : Nat) :
    ((x &&& ELEMENT_START ≠ 0 ↔ j = 0) ∧ (x &&& ELEMENT_MID ≠ 0 ↔ 0 < j) ∧
        (x &&& ELEMENT_END ≠ 0 ↔ j + 1 = k) ∧
        x &&& ~~~(ELEMENT_START ||| ELEMENT_MID ||| ELEMENT_END) = 0) ↔ x = placeFlags k j := by
  have first : x &&& ELEMENT_START ≠ 0 ↔ x.getLsbD 0 = true := and_flag_ne_zero_iff x 0 (by decide)
  have mid : x &&& ELEMENT_MID ≠ 0 ↔ x.getLsbD 1 = true := and_flag_ne_zero_iff x 1 (by decide)
  have last : x &&& ELEMENT_END ≠ 0 ↔ x.getLsbD 2 = true := and_flag_ne_zero_iff x 2 (by decide)
  have positive : 0 < j ↔ ¬ j = 0 := Nat.pos_iff_ne_zero
  rw [first, mid, last, others_eq_zero_iff, flags_eq_iff, positive, and_assoc, and_assoc]
  have high : ∀ f : Ushort, f &&& ~~~(ELEMENT_START ||| ELEMENT_MID ||| ELEMENT_END) = 0 →
      ((∀ i, 3 ≤ i → i < 16 → x.getLsbD i = false) ↔
        ∀ i, 3 ≤ i → i < 16 → x.getLsbD i = f.getLsbD i) := by
    intro f clear
    have clear' := (others_eq_zero_iff f).1 clear
    exact forall_congr' fun i => forall_congr' fun low => forall_congr' fun below => by
      rw [clear' i low below]
  -- the four shapes of a place
  by_cases zero : j = 0
  · by_cases end_ : j + 1 = k
    · have shape : placeFlags k j = 5 := by rw [placeFlags, if_pos zero, if_pos end_]; rfl
      rw [shape, high 5 (by decide), eq_true zero, eq_true end_]
      simp
    · have shape : placeFlags k j = 1 := by rw [placeFlags, if_pos zero, if_neg end_]; rfl
      rw [shape, high 1 (by decide), eq_true zero, eq_false end_]
      simp
  · by_cases end_ : j + 1 = k
    · have shape : placeFlags k j = 6 := by rw [placeFlags, if_neg zero, if_pos end_]; rfl
      rw [shape, high 6 (by decide), eq_false zero, eq_true end_]
      simp
    · have shape : placeFlags k j = 2 := by rw [placeFlags, if_neg zero, if_neg end_]; rfl
      rw [shape, high 2 (by decide), eq_false zero, eq_false end_]
      simp

theorem elementRow_flag_eq (old : Nat → Ushort) (g o k j : Nat) :
    (elementRow old g o k j).flag = old (o + j) ||| placeFlags k j :=
  BitVec.or_assoc ..

/-- **When a row is exact.** -/
theorem elementRow_exact_iff {old : Nat → Ushort} {g o k j : Nat} (few : o + k < 65535) (below : j < k) :
    PlaceExact (elementRow old g o k j) g o k j ↔
      g < 2 ^ 16 ∧ old (o + j) ||| placeFlags k j = placeFlags k j := by
  have index : (elementRow old g o k j).sigindex.toNat = g ↔ g < 2 ^ 16 := by
    show (BitVec.ofNat 16 g).toNat = g ↔ _
    rw [BitVec.toNat_ofNat]
    constructor
    · intro same
      rw [← same]
      exact Nat.mod_lt _ (by decide)
    · exact fun small => Nat.mod_eq_of_lt small
  have flags := flags_exact_iff (elementRow old g o k j).flag k j
  rw [elementRow_flag_eq] at flags
  constructor
  · intro exact_
    refine ⟨index.1 exact_.sigindex, flags.1 ?_⟩
    rw [← elementRow_flag_eq old g o k j]
    exact ⟨exact_.first, exact_.mid, exact_.last, exact_.others⟩
  · rintro ⟨small, clean⟩
    obtain ⟨first, mid, last, others⟩ := flags.2 clean
    rw [← elementRow_flag_eq old g o k j] at first mid last others
    exact ⟨index.2 small, elementRow_exp few below, first, mid, last, others⟩

/-- **When the element table is a table of chains.**  Exactly when the memory it was
allocated in held no flag bits but those that are set anyway, and every signature with
elements has a 16-bit number. -/
theorem chainsComplete_iff (mem : Memory) (root : List ApplicationS)
    (inRange : ∀ app ∈ root, app.category.toNat < MAX_CATEGORY_ID)
    (few : (signatures root).flatten.length < 65535)
    (texts : ∀ e ∈ (signatures root).flatten, e.matchStr.length < MAX_SIG_LENGTH) :
    ∃ summary info appList, getApplicationSummary root = .ok summary ∧
      installApplication mem summary root = .ok (info, appList) ∧
      (ChainsComplete root info ↔ CleanMemory root mem) := by
  obtain ⟨summary, st, counted, installed, -, -, -, done⟩ := installApplication_total mem inRange texts
  have table := installApplication_rows counted installed done
  refine ⟨summary, st.info, st.appList, counted, installed, ?_⟩
  have total : (sigSizes root).sum < 65535 := by
    rw [List.length_flatten] at few
    exact few
  have cell : ∀ {g k}, (sigSizes root)[g]? = some k → ∀ {j}, j < k →
      st.info.eles[start (sigSizes root) g + j]? =
        some (elementRow (fun i => (mem.eles i).flag) g (start (sigSizes root) g) k j) ∧
      start (sigSizes root) g + k < 65535 := by
    intro g k here j below
    have next := start_succ here
    have bound := start_le_sum (sigSizes root) (g + 1)
    exact ⟨table.cell here below, by omega⟩
  refine forall_congr' fun g => forall_congr' fun k => forall_congr' fun here =>
    forall_congr' fun j => forall_congr' fun below => ?_
  obtain ⟨row, fits⟩ := cell here below
  refine Iff.trans ?_ (@elementRow_exact_iff (fun i => (mem.eles i).flag) g _ k j fits below)
  constructor
  · rintro ⟨found, same, exact_⟩
    obtain rfl := Option.some.inj (same.symm.trans row)
    exact exact_
  · intro exact_
    exact ⟨_, row, exact_⟩

theorem chainsComplete_clearedMemory : ∃ summary info appList,
    getApplicationSummary threeApplications = .ok summary ∧
      installApplication clearedMemory summary threeApplications = .ok (info, appList) ∧
      (ChainsComplete threeApplications info ↔ CleanMemory threeApplications clearedMemory) :=
  chainsComplete_iff clearedMemory threeApplications (by decide) (by decide) (by decide)

/-- Memory whose first element cell still has the middle flag. -/
def staleMemory : Memory :=
  { clearedMemory with eles := fun _ => ⟨0, ELEMENT_MID, 0⟩ }

/-- An only element that keeps a middle flag from the memory it was put in. -/
theorem stale_flag_survives :
    ¬ ∀ (mem : Memory) (root : List ApplicationS) (summary : AppStatisticsS) (info : AppInfoS)
        (appList : List AppEntryT), (∀ app ∈ root, app.category.toNat < MAX_CATEGORY_ID) →
      (signatures root).flatten.length < 65535 →
      (∀ e ∈ (signatures root).flatten, e.matchStr.length < MAX_SIG_LENGTH) →
      getApplicationSummary root = .ok summary →
      installApplication mem summary root = .ok (info, appList) → ChainsComplete root info := by
  intro complete
  obtain ⟨row, here, exact_⟩ := complete staleMemory (oneSignature 0x10001 (cstr "http_host=a")) _ _ _
    (by decide) (by decide) (by decide) rfl rfl 0 1 rfl 0 (by decide)
  obtain rfl : (⟨0, 7, 0xFFFF⟩ : ElementEntryS) = row := Option.some.inj here
  exact absurd exact_.mid (by decide)

end Orchid
