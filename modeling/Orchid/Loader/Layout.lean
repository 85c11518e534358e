/-
# Loader.Layout -- what installation leaves in the tables

The three nested loops of `install_Application` advance two counters; nothing but
the counters decides which cell is written.  `Installing` says what holds after the
signatures `done`: the counters are the numbers of signatures and elements, the
element array is the table of the signatures' sizes followed by untouched memory,
and the pattern list is the markers followed by one entry per element in order.

The table is `Theory.spread` of `elementRow`: place `j` of a signature of `k`
elements chains to the next place, the last one to `0xFFFF`.  Whatever the old flag
bits were, they stay; with cleared memory the flags are exact.
-/
import Orchid.Loader.SigLoader
import Orchid.Theory.Outcome
import Orchid.Theory.Segments

namespace Orchid

open Orchid.Theory

set_option autoImplicit false

/-! ## The layout -/

/-- The row of place `j` of signature `g` with `k` elements starting at `o`, over
the old flag bits. -/
def elementRow (old : Nat → Ushort) (g o k j : Nat) : ElementEntryS :=
  { sigindex := BitVec.ofNat 16 g
    flag := old (o + j) ||| (if j = 0 then ELEMENT_START else ELEMENT_MID) |||
      (if j + 1 = k then ELEMENT_END else 0)
    expEleIndex := if j + 1 = k then 0xFFFF else BitVec.ofNat 16 (o + j + 1) }

/-- The chain of a signature, as long as 16 bits hold its places. -/
theorem elementRow_exp {old : Nat → Ushort} {g o k j : Nat} (few : o + k < 65535) (below : j < k) :
    (elementRow old g o k j).expEleIndex.toNat = if j + 1 = k then 0xFFFF else o + j + 1 := by
  by_cases end_ : j + 1 = k
  · simp only [elementRow, end_, if_true]
    decide
  · simp only [elementRow, end_, if_false]
    rw [BitVec.toNat_ofNat, Nat.mod_eq_of_lt (by omega)]

/-- Only the last row is marked. -/
theorem elementRow_marked_iff {old : Nat → Ushort} {g o k j : Nat} (few : o + k < 65535) (below : j < k) :
    (elementRow old g o k j).expEleIndex = 0xFFFF ↔ j + 1 = k := by
  have exp := @elementRow_exp old g o k j few below
  constructor
  · intro marked
    by_contra more
    rw [if_neg more, marked] at exp
    have last : (0xFFFF : Ushort).toNat = 65535 := rfl
    omega
  · intro end_
    exact if_pos end_

/-- The element table of signatures of the sizes `ks`. -/
def elementTable (old : Nat → Ushort) (ks : List Nat) : List ElementEntryS :=
  spread (elementRow old) 0 0 ks

/-- The row before its signature is closed. -/
def openRow (old : Nat → Ushort) (g o j : Nat) : ElementEntryS :=
  { sigindex := BitVec.ofNat 16 g
    flag := old (o + j) ||| (if j = 0 then ELEMENT_START else ELEMENT_MID)
    expEleIndex := BitVec.ofNat 16 (o + j + 1) }

/-- The pattern entries of elements from list position `k` and offset `o` on. -/
def elementEntries (alloc : Nat → Uint) (k o : Nat) : List ElementS → List AppEntryT
  | [] => []
  | e :: es => ⟨elementWord e.id o, e.matchStr, alloc k⟩ :: elementEntries alloc (k + 1) (o + 1) es

/-- The pattern entries of the header markers. -/
def markerEntries (alloc : Nat → Uint) : List AppEntryT :=
  httpMarkers.mapIdx fun k marker => ⟨marker.1, marker.2, alloc k⟩

/-- The element lists of all signatures, in installation order. -/
def signatures (root : List ApplicationS) : List (List ElementS) :=
  root.flatMap fun app => app.sigs.map SigS.elements

/-- The sizes of the signatures. -/
def sigSizes (root : List ApplicationS) : List Nat := (signatures root).map List.length

theorem sigSizes_snoc (root : List ApplicationS) (app : ApplicationS) :
    sigSizes (root ++ [app]) = sigSizes root ++ app.sigs.map fun sig => sig.elements.length := by
  simp [sigSizes, signatures, Function.comp_def]

theorem length_elementEntries (alloc : Nat → Uint) (es : List ElementS) (k o : Nat) :
    (elementEntries alloc k o es).length = es.length := by
  induction es generalizing k o with
  | nil => rfl
  | cons e es ih => simp [elementEntries, ih]

theorem elementEntries_append (alloc : Nat → Uint) (es es' : List ElementS) (k o : Nat) :
    elementEntries alloc k o (es ++ es') =
      elementEntries alloc k o es ++ elementEntries alloc (k + es.length) (o + es.length) es' := by
  induction es generalizing k o with
  | nil => rfl
  | cons e es ih =>
      simp only [List.cons_append, elementEntries, ih, List.length_cons]
      congr 3 <;> omega

theorem getElem?_elementEntries (alloc : Nat → Uint) (es : List ElementS) (k o i : Nat) :
    (elementEntries alloc k o es)[i]? =
      es[i]?.map fun e => ⟨elementWord e.id (o + i), e.matchStr, alloc (k + i)⟩ := by
  induction es generalizing k o i with
  | nil => rfl
  | cons e es ih =>
      cases i with
      | zero => rfl
      | succ i =>
          rw [elementEntries, List.getElem?_cons_succ, List.getElem?_cons_succ, ih,
            Nat.add_right_comm o, Nat.add_right_comm k]
          rfl

theorem mem_elementEntries {alloc : Nat → Uint} {es : List ElementS} {k o : Nat} {app : AppEntryT} :
    app ∈ elementEntries alloc k o es ↔
      ∃ i e, es[i]? = some e ∧ app = ⟨elementWord e.id (o + i), e.matchStr, alloc (k + i)⟩ := by
  rw [List.mem_iff_getElem?]
  simp only [getElem?_elementEntries, Option.map_eq_some_iff]
  exact exists_congr fun i => exists_congr fun e => and_congr_right fun _ => eq_comm

/-! ## The element loop -/

theorem pushAppSig_some (alloc : Nat → Uint) (list : List AppEntryT) (id : Uint) (text : CStr) :
    pushAppSig alloc list id (some text) =
      if text.length ≥ MAX_SIG_LENGTH then .error .nullInsert
      else .ok (list ++ [⟨id, text, alloc list.length⟩]) := by
  rw [pushAppSig, newAppSig]
  by_cases long : text.length ≥ MAX_SIG_LENGTH
  · rw [if_pos long, if_pos long]
    rfl
  · rw [if_neg long, if_neg long]
    rfl

/-- The element loop writes elements and patterns only. -/
theorem installElements_frame {alloc : Nat → Uint} (elements : List ElementS) :
    ∀ {st st' : InstallState} {n : Nat}, installElements alloc st n elements = .ok st' →
      st'.info.apps = st.info.apps ∧ st'.info.sigs = st.info.sigs ∧
        st'.sigOffset = st.sigOffset ∧ st'.cateOffset = st.cateOffset := by
  induction elements with
  | nil =>
      intro st st' n ran
      obtain rfl : st = st' := Except.ok.inj ran
      exact ⟨rfl, rfl, rfl, rfl⟩
  | cons e elements ih =>
      intro st st' n ran
      rw [installElements, installElement, pushAppSig_some] at ran
      by_cases long : e.matchStr.length ≥ MAX_SIG_LENGTH
      · rw [if_pos long] at ran
        cases ran
      · rw [if_neg long] at ran
        cases cell : st.info.eles[st.eleOffset]? with
        | none =>
            simp only [bind, Except.bind, cell] at ran
            cases ran
        | some curEle =>
            simp only [bind, Except.bind, cell, pure, Except.pure] at ran
            have rest := ih ran
            exact rest

/-- The element loop, where it ends: every text is short, each element writes the
next cell and adds one entry. -/
theorem installElements_ok {alloc : Nat → Uint} {old : Nat → Ushort} (junk : Nat → ElementEntryS)
    (flags : ∀ i, (junk i).flag = old i) (elements : List ElementS) :
    ∀ {st st' : InstallState} (n : Nat) (pre : List ElementEntryS) (m : Nat),
      installElements alloc st n elements = .ok st' →
      n ≤ st.eleOffset → pre.length = st.eleOffset →
      st.info.eles = pre ++ (List.range' st.eleOffset m).map junk →
      elements.length ≤ m ∧
      st'.info.eles = pre ++ (List.range elements.length).map (fun j =>
          openRow old st.sigOffset (st.eleOffset - n) (n + j)) ++
        (List.range' (st.eleOffset + elements.length) (m - elements.length)).map junk ∧
      st'.eleOffset = st.eleOffset + elements.length ∧
      st'.appList = st.appList ++ elementEntries alloc st.appList.length st.eleOffset elements := by
  induction elements with
  | nil =>
      intro st st' n pre m ran _ _ eles
      obtain rfl : st = st' := Except.ok.inj ran
      simp [eles, elementEntries]
  | cons e elements ih =>
      intro st st' n pre m ran reached filled eles
      rw [installElements, installElement, pushAppSig_some] at ran
      by_cases long : e.matchStr.length ≥ MAX_SIG_LENGTH
      · rw [if_pos long] at ran
        cases ran
      · rw [if_neg long] at ran
        cases m with
        | zero =>
            have missing : st.info.eles[st.eleOffset]? = none := by
              rw [eles]
              simp [filled]
            simp only [bind, Except.bind, missing] at ran
            cases ran
        | succ m =>
            rw [List.range'_succ, List.map_cons] at eles
            have found : st.info.eles[st.eleOffset]? = some (junk st.eleOffset) := by
              rw [eles, ← filled]
              simp
            simp only [bind, Except.bind, found, pure, Except.pure] at ran
            have back : pre.length - n + n = pre.length := by omega
            obtain ⟨fits, h1, h2, h3⟩ := ih (n + 1)
              (pre ++ [openRow old st.sigOffset (st.eleOffset - n) n]) m ran
              (by simpa using reached) (by simp [filled])
              (by rw [eles, ← filled]; simp [openRow, flags, back])
            refine ⟨by simpa using fits, ?_, ?_, ?_⟩
            · have shift : st.eleOffset + 1 - (n + 1) = st.eleOffset - n := by omega
              have rest : st.eleOffset + 1 + elements.length = st.eleOffset + (elements.length + 1) := by
                omega
              have left : m - elements.length = m + 1 - (elements.length + 1) := by omega
              have place : ∀ j, n + 1 + j = n + (j + 1) := by omega
              rw [h1, List.length_cons, List.range_succ_eq_map, List.map_cons, List.map_map, shift,
                ← left, ← rest]
              simp [place, Function.comp_def]
            · rw [h2]
              simp [Nat.add_assoc, Nat.add_comm 1]
            · rw [h3]
              simp [elementEntries]

theorem modify_append_length {α : Type} (pre post : List α) (x : α) (f : α → α) :
    (pre ++ x :: post).modify pre.length f = pre ++ f x :: post := by
  induction pre with
  | nil => rfl
  | cons y pre ih => simpa using ih

/-- Closing the rows of a signature. -/
theorem closeElements_eq (old : Nat → Ushort) (g k : Nat) (pre rest : List ElementEntryS) :
    closeElements (pre ++ (List.range (k + 1)).map (openRow old g pre.length) ++ rest)
        (pre.length + (k + 1) - 1) =
      pre ++ (List.range (k + 1)).map (elementRow old g pre.length (k + 1)) ++ rest := by
  have before : (List.range k).map (elementRow old g pre.length (k + 1)) =
      (List.range k).map (openRow old g pre.length) := by
    refine List.map_congr_left fun j inside => ?_
    have notLast : j ≠ k := (List.mem_range.1 inside).ne
    simp [elementRow, openRow, notLast]
  have last : elementRow old g pre.length (k + 1) k =
      { openRow old g pre.length k with
        flag := (openRow old g pre.length k).flag ||| ELEMENT_END, expEleIndex := 0xFFFF } := by
    simp [elementRow, openRow]
  have place : pre.length + (k + 1) - 1 =
      (pre ++ (List.range k).map (openRow old g pre.length)).length := by simp
  have split : pre ++ (List.range (k + 1)).map (openRow old g pre.length) ++ rest =
      (pre ++ (List.range k).map (openRow old g pre.length)) ++ openRow old g pre.length k :: rest := by
    simp [List.range_succ]
  rw [closeElements, split, place, modify_append_length, ← last, ← before]
  simp [List.range_succ]

/-! ## Signatures and applications -/

/-- The state after installing the signatures `done`, with `total` cells for
elements. -/
structure Installing (mem : Memory) (sigTotal total : Nat) (done : List (List ElementS))
    (st : InstallState) : Prop where
  sigs : st.sigOffset = done.length
  eles : st.eleOffset = (done.map List.length).sum
  fits : st.eleOffset ≤ total
  words : st.appList = markerEntries mem.alloc ++
    elementEntries mem.alloc httpMarkers.length 0 done.flatten
  rows : st.info.eles = elementTable (fun i => (mem.eles i).flag) (done.map List.length) ++
    (List.range' st.eleOffset (total - st.eleOffset)).map mem.eles
  sigCells : st.info.sigs.length = sigTotal

theorem elementTable_snoc (old : Nat → Ushort) (ks : List Nat) (k : Nat) :
    elementTable old (ks ++ [k]) =
      elementTable old ks ++ (List.range k).map (elementRow old ks.length ks.sum k) := by
  simp [elementTable, spread_append, spread]

theorem length_elementTable (old : Nat → Ushort) (ks : List Nat) :
    (elementTable old ks).length = ks.sum := length_spread ..

theorem length_markerEntries (alloc : Nat → Uint) :
    (markerEntries alloc).length = httpMarkers.length := List.length_mapIdx ..

/-- Installing one signature. -/
theorem Installing.sig {mem : Memory} {sigTotal total : Nat} {done : List (List ElementS)}
    {st st' : InstallState} (state : Installing mem sigTotal total done st) {app : ApplicationS}
    {sig : SigS} (ran : installSig mem.alloc app st sig = .ok st') :
    Installing mem sigTotal total (done ++ [sig.elements]) st' := by
  have filled : (elementTable (fun i => (mem.eles i).flag) (done.map List.length)).length =
      st.eleOffset := by rw [length_elementTable, state.eles]
  have flatLength : done.flatten.length = st.eleOffset := by rw [List.length_flatten, state.eles]
  unfold installSig at ran
  cases cell : st.info.sigs[st.sigOffset]? with
  | none =>
      rw [cell] at ran
      cases ran
  | some curSig =>
      rw [cell] at ran
      obtain ⟨final, loop, made⟩ := bind_ok ran
      cases made
      obtain ⟨-, h4, h6, -⟩ := installElements_frame sig.elements loop
      obtain ⟨fits, h1, h2, h3⟩ := installElements_ok mem.eles (fun _ => rfl)
        sig.elements 0 _ (total - st.eleOffset) loop (Nat.zero_le _) filled state.rows
      dsimp only at h1 h2 h3 h4 h6
      have room := state.fits
      refine ⟨?_, ?_, ?_, ?_, ?_, ?_⟩
      · show final.sigOffset + 1 = _
        rw [h6, List.length_append, List.length_singleton, state.sigs]
      · show final.eleOffset = _
        rw [h2]
        simp [state.eles]
      · show final.eleOffset ≤ total
        rw [h2]
        omega
      · show final.appList = _
        rw [h3]
        simp [state.words, elementEntries_append, length_markerEntries, length_elementEntries,
          flatLength]
      · show (if sig.elements.length > 0 then closeElements final.info.eles (final.eleOffset - 1)
          else final.info.eles) = elementTable _ _ ++
            (List.range' final.eleOffset (total - final.eleOffset)).map mem.eles
        have rest : total - st.eleOffset - sig.elements.length = total - final.eleOffset := by
          rw [h2]; omega
        rw [List.map_append, List.map_cons, List.map_nil, elementTable_snoc, List.length_map,
          ← state.sigs, ← state.eles]
        simp only [Nat.sub_zero, Nat.zero_add] at h1
        rw [rest, ← h2] at h1
        cases count : sig.elements.length with
        | zero => simpa [count] using h1
        | succ k =>
            rw [count] at h1 h2
            rw [if_pos (Nat.succ_pos k), h1, h2, ← filled]
            exact closeElements_eq _ _ _ _ _
      · show final.info.sigs.length = _
        rw [h4]
        simpa using state.sigCells

theorem Installing.sigsLoop {mem : Memory} {sigTotal total : Nat} {app : ApplicationS}
    {sigs : List SigS} {done : List (List ElementS)} {st st' : InstallState}
    (state : Installing mem sigTotal total done st) (ran : sigs.foldlM (installSig mem.alloc app) st = .ok st') :
    Installing mem sigTotal total (done ++ sigs.map SigS.elements) st' := by
  refine @foldlM_ok _ _ _ _
    (fun behind st => Installing mem sigTotal total (done ++ behind.map SigS.elements) st) _
    (fun sig _ behind before after held step => ?_) [] _ _ (by simpa using state) ran
  simpa using held.sig step

/-- Installing one application. -/
theorem Installing.app {mem : Memory} {sigTotal total : Nat} {done : List (List ElementS)}
    {st st' : InstallState} (state : Installing mem sigTotal total done st)
    {summary : AppStatisticsS} {app : ApplicationS}
    (ran : installApp mem.alloc summary st app = .ok st') :
    Installing mem sigTotal total (done ++ app.sigs.map SigS.elements) st' := by
  unfold installApp at ran
  by_cases outside : app.category.toNat ≥ MAX_CATEGORY_ID
  · rw [if_pos outside] at ran
    cases ran
  · rw [if_neg outside] at ran
    cases cell : st.info.apps[summary.cateIndex app.category.toNat +
        st.cateOffset app.category.toNat]? with
    | none =>
        simp only [cell] at ran
        cases ran
    | some curApp =>
        simp only [cell] at ran
        obtain ⟨final, loop, made⟩ := bind_ok ran
        cases made
        have next := state.sigsLoop loop
        exact ⟨next.sigs, next.eles, next.fits, next.words, next.rows, next.sigCells⟩

theorem Installing.appsLoop {mem : Memory} {sigTotal total : Nat} {summary : AppStatisticsS}
    {root : List ApplicationS} {done : List (List ElementS)} {st st' : InstallState}
    (state : Installing mem sigTotal total done st)
    (ran : root.foldlM (installApp mem.alloc summary) st = .ok st') :
    Installing mem sigTotal total (done ++ signatures root) st' := by
  refine @foldlM_ok _ _ _ _ (fun behind st => Installing mem sigTotal total (done ++ signatures behind) st) _
    (fun app _ behind before after held step => ?_) [] _ _ (by simpa [signatures] using state) ran
  simpa [signatures] using held.app step

theorem initHttpSig_eq (alloc : Nat → Uint) : initHttpSig alloc [] = .ok (markerEntries alloc) := rfl

/-- **What installation leaves.**  The element array begins with the table of the
signatures' sizes, and the pattern list is the markers and then the elements. -/
theorem installApplication_ok {mem : Memory} {summary : AppStatisticsS} {root : List ApplicationS}
    {info : AppInfoS} {appList : List AppEntryT}
    (ran : installApplication mem summary root = .ok (info, appList)) :
    (sigSizes root).sum ≤ summary.eleNums ∧
      appList = markerEntries mem.alloc ++
        elementEntries mem.alloc httpMarkers.length 0 (signatures root).flatten ∧
      info.eles = elementTable (fun i => (mem.eles i).flag) (sigSizes root) ++
        (List.range' (sigSizes root).sum (summary.eleNums - (sigSizes root).sum)).map mem.eles ∧
      info.sigs.length = summary.sigNums := by
  rw [installApplication, initHttpSig_eq] at ran
  obtain ⟨markers, start_, ran⟩ := bind_ok ran
  cases start_
  obtain ⟨final, loop, made⟩ := bind_ok ran
  cases made
  have begin_ : Installing mem summary.sigNums summary.eleNums []
      { info :=
          { apps := (List.range summary.appNums).map mem.apps
            sigs := (List.range summary.sigNums).map mem.sigs
            eles := (List.range summary.eleNums).map mem.eles }
        sigOffset := 0, eleOffset := 0, cateOffset := fun _ => 0
        appList := markerEntries mem.alloc } := by
    refine ⟨rfl, rfl, Nat.zero_le _, by simp [elementEntries], ?_, by simp⟩
    simp [elementTable, spread, List.range_eq_range']
  have done := begin_.appsLoop loop
  rw [List.nil_append] at done
  have total : final.eleOffset = (sigSizes root).sum := done.eles
  refine ⟨total ▸ done.fits, done.words, ?_, done.sigCells⟩
  rw [← total]
  exact done.rows

/-! ## Counting -/

theorem countSigs_eq (sigs : List SigS) (summary : AppStatisticsS) :
    (sigs.foldl countSig summary).sigNums = summary.sigNums + sigs.length ∧
      (sigs.foldl countSig summary).eleNums =
        summary.eleNums + (sigs.map fun sig => sig.elements.length).sum := by
  induction sigs generalizing summary with
  | nil => exact ⟨rfl, rfl⟩
  | cons sig sigs ih =>
      obtain ⟨h1, h2⟩ := ih (countSig summary sig)
      rw [List.foldl_cons, h1, h2]
      simp only [countSig, List.length_cons, List.map_cons, List.sum_cons]
      omega

/-- The summary counts the signatures and the elements. -/
theorem getApplicationSummary_counts {root : List ApplicationS} {summary : AppStatisticsS}
    (counted : getApplicationSummary root = .ok summary) :
    summary.sigNums = (sigSizes root).length ∧ summary.eleNums = (sigSizes root).sum := by
  obtain ⟨final, loop, made⟩ := bind_ok counted
  obtain rfl := (Except.ok.inj made).symm
  refine @foldlM_ok _ _ _ _
    (fun done after => after.sigNums = (sigSizes done).length ∧ after.eleNums = (sigSizes done).sum) _
    (fun app _ done before after held step => ?_) [] _ final ⟨rfl, rfl⟩ loop
  rw [countApplication] at step
  by_cases inside : app.category.toNat < MAX_CATEGORY_ID
  · rw [if_pos inside] at step
    cases step
    obtain ⟨sigs, eles⟩ := held
    obtain ⟨moreSigs, moreEles⟩ := countSigs_eq app.sigs { before with
      cateNum := Function.update before.cateNum app.category.toNat (before.cateNum app.category.toNat + 1)
      appNums := before.appNums + 1 }
    rw [moreSigs, moreEles, sigSizes_snoc, List.length_append, List.sum_append, List.length_map]
    exact ⟨congrArg (· + _) sigs, congrArg (· + _) eles⟩
  · rw [if_neg inside] at step
    cases step

end Orchid
