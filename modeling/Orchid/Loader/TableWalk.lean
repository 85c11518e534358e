/-
# Loader.TableWalk -- what `dump_application_array` visits

After installation `load_sig` walks the three tables: category by category its
applications, under an application its signatures, under a signature its elements up to
the one that is marked `0xFFFF`.

Both counting loops advance their cursor by the loop counter (`Theory.CounterWalk`), so
from the third round on they skip rows; and the place of a signature's first element is
read from a field that installation never writes.  The walk is exact under a condition on
the group sizes and on the memory (`tablesVisited_iff`).
-/
import Orchid.Loader.Install
import Orchid.Theory.CounterWalk

namespace Orchid

open Orchid.Theory

set_option autoImplicit false

/-! ## The walk -/

/-- An element that is printed, with the place it was read at. -/
structure EleVisit where
  place : Nat
  row : ElementEntryS
  deriving DecidableEq, Repr

structure SigVisit where
  place : Nat
  row : SigEntryS
  eles : List EleVisit
  deriving DecidableEq, Repr

structure AppVisit where
  place : Nat
  row : AppEntryS
  sigs : List SigVisit
  deriving DecidableEq, Repr

structure CateVisit where
  cateIndex : Nat
  cateNum : Nat
  apps : List AppVisit
  deriving DecidableEq, Repr

/-- All that `dump_application_array` prints. -/
structure Dump where
  appNums : Nat
  sigNums : Nat
  eleNums : Nat
  cates : List CateVisit
  deriving DecidableEq, Repr

/-- The `do`-`while` loop; the rows are those from the cursor on. -/
def dumpElements (place : Nat) : List ElementEntryS → Except Trap (List EleVisit)
  | [] => .error .eleRange
  | curEle :: rest =>
      if curEle.expEleIndex ≠ 0xFFFF then do
        let later ← dumpElements (place + 1) rest
        return ⟨place, curEle⟩ :: later
      else .ok [⟨place, curEle⟩]

/-- `F_ele_index` is an `int`. -/
def dumpSig (info : AppInfoS) (place : Nat) : Except Trap SigVisit := do
  match info.sigs[place]? with
  | none => throw .sigRange
  | some curSig =>
      if curSig.fEleIndex.toInt < 0 then throw .eleRange
      let first := curSig.fEleIndex.toNat
      let eles ← dumpElements first (info.eles.drop first)
      return { place := place, row := curSig, eles := eles }

def dumpApp (info : AppInfoS) (place : Nat) : Except Trap AppVisit := do
  match info.apps[place]? with
  | none => throw .appRange
  | some curApp =>
      let sigs ← counterWalk (dumpSig info) curApp.sigIndex.toNat 0 curApp.sigNum.toNat
      return { place := place, row := curApp, sigs := sigs }

def dumpCate (summary : AppStatisticsS) (info : AppInfoS) (i : Nat) : Except Trap CateVisit := do
  let apps ← counterWalk (dumpApp info) (summary.cateIndex i) 0 (summary.cateNum i)
  return { cateIndex := summary.cateIndex i, cateNum := summary.cateNum i, apps := apps }

def dumpApplicationArray (summary : AppStatisticsS) (info : AppInfoS) : Except Trap Dump := do
  let cates ← (List.range MAX_CATEGORY_ID).mapM (dumpCate summary info)
  return { appNums := summary.appNums, sigNums := summary.sigNums, eleNums := summary.eleNums, cates := cates }

/-- The three steps of `load_sig` on the tables: counting, installing, walking. -/
def installAndDump (mem : Memory) (root : List ApplicationS) : Except Trap Dump := do
  let summary ← getApplicationSummary root
  let (info, _) ← installApplication mem summary root
  dumpApplicationArray summary info

/-! ## One level after the other -/

/-- A chain of rows of which the last one, and only that, is marked. -/
theorem dumpElements_total {k : Nat} (positive : 0 < k) : ∀ {rows : List ElementEntryS} (place : Nat),
    (∀ j < k, ∃ row, rows[j]? = some row ∧ (row.expEleIndex = 0xFFFF ↔ j + 1 = k)) →
    ∃ visits, dumpElements place rows = .ok visits ∧ visits.map EleVisit.place = List.range' place k := by
  induction k, positive using Nat.le_induction with
  | base =>
      intro rows place chain
      obtain ⟨row, here, marked⟩ := chain 0 Nat.one_pos
      cases rows with
      | nil => cases here
      | cons first rest =>
          obtain rfl := Option.some.inj here
          have last : ¬ first.expEleIndex ≠ 0xFFFF := not_not.2 (marked.2 rfl)
          exact ⟨[⟨place, first⟩], by rw [dumpElements, if_neg last], rfl⟩
  | succ k positive ih =>
      intro rows place chain
      obtain ⟨row, here, marked⟩ := chain 0 (Nat.succ_pos k)
      cases rows with
      | nil => cases here
      | cons first rest =>
          obtain rfl := Option.some.inj here
          have more : first.expEleIndex ≠ 0xFFFF := fun end_ => by
            have := marked.1 end_
            omega
          obtain ⟨visits, ran, visited⟩ := @ih rest (place + 1) fun j below => by
            obtain ⟨row, there, marked⟩ := chain (j + 1) (Nat.succ_lt_succ below)
            exact ⟨row, there, marked.trans Nat.succ_inj⟩
          refine ⟨⟨place, first⟩ :: visits, ?_, ?_⟩
          · rw [dumpElements, if_pos more, ran]
            rfl
          · rw [List.map_cons, visited, List.range'_succ]

theorem dumpElements_head {place : Nat} {rows : List ElementEntryS} {visits : List EleVisit}
    (ran : dumpElements place rows = .ok visits) : (visits.map EleVisit.place).head? = some place := by
  cases rows with
  | nil => cases ran
  | cons first rest =>
      rw [dumpElements] at ran
      by_cases more : first.expEleIndex ≠ 0xFFFF
      · rw [if_pos more] at ran
        obtain ⟨later, -, made⟩ := bind_ok ran
        cases made
        rfl
      · rw [if_neg more] at ran
        cases ran
        rfl

/-- What a visited signature says about the tables. -/
theorem dumpSig_ok {info : AppInfoS} {place : Nat} {visit : SigVisit} (ran : dumpSig info place = .ok visit) :
    visit.place = place ∧ ∃ row, info.sigs[place]? = some row ∧
      (visit.eles.map EleVisit.place).head? = some row.fEleIndex.toNat := by
  unfold dumpSig at ran
  cases here : info.sigs[place]? with
  | none =>
      rw [here] at ran
      cases ran
  | some row =>
      rw [here] at ran
      dsimp only at ran
      by_cases negative : row.fEleIndex.toInt < 0
      · rw [if_pos negative] at ran
        cases ran
      · rw [if_neg negative] at ran
        obtain ⟨eles, loop, made⟩ := bind_ok ran
        cases made
        exact ⟨rfl, row, rfl, dumpElements_head loop⟩

theorem dumpApp_ok {info : AppInfoS} {place : Nat} {visit : AppVisit} (ran : dumpApp info place = .ok visit) :
    visit.place = place ∧ ∃ row, info.apps[place]? = some row ∧
      visit.sigs.map SigVisit.place = walkCells row.sigIndex.toNat 0 row.sigNum.toNat ∧
      ∀ sig ∈ visit.sigs, dumpSig info sig.place = .ok sig := by
  unfold dumpApp at ran
  cases here : info.apps[place]? with
  | none =>
      rw [here] at ran
      cases ran
  | some row =>
      rw [here] at ran
      obtain ⟨sigs, loop, made⟩ := bind_ok ran
      cases made
      exact ⟨rfl, row, rfl, counterWalk_ok (fun p v visited => (dumpSig_ok visited).1) loop⟩

theorem dumpCate_ok {summary : AppStatisticsS} {info : AppInfoS} {i : Nat} {visit : CateVisit}
    (ran : dumpCate summary info i = .ok visit) :
    visit.apps.map AppVisit.place = walkCells (summary.cateIndex i) 0 (summary.cateNum i) ∧
      ∀ app ∈ visit.apps, dumpApp info app.place = .ok app := by
  obtain ⟨apps, loop, made⟩ := bind_ok ran
  cases made
  exact counterWalk_ok (fun p v visited => (dumpApp_ok visited).1) loop

theorem dumpApplicationArray_ok {summary : AppStatisticsS} {info : AppInfoS} {dump : Dump}
    (ran : dumpApplicationArray summary info = .ok dump) :
    List.Forall₂ (fun i visit => dumpCate summary info i = .ok visit) (List.range MAX_CATEGORY_ID) dump.cates := by
  obtain ⟨cates, loop, made⟩ := bind_ok ran
  cases made
  exact mapM_ok_iff.1 loop

/-! ## The whole walk -/

/-- The applications of a category, by their numbers in the list. -/
def ofCategory (root : List ApplicationS) (c : Nat) : List Nat :=
  (List.range root.length).filter fun i => (categories root)[i]? = some c

/-- The walk visits the tables as they belong together: in every category each of its
applications once, under an application its signatures from the first on, under a
signature its elements from the first on. -/
structure WalkExact (root : List ApplicationS) (dump : Dump) : Prop where
  cates : dump.cates.length = MAX_CATEGORY_ID
  apps : ∀ (c : Nat) (visit : CateVisit), dump.cates[c]? = some visit →
    (visit.apps.map AppVisit.place).Perm ((ofCategory root c).map (appSlot root))
  sigs : ∀ visit ∈ dump.cates, ∀ app ∈ visit.apps, ∀ i entry, root[i]? = some entry →
    appSlot root i = app.place → app.sigs.map SigVisit.place = List.range' (sigStart root i) entry.sigs.length
  eles : ∀ visit ∈ dump.cates, ∀ app ∈ visit.apps, ∀ sig ∈ app.sigs, ∀ k,
    (sigSizes root)[sig.place]? = some k →
      sig.eles.map EleVisit.place = List.range' (start (sigSizes root) sig.place) k

/-- The run ends, and the walk is exact. -/
def TablesVisited (mem : Memory) (root : List ApplicationS) : Prop :=
  ∃ dump, installAndDump mem root = .ok dump ∧ WalkExact root dump

/-- No group is larger than two, and the memory happens to hold in every signature's cell
where its elements start. -/
structure WalkFits (mem : Memory) (root : List ApplicationS) : Prop where
  apps : ∀ c < MAX_CATEGORY_ID, (categories root).count c ≤ 2
  sigs : ∀ app ∈ root, app.sigs.length ≤ 2
  firsts : ∀ g < (sigSizes root).length, (mem.sigs g).fEleIndex.toNat = start (sigSizes root) g

theorem mem_ofCategory {root : List ApplicationS} {c i : Nat} :
    i ∈ ofCategory root c ↔ (categories root)[i]? = some c := by
  unfold ofCategory
  rw [List.mem_filter, List.mem_range, decide_eq_true_iff]
  refine ⟨And.right, fun here => ⟨?_, here⟩⟩
  rw [← length_categories root]
  exact (List.getElem?_eq_some_iff.1 here).1

/-- The slots of a category are its interval. -/
theorem ofCategory_slots (root : List ApplicationS) (c : Nat) :
    (List.range' (CountingSort.start (categories root) c) ((categories root).count c)).Perm
      ((ofCategory root c).map (appSlot root)) := by
  have distinct : ((ofCategory root c).map (appSlot root)).Nodup := by
    refine List.Nodup.map_on (fun i inside j inside' same => ?_) (List.nodup_range.filter _)
    have small := (List.getElem?_eq_some_iff.1 (mem_ofCategory.1 inside)).1
    have small' := (List.getElem?_eq_some_iff.1 (mem_ofCategory.1 inside')).1
    exact CountingSort.slot_injective small small' same
  refine (List.perm_ext_iff_of_nodup List.nodup_range' distinct).2 fun s => ?_
  rw [List.mem_range'_1, ← CountingSort.slot_interval, List.mem_map]
  exact exists_congr fun i => and_congr_left' mem_ofCategory.symm

/-- Every signature belongs to a place of an application. -/
theorem exists_owner {root : List ApplicationS} {g : Nat} (below : g < (sigSizes root).length) :
    ∃ i app j sig, root[i]? = some app ∧ app.sigs[j]? = some sig ∧ g = sigStart root i + j := by
  rw [length_sigSizes] at below
  obtain ⟨i, k, j, here, inside, rfl⟩ := exists_segment below
  rw [sigCounts, List.getElem?_map, Option.map_eq_some_iff] at here
  obtain ⟨app, here, rfl⟩ := here
  exact ⟨i, app, j, app.sigs[j], here, List.getElem?_eq_getElem inside, rfl⟩

theorem sigSizes_owned {root : List ApplicationS} {i j : Nat} {app : ApplicationS} {sig : SigS}
    (here : root[i]? = some app) (there : app.sigs[j]? = some sig) :
    (sigSizes root)[sigStart root i + j]? = some sig.elements.length := by
  rw [sigSizes, ← ownedSigs_elements, List.getElem?_map, List.getElem?_map, getElem?_ownedSigs here there]
  rfl

/-- What the walk finds: the rows and counts as installation leaves them, of a
configuration whose places fit their fields. -/
structure WalkReady (mem : Memory) (root : List ApplicationS) (summary : AppStatisticsS) (info : AppInfoS) : Prop where
  rows : InstalledRows mem root info
  inRange : ∀ app ∈ root, app.category.toNat < MAX_CATEGORY_ID
  few : (sigSizes root).sum < 65535
  nonempty : ∀ app ∈ root, ∀ sig ∈ app.sigs, sig.elements ≠ []
  cateNums : ∀ c, summary.cateNum c = (categories root).count c
  starts : ∀ c < MAX_CATEGORY_ID, summary.cateIndex c = CountingSort.start (categories root) c

section Walk

variable {mem : Memory} {root : List ApplicationS} {summary : AppStatisticsS} {info : AppInfoS}

/-- No signature is empty, so there are no more signatures than elements. -/
theorem length_sigSizes_le (nonempty : ∀ app ∈ root, ∀ sig ∈ app.sigs, sig.elements ≠ []) :
    (sigSizes root).length ≤ (sigSizes root).sum := by
  have each : ∀ k ∈ sigSizes root, 1 ≤ k := by
    intro k member
    obtain ⟨g, small, rfl⟩ := List.mem_iff_getElem.1 member
    obtain ⟨i, app, j, sig, here, there, rfl⟩ := exists_owner small
    have size := sigSizes_owned here there
    rw [List.getElem?_eq_getElem small] at size
    rw [Option.some.inj size]
    exact List.length_pos_iff.2
      (nonempty app (List.mem_of_getElem? here) sig (List.mem_of_getElem? there))
  exact List.length_le_sum_of_one_le _ each

theorem WalkReady.elements_pos (ready : WalkReady mem root summary info) {i j : Nat} {app : ApplicationS} {sig : SigS}
    (here : root[i]? = some app) (there : app.sigs[j]? = some sig) : 0 < sig.elements.length :=
  List.length_pos_iff.2 (ready.nonempty app (List.mem_of_getElem? here) sig (List.mem_of_getElem? there))

/-- The places of an application's signatures fit their fields. -/
theorem WalkReady.appEntry_fields (ready : WalkReady mem root summary info) {i : Nat} {app : ApplicationS}
    (here : root[i]? = some app) (old : AppEntryS) :
    (appEntry old app (sigStart root i)).sigIndex.toNat = sigStart root i ∧
      (appEntry old app (sigStart root i)).sigNum.toNat = app.sigs.length := by
  have total : (sigCounts root).sum < 2 ^ 32 := by
    rw [← length_sigSizes]
    have sizes := length_sigSizes_le ready.nonempty
    have few := ready.few
    omega
  exact Orchid.appEntry_fields here total old

/-- A signature whose cell holds its start is visited exactly. -/
theorem dumpSig_exact (ready : WalkReady mem root summary info) {i j : Nat} {app : ApplicationS} {sig : SigS}
    (here : root[i]? = some app) (there : app.sigs[j]? = some sig)
    (first : (mem.sigs (sigStart root i + j)).fEleIndex.toNat = start (sigSizes root) (sigStart root i + j)) :
    ∃ visit, dumpSig info (sigStart root i + j) = .ok visit ∧ visit.eles.map EleVisit.place =
      List.range' (start (sigSizes root) (sigStart root i + j)) sig.elements.length := by
  have size := sigSizes_owned here there
  have few := ready.few
  have next := start_succ size
  have total := start_le_sum (sigSizes root) (sigStart root i + j + 1)
  have notNegative : ¬ (sigEntry (mem.sigs (sigStart root i + j)) app sig).fEleIndex.toInt < 0 := by
    show ¬ (mem.sigs (sigStart root i + j)).fEleIndex.toInt < 0
    rw [BitVec.toInt_eq_toNat_of_lt (by rw [first]; omega)]
    omega
  obtain ⟨eles, loop, visited⟩ := @dumpElements_total _ (ready.elements_pos here there)
    (info.eles.drop (start (sigSizes root) (sigStart root i + j))) (start (sigSizes root) (sigStart root i + j))
    fun j' below => by
      refine ⟨_, by rw [List.getElem?_drop, ready.rows.cell size below], ?_⟩
      exact elementRow_marked_iff (by omega) below
  refine ⟨⟨sigStart root i + j, sigEntry (mem.sigs (sigStart root i + j)) app sig, eles⟩, ?_, visited⟩
  unfold dumpSig
  rw [ready.rows.sigs i app j sig here there]
  simp only [if_neg notNegative]
  show (dumpElements (mem.sigs _).fEleIndex.toNat (info.eles.drop (mem.sigs _).fEleIndex.toNat) >>= _) = _
  rw [first, loop]
  rfl

/-- An application of at most two such signatures is visited with all of them. -/
theorem dumpApp_exact (ready : WalkReady mem root summary info) (fits : WalkFits mem root) {i : Nat}
    {app : ApplicationS} (here : root[i]? = some app) : ∃ visit, dumpApp info (appSlot root i) = .ok visit := by
  obtain ⟨first, count⟩ := ready.appEntry_fields here (mem.apps (appSlot root i))
  obtain ⟨sigs, loop⟩ := @counterWalk_total _ _ (dumpSig info) (sigStart root i) 0 app.sigs.length fun p member => by
    rw [walkCells_eq_range' (fits.sigs app (List.mem_of_getElem? here)), List.mem_range'_1] at member
    obtain ⟨j, rfl⟩ := Nat.exists_eq_add_of_le member.1
    have there := List.getElem?_eq_getElem (show j < app.sigs.length by omega)
    have size := sigSizes_owned here there
    obtain ⟨visit, visited, -⟩ := dumpSig_exact ready here there
      (fits.firsts _ (List.getElem?_eq_some_iff.1 size).1)
    exact ⟨visit, visited⟩
  refine ⟨⟨appSlot root i, appEntry (mem.apps (appSlot root i)) app (sigStart root i), sigs⟩, ?_⟩
  rw [← first, ← count] at loop
  unfold dumpApp
  rw [ready.rows.apps i app here]
  simp only [loop]
  rfl

/-- The walk of a configuration it fits ends. -/
theorem dumpApplicationArray_total (ready : WalkReady mem root summary info) (fits : WalkFits mem root) :
    ∃ dump, dumpApplicationArray summary info = .ok dump := by
  have each : ∀ c ∈ List.range MAX_CATEGORY_ID, ∃ visit, dumpCate summary info c = .ok visit := by
    intro c member
    have small := List.mem_range.1 member
    obtain ⟨apps, loop⟩ := @counterWalk_total _ _ (dumpApp info) (summary.cateIndex c) 0 (summary.cateNum c)
      fun p member => by
        rw [ready.cateNums, ready.starts c small, walkCells_eq_range' (fits.apps c small)] at member
        obtain ⟨i, inside, rfl⟩ := List.mem_map.1 ((ofCategory_slots root c).mem_iff.1 member)
        have key := mem_ofCategory.1 inside
        rw [categories, List.getElem?_map, Option.map_eq_some_iff] at key
        obtain ⟨app, here, -⟩ := key
        exact dumpApp_exact ready fits here
    exact ⟨⟨summary.cateIndex c, summary.cateNum c, apps⟩, by unfold dumpCate; rw [loop]; rfl⟩
  obtain ⟨cates, loop⟩ := mapM_total each
  exact ⟨⟨summary.appNums, summary.sigNums, summary.eleNums, cates⟩, by unfold dumpApplicationArray; rw [loop]; rfl⟩

/-- The category visits of a walk that ended. -/
theorem dumpApplicationArray_cates {dump : Dump} (walked : dumpApplicationArray summary info = .ok dump) :
    dump.cates.length = MAX_CATEGORY_ID ∧
      ∀ (c : Nat) (visit : CateVisit), dump.cates[c]? = some visit →
        c < MAX_CATEGORY_ID ∧ dumpCate summary info c = .ok visit := by
  have related := dumpApplicationArray_ok walked
  have length : dump.cates.length = MAX_CATEGORY_ID := by rw [← related.length_eq, List.length_range]
  refine ⟨length, fun c visit here => ?_⟩
  have small : c < MAX_CATEGORY_ID := length ▸ (List.getElem?_eq_some_iff.1 here).1
  obtain ⟨c', index, visited⟩ := (forall₂_getElem? related).2 visit here
  rw [List.getElem?_range small] at index
  obtain rfl := Option.some.inj index
  exact ⟨small, visited⟩

/-- Under an application, the walk visits the cells at growing distances. -/
theorem dumpApp_sigs (ready : WalkReady mem root summary info) {i : Nat} {app : ApplicationS}
    (here : root[i]? = some app) {visit : AppVisit} (visited : dumpApp info (appSlot root i) = .ok visit) :
    visit.sigs.map SigVisit.place = walkCells (sigStart root i) 0 app.sigs.length ∧
      ∀ sig ∈ visit.sigs, dumpSig info sig.place = .ok sig := by
  obtain ⟨first, count⟩ := ready.appEntry_fields here (mem.apps (appSlot root i))
  obtain ⟨-, row, found, walk, each⟩ := dumpApp_ok visited
  obtain rfl := Option.some.inj ((ready.rows.apps i app here).symm.trans found)
  rw [first, count] at walk
  exact ⟨walk, each⟩

/-- A walk that fits is exact. -/
theorem WalkFits.exact (fits : WalkFits mem root) (ready : WalkReady mem root summary info) {dump : Dump}
    (walked : dumpApplicationArray summary info = .ok dump) : WalkExact root dump := by
  obtain ⟨length, visits⟩ := dumpApplicationArray_cates walked
  have atCate : ∀ visit ∈ dump.cates, ∀ app ∈ visit.apps, dumpApp info app.place = .ok app := by
    intro visit member app inside
    obtain ⟨c, here⟩ := List.mem_iff_getElem?.1 member
    exact (dumpCate_ok (visits c visit here).2).2 app inside
  refine ⟨length, fun c visit here => ?_, fun visit member app inside i entry here same => ?_,
    fun visit member app inside sig inApp k size => ?_⟩
  · obtain ⟨small, visited⟩ := visits c visit here
    rw [(dumpCate_ok visited).1, ready.cateNums, ready.starts c small, walkCells_eq_range' (fits.apps c small)]
    exact ofCategory_slots root c
  · have visited := atCate visit member app inside
    rw [← same] at visited
    rw [(dumpApp_sigs ready here visited).1, walkCells_eq_range' (fits.sigs entry (List.mem_of_getElem? here))]
  · obtain ⟨-, row, -, -, each⟩ := dumpApp_ok (atCate visit member app inside)
    have visited := each sig inApp
    have below := (List.getElem?_eq_some_iff.1 size).1
    obtain ⟨i, entry, j, owned, here, there, place⟩ := exists_owner below
    rw [place] at size visited ⊢
    obtain ⟨sig', visited', run⟩ := dumpSig_exact ready here there (place ▸ fits.firsts _ below)
    obtain rfl := Except.ok.inj (visited.symm.trans visited')
    rw [run, Option.some.inj (size.symm.trans (sigSizes_owned here there))]

/-- An exact walk fits. -/
theorem WalkExact.fits {dump : Dump} (exact_ : WalkExact root dump) (ready : WalkReady mem root summary info)
    (walked : dumpApplicationArray summary info = .ok dump) : WalkFits mem root := by
  obtain ⟨length, visits⟩ := dumpApplicationArray_cates walked
  -- every application is visited, in its category
  have visited : ∀ i app, root[i]? = some app → ∃ visit ∈ dump.cates, ∃ at_ ∈ visit.apps,
      at_.place = appSlot root i ∧ dumpApp info (appSlot root i) = .ok at_ := by
    intro i app here
    have small := ready.inRange app (List.mem_of_getElem? here)
    have found := List.getElem?_eq_getElem (length ▸ small : app.category.toNat < dump.cates.length)
    have slot : appSlot root i ∈ (ofCategory root app.category.toNat).map (appSlot root) :=
      List.mem_map_of_mem (mem_ofCategory.2 (getElem?_categories here))
    obtain ⟨at_, inside, place⟩ := List.mem_map.1 ((exact_.apps _ _ found).mem_iff.2 slot)
    have ran := (dumpCate_ok (visits _ _ found).2).2 at_ inside
    exact ⟨_, List.mem_of_getElem? found, at_, inside, place, place ▸ ran⟩
  have sigs : ∀ i app, root[i]? = some app → ∃ visit ∈ dump.cates, ∃ at_ ∈ visit.apps,
      at_.sigs.map SigVisit.place = List.range' (sigStart root i) app.sigs.length ∧
        at_.sigs.map SigVisit.place = walkCells (sigStart root i) 0 app.sigs.length ∧
        ∀ sig ∈ at_.sigs, dumpSig info sig.place = .ok sig := by
    intro i app here
    obtain ⟨visit, member, at_, inside, place, ran⟩ := visited i app here
    obtain ⟨walk, each⟩ := dumpApp_sigs ready here ran
    exact ⟨visit, member, at_, inside, exact_.sigs visit member at_ inside i app here place.symm, walk, each⟩
  refine ⟨fun c small => ?_, fun app inRoot => ?_, fun g below => ?_⟩
  · have found := List.getElem?_eq_getElem (length ▸ small : c < dump.cates.length)
    have walk := (dumpCate_ok (visits c _ found).2).1
    rw [ready.cateNums, ready.starts c small] at walk
    exact walkCells_perm_iff.1 (walk ▸ (exact_.apps c _ found).trans (ofCategory_slots root c).symm)
  · obtain ⟨i, here⟩ := List.mem_iff_getElem?.1 inRoot
    obtain ⟨visit, -, at_, -, run, walk, -⟩ := sigs i app here
    exact walkCells_perm_iff.1 (List.Perm.of_eq (walk.symm.trans run))
  · obtain ⟨i, app, j, sig, here, there, rfl⟩ := exists_owner below
    obtain ⟨visit, member, at_, inside, run, -, each⟩ := sigs i app here
    have small : j < app.sigs.length := (List.getElem?_eq_some_iff.1 there).1
    have place : sigStart root i + j ∈ at_.sigs.map SigVisit.place := by
      rw [run, List.mem_range'_1]
      omega
    obtain ⟨sigVisit, inSigs, same⟩ := List.mem_map.1 place
    have size := sigSizes_owned here there
    have run' := exact_.eles visit member at_ inside sigVisit inSigs _ (same ▸ size)
    obtain ⟨-, row, found, head⟩ := dumpSig_ok (each sigVisit inSigs)
    rw [same] at found run'
    obtain rfl := Option.some.inj ((ready.rows.sigs i app j sig here there).symm.trans found)
    obtain ⟨k, count⟩ := Nat.exists_eq_succ_of_ne_zero (ready.elements_pos here there).ne'
    rw [run', count, List.range'_succ] at head
    exact (Option.some.inj head).symm

end Walk

/-- **When the walk visits the tables exactly.** -/
theorem tablesVisited_iff (mem : Memory) (root : List ApplicationS)
    (inRange : ∀ app ∈ root, app.category.toNat < MAX_CATEGORY_ID)
    (few : (signatures root).flatten.length < 65535)
    (nonempty : ∀ app ∈ root, ∀ sig ∈ app.sigs, sig.elements ≠ [])
    (texts : ∀ e ∈ (signatures root).flatten, e.matchStr.length < MAX_SIG_LENGTH) :
    TablesVisited mem root ↔ WalkFits mem root := by
  obtain ⟨summary, st, counted, installed, -, cateNums, starts, done⟩ := installApplication_total mem inRange texts
  have run : installAndDump mem root = dumpApplicationArray summary st.info := by
    rw [installAndDump, counted]
    show installApplication mem summary root >>= _ = _
    rw [installed]
    rfl
  rw [List.length_flatten] at few
  have ready : WalkReady mem root summary st.info :=
    { rows := installApplication_rows counted installed done
      inRange := inRange
      few := few
      nonempty := nonempty
      cateNums := cateNums
      starts := starts }
  constructor
  · rintro ⟨dump, walked, exact_⟩
    exact exact_.fits ready (run ▸ walked)
  · intro fits
    obtain ⟨dump, walked⟩ := dumpApplicationArray_total ready fits
    exact ⟨dump, run.trans walked, fits.exact ready walked⟩

/-- Two applications in each of two categories, in turn, each with a signature of two elements and one of one. -/
def pairedApplications : List ApplicationS :=
  [(1, 2), (2, 5), (3, 2), (4, 5)].map fun (id, category) =>
    { id := id, category := category, name := cstr "app"
      sigs :=
        [{ id := 2 * id, proto := PROTOCOL_HTTP, type := SIG_MULTI, enable := 1, priority := 1, dir := 0
           matchStr := cstr "http_host=a&http_ua=b", eleNum := 2, elements := [⟨1, cstr "a"⟩, ⟨2, cstr "b"⟩] },
          { id := 2 * id + 1, proto := PROTOCOL_HTTP, type := SIG_SINGLE, enable := 1, priority := 1, dir := 0
            matchStr := cstr "http_url=c", eleNum := 1, elements := [⟨4, cstr "c"⟩] }] }

/-- Memory with something in every cell, and in a signature's cell the place where its elements start. -/
def pairedMemory : Memory where
  apps _ := ⟨0xA5A5A5A5, 0xA5A5A5A5, 0xA5A5A5A5, 0xA5A5A5A5⟩
  sigs g := ⟨0xA5A5A5A5, 0xA5A5A5A5, 0xA5A5A5A5, 0xA5A5A5A5, BitVec.ofNat 32 (3 * (g / 2) + 2 * (g % 2))⟩
  eles _ := ⟨0xA5A5, 0xA5A5, 0xA5A5⟩
  alloc := clearedMemory.alloc

theorem tablesVisited_paired : TablesVisited pairedMemory pairedApplications :=
  (tablesVisited_iff pairedMemory pairedApplications (by decide) (by decide) (by decide) (by decide)).2
    ⟨by decide, by decide, by decide⟩

/-- Three applications of one category, each with one signature of one element. -/
def threeOfOneCategory : List ApplicationS :=
  [1, 2, 3].map fun id =>
    { id := id, category := 1, name := cstr "app"
      sigs :=
        [{ id := id, proto := PROTOCOL_HTTP, type := SIG_SINGLE, enable := 1, priority := 1, dir := 0
           matchStr := cstr "http_host=a", eleNum := 1, elements := [⟨1, cstr "a"⟩] }] }

/-- Memory that already holds where the elements of each of these signatures start. -/
def linkedMemory : Memory :=
  { clearedMemory with sigs := fun g => ⟨0, 0, 0, 0, BitVec.ofNat 32 g⟩ }

/-- The third application is looked for one row behind the table. -/
theorem third_application_missed :
    ¬ ∀ (mem : Memory) (root : List ApplicationS), (∀ app ∈ root, app.category.toNat < MAX_CATEGORY_ID) →
      (signatures root).flatten.length < 65535 → (∀ app ∈ root, ∀ sig ∈ app.sigs, sig.elements ≠ []) →
      (∀ e ∈ (signatures root).flatten, e.matchStr.length < MAX_SIG_LENGTH) → TablesVisited mem root := by
  intro visited
  obtain ⟨dump, walked, -⟩ := visited linkedMemory threeOfOneCategory (by decide) (by decide) (by decide) (by decide)
  have stops : installAndDump linkedMemory threeOfOneCategory = .error .appRange := rfl
  rw [stops] at walked
  cases walked

end Orchid
