/-
# Loader.Install -- installation is a stable counting sort

`get_Application_summary` counts, `install_Application` places.  Application `i`
goes to slot `appSlot root i` of the application array, which is the slot a
counting sort by category gives it (`Theory.CountingSort`); its signatures take the
next cells of the signature array from `sigStart root i` on, their elements the next
cells of the element array.

`Placing` says what holds after the applications `done`: every one of them is in its
slot, and the slots of the others still hold what the memory held.  With categories
below 16, texts that fit their buffers and the counts of the first pass, no step can
stop (`Placing.app`), so installation runs to its end and leaves what a counting sort
leaves (`install_countingSort`).
-/
import Orchid.Searcher.IdWord
import Orchid.Theory.CountingSort

namespace Orchid

open Orchid.Theory

set_option autoImplicit false

/-! ## Slots -/

def categories (root : List ApplicationS) : List Nat := root.map fun app => app.category.toNat

/-- The slot of application `i` in the application array. -/
def appSlot (root : List ApplicationS) (i : Nat) : Nat := CountingSort.slot (categories root) i

/-- The numbers of signatures of the applications. -/
def sigCounts (root : List ApplicationS) : List Nat := root.map fun app => app.sigs.length

/-- Where the signatures of application `i` start. -/
def sigStart (root : List ApplicationS) (i : Nat) : Nat := start (sigCounts root) i

/-- The signatures with their applications, in list order. -/
def ownedSigs (root : List ApplicationS) : List (ApplicationS × SigS) :=
  root.flatMap fun app => app.sigs.map fun sig => (app, sig)

/-- The row of an application over the old cell. -/
def appEntry (old : AppEntryS) (app : ApplicationS) (sigIndex : Nat) : AppEntryS :=
  { old with
    appid := app.id
    sigIndex := BitVec.ofNat 32 sigIndex
    sigNum := BitVec.ofNat 32 app.sigs.length }

/-- The row of a signature over the old cell. -/
def sigEntry (old : SigEntryS) (app : ApplicationS) (sig : SigS) : SigEntryS :=
  { old with
    sigid := ((app.category &&& 0xFFFF) <<< 16) ||| (app.id &&& 0xFFFF)
    proto := sig.proto
    enable := sig.enable
    priority := sig.priority }

theorem length_categories (root : List ApplicationS) : (categories root).length = root.length :=
  List.length_map ..

theorem getElem?_categories {root : List ApplicationS} {i : Nat} {app : ApplicationS}
    (here : root[i]? = some app) : (categories root)[i]? = some app.category.toNat := by
  rw [categories, List.getElem?_map, here]
  rfl

theorem length_ownedSigs (root : List ApplicationS) : (ownedSigs root).length = (sigCounts root).sum := by
  rw [ownedSigs, List.length_flatMap, sigCounts]
  simp

theorem ownedSigs_elements (root : List ApplicationS) :
    (ownedSigs root).map (fun pair => pair.2.elements) = signatures root := by
  rw [ownedSigs, signatures, List.map_flatMap]
  simp [Function.comp_def]

theorem length_sigSizes (root : List ApplicationS) : (sigSizes root).length = (sigCounts root).sum := by
  rw [sigSizes, List.length_map, ← ownedSigs_elements, List.length_map, length_ownedSigs]

/-! ## The counting pass -/

theorem countSigs_frame (sigs : List SigS) (summary : AppStatisticsS) :
    (sigs.foldl countSig summary).appNums = summary.appNums ∧
      (sigs.foldl countSig summary).cateNum = summary.cateNum := by
  induction sigs generalizing summary with
  | nil => exact ⟨rfl, rfl⟩
  | cons sig sigs ih => exact ih (countSig summary sig)

/-- The counting loop: with the categories in range it ends, and it counts the
applications of every category. -/
theorem countApplications_ok (root : List ApplicationS) (before : AppStatisticsS)
    (inRange : ∀ app ∈ root, app.category.toNat < MAX_CATEGORY_ID) :
    ∃ after, root.foldlM countApplication before = .ok after ∧
      after.appNums = before.appNums + root.length ∧
      ∀ c, after.cateNum c = before.cateNum c + (categories root).count c := by
  refine @foldlM_total _ _ _ _
    (fun done after => after.appNums = before.appNums + done.length ∧
      ∀ c, after.cateNum c = before.cateNum c + (categories done).count c) _
    (fun done app rest whole middle held => ?_) before ⟨rfl, fun c => rfl⟩
  obtain ⟨apps, cates⟩ := held
  have inside := inRange app (by simp [whole])
  refine ⟨_, if_pos inside, ?_, fun c => ?_⟩
  · rw [(countSigs_frame app.sigs _).1, List.length_append]
    exact congrArg (· + 1) apps
  · rw [(countSigs_frame app.sigs _).2, categories, List.map_append, List.count_append, ← Nat.add_assoc]
    show Function.update middle.cateNum app.category.toNat (middle.cateNum app.category.toNat + 1) c =
      before.cateNum c + (categories done).count c + [app.category.toNat].count c
    rw [← cates c]
    by_cases same : app.category.toNat = c
    · subst same
      simp
    · simp [Function.update_of_ne (Ne.symm same), same]

/-- The running sums of `get_Application_summary`. -/
theorem cateIndexLoop_eq (cateNum : Nat → Nat) (n : Nat) :
    (cateIndexLoop cateNum n).2 = ((List.range (n + 1)).map cateNum).sum ∧
      ∀ c ≤ n, (cateIndexLoop cateNum n).1 c = ((List.range c).map cateNum).sum := by
  induction n with
  | zero =>
      refine ⟨by simp [cateIndexLoop], fun c small => ?_⟩
      obtain rfl : c = 0 := Nat.le_zero.1 small
      simp [cateIndexLoop]
  | succ n ih =>
      obtain ⟨total, cells⟩ := ih
      refine ⟨?_, fun c small => ?_⟩
      · rw [cateIndexLoop, List.range_succ, List.map_append, List.sum_append, ← total]
        simp
      · show Function.update (cateIndexLoop cateNum n).1 (n + 1) (cateIndexLoop cateNum n).2 c = _
        by_cases last : c = n + 1
        · subst last
          rw [Function.update_self, total]
        · rw [Function.update_of_ne last, cells c (by omega)]

/-- **What the first pass leaves**, for categories in range. -/
theorem getApplicationSummary_ok {root : List ApplicationS}
    (inRange : ∀ app ∈ root, app.category.toNat < MAX_CATEGORY_ID) :
    ∃ summary, getApplicationSummary root = .ok summary ∧ summary.appNums = root.length ∧
      (∀ c, summary.cateNum c = (categories root).count c) ∧
      ∀ c < MAX_CATEGORY_ID, summary.cateIndex c = CountingSort.start (categories root) c := by
  obtain ⟨after, ran, apps, cates⟩ := countApplications_ok root .zero inRange
  have cells : after.cateNum = fun c => (categories root).count c := by
    funext c
    rw [cates]
    exact Nat.zero_add _
  refine ⟨{ after with cateIndex := (cateIndexLoop after.cateNum (MAX_CATEGORY_ID - 1)).1 }, ?_, ?_,
    fun c => congrFun cells c, fun c small => ?_⟩
  · rw [getApplicationSummary, ran]
    rfl
  · show after.appNums = root.length
    rw [apps]
    exact Nat.zero_add _
  · show (cateIndexLoop after.cateNum (MAX_CATEGORY_ID - 1)).1 c = _
    rw [(cateIndexLoop_eq after.cateNum _).2 c (by omega), cells, CountingSort.start_eq_sum]

/-! ## One signature -/

/-- With room in the element array and short texts the element loop ends. -/
theorem installElements_total {alloc : Nat → Uint} (elements : List ElementS) :
    ∀ {st : InstallState} {n : Nat}, (∀ e ∈ elements, e.matchStr.length < MAX_SIG_LENGTH) →
      st.eleOffset + elements.length ≤ st.info.eles.length →
      ∃ st', installElements alloc st n elements = .ok st' := by
  induction elements with
  | nil =>
      intro st n _ _
      exact ⟨st, rfl⟩
  | cons e elements ih =>
      intro st n texts room
      have short : ¬ e.matchStr.length ≥ MAX_SIG_LENGTH := Nat.not_le.2 (texts e (List.mem_cons_self ..))
      rw [List.length_cons] at room
      have inside : st.eleOffset < st.info.eles.length := by omega
      rw [installElements, installElement, pushAppSig_some, if_neg short]
      simp only [bind, Except.bind, List.getElem?_eq_getElem inside, pure, Except.pure]
      apply ih (fun e' member => texts e' (List.mem_cons_of_mem _ member))
      simp only [List.length_set]
      omega

section Sigs

variable {mem : Memory} {sigTotal total : Nat} {done : List (List ElementS)} {st : InstallState}

/-- The element array keeps its length. -/
theorem Installing.length_eles (state : Installing mem sigTotal total done st) :
    st.info.eles.length = total := by
  have fits := state.fits
  rw [state.rows, List.length_append, length_elementTable, ← state.eles, List.length_map,
    List.length_range']
  omega

/-- One signature: it takes the next row, and its elements the next cells. -/
theorem Installing.sig_total (state : Installing mem sigTotal total done st) (app : ApplicationS)
    {sig : SigS} (texts : ∀ e ∈ sig.elements, e.matchStr.length < MAX_SIG_LENGTH)
    (room : done.length < sigTotal) (space : st.eleOffset + sig.elements.length ≤ total) :
    ∃ st' old, installSig mem.alloc app st sig = .ok st' ∧ st.info.sigs[done.length]? = some old ∧
      st'.info.sigs = st.info.sigs.set done.length (sigEntry old app sig) ∧
      st'.info.apps = st.info.apps ∧ st'.cateOffset = st.cateOffset ∧
      Installing mem sigTotal total (done ++ [sig.elements]) st' := by
  have inside : st.sigOffset < st.info.sigs.length := by rw [state.sigCells, state.sigs]; exact room
  obtain ⟨old, cell⟩ : ∃ old, st.info.sigs[st.sigOffset]? = some old := ⟨_, List.getElem?_eq_getElem inside⟩
  have space' : st.eleOffset + sig.elements.length ≤ st.info.eles.length := by
    rw [state.length_eles]
    exact space
  let row := sigEntry old app sig
  obtain ⟨final, loop⟩ := @installElements_total mem.alloc sig.elements
    { st with info := { st.info with sigs := st.info.sigs.set st.sigOffset row } } 0 texts space'
  obtain ⟨apps, sigs, -, cates⟩ := installElements_frame sig.elements loop
  have ran : ∃ st', installSig mem.alloc app st sig = .ok st' ∧ st'.info.sigs = final.info.sigs ∧
      st'.info.apps = final.info.apps ∧ st'.cateOffset = final.cateOffset := by
    rw [installSig, cell]
    simp only [bind, Except.bind]
    simp only [row, sigEntry] at loop
    rw [loop]
    exact ⟨_, rfl, rfl, rfl, rfl⟩
  obtain ⟨st', ran, sameSigs, sameApps, sameCates⟩ := ran
  rw [state.sigs] at cell
  refine ⟨st', old, ran, cell, ?_, sameApps.trans apps, sameCates.trans cates, state.sig ran⟩
  rw [sameSigs, sigs]
  exact congrArg (fun n => st.info.sigs.set n (sigEntry old app sig)) state.sigs

/-- The signature rows after the signatures `owned`, over the old cells. -/
def sigTable (mem : Memory) (sigTotal : Nat) (owned : List (ApplicationS × SigS)) : List SigEntryS :=
  owned.mapIdx (fun g pair => sigEntry (mem.sigs g) pair.1 pair.2) ++
    (List.range' owned.length (sigTotal - owned.length)).map mem.sigs

theorem sigTable_next {mem : Memory} {sigTotal : Nat} {owned : List (ApplicationS × SigS)}
    (room : owned.length < sigTotal) (app : ApplicationS) (sig : SigS) :
    (sigTable mem sigTotal owned)[owned.length]? = some (mem.sigs owned.length) ∧
      (sigTable mem sigTotal owned).set owned.length (sigEntry (mem.sigs owned.length) app sig) =
        sigTable mem sigTotal (owned ++ [(app, sig)]) := by
  obtain ⟨left, count⟩ : ∃ left, sigTotal - owned.length = left + 1 :=
    ⟨sigTotal - owned.length - 1, by omega⟩
  have rest : sigTotal - (owned.length + 1) = left := by omega
  have before : (owned.mapIdx fun g pair => sigEntry (mem.sigs g) pair.1 pair.2).length = owned.length :=
    List.length_mapIdx
  unfold sigTable
  rw [count, List.range'_succ, List.map_cons]
  constructor
  · rw [List.getElem?_append_right (by rw [before]), before, Nat.sub_self]
    rfl
  · rw [List.set_append_right _ _ (by rw [before]), before, Nat.sub_self, List.set_cons_zero,
      List.mapIdx_append, List.length_append, List.length_singleton, rest]
    simp

/-- The state after the signatures `owned`: the element part and the signature rows. -/
structure SigsPlaced (mem : Memory) (sigTotal total : Nat) (owned : List (ApplicationS × SigS))
    (st : InstallState) : Prop where
  installing : Installing mem sigTotal total (owned.map fun pair => pair.2.elements) st
  sigRows : st.info.sigs = sigTable mem sigTotal owned

/-- The signatures of one application. -/
theorem SigsPlaced.sigsLoop {app : ApplicationS} {sigs : List SigS} {owned : List (ApplicationS × SigS)}
    {st : InstallState} (state : SigsPlaced mem sigTotal total owned st)
    (texts : ∀ sig ∈ sigs, ∀ e ∈ sig.elements, e.matchStr.length < MAX_SIG_LENGTH)
    (room : owned.length + sigs.length ≤ sigTotal)
    (space : st.eleOffset + (sigs.map fun sig => sig.elements.length).sum ≤ total) :
    ∃ st', sigs.foldlM (installSig mem.alloc app) st = .ok st' ∧
      st'.info.apps = st.info.apps ∧ st'.cateOffset = st.cateOffset ∧
      SigsPlaced mem sigTotal total (owned ++ sigs.map fun sig => (app, sig)) st' := by
  refine @foldlM_total _ _ _ _ (fun done st' => st'.info.apps = st.info.apps ∧ st'.cateOffset = st.cateOffset ∧
    SigsPlaced mem sigTotal total (owned ++ done.map fun sig => (app, sig)) st') _
    (fun done sig rest whole before held => ?_) st ⟨rfl, rfl, by simpa using state⟩
  obtain ⟨sameApps, sameCates, placed⟩ := held
  have reached : before.eleOffset = st.eleOffset + (done.map fun sig => sig.elements.length).sum := by
    rw [placed.installing.eles, state.installing.eles]
    simp [Function.comp_def]
  have next : (owned ++ done.map fun sig => (app, sig)).length < sigTotal := by
    rw [whole, List.length_append, List.length_cons] at room
    rw [List.length_append, List.length_map]
    omega
  rw [whole, List.map_append, List.sum_append, List.map_cons, List.sum_cons] at space
  obtain ⟨cell, written⟩ := sigTable_next next app sig
  obtain ⟨after, old, ran, here, rows, apps, cates, installing⟩ := placed.installing.sig_total app
    (texts sig (by simp [whole])) (by rwa [List.length_map]) (by omega)
  rw [List.length_map, placed.sigRows] at here rows
  obtain rfl := Option.some.inj (cell.symm.trans here)
  refine ⟨after, ran, apps.trans sameApps, cates.trans sameCates, ?_, ?_⟩
  · simpa using installing
  · rw [rows, written, List.map_append, ← List.append_assoc]
    rfl

end Sigs

/-! ## One application -/

/-- The state after the first `n` applications of `root`: they are in their slots, and
the other slots are untouched. -/
structure Placing (mem : Memory) (root : List ApplicationS) (n : Nat) (st : InstallState) : Prop where
  sigs : SigsPlaced mem (sigSizes root).length (sigSizes root).sum (ownedSigs (root.take n)) st
  cells : st.info.apps.length = root.length
  cates : ∀ c, st.cateOffset c = ((categories root).take n).count c
  placed : ∀ i < n, ∀ app, root[i]? = some app → st.info.apps[appSlot root i]? =
    some (appEntry (mem.apps (appSlot root i)) app (sigStart root i))
  free : ∀ s < root.length, (∀ i < n, appSlot root i ≠ s) → st.info.apps[s]? = some (mem.apps s)

theorem sigStart_eq_length (root : List ApplicationS) (n : Nat) :
    sigStart root n = (ownedSigs (root.take n)).length := by
  rw [length_ownedSigs, sigStart, start, sigCounts, sigCounts, List.map_take]

theorem ownedSigs_take_succ {root : List ApplicationS} {n : Nat} {app : ApplicationS}
    (here : root[n]? = some app) :
    ownedSigs (root.take (n + 1)) = ownedSigs (root.take n) ++ app.sigs.map fun sig => (app, sig) := by
  rw [List.take_add_one, here]
  simp [ownedSigs]

section Apps

variable {mem : Memory} {root : List ApplicationS} {summary : AppStatisticsS}

theorem appSlot_lt {n : Nat} (inside : n < root.length) : appSlot root n < root.length := by
  rw [← length_categories root]
  exact CountingSort.slot_lt (by rwa [length_categories])

theorem appSlot_ne {i n : Nat} (before : i < n) (inside : n < root.length) : appSlot root i ≠ appSlot root n := by
  intro same
  have := CountingSort.slot_injective (by rw [length_categories]; omega) (by rwa [length_categories]) same
  omega

/-- The signatures of the next application have room. -/
theorem Placing.appSigs {n : Nat} {st : InstallState} (state : Placing mem root n st)
    {app : ApplicationS} (here : root[n]? = some app)
    (texts : ∀ e ∈ (signatures root).flatten, e.matchStr.length < MAX_SIG_LENGTH) :
    ∃ next, app.sigs.foldlM (installSig mem.alloc app) st = .ok next ∧ next.info.apps = st.info.apps ∧
      next.cateOffset = st.cateOffset ∧
      SigsPlaced mem (sigSizes root).length (sigSizes root).sum (ownedSigs (root.take (n + 1))) next ∧
      st.sigOffset = sigStart root n ∧ next.sigOffset - sigStart root n = app.sigs.length := by
  have later : ownedSigs root = ownedSigs (root.take n) ++ (app.sigs.map fun sig => (app, sig)) ++
      ownedSigs (root.drop (n + 1)) := by
    rw [← ownedSigs_take_succ here, ownedSigs, ownedSigs, ownedSigs, ← List.flatMap_append,
      List.take_append_drop]
  have room : (ownedSigs (root.take n)).length + app.sigs.length ≤ (sigSizes root).length := by
    rw [length_sigSizes, ← length_ownedSigs, later]
    simp
  have space : st.eleOffset + (app.sigs.map fun sig => sig.elements.length).sum ≤ (sigSizes root).sum := by
    rw [state.sigs.installing.eles, sigSizes, ← ownedSigs_elements, later]
    simp [Function.comp_def]
  have short : ∀ sig ∈ app.sigs, ∀ e ∈ sig.elements, e.matchStr.length < MAX_SIG_LENGTH :=
    fun sig inApp e inSig =>
      texts e (mem_signatures_flatten.2 ⟨app, List.mem_of_getElem? here, sig, inApp, inSig⟩)
  obtain ⟨next, loop, apps, cates, sigs⟩ := state.sigs.sigsLoop short room space
  have first : st.sigOffset = sigStart root n := by
    rw [state.sigs.installing.sigs, List.length_map, sigStart_eq_length]
  refine ⟨next, loop, apps, cates, (ownedSigs_take_succ here) ▸ sigs, first, ?_⟩
  rw [← first, sigs.installing.sigs, state.sigs.installing.sigs]
  simp

/-- One application: with the counts of the first pass it goes to its slot. -/
theorem Placing.app {n : Nat} {st : InstallState} (state : Placing mem root n st)
    {app : ApplicationS} (here : root[n]? = some app)
    (inRange : app.category.toNat < MAX_CATEGORY_ID)
    (starts : summary.cateIndex app.category.toNat =
      CountingSort.start (categories root) app.category.toNat)
    (texts : ∀ e ∈ (signatures root).flatten, e.matchStr.length < MAX_SIG_LENGTH) :
    ∃ st', installApp mem.alloc summary st app = .ok st' ∧ Placing mem root (n + 1) st' := by
  have inside : n < root.length := (List.getElem?_eq_some_iff.1 here).1
  have key := getElem?_categories here
  -- the slot is the one the sort gives
  have slot : summary.cateIndex app.category.toNat + st.cateOffset app.category.toNat =
      appSlot root n := by
    rw [starts, state.cates, appSlot, CountingSort.slot_of_getElem? key]
  have cell := state.free _ (appSlot_lt inside) fun i before => appSlot_ne before inside
  obtain ⟨next, loop, apps, cates, sigs, start_, stop⟩ := state.appSigs here texts
  refine ⟨{ next with
    info := { next.info with
      apps := st.info.apps.set (appSlot root n) (appEntry (mem.apps (appSlot root n)) app (sigStart root n)) }
    cateOffset := Function.update st.cateOffset app.category.toNat
      (st.cateOffset app.category.toNat + 1) }, ?_, ?_⟩
  · rw [installApp, if_neg (Nat.not_le.2 inRange)]
    simp only [bind, Except.bind, pure, Except.pure, slot, cell, loop, apps, cates, start_, stop, appEntry]
  · refine ⟨⟨?_, ?_⟩, ?_, fun c => ?_, fun i small app' there => ?_, fun s low unused => ?_⟩
    · have done := sigs.installing
      exact ⟨done.sigs, done.eles, done.fits, done.words, done.rows, done.sigCells⟩
    · exact sigs.sigRows
    · show (st.info.apps.set _ _).length = root.length
      rw [List.length_set, state.cells]
    · show Function.update st.cateOffset app.category.toNat
        (st.cateOffset app.category.toNat + 1) c = _
      rw [List.take_add_one, key, List.count_append]
      by_cases same : c = app.category.toNat
      · subst same
        rw [Function.update_self, state.cates]
        simp
      · rw [Function.update_of_ne same, state.cates]
        simp [Ne.symm same]
    · show (st.info.apps.set _ _)[appSlot root i]? = _
      by_cases last : i = n
      · subst last
        obtain rfl : app = app' := Option.some.inj (here.symm.trans there)
        rw [List.getElem?_set_self (by rw [state.cells]; exact appSlot_lt inside)]
      · have before : i < n := by omega
        rw [List.getElem?_set_ne (appSlot_ne before inside).symm, state.placed i before app' there]
    · show (st.info.apps.set _ _)[s]? = _
      rw [List.getElem?_set_ne (unused n (Nat.lt_succ_self n)),
        state.free s low fun i before => unused i (Nat.lt_succ_of_lt before)]

/-- All applications. -/
theorem Placing.appsLoop (inRange : ∀ app ∈ root, app.category.toNat < MAX_CATEGORY_ID)
    (starts : ∀ c < MAX_CATEGORY_ID, summary.cateIndex c = CountingSort.start (categories root) c)
    (texts : ∀ e ∈ (signatures root).flatten, e.matchStr.length < MAX_SIG_LENGTH)
    {st : InstallState} (state : Placing mem root 0 st) :
    ∃ st', root.foldlM (installApp mem.alloc summary) st = .ok st' ∧ Placing mem root root.length st' := by
  refine @foldlM_total _ _ _ _ (fun done st => Placing mem root done.length st) _
    (fun done app rest whole before held => ?_) st state
  have here : root[done.length]? = some app := by simp [whole]
  have small := inRange app (List.mem_of_getElem? here)
  rw [List.length_append]
  exact held.app here small (starts _ small) texts

end Apps

/-! ## The whole installation -/

/-- What the two passes leave, in the words of a counting sort. -/
structure Installed (mem : Memory) (root : List ApplicationS) (summary : AppStatisticsS)
    (info : AppInfoS) (appList : List AppEntryT) : Prop where
  counts : summary.appNums = root.length ∧ summary.sigNums = (ownedSigs root).length ∧
    summary.eleNums = (signatures root).flatten.length
  sizes : info.apps.length = summary.appNums ∧ info.sigs.length = summary.sigNums ∧
    info.eles.length = summary.eleNums
  /-- every slot of the application array is the slot of one application -/
  slots : ∀ s < summary.appNums, ∃! i, i < root.length ∧ appSlot root i = s
  apps : ∀ i app, root[i]? = some app → appSlot root i < summary.appNums ∧
    info.apps[appSlot root i]? =
      some (appEntry (mem.apps (appSlot root i)) app (sigStart root i))
  /-- the applications of a category fill its interval -/
  intervals : ∀ c < MAX_CATEGORY_ID, ∀ s,
    (∃ i app, root[i]? = some app ∧ app.category.toNat = c ∧ appSlot root i = s) ↔
      summary.cateIndex c ≤ s ∧ s < summary.cateIndex c + summary.cateNum c
  stable : ∀ i j app app', root[i]? = some app → root[j]? = some app' →
    app.category = app'.category → i < j → appSlot root i < appSlot root j
  /-- the signature ranges follow one another from zero to the total -/
  ranges : sigStart root 0 = 0 ∧ sigStart root root.length = summary.sigNums ∧
    ∀ i app, root[i]? = some app → sigStart root (i + 1) = sigStart root i + app.sigs.length
  partition : ∀ g < summary.sigNums, ∃! i, i < root.length ∧ sigStart root i ≤ g ∧ g < sigStart root (i + 1)
  /-- the two 32-bit fields hold the range, as long as 32 bits do -/
  fields : summary.sigNums < 2 ^ 32 → ∀ i app, root[i]? = some app →
    ∀ old, (appEntry old app (sigStart root i)).sigIndex.toNat = sigStart root i ∧
      (appEntry old app (sigStart root i)).sigNum.toNat = app.sigs.length
  sigs : ∀ i app j sig, root[i]? = some app → app.sigs[j]? = some sig →
    info.sigs[sigStart root i + j]? = some (sigEntry (mem.sigs (sigStart root i + j)) app sig)
  /-- every cell of the element array is one place of one signature -/
  places : ∀ o < summary.eleNums, ∃ g k j, (sigSizes root)[g]? = some k ∧ j < k ∧
    o = start (sigSizes root) g + j ∧
    info.eles[o]? = some (elementRow (fun i => (mem.eles i).flag) g (start (sigSizes root) g) k j)
  places_unique : ∀ g g' k k' j j', (sigSizes root)[g]? = some k → (sigSizes root)[g']? = some k' →
    j < k → j' < k' → start (sigSizes root) g + j = start (sigSizes root) g' + j' → g = g' ∧ j = j'
  markers : appList.take httpMarkers.length = markerEntries mem.alloc
  patterns : appList.length = httpMarkers.length + summary.eleNums ∧
    ∀ o e, (signatures root).flatten[o]? = some e → ∃ entry,
      appList[httpMarkers.length + o]? = some entry ∧ (entry.appId &&& 0x00FFFFFF).toNat = o ∧
        entry.appId >>> 24 = e.id &&& 0xFF ∧ entry.regex = e.matchStr

theorem getElem?_ownedSigs {root : List ApplicationS} {i j : Nat} {app : ApplicationS} {sig : SigS}
    (here : root[i]? = some app) (there : app.sigs[j]? = some sig) :
    (ownedSigs root)[sigStart root i + j]? = some (app, sig) := by
  have below : j < app.sigs.length := (List.getElem?_eq_some_iff.1 there).1
  have block : (root.map fun app => app.sigs.map fun sig => (app, sig))[i]? =
      some (app.sigs.map fun sig => (app, sig)) := by
    rw [List.getElem?_map, here]
    rfl
  have lengths : (root.map fun app => app.sigs.map fun sig => (app, sig)).map List.length =
      sigCounts root := by
    simp [sigCounts]
  have found := getElem?_flatten_start block (by simpa using below)
  rw [lengths, List.getElem?_map, there] at found
  exact found

/-- The offset and the element id in an installed word. -/
theorem elementWord_fields {o : Nat} (small : o < 2 ^ 24) (e : Uint) :
    (elementWord e o &&& 0x00FFFFFF).toNat = o ∧ elementWord e o >>> 24 = e &&& 0xFF := by
  constructor
  · have low : elementWord e o &&& 0x00FFFFFF = BitVec.ofNat 32 o &&& (0x00FFFFFF : Uint) := by
      unfold elementWord
      generalize BitVec.ofNat 32 o = s
      ext i below
      interval_cases i <;> simp
    rw [low, BitVec.toNat_and, BitVec.toNat_ofNat, Nat.mod_eq_of_lt (by omega)]
    show o &&& (2 ^ 24 - 1) = o
    rw [Nat.and_two_pow_sub_one_eq_mod, Nat.mod_eq_of_lt small]
  · rw [elementWord, topByte_word, offset_top small]
    exact BitVec.or_zero

/-- The slots of the applications are the cells of their array. -/
theorem exists_unique_appSlot {root : List ApplicationS} {s : Nat} (low : s < root.length) :
    ∃! i, i < root.length ∧ appSlot root i = s := by
  have count := length_categories root
  rw [← count] at low
  obtain ⟨i, inside, rfl⟩ := CountingSort.exists_slot low
  refine ⟨i, ⟨count ▸ inside, rfl⟩, fun i' => ?_⟩
  rintro ⟨inside', same⟩
  exact CountingSort.slot_injective (by rwa [count]) inside same

/-- The slots of one category are an interval. -/
theorem appSlot_interval (root : List ApplicationS) (c s : Nat) :
    (∃ i app, root[i]? = some app ∧ app.category.toNat = c ∧ appSlot root i = s) ↔
      CountingSort.start (categories root) c ≤ s ∧
        s < CountingSort.start (categories root) c + (categories root).count c := by
  rw [← CountingSort.slot_interval]
  constructor
  · rintro ⟨i, app, here, rfl, same⟩
    exact ⟨i, getElem?_categories here, same⟩
  · rintro ⟨i, key, same⟩
    rw [categories, List.getElem?_map, Option.map_eq_some_iff] at key
    obtain ⟨app, here, rfl⟩ := key
    exact ⟨i, app, here, rfl, same⟩

theorem sigStart_succ {root : List ApplicationS} {i : Nat} {app : ApplicationS} (here : root[i]? = some app) :
    sigStart root (i + 1) = sigStart root i + app.sigs.length := by
  refine start_succ ?_
  rw [sigCounts, List.getElem?_map, here]
  rfl

theorem sigStart_length (root : List ApplicationS) : sigStart root root.length = (sigCounts root).sum := by
  have whole : root.length = (sigCounts root).length := (List.length_map ..).symm
  rw [sigStart, start, whole, List.take_length]

/-- A range of 32-bit numbers of cells. -/
theorem appEntry_fields {root : List ApplicationS} {i : Nat} {app : ApplicationS}
    (here : root[i]? = some app) (few : (sigCounts root).sum < 2 ^ 32) (old : AppEntryS) :
    (appEntry old app (sigStart root i)).sigIndex.toNat = sigStart root i ∧
      (appEntry old app (sigStart root i)).sigNum.toNat = app.sigs.length := by
  have within := sigStart_succ here
  have total : sigStart root (i + 1) ≤ (sigCounts root).sum := start_le_sum (sigCounts root) (i + 1)
  constructor
  · show (BitVec.ofNat 32 (sigStart root i)).toNat = sigStart root i
    rw [BitVec.toNat_ofNat, Nat.mod_eq_of_lt (by omega)]
  · show (BitVec.ofNat 32 app.sigs.length).toNat = app.sigs.length
    rw [BitVec.toNat_ofNat, Nat.mod_eq_of_lt (by omega)]

/-- Where the ranges of the applications lie. -/
theorem exists_sigRange {root : List ApplicationS} {g : Nat} (below : g < (sigCounts root).sum) :
    ∃! i, i < root.length ∧ sigStart root i ≤ g ∧ g < sigStart root (i + 1) := by
  have count : (sigCounts root).length = root.length := List.length_map ..
  obtain ⟨i, k, j, here, inside, rfl⟩ := exists_segment below
  have next := start_succ here
  refine ⟨i, ⟨?_, ?_, ?_⟩, fun i' => ?_⟩
  · rw [← count]
    exact (List.getElem?_eq_some_iff.1 here).1
  · exact Nat.le_add_right _ _
  · show start (sigCounts root) i + j < start (sigCounts root) (i + 1)
    omega
  · rintro ⟨small, low, high⟩
    have here' := List.getElem?_eq_getElem (l := sigCounts root) (i := i') (by omega)
    have next' := start_succ here'
    have place : start (sigCounts root) i' ≤ start (sigCounts root) i + j := low
    have place' : start (sigCounts root) i + j < start (sigCounts root) (i' + 1) := high
    exact (segment_unique here' here
      (show start (sigCounts root) i + j - start (sigCounts root) i' < (sigCounts root)[i'] by omega)
      inside (by omega)).1

/-- Installing a list with categories in range and texts that fit: both passes end. -/
theorem installApplication_total (mem : Memory) {root : List ApplicationS}
    (inRange : ∀ app ∈ root, app.category.toNat < MAX_CATEGORY_ID)
    (texts : ∀ e ∈ (signatures root).flatten, e.matchStr.length < MAX_SIG_LENGTH) :
    ∃ summary st, getApplicationSummary root = .ok summary ∧
      installApplication mem summary root = .ok (st.info, st.appList) ∧
      summary.appNums = root.length ∧ (∀ c, summary.cateNum c = (categories root).count c) ∧
      (∀ c < MAX_CATEGORY_ID, summary.cateIndex c = CountingSort.start (categories root) c) ∧
      Placing mem root root.length st := by
  obtain ⟨summary, counted, appNums, cateNums, starts⟩ := getApplicationSummary_ok inRange
  obtain ⟨sigNums, eleNums⟩ := getApplicationSummary_counts counted
  let info : AppInfoS :=
    { apps := (List.range summary.appNums).map mem.apps
      sigs := (List.range summary.sigNums).map mem.sigs
      eles := (List.range summary.eleNums).map mem.eles }
  let first : InstallState :=
    { info := info, sigOffset := 0, eleOffset := 0, cateOffset := fun _ => 0
      appList := markerEntries mem.alloc }
  have begin_ : Placing mem root 0 first := by
    refine ⟨⟨⟨rfl, rfl, Nat.zero_le _, ?_, ?_, ?_⟩, ?_⟩, ?_, fun c => rfl, ?_, fun s low _ => ?_⟩
    · show markerEntries mem.alloc = markerEntries mem.alloc ++ []
      rw [List.append_nil]
    · show (List.range summary.eleNums).map mem.eles =
        [] ++ (List.range' 0 ((sigSizes root).sum - 0)).map mem.eles
      rw [eleNums, Nat.sub_zero, List.nil_append, List.range_eq_range']
    · show ((List.range summary.sigNums).map mem.sigs).length = _
      rw [List.length_map, List.length_range, sigNums]
    · show (List.range summary.sigNums).map mem.sigs =
        [] ++ (List.range' 0 ((sigSizes root).length - 0)).map mem.sigs
      rw [sigNums, Nat.sub_zero, List.nil_append, List.range_eq_range']
    · show ((List.range summary.appNums).map mem.apps).length = root.length
      rw [List.length_map, List.length_range, appNums]
    · intro i impossible
      exact absurd impossible (Nat.not_lt_zero i)
    · show ((List.range summary.appNums).map mem.apps)[s]? = some (mem.apps s)
      rw [appNums, List.getElem?_map, List.getElem?_range low]
      rfl
  obtain ⟨st, loop, done⟩ := Placing.appsLoop inRange starts texts begin_
  refine ⟨summary, st, counted, ?_, appNums, cateNums, starts, done⟩
  rw [installApplication, initHttpSig_eq]
  simp only [bind, Except.bind, pure, Except.pure]
  simp only [first, info] at loop
  rw [loop]

/-- The rows of the three arrays after installation. -/
structure InstalledRows (mem : Memory) (root : List ApplicationS) (info : AppInfoS) : Prop where
  apps : ∀ i app, root[i]? = some app → info.apps[appSlot root i]? =
    some (appEntry (mem.apps (appSlot root i)) app (sigStart root i))
  sigs : ∀ i app j sig, root[i]? = some app → app.sigs[j]? = some sig →
    info.sigs[sigStart root i + j]? = some (sigEntry (mem.sigs (sigStart root i + j)) app sig)
  eles : info.eles = elementTable (fun i => (mem.eles i).flag) (sigSizes root)

theorem InstalledRows.cell {mem : Memory} {root : List ApplicationS} {info : AppInfoS}
    (rows : InstalledRows mem root info) {g k : Nat} (here : (sigSizes root)[g]? = some k) {j : Nat} (below : j < k) :
    info.eles[start (sigSizes root) g + j]? =
      some (elementRow (fun i => (mem.eles i).flag) g (start (sigSizes root) g) k j) := by
  rw [rows.eles, elementTable, getElem?_spread _ here below, Nat.zero_add, Nat.zero_add]

theorem installApplication_rows {mem : Memory} {root : List ApplicationS} {summary : AppStatisticsS}
    {st : InstallState} (counted : getApplicationSummary root = .ok summary)
    (installed : installApplication mem summary root = .ok (st.info, st.appList))
    (done : Placing mem root root.length st) : InstalledRows mem root st.info := by
  obtain ⟨-, eleNums⟩ := getApplicationSummary_counts counted
  obtain ⟨-, -, rows, -⟩ := installApplication_ok installed
  have sigRows : st.info.sigs = sigTable mem (sigSizes root).length (ownedSigs root) := by
    have placed := done.sigs.sigRows
    rwa [List.take_length] at placed
  refine ⟨fun i app here => ?_, fun i app j sig here there => ?_, ?_⟩
  · exact done.placed i (List.getElem?_eq_some_iff.1 here).1 app here
  · have found := getElem?_ownedSigs here there
    have inside := (List.getElem?_eq_some_iff.1 found).1
    rw [sigRows, sigTable, List.getElem?_append_left (by rwa [List.length_mapIdx]), List.getElem?_mapIdx, found]
    rfl
  · rw [rows, eleNums, Nat.sub_self]
    simp

/-- **Installation is a stable counting sort.**  For categories below 16, fewer than
65535 elements and texts that fit their buffers, both passes end and agree. -/
theorem install_countingSort (mem : Memory) (root : List ApplicationS)
    (inRange : ∀ app ∈ root, app.category.toNat < MAX_CATEGORY_ID)
    (few : (signatures root).flatten.length < 65535)
    (texts : ∀ e ∈ (signatures root).flatten, e.matchStr.length < MAX_SIG_LENGTH) :
    ∃ summary info appList, getApplicationSummary root = .ok summary ∧
      installApplication mem summary root = .ok (info, appList) ∧
      Installed mem root summary info appList := by
  obtain ⟨summary, st, counted, installed, appNums, cateNums, starts, done⟩ :=
    installApplication_total mem inRange texts
  obtain ⟨sigNums, eleNums⟩ := getApplicationSummary_counts counted
  obtain ⟨-, words, -⟩ := installApplication_ok installed
  have owned : summary.sigNums = (sigCounts root).sum := by rw [sigNums, length_sigSizes]
  have table := installApplication_rows counted installed done
  refine ⟨summary, st.info, st.appList, counted, installed, ?_⟩
  exact
    { counts := ⟨appNums, by rw [owned, length_ownedSigs], by rw [eleNums, List.length_flatten]; rfl⟩
      sizes := ⟨by rw [done.cells, appNums], by rw [done.sigs.installing.sigCells, sigNums],
        by rw [table.eles, length_elementTable, eleNums]⟩
      slots := fun s low => exists_unique_appSlot (appNums ▸ low)
      apps := fun i app here => by
        have inside := (List.getElem?_eq_some_iff.1 here).1
        exact ⟨by rw [appNums]; exact appSlot_lt inside, table.apps i app here⟩
      intervals := fun c small s => by
        rw [starts c small, cateNums]
        exact appSlot_interval root c s
      stable := fun i j app app' here there same before => by
        have key := getElem?_categories there
        rw [← same] at key
        exact CountingSort.slot_lt_slot (getElem?_categories here) key before
      ranges := ⟨start_zero _, by rw [owned, sigStart_length], fun i app here => sigStart_succ here⟩
      partition := fun g low => exists_sigRange (owned ▸ low)
      fields := fun small i app here old => appEntry_fields here (owned ▸ small) old
      sigs := table.sigs
      places := fun o low => by
        rw [eleNums] at low
        obtain ⟨g, k, j, here, inside, rfl⟩ := exists_segment low
        exact ⟨g, k, j, here, inside, rfl, table.cell here inside⟩
      places_unique := fun g g' k k' j j' here here' inside inside' same =>
        segment_unique here here' inside inside' same
      markers := by
        rw [words, ← length_markerEntries mem.alloc, List.take_left]
      patterns := by
        refine ⟨?_, fun o e here => ?_⟩
        · rw [words, List.length_append, length_markerEntries, length_elementEntries, eleNums,
            List.length_flatten]
          rfl
        · have low := (List.getElem?_eq_some_iff.1 here).1
          obtain ⟨offset, element⟩ := elementWord_fields (show o < 2 ^ 24 by omega) e.id
          exact ⟨_, installed_entry installed here, offset, element, rfl⟩ }

/-- Two applications of one category around one of a smaller category; the first
signature has no element. -/
def threeApplications : List ApplicationS :=
  let sig (id : Uint) (elements : List ElementS) : SigS :=
    { id := id, proto := PROTOCOL_HTTP, type := SIG_MULTI, enable := 1, priority := 1, dir := 0
      matchStr := [], eleNum := BitVec.ofNat 32 elements.length, elements := elements }
  [{ id := 1, category := 2, name := cstr "a", sigs := [sig 1 [], sig 2 [⟨1, cstr "x"⟩]] },
    { id := 2, category := 0, name := cstr "b", sigs := [sig 3 [⟨1, cstr "y"⟩, ⟨2, cstr "z"⟩]] },
    { id := 3, category := 2, name := cstr "c", sigs := [sig 4 [⟨3, cstr "w"⟩]] }]

theorem install_threeApplications : ∃ summary info appList,
    getApplicationSummary threeApplications = .ok summary ∧
      installApplication clearedMemory summary threeApplications = .ok (info, appList) ∧
      Installed clearedMemory threeApplications summary info appList :=
  install_countingSort clearedMemory threeApplications (by decide) (by decide) (by decide)

end Orchid
