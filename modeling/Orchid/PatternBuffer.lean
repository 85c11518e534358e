/-
# PatternBuffer -- where a run stores into `pattern`

Nothing bounds `pattern_count`: a search stores one word for every match it counts,
the first engine from cell 0 on and the second one behind it.  So the cells a
payload needs are the first `storeCount` ones, and no run is stopped for want of one
exactly as long as every searched payload counts at most 100 matches (`stores_fit`).
-/
import Orchid.PacketProcess
import Orchid.Loader.Split

namespace Orchid

open Orchid.Theory

set_option autoImplicit false

/-- The matches both engines count in a payload, from the context in `s`. -/
def storeCount (apps : List AppEntryT) (graph : DfaGraphT) (s : SearchState) (payload : CStr) : Nat :=
  (recorded httpElementId s.elementlast (payloadEvents apps payload)).length +
    (dfaWords 0 (dfaTrace graph payload payload 0 0).1).length

/-! ## One search -/

theorem cleared_stores (s : SearchState) (words : List Uint) :
    (s.cleared.storeAll words).stores = s.stores ++ List.range (min words.length (PATTERN_SIZE + 1)) := by
  rw [List.range_eq_range']
  rfl

/-- The cells a run uses from `pattern_count = 0` on.  They are all inside the array
exactly if the run is not stopped for want of one. -/
theorem Storing.cells {α : Type} {s : SearchState} {words : List Uint} {limit : Nat}
    {ending result : EStateM.Result Trap SearchState α} (ran : Storing s.cleared words ending result)
    (other : ∀ s', ending ≠ .error .patternRange s')
    (after : s.cleared.Room words → (stateAfter ending).stores = (s.cleared.storeAll words).stores) (atMost : words.length ≤ limit) :
    ∃ count, (stateAfter result).stores = s.stores ++ List.range count ∧
      (count ≤ PATTERN_SIZE ↔ ∀ s', result ≠ .error .patternRange s') ∧
      (limit ≤ PATTERN_SIZE → count ≤ PATTERN_SIZE) := by
  have small : min words.length (PATTERN_SIZE + 1) ≤ PATTERN_SIZE ↔ s.cleared.Room words := by
    show _ ↔ 0 + words.length ≤ PATTERN_SIZE
    omega
  refine ⟨min words.length (PATTERN_SIZE + 1), (ran.stores after).trans (cleared_stores s words),
    small.trans (ran.room_iff other), fun fits => ?_⟩
  omega

section Stores

variable {globals : Globals} {apps : List AppEntryT}

theorem length_words (graph : DfaGraphT) (s : SearchState) (payload : CStr) :
    (recorded httpElementId s.elementlast (payloadEvents apps payload) ++
      dfaWords 0 (dfaTrace graph payload payload 0 0).1).length = storeCount apps graph s payload :=
  List.length_append

/-- The cells a search uses. -/
theorem searchBoth_stores (compiled : sigParseAdapterAc apps = .ok globals.appgraph2) (payload : CStr)
    (s : SearchState) :
    ∃ count, (stateAfter ((searchBoth globals.appgraph2 globals.appArray globals.appgraph payload).run
        s)).stores = s.stores ++ List.range count ∧
      (count ≤ PATTERN_SIZE ↔ ∀ s', (searchBoth globals.appgraph2 globals.appArray globals.appgraph
        payload).run s ≠ .error .patternRange s') ∧
      (storeCount apps globals.appgraph s payload ≤ PATTERN_SIZE → count ≤ PATTERN_SIZE) := by
  have both : s.cleared.Room (recorded httpElementId s.elementlast (payloadEvents apps payload) ++
        dfaWords 0 (dfaTrace globals.appgraph payload payload 0 0).1) →
      ((s.cleared.scan (payloadEvents apps payload)).storeAll
        (dfaWords 0 (dfaTrace globals.appgraph payload payload 0 0).1)).stores =
      (s.cleared.storeAll (recorded httpElementId s.elementlast (payloadEvents apps payload) ++
        dfaWords 0 (dfaTrace globals.appgraph payload payload 0 0).1)).stores := by
    intro room
    rw [(SearchState.room_append.1 room).1.storeAll_append]
    rfl
  rcases searchBoth_run compiled globals.appArray globals.appgraph payload s with
    ⟨trap, other, ran⟩ | ⟨trap, other, ran⟩ | ⟨reports, -, ran⟩
  · exact ran.cells (fun s' same => other (EStateM.Result.error.inj same).1) (fun _ => rfl) (Nat.le_add_right _ _)
  · exact ran.cells (fun s' same => other (EStateM.Result.error.inj same).1) both (length_words _ _ _).le
  · exact ran.cells (fun s' same => nomatch same) both (length_words _ _ _).le

/-- A search that is not stopped counts no more matches than there are cells. -/
theorem searchBoth_fits (compiled : sigParseAdapterAc apps = .ok globals.appgraph2) {payload : CStr}
    {s s' : SearchState} {result : Int × Int × List Report}
    (ran : (searchBoth globals.appgraph2 globals.appArray globals.appgraph payload).run s = .ok result s') :
    storeCount apps globals.appgraph s payload ≤ PATTERN_SIZE := by
  obtain ⟨reports, -, -, room, -⟩ := searchBoth_ended compiled ran
  rw [SearchState.Room, length_words] at room
  exact (Nat.le_add_left _ _).trans room

/-! ## A run -/

/-- The payload of the frame, if it is searched, counts at most as many matches as
there are cells. -/
def FitsStep (globals : Globals) (apps : List AppEntryT) (world : World) (frame : Frame) : Prop :=
  ∀ headers, frame.headers = some headers → headers.payload < frame.caplen →
    storeCount apps globals.appgraph world.search (frame.payloadFrom headers.payload) ≤ PATTERN_SIZE

/-- Every step of the run does. -/
abbrev FitsRun (globals : Globals) (apps : List AppEntryT) : World → List Frame → Prop :=
  EachStep globals (FitsStep globals apps)

/-- The stores a frame adds, whether its search is stopped or not. -/
theorem packetHandler_stores (compiled : sigParseAdapterAc apps = .ok globals.appgraph2) {world : World}
    (ok : WorldOk world) (frame : Frame) :
    ∃ new, (stateAfter ((packetHandler globals frame).run world)).search.stores =
        world.search.stores ++ new ∧
      ((∀ k ∈ new, k < PATTERN_SIZE) ↔
        ∀ world', (packetHandler globals frame).run world ≠ .error .patternRange world') ∧
      (FitsStep globals apps world frame → ∀ k ∈ new, k < PATTERN_SIZE) := by
  have nothing : ∀ k ∈ ([] : List Nat), k < PATTERN_SIZE := fun k inside => absurd inside List.not_mem_nil
  rcases packetHandler_cases compiled ok frame with
    ⟨-, ran⟩ | ⟨headers, n, table, read, -, -, -, ⟨-, ran⟩ | ⟨nonempty, ran⟩⟩
  · rw [ran]
    exact ⟨[], (List.append_nil _).symm, iff_of_true nothing (fun _ same => nomatch same), fun _ => nothing⟩
  · rw [ran]
    exact ⟨[], (List.append_nil _).symm, iff_of_true nothing (fun _ same => nomatch same), fun _ => nothing⟩
  · obtain ⟨count, after, inside_iff, fits⟩ :=
      searchBoth_stores compiled (frame.payloadFrom headers.payload) world.search
    have below : (∀ k ∈ List.range count, k < PATTERN_SIZE) ↔ count ≤ PATTERN_SIZE := by
      simp only [List.mem_range]
      exact ⟨fun all => Nat.le_of_not_lt fun more => absurd (all _ more) (Nat.lt_irrefl _),
        fun small k less => less.trans_le small⟩
    refine ⟨List.range count, ?_, ?_, fun step => below.2 (fits (step headers read nonempty))⟩
    · rw [ran, ← after]
      cases (searchBoth globals.appgraph2 globals.appArray globals.appgraph
        (frame.payloadFrom headers.payload)).run world.search <;> rfl
    · rw [below, inside_iff, ran]
      cases (searchBoth globals.appgraph2 globals.appArray globals.appgraph
          (frame.payloadFrom headers.payload)).run world.search with
      | ok result search => exact iff_of_true (fun _ same => nomatch same) (fun _ same => nomatch same)
      | error trap search =>
          constructor
          · intro never world' same
            cases same
            exact never _ rfl
          · intro never s' same
            cases same
            exact never _ rfl

/-- A frame that is handled to the end fits. -/
theorem packetHandler_fits (compiled : sigParseAdapterAc apps = .ok globals.appgraph2)
    {world world' : World} (ok : WorldOk world) {frame : Frame} {handled : Option Handled}
    (ran : (packetHandler globals frame).run world = .ok handled world') :
    FitsStep globals apps world frame := by
  obtain ⟨-, -, ⟨-, empty, -⟩ | ⟨headers, n, reports, read, nonempty, -, -, searched⟩⟩ :=
    packetHandler_ok_cases compiled ok ran
  · exact fun headers read nonempty => absurd nonempty (Nat.not_lt.2 (empty headers read))
  · intro headers' read' _
    rw [read] at read'
    cases read'
    exact searchBoth_fits compiled searched

/-- While every step fits, the stores stay inside. -/
theorem handleAll_inside (compiled : sigParseAdapterAc apps = .ok globals.appgraph2)
    (frames : List Frame) : ∀ {world : World}, WorldOk world → FitsRun globals apps world frames →
      (∀ k ∈ world.search.stores, k < PATTERN_SIZE) →
      ∀ k ∈ (stateAfter ((handleAll globals frames).run world)).search.stores, k < PATTERN_SIZE := by
  induction frames with
  | nil => exact fun _ _ below => below
  | cons frame frames ih =>
      intro world ok fits below
      obtain ⟨new, stored, -, inArray⟩ := packetHandler_stores compiled ok frame
      have below' : ∀ k ∈ (stateAfter ((packetHandler globals frame).run world)).search.stores,
          k < PATTERN_SIZE := by
        rw [stored]
        intro k inside
        rcases List.mem_append.1 inside with old | fresh
        · exact below k old
        · exact inArray fits.1 k fresh
      rw [handleAll_cons]
      cases step : (packetHandler globals frame).run world with
      | error trap world' =>
          rw [step] at below'
          exact below'
      | ok handled world' =>
          rw [step] at below'
          have rest := ih (packetHandler_ok_cases compiled ok step).1 (fits.2 handled world' step) below'
          cases after : (handleAll globals frames).run world' <;>
            · rw [after] at rest
              simp only [after]
              exact rest

/-- A store behind the last cell is what stops a run for want of one. -/
theorem handleAll_inside_iff (compiled : sigParseAdapterAc apps = .ok globals.appgraph2)
    (frames : List Frame) : ∀ {world : World}, WorldOk world → (∀ k ∈ world.search.stores, k < PATTERN_SIZE) →
      ((∀ k ∈ (stateAfter ((handleAll globals frames).run world)).search.stores, k < PATTERN_SIZE) ↔
        ∀ world', (handleAll globals frames).run world ≠ .error .patternRange world') := by
  induction frames with
  | nil => exact fun _ below => iff_of_true below (fun _ same => nomatch same)
  | cons frame frames ih =>
      intro world ok below
      obtain ⟨new, stored, inside_iff, -⟩ := packetHandler_stores compiled ok frame
      have first : (∀ k ∈ (stateAfter ((packetHandler globals frame).run world)).search.stores,
          k < PATTERN_SIZE) ↔ ∀ world', (packetHandler globals frame).run world ≠ .error .patternRange world' := by
        rw [stored, ← inside_iff, List.forall_mem_append]
        exact and_iff_right below
      rw [handleAll_cons]
      cases step : (packetHandler globals frame).run world with
      | error trap world' =>
          rw [step] at first
          refine first.trans ⟨fun never w same => ?_, fun never w same => ?_⟩
          · cases same
            exact never _ rfl
          · cases same
            exact never _ rfl
      | ok handled world' =>
          rw [step] at first
          have below' := first.2 (fun _ same => nomatch same)
          have rest := ih (packetHandler_ok_cases compiled ok step).1 below'
          cases after : (handleAll globals frames).run world' with
          | ok log world'' =>
              rw [after] at rest
              simp only [after]
              exact iff_of_true (rest.2 fun _ same => nomatch same) (fun _ same => nomatch same)
          | error trap world'' =>
              rw [after] at rest
              simp only [after]
              refine rest.trans ⟨fun never w same => ?_, fun never w same => ?_⟩
              · cases same
                exact never _ rfl
              · cases same
                exact never _ rfl

/-- A run that is not stopped fits step by step. -/
theorem handleAll_fits (compiled : sigParseAdapterAc apps = .ok globals.appgraph2)
    (frames : List Frame) : ∀ {world world' : World} {log : List Handled}, WorldOk world →
      (handleAll globals frames).run world = .ok log world' → FitsRun globals apps world frames := by
  induction frames with
  | nil => exact fun _ _ => trivial
  | cons frame frames ih =>
      intro world world'' log ok ran
      obtain ⟨handled, world', rest, step, after, rfl⟩ := handleAll_cons_ok ran
      refine ⟨packetHandler_fits compiled ok step, fun handled' world₃ same => ?_⟩
      rw [step] at same
      cases same
      exact ih (packetHandler_ok_cases compiled ok step).1 after

/-- **When every store of a run is inside `pattern`.**  If every payload counts at most
100 matches, in every run; that is when no run is stopped at a store, and in a run that
nothing else stops only then. -/
theorem stores_fit (compiled : sigParseAdapterAc apps = .ok globals.appgraph2) (frames : List Frame) :
    (FitsRun globals apps .init frames →
      ∀ k ∈ (stateAfter ((handleAll globals frames).run .init)).search.stores, k < PATTERN_SIZE) ∧
    ((∀ k ∈ (stateAfter ((handleAll globals frames).run .init)).search.stores, k < PATTERN_SIZE) ↔
      ∀ world, (handleAll globals frames).run .init ≠ .error .patternRange world) ∧
    ((∀ trap world, (handleAll globals frames).run .init = .error trap world → trap = .patternRange) →
      ((∀ k ∈ (stateAfter ((handleAll globals frames).run .init)).search.stores, k < PATTERN_SIZE) ↔
        FitsRun globals apps .init frames)) := by
  have nothing : ∀ k ∈ World.init.search.stores, k < PATTERN_SIZE :=
    fun k inside => absurd inside List.not_mem_nil
  have forward := fun fits => handleAll_inside compiled frames worldOk_init fits nothing
  have stops := handleAll_inside_iff compiled frames worldOk_init nothing
  refine ⟨forward, stops, fun only => ⟨fun inside => ?_, forward⟩⟩
  have never := stops.1 inside
  cases ran : (handleAll globals frames).run .init with
  | ok log world => exact handleAll_fits compiled frames worldOk_init ran
  | error trap world =>
      obtain rfl := only trap world ran
      exact absurd ran (never world)

/-! ## Short payloads -/

theorem storeCount_le (graph : DfaGraphT) (s : SearchState) (payload : CStr) :
    storeCount apps graph s payload ≤ 2 * payload.length + 1 := by
  have first := length_recorded_le httpElementId s.elementlast (payloadEvents apps payload)
  have second : (dfaWords 0 (dfaTrace graph payload payload 0 0).1).length ≤
      (dfaTrace graph payload payload 0 0).1.length := by
    rw [dfaWords, List.length_map]
    exact length_recorded_le httpElementId 0 _
  have calls := length_payloadEvents_le apps payload
  have steps := length_dfaTrace_le graph payload payload 0 0
  unfold storeCount
  omega

/-- Each byte is counted at most once by either engine, so payloads of at most 49 bytes
fit. -/
theorem fitsRun_of_short {frames : List Frame} (world : World)
    (short : ∀ frame ∈ frames, ∀ headers, frame.headers = some headers →
      frame.caplen ≤ headers.payload + 49) : FitsRun globals apps world frames := by
  refine EachStep.of_forall fun world frame inside headers read _ => ?_
  have counted := @storeCount_le apps globals.appgraph world.search
    (frame.payloadFrom headers.payload)
  have bytes := short frame inside headers read
  rw [length_payloadFrom] at counted
  show _ ≤ 100
  omega

end Stores

/-- One frame with one match. -/
theorem stores_fit_host : ∃ acsm, sigParseAdapterAc (oneElementList 0x01000000 (cstr "a")) = .ok acsm ∧
    ∀ k ∈ (stateAfter ((handleAll ⟨acsm, oneElementInfo, idleGraph⟩
      [udpFrame (cstr "Host: a.")]).run .init)).search.stores, k < PATTERN_SIZE := by
  obtain ⟨acsm, -, -, compiled, -⟩ :=
    sigParseAdapterAc_compiled (oneElementList 0x01000000 (cstr "a"))
  refine ⟨acsm, compiled, ?_⟩
  apply (@stores_fit ⟨acsm, oneElementInfo, idleGraph⟩ _ compiled _).1
  refine fitsRun_of_short _ fun frame inside headers read => ?_
  obtain rfl := List.mem_singleton.1 inside
  rw [udpFrame_headers] at read
  cases read
  decide

/-- A `Host` line of 102 matching bytes. -/
def longHost : CStr := cstr "Host:" ++ List.replicate 102 97

/-- Whatever the regex engine's graph is, a long enough `Host` line leaves `pattern`. -/
theorem pattern_overflows :
    ¬ ∃ graph : DfaGraphT, ∀ (root : List ApplicationS) (mem : Memory) (summary : AppStatisticsS)
        (info : AppInfoS) (apps : List AppEntryT) (acsm : AcsmStruct2), Parsed root →
      getApplicationSummary root = .ok summary →
      installApplication mem summary root = .ok (info, apps) → sigParseAdapterAc apps = .ok acsm →
      ∀ frames : List Frame,
        ∀ k ∈ (stateAfter ((handleAll ⟨acsm, info, graph⟩ frames).run .init)).search.stores,
          k < PATTERN_SIZE := by
  rintro ⟨graph, bounded⟩
  obtain ⟨summary, counted, installed⟩ := oneSignature_host
  obtain ⟨acsm, -, -, compiled, -⟩ :=
    sigParseAdapterAc_compiled (oneElementList 0x01000000 (cstr "a"))
  have below := bounded _ _ _ _ _ acsm (oneSignature_parsed rfl) counted installed compiled
    [udpFrame longHost]
  have matches_ : (recorded httpElementId SearchState.init.elementlast
      (payloadEvents (oneElementList 0x01000000 (cstr "a")) longHost)).length = 101 := by
    decide +kernel
  -- the first engine alone has no cell for the last of them
  have overrun : ∀ {words ending result}, Storing SearchState.init.cleared
      (recorded httpElementId SearchState.init.elementlast
        (payloadEvents (oneElementList 0x01000000 (cstr "a")) longHost) ++ words) ending result →
      PATTERN_SIZE ∈ (stateAfter (result : EStateM.Result Trap SearchState (Int × Int × List Report))).stores := by
    intro words ending result ran
    have full : ¬ SearchState.init.cleared.Room (recorded httpElementId SearchState.init.elementlast
        (payloadEvents (oneElementList 0x01000000 (cstr "a")) longHost) ++ words) := by
      intro room
      have first := (SearchState.room_append.1 room).1
      rw [SearchState.Room, matches_] at first
      exact absurd first (by decide)
    rw [ran.stores fun room => absurd room full]
    exact SearchState.mem_stores full
  have stored : PATTERN_SIZE ∈ (stateAfter ((handleAll ⟨acsm, oneElementInfo, graph⟩
      [udpFrame longHost]).run .init)).search.stores := by
    rcases @packetHandler_cases ⟨acsm, oneElementInfo, graph⟩ _ compiled _ worldOk_init
        (udpFrame longHost) with ⟨read, -⟩ | ⟨headers, n, table, read, -, -, -, ⟨empty, -⟩ | ⟨-, ran⟩⟩
    · rw [udpFrame_headers] at read
      cases read
    · rw [udpFrame_headers] at read
      cases read
      exact absurd empty (by decide)
    · rw [udpFrame_headers] at read
      cases read
      rw [udpFrame_payload] at ran
      rw [handleAll_cons, ran]
      have searched : PATTERN_SIZE ∈ (stateAfter ((searchBoth acsm oneElementInfo graph longHost).run
          .init)).stores := by
        rcases searchBoth_run compiled oneElementInfo graph longHost .init with
          ⟨trap, -, ends⟩ | ⟨trap, -, ends⟩ | ⟨reports, -, ends⟩
        · exact @overrun [] _ _ (by rw [List.append_nil]; exact ends)
        · exact overrun ends
        · exact overrun ends
      have start : World.init.search = .init := rfl
      rw [start]
      cases ends : (searchBoth acsm oneElementInfo graph longHost).run .init <;>
        · rw [ends] at searched
          exact searched
  exact absurd (below _ stored) (Nat.lt_irrefl _)

end Orchid
