/-
# Classification -- when a run classifies its sessions

A session should take the application of the first of its payloads that
`pattern_check` reports a match for, keep it, and have no later payload searched
(`Classified`, `ClassifiesRun`).  The result of `pattern_check` is not passed on, and
the second engine's zero is assigned last: no session ever has an application.  So
a run does what it should exactly as long as nothing is reported
(`classifies_iff_silent`).
-/
import Orchid.PacketProcess
import Orchid.Searcher.HeaderLine

namespace Orchid

open Orchid.Theory

set_option autoImplicit false

/-! ## Classified sessions -/

/-- A non-empty payload of the session `n` for which `pattern_check` reports. -/
def Matching (n : Nat) (h : Handled) : Prop := h.sess = n ∧ h.payload ≠ [] ∧ h.reports ≠ []

/-- The sessions after the frames of `log`: one has an application if and only if it
had a matching payload; then it is one reported for the first of these, and no later
payload was searched. -/
def Classified (table : SessionTable) (log : List Handled) : Prop :=
  ∀ (n : Nat) (sess : SessionS), table.heap[n]? = some sess →
    (sess.appId ≠ 0 ↔ ∃ h ∈ log, Matching n h) ∧
    ∀ before h after, log = before ++ h :: after → Matching n h → (∀ b ∈ before, ¬ Matching n b) →
      (∃ report ∈ h.reports, sess.appId.toNat = report.app.toNat) ∧
        ∀ later ∈ after, later.sess = n → later.payload ≠ [] → later.searched = false

/-- No session of `table` that has an application has another one in `table'`. -/
def Keeps (table table' : SessionTable) : Prop :=
  ∀ (n : Nat) (sess : SessionS), table.heap[n]? = some sess → sess.appId ≠ 0 →
    ∃ sess', table'.heap[n]? = some sess' ∧ sess'.appId = sess.appId

/-- After each frame the sessions are classified, and they stay so. -/
def ClassifiesRun (globals : Globals) (frames : List Frame) : Prop :=
  ∀ first second, frames = first ++ second →
    ∀ log world, (handleAll globals first).run .init = .ok log world →
      Classified world.table log ∧
        ∀ log' world', (handleAll globals second).run world = .ok log' world' →
          Keeps world.table world'.table

/-! ## Silent runs -/

/-- `pattern_check` reports nothing for the words that the payload of the frame records
in the current context. -/
def SilentStep (globals : Globals) (apps : List AppEntryT) (world : World) (frame : Frame) : Prop :=
  ∀ headers, frame.headers = some headers → headers.payload < frame.caplen →
    ∀ r reports, patternCheck globals.appArray (recorded httpElementId world.search.elementlast
      (payloadEvents apps (frame.payloadFrom headers.payload))) = .ok (r, reports) → reports = []

abbrev SilentRun (globals : Globals) (apps : List AppEntryT) : World → List Frame → Prop :=
  EachStep globals (SilentStep globals apps)

section Silent

variable {globals : Globals} {apps : List AppEntryT}

/-- What one frame that is handled leaves: a session of the table, and a report for a
non-empty payload only, in a step that is not silent. -/
theorem packetHandler_log (compiled : sigParseAdapterAc apps = .ok globals.appgraph2) {world world' : World}
    (ok : WorldOk world) {frame : Frame} {handled : Option Handled}
    (ran : (packetHandler globals frame).run world = .ok handled world') :
    WorldOk world' ∧ world.table.heap <+: world'.table.heap ∧
      (∀ h ∈ handled, (∃ sess, world'.table.heap[h.sess]? = some sess) ∧
        (h.reports ≠ [] → h.payload ≠ [])) ∧
      (SilentStep globals apps world frame ↔ ∀ h ∈ handled, h.reports = []) := by
  obtain ⟨ok', grown, ⟨-, empty, quiet⟩ | ⟨headers, n, reports, read, nonempty, rfl, here, searched⟩⟩ :=
    packetHandler_ok_cases compiled ok ran
  · refine ⟨ok', grown, fun h inside => ⟨(quiet h inside).2, fun reported => ?_⟩,
      fun _ h inside => (quiet h inside).1, fun _ headers read nonempty => ?_⟩
    · exact absurd (quiet h inside).1 reported
    · exact absurd nonempty (Nat.not_lt.2 (empty headers read))
  · have checked : patternCheck globals.appArray (recorded httpElementId world.search.elementlast
        (payloadEvents apps (frame.payloadFrom headers.payload))) = .ok (0, reports) := by
      obtain ⟨reports', same, checked, -⟩ := searchBoth_ended compiled searched
      obtain rfl : reports = reports' := congrArg (fun result => result.2.2) same
      exact checked
    refine ⟨ok', grown, fun h inside => ?_, fun silent h inside => ?_, fun silent => ?_⟩
    · cases inside
      refine ⟨here, fun _ nothing => ?_⟩
      have length := length_payloadFrom frame headers.payload
      rw [show frame.payloadFrom headers.payload = [] from nothing, List.length_nil] at length
      omega
    · cases inside
      exact silent headers read nonempty 0 reports checked
    · intro headers' read' _ r reports' checked'
      rw [read] at read'
      cases read'
      rw [checked] at checked'
      cases checked'
      exact silent _ rfl

/-- What a run leaves. -/
theorem handleAll_log (compiled : sigParseAdapterAc apps = .ok globals.appgraph2) (frames : List Frame) :
    ∀ {world world' : World} {log : List Handled}, WorldOk world →
      (handleAll globals frames).run world = .ok log world' →
      WorldOk world' ∧ world.table.heap <+: world'.table.heap ∧
        (∀ h ∈ log, (∃ sess, world'.table.heap[h.sess]? = some sess) ∧
          (h.reports ≠ [] → h.payload ≠ [])) ∧
        (SilentRun globals apps world frames ↔ ∀ h ∈ log, h.reports = []) := by
  induction frames with
  | nil =>
      intro world world' log ok ran
      cases ran
      refine ⟨ok, List.prefix_refl _, fun h inside => absurd inside List.not_mem_nil,
        fun _ h inside => absurd inside List.not_mem_nil, fun _ => trivial⟩
  | cons frame frames ih =>
      intro world world'' log ok ran
      obtain ⟨handled, world', rest, step, after, rfl⟩ := handleAll_cons_ok ran
      obtain ⟨ok', grown, valid, silent⟩ := packetHandler_log compiled ok step
      obtain ⟨ok'', grown', valid', silent'⟩ := ih ok' after
      refine ⟨ok'', grown.trans grown', fun h inside => ?_, fun each h inside => ?_, fun none_ => ?_⟩
      · rcases List.mem_append.1 inside with first | later
        · obtain ⟨⟨sess, here⟩, nonempty⟩ := valid h (Option.mem_toList.1 first)
          obtain ⟨more, same⟩ := grown'
          refine ⟨⟨sess, ?_⟩, nonempty⟩
          rw [← same]
          exact List.getElem?_append_left (List.getElem?_eq_some_iff.1 here).1 ▸ here
        · exact valid' h later
      · rcases List.mem_append.1 inside with first | later
        · exact silent.1 each.1 h (Option.mem_toList.1 first)
        · exact silent'.1 (each.2 handled world' step) h later
      · refine ⟨silent.2 fun h inside => none_ h (List.mem_append_left _ (Option.mem_toList.2 inside)), ?_⟩
        intro handled' world₂ same
        rw [step] at same
        cases same
        exact silent'.2 fun h inside => none_ h (List.mem_append_right _ inside)

/-- **When a run classifies its sessions.**  As long as nothing is reported; and a run
that is not stopped only then. -/
theorem classifies_iff_silent (compiled : sigParseAdapterAc apps = .ok globals.appgraph2)
    (frames : List Frame) :
    (SilentRun globals apps .init frames → ClassifiesRun globals frames) ∧
    ∀ log world, (handleAll globals frames).run .init = .ok log world →
      (ClassifiesRun globals frames ↔ SilentRun globals apps .init frames) := by
  have forward : SilentRun globals apps .init frames → ClassifiesRun globals frames := by
    intro silent first second split log world ran
    subst split
    obtain ⟨ok, -, -, quiet⟩ := handleAll_log compiled first worldOk_init ran
    have noMatch : ∀ n, ∀ h ∈ log, ¬ Matching n h :=
      fun n h inside matched => matched.2.2 (quiet.1 silent.first h inside)
    refine ⟨fun n sess here => ⟨⟨fun classified => ?_, ?_⟩, ?_⟩, fun _ _ _ n sess here classified => ?_⟩
    · exact absurd (ok.unclassified n sess here) classified
    · rintro ⟨h, inside, matched⟩
      exact absurd matched (noMatch n h inside)
    · rintro before h after rfl matched -
      exact absurd matched (noMatch n h (List.mem_append_right _ (List.mem_cons_self ..)))
    · exact absurd (ok.unclassified n sess here) classified
  refine ⟨forward, fun log world ran => ⟨fun classifies => ?_, forward⟩⟩
  obtain ⟨ok, -, valid, quiet⟩ := handleAll_log compiled frames worldOk_init ran
  refine quiet.2 fun h inside => ?_
  apply Decidable.byContradiction
  intro reported
  -- a reported session would have an application
  obtain ⟨⟨sess, here⟩, nonempty⟩ := valid h inside
  have classified := ((classifies frames [] (List.append_nil _).symm log world ran).1 h.sess sess here).1
  exact classified.2 ⟨h, inside, rfl, nonempty reported, reported⟩ (ok.unclassified h.sess sess here)

end Silent

/-! ## One frame -/

/-- The first frame of a run, with a payload that both engines search to the end. -/
theorem handleAll_udpFrame {acsm : AcsmStruct2} {apps : List AppEntryT}
    (compiled : sigParseAdapterAc apps = .ok acsm) {info : AppInfoS} {graph : DfaGraphT} {payload : CStr}
    {reports : List Report} (nonempty : payload ≠ []) (last : finalCalls apps none payload = [])
    (checked : patternCheck info (recorded httpElementId SearchState.init.elementlast
      (payloadEvents apps payload)) = .ok (0, reports))
    (runs : (dfaTrace graph payload payload 0 0).2 = none)
    (room : SearchState.init.cleared.Room (recorded httpElementId SearchState.init.elementlast
      (payloadEvents apps payload) ++ dfaWords 0 (dfaTrace graph payload payload 0 0).1)) :
    ∃ n world, (handleAll ⟨acsm, info, graph⟩ [udpFrame payload]).run .init =
      .ok [⟨n, payload, true, reports⟩] world := by
  rcases @packetHandler_cases ⟨acsm, info, graph⟩ _ compiled _ worldOk_init (udpFrame payload) with
    ⟨read, -⟩ | ⟨headers, n, table, read, -, -, -, ⟨empty, -⟩ | ⟨-, ran⟩⟩
  · rw [udpFrame_headers] at read
    cases read
  · rw [udpFrame_headers] at read
    cases read
    have positive := List.length_pos_of_ne_nil nonempty
    have captured : 42 + payload.length ≤ 42 := empty
    omega
  · rw [udpFrame_headers] at read
    cases read
    rw [udpFrame_payload] at ran
    rw [handleAll_cons, ran]
    have searched := searchBoth_ok compiled (s := .init) (endReadable_of_nil last) checked runs room
    simp only [World.init, searched]
    exact ⟨n, _, rfl⟩

/-- A frame without a match is classified as it should be: not at all. -/
theorem unmatched_stays_unclassified : ∃ acsm,
    sigParseAdapterAc (oneElementList 0x01000000 (cstr "a")) = .ok acsm ∧
      ClassifiesRun ⟨acsm, oneElementInfo, hostGraph⟩ [udpFrame (cstr "Host: x")] := by
  obtain ⟨acsm, -, -, compiled, -⟩ :=
    sigParseAdapterAc_compiled (oneElementList 0x01000000 (cstr "a"))
  refine ⟨acsm, compiled, ?_⟩
  apply (@classifies_iff_silent ⟨acsm, oneElementInfo, hostGraph⟩ _ compiled _).1
  refine ⟨fun headers read nonempty r reports checked => ?_, fun _ _ _ => trivial⟩
  rw [udpFrame_headers] at read
  cases read
  have events : payloadEvents (oneElementList 0x01000000 (cstr "a")) (cstr "Host: x") = [.enter 1] := by
    decide +kernel
  rw [udpFrame_payload, events] at checked
  cases checked
  rfl

/-- A payload with a reported match leaves its session without an application. -/
theorem match_is_dropped :
    ¬ ∀ (root : List ApplicationS) (mem : Memory) (summary : AppStatisticsS) (info : AppInfoS)
        (apps : List AppEntryT) (acsm : AcsmStruct2) (graph : DfaGraphT), Parsed root →
      (∀ app ∈ root, 1 ≤ app.id.toNat ∧ app.id.toNat ≤ 65535) →
      getApplicationSummary root = .ok summary →
      installApplication mem summary root = .ok (info, apps) → sigParseAdapterAc apps = .ok acsm →
      ∀ frames, ClassifiesRun ⟨acsm, info, graph⟩ frames := by
  intro classifies
  obtain ⟨summary, counted, installed⟩ := oneSignature_host
  obtain ⟨acsm, -, -, compiled, -⟩ :=
    sigParseAdapterAc_compiled (oneElementList 0x01000000 (cstr "a"))
  have appIds : ∀ app ∈ oneSignature 0x10001 (cstr "http_host=a"), 1 ≤ app.id.toNat ∧ app.id.toNat ≤ 65535 := by
    intro app inRoot
    obtain rfl := List.mem_singleton.1 inRoot
    decide
  have run := classifies _ _ _ _ _ acsm hostGraph (oneSignature_parsed rfl) appIds counted
    installed compiled [udpFrame (cstr "Host: a.")]
  have events : payloadEvents (oneElementList 0x01000000 (cstr "a")) (cstr "Host: a.") =
      [.enter 1, .item 0x01000000] := by
    decide +kernel
  have last : finalCalls (oneElementList 0x01000000 (cstr "a")) none (cstr "Host: a.") = [] := by
    decide +kernel
  have checked : patternCheck oneElementInfo (recorded httpElementId SearchState.init.elementlast
      (payloadEvents (oneElementList 0x01000000 (cstr "a")) (cstr "Host: a."))) =
        .ok (0, [⟨0, 0, 7, 1⟩]) := by
    rw [events]
    rfl
  have walked : (dfaTrace hostGraph (cstr "Host: a.") (cstr "Host: a.") 0 0).2 = none := by
    decide +kernel
  have room : SearchState.init.cleared.Room (recorded httpElementId SearchState.init.elementlast
      (payloadEvents (oneElementList 0x01000000 (cstr "a")) (cstr "Host: a.")) ++
        dfaWords 0 (dfaTrace hostGraph (cstr "Host: a.") (cstr "Host: a.") 0 0).1) := by
    rw [events]
    decide +kernel
  obtain ⟨n, world, ran⟩ := handleAll_udpFrame compiled (by decide) last checked walked room
  obtain ⟨ok, -, valid, -⟩ := @handleAll_log ⟨acsm, oneElementInfo, hostGraph⟩ _ compiled _ _ _ _
    worldOk_init ran
  obtain ⟨⟨sess, here⟩, -⟩ := valid _ (List.mem_singleton_self _)
  have classified := ((run _ [] rfl _ world ran).1 n sess here).1
  refine classified.2 ⟨_, List.mem_singleton_self _, rfl, List.cons_ne_nil _ _, List.cons_ne_nil _ _⟩ ?_
  exact ok.unclassified n sess here

end Orchid
