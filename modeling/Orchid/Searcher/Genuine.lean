/-
# Searcher.Genuine -- which reports are genuine

A call of the loop carries the id of an entry whose text stands where the call
says.  The call for the state after the last byte does not: it passes the pattern's
registered pointer as the id and a null pointer as the match.  So a payload is
reported genuinely exactly when no entry is recorded at its end, and then every
word it leaves in the buffer is the word of an installed element.
-/
import Orchid.Searcher.HeaderContext

namespace Orchid

open Orchid.Theory

set_option autoImplicit false

/-- The call is for an entry with that id, the entry's text stands at its index up to
case, and its pointer points there. -/
def Genuine (apps : List AppEntryT) (payload : CStr) (call : MatchCall) : Prop :=
  ∃ p ∈ apps, call.id = p.appId ∧
    ∃ s : Nat, call.index = s ∧ OccursAt p payload s ∧ call.data = some (s : Int)

/-- In every installation that built `apps`, every word a search of the payload records
is that of an installed element, and its low half is an offset of the table. -/
def WordsInstalled (apps : List AppEntryT) (acsm : AcsmStruct2) (payload : CStr) : Prop :=
  ∀ (root : List ApplicationS) (mem : Memory) (summary : AppStatisticsS) (info : AppInfoS),
    installApplication mem summary root = .ok (info, apps) →
    ∀ (s : SearchState), ∀ w ∈ (searchOutcome acsm info payload s).1,
      ∃ i e, (signatures root).flatten[i]? = some e ∧ w = elementWord e.id i ∧
        (w &&& 0xFFFF).toNat < info.eles.length

/-- No entry is recorded at the end of the payload: no text ends it, up to case, and an
entry without a text is shadowed by the last byte. -/
def SilentEnd (apps : List AppEntryT) (payload : CStr) : Prop :=
  (∀ p ∈ apps, p.regex ≠ [] → ¬ convertCaseEx p.regex <:+ convertCaseEx payload) ∧
    ∀ p ∈ apps, p.regex = [] →
      ∃ c, [c] <:+ convertCaseEx payload ∧ ∃ q ∈ apps, [c] <+: convertCaseEx q.regex

theorem silentEnd_iff (apps : List AppEntryT) (payload : CStr) :
    SilentEnd apps payload ↔ front apps payload = none := by
  have blank : ∀ p : AppEntryT, foldedText p = [] ↔ p.regex = [] := by
    intro p
    rw [foldedText, convertCaseEx, List.map_eq_nil_iff]
  have stem : ∀ c, Stem foldedText apps [c] ↔ ∃ q ∈ apps, [c] <+: convertCaseEx q.regex := by
    intro c
    constructor
    · rintro (impossible | found)
      · cases impossible
      · exact found
    · exact Or.inr
  rw [front, leader_eq_none_iff, SilentEnd]
  simp only [Ne, blank, stem]
  exact Iff.rfl

theorem elementWord_low_le (e : Uint) (i : Nat) : (elementWord e i &&& 0xFFFF).toNat ≤ i := by
  rw [elementWord, lowWord_word, BitVec.toNat_and, BitVec.toNat_ofNat]
  exact Nat.and_le_left.trans (Nat.mod_le ..)

/-- What is recorded was called for. -/
theorem call_of_recorded {k : Uint} {w : Uint} {calls : List MatchCall} {tx : CStr}
    (counted : w ∈ recorded httpElementId k (calls.filterMap (callEvent tx))) :
    ∃ call ∈ calls, call.id = w ∧ isHttpElement w = false := by
  obtain ⟨before, after, split, -⟩ := exists_split_of_mem_recorded httpElementId counted
  have member : ScanEvent.item w ∈ calls.filterMap (callEvent tx) := by
    rw [split]
    exact List.mem_append_right _ (List.mem_cons_self ..)
  obtain ⟨call, inside, made⟩ := List.mem_filterMap.1 member
  unfold callEvent at made
  by_cases marker : isHttpElement call.id = true
  · rw [if_pos marker] at made
    split at made <;> cases made
  · rw [if_neg marker] at made
    obtain rfl := ScanEvent.item.inj (Option.some.inj made)
    exact ⟨call, inside, rfl, Bool.eq_false_iff.2 marker⟩

/-- With nothing recorded at the end, what is stored are words of elements. -/
theorem wordsInstalled_of_silentEnd {apps : List AppEntryT} {acsm : AcsmStruct2} {payload : CStr}
    (compiled : sigParseAdapterAc apps = .ok acsm) (silent : front apps payload = none) :
    WordsInstalled apps acsm payload := by
  intro root mem summary info installed s w stored
  have counted := mem_countedWords compiled stored
  rw [countedWords, payloadEvents] at counted
  obtain ⟨call, made, rfl, element⟩ := call_of_recorded counted
  obtain ⟨o, below, app, leads, rfl⟩ : ∃ o < payload.length, ∃ app,
      front apps ([] ++ payload.take o) = some app ∧ call = loopCall ([] ++ payload.take o) app := by
    rcases (mem_scanCalls [] payload).1 made with inLoop | ⟨app, leads, -⟩
    · exact inLoop
    · rw [List.nil_append, silent] at leads
      cases leads
  obtain ⟨member, -, -⟩ := front_occurs below.le leads
  obtain ⟨fits, words, rows, -⟩ := installApplication_ok installed
  rw [words] at member
  rcases List.mem_append.1 member with isMarker | isElement
  · have marker := httpMarkers_isHttpElement _ (markerEntries_mem isMarker)
    exact absurd (marker.symm.trans element) (by decide)
  · obtain ⟨i, e, here, rfl⟩ := mem_elementEntries.1 isElement
    rw [Nat.zero_add] at *
    refine ⟨i, e, here, rfl, ?_⟩
    have inTable : i < (signatures root).flatten.length := (List.getElem?_eq_some_iff.1 here).1
    rw [List.length_flatten] at inTable
    have rowCount : (sigSizes root).sum ≤ info.eles.length := by
      rw [rows, List.length_append, length_elementTable]
      exact Nat.le_add_right ..
    exact (elementWord_low_le e.id i).trans_lt (inTable.trans_le rowCount)

/-- **When all reports of a payload are genuine.**  Exactly when no entry is recorded
at its end. -/
theorem genuine_iff (apps : List AppEntryT) (payload : CStr) :
    ∃ acsm, sigParseAdapterAc apps = .ok acsm ∧
      (((∀ call ∈ searchCalls acsm payload none, Genuine apps payload call) ∧
          WordsInstalled apps acsm payload) ↔ SilentEnd apps payload) := by
  obtain ⟨acsm, n, label, compiled, machine⟩ := sigParseAdapterAc_compiled apps
  refine ⟨acsm, compiled, ?_⟩
  rw [silentEnd_iff, searchCalls_eq machine]
  constructor
  · rintro ⟨genuine, -⟩
    cases leads : front apps payload with
    | none => rfl
    | some app =>
        have made : finalCall none ([] ++ payload) app ∈ scanCalls apps none [] payload :=
          (mem_scanCalls [] payload).2 (Or.inr ⟨app, leads, rfl⟩)
        obtain ⟨-, -, -, s, -, -, pointer⟩ := genuine _ made
        cases pointer
  · intro silent
    refine ⟨fun call made => ?_, wordsInstalled_of_silentEnd compiled silent⟩
    rcases (mem_scanCalls [] payload).1 made with ⟨o, below, app, leads, rfl⟩ | ⟨app, leads, -⟩
    · rw [List.nil_append] at leads ⊢
      obtain ⟨member, fits, occurs⟩ := front_occurs below.le leads
      have index : ((payload.take o).length : Int) - app.regex.length =
          ((o - app.regex.length : Nat) : Int) := by
        rw [List.length_take, Nat.min_eq_left below.le]
        omega
      exact ⟨app, member, rfl, o - app.regex.length, index, occurs, congrArg some index⟩
    · rw [List.nil_append, silent] at leads
      cases leads

/-- The hit at the last byte is reported with the address of the pattern. -/
theorem end_report_not_genuine :
    ¬ ∀ (apps : List AppEntryT) (payload : CStr), ∃ acsm, sigParseAdapterAc apps = .ok acsm ∧
      ∀ call ∈ searchCalls acsm payload none, Genuine apps payload call := by
  intro genuine
  obtain ⟨acsm, compiled, all⟩ := genuine [⟨0x401, cstr "Host", 0x8050010⟩] (cstr "Host")
  obtain ⟨acsm', n, label, compiled', machine⟩ :=
    sigParseAdapterAc_compiled [⟨0x401, cstr "Host", 0x8050010⟩]
  obtain rfl : acsm' = acsm := Except.ok.inj (compiled'.symm.trans compiled)
  have calls : scanCalls [⟨0x401, cstr "Host", 0x8050010⟩] none [] (cstr "Host") =
      [⟨0x8050010, 0, none⟩] := by decide +kernel
  rw [searchCalls_eq machine, calls] at all
  obtain ⟨p, member, id, -⟩ := all _ (List.mem_singleton_self _)
  rw [List.mem_singleton] at member
  subst member
  exact absurd id (by decide)

end Orchid
