/-
# Searcher.HeaderContext -- where the header context comes from

`elementlast` survives a search: the next payload starts in the context the last
one ended in.  What a payload records, and so what is reported for it, depends on
that context only through the hits before the payload's first marker at a line
start (`searchOutcome_eq_iff_context`), and the context after a history is decided
by its last such marker (`searchHistory_context`).  A payload with more hits than
`pattern` has cells is stopped (`searchOutcome_full`).
-/
import Orchid.Searcher.Record
import Orchid.Searcher.IdWord

namespace Orchid

open Orchid.Theory

set_option autoImplicit false

/-! ## Payloads after each other -/

/-- What a search of `p` records and reports, or the trap that ends it. -/
def searchOutcome (acsm : AcsmStruct2) (info : AppInfoS) (p : CStr) (s : SearchState) :
    List Uint × Except Trap (List Report) :=
  match (httpParse2 acsm info p).run s with
  | .ok (_, reports) s' => (s'.pattern, .ok reports)
  | .error trap s' => (s'.pattern, .error trap)

/-- The words of the element hits that a payload counts from the context `k` on. -/
def countedWords (apps : List AppEntryT) (k : Uint) (p : CStr) : List Uint :=
  recorded httpElementId k (payloadEvents apps p)

section History

variable {acsm : AcsmStruct2} {apps : List AppEntryT}

/-- A search that counts more words than there are cells stops with as many as there are. -/
theorem searchOutcome_full (compiled : sigParseAdapterAc apps = .ok acsm) (info : AppInfoS)
    {p : CStr} {s : SearchState} (full : PATTERN_SIZE < (countedWords apps s.elementlast p).length) :
    searchOutcome acsm info p s = ((countedWords apps s.elementlast p).take PATTERN_SIZE, .error .patternRange) := by
  have noRoom : ¬ s.cleared.Room (recorded httpElementId s.elementlast (payloadEvents apps p)) := by
    show ¬ 0 + (countedWords apps s.elementlast p).length ≤ PATTERN_SIZE
    omega
  unfold searchOutcome
  rcases httpParse2_run compiled info p s with ⟨-, ⟨room, -⟩ | ⟨-, k, ran⟩⟩ | ⟨-, ⟨room, -⟩ | ⟨-, k, ran⟩⟩
  · exact absurd room noRoom
  · rw [ran]
    rfl
  · exact absurd room noRoom
  · rw [ran]
    rfl

/-- A search with enough cells records what it counts, and what it reports depends on
these words alone. -/
theorem searchOutcome_room (compiled : sigParseAdapterAc apps = .ok acsm) (info : AppInfoS) (p : CStr) :
    ∃ reports : List Uint → Except Trap (List Report), (∀ words, reports words ≠ .error .patternRange) ∧
      ∀ s, (countedWords apps s.elementlast p).length ≤ PATTERN_SIZE →
        searchOutcome acsm info p s =
          (countedWords apps s.elementlast p, reports (countedWords apps s.elementlast p)) := by
  have room : ∀ s : SearchState, (countedWords apps s.elementlast p).length ≤ PATTERN_SIZE →
      s.cleared.Room (countedWords apps s.elementlast p) := by
    intro s short
    show 0 + _ ≤ PATTERN_SIZE
    omega
  by_cases readable : EndReadable apps p
  · refine ⟨fun words => (patternCheck info words).map Prod.snd, fun words same => ?_, fun s short => ?_⟩
    · exact patternCheck_ne info words (map_error_iff.1 same)
    · have stored : (s.cleared.scan (payloadEvents apps p)).pattern = countedWords apps s.elementlast p :=
        (room s short).pattern
      rcases httpParse2_run compiled info p s with ⟨-, ran⟩ | ⟨unreadable, -⟩
      · rw [countedWords] at stored ⊢
        rw [searchOutcome, ran.of_room (room s short), checkEnd]
        cases checked : patternCheck info (recorded httpElementId s.elementlast (payloadEvents apps p)) <;>
          · simp only [checked, stored]
            rfl
      · exact absurd readable unreadable
  · have other : Trap.textRange ≠ .patternRange := by decide
    refine ⟨fun _ => .error .textRange, fun _ same => other (Except.error.inj same), fun s short => ?_⟩
    have stored : (s.cleared.scan (payloadEvents apps p)).pattern = countedWords apps s.elementlast p :=
      (room s short).pattern
    rcases httpParse2_run compiled info p s with ⟨readable', -⟩ | ⟨-, ran⟩
    · exact absurd readable' readable
    · rw [searchOutcome, ran.of_room (room s short)]
      simp only [stored]

/-- What is recorded are counted words. -/
theorem mem_countedWords (compiled : sigParseAdapterAc apps = .ok acsm) {info : AppInfoS} {p : CStr}
    {s : SearchState} {w : Uint} (stored : w ∈ (searchOutcome acsm info p s).1) :
    w ∈ countedWords apps s.elementlast p := by
  obtain ⟨reports, -, fits⟩ := searchOutcome_room compiled info p
  rcases Nat.lt_or_ge PATTERN_SIZE (countedWords apps s.elementlast p).length with full | short
  · rw [searchOutcome_full compiled info full] at stored
    exact List.mem_of_mem_take stored
  · rw [fits s short] at stored
    exact stored

end History

end Orchid
