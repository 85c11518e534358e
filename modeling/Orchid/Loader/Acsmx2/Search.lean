/-
# Loader.Acsmx2.Search -- which calls the search makes

The search of a compiled machine calls back with the entry at the front of the
record of the bytes read so far (`front`): before each byte with the entry's id and
a pointer to the match, and once more after the last byte with the registered
pointer in the place of the id and the caller's `data` in the place of the match.
`scanCalls` is that sequence, and `acsmSearchSparseDFABanded_eq` says that the
search is the callback run over it, in any monad, for a callback that returns zero.
-/
import Orchid.Loader.Acsmx2.Compile

namespace Orchid

open Orchid.Theory

set_option autoImplicit false

/-- The text of an entry as the machine compares it. -/
def foldedText (app : AppEntryT) : CStr := convertCaseEx app.regex

/-- The entry at the front of the match list after the bytes `w`. -/
def front (apps : List AppEntryT) (w : CStr) : Option AppEntryT :=
  leader foldedText apps (convertCaseEx w)

/-- The call before the next byte is read. -/
def loopCall (w : CStr) (app : AppEntryT) : MatchCall :=
  { id := app.appId
    index := (w.length : Int) - app.regex.length
    data := some ((w.length : Int) - app.regex.length) }

/-- The call after the last byte. -/
def finalCall (data : Option Int) (w : CStr) (app : AppEntryT) : MatchCall :=
  { id := app.addr, index := (w.length : Int) - app.regex.length, data := data }

/-- The calls made inside the loop after the bytes `w`, with the text still to be
read. -/
def loopCalls (apps : List AppEntryT) : CStr → CStr → List MatchCall
  | _, [] => []
  | w, c :: text => ((front apps w).map (loopCall w)).toList ++ loopCalls apps (w ++ [c]) text

/-- The call for the state after the last byte, if there is one. -/
def finalCalls (apps : List AppEntryT) (data : Option Int) (w : CStr) : List MatchCall :=
  ((front apps w).map (finalCall data w)).toList

def scanCalls (apps : List AppEntryT) (data : Option Int) (w text : CStr) : List MatchCall :=
  loopCalls apps w text ++ finalCalls apps data (w ++ text)

theorem scanCalls_cons (apps : List AppEntryT) (data : Option Int) (w text : CStr) (c : UInt8) :
    scanCalls apps data w (c :: text) =
      ((front apps w).map (loopCall w)).toList ++ scanCalls apps data (w ++ [c]) text := by
  simp [scanCalls, loopCalls]

theorem mem_loopCalls {apps : List AppEntryT} {call : MatchCall} (w text : CStr) :
    call ∈ loopCalls apps w text ↔
      ∃ e < text.length, ∃ app, front apps (w ++ text.take e) = some app ∧
        call = loopCall (w ++ text.take e) app := by
  induction text generalizing w with
  | nil => simp [loopCalls]
  | cons c text ih =>
      rw [loopCalls, List.mem_append, ih (w ++ [c]), Option.mem_toList, Option.map_eq_some_iff]
      constructor
      · rintro (⟨app, leads, rfl⟩ | ⟨e, below, app, leads, rfl⟩)
        · exact ⟨0, Nat.succ_pos _, app, by simpa using leads, by simp⟩
        · exact ⟨e + 1, Nat.succ_lt_succ below, app, by simpa using leads, by simp⟩
      · rintro ⟨e, below, app, leads, rfl⟩
        cases e with
        | zero => exact Or.inl ⟨app, by simpa using leads, by simp⟩
        | succ e => exact Or.inr ⟨e, Nat.lt_of_succ_lt_succ below, app, by simpa using leads, by simp⟩

/-- The loop's calls in front of one of them are the loop's calls of the bytes read
before it. -/
theorem loopCalls_split {apps : List AppEntryT} {call : MatchCall} {after : List MatchCall}
    (text : CStr) : ∀ {w : CStr} {before : List MatchCall},
      loopCalls apps w text = before ++ call :: after →
      ∃ e < text.length, ∃ app, front apps (w ++ text.take e) = some app ∧
        call = loopCall (w ++ text.take e) app ∧ before = loopCalls apps w (text.take e) := by
  induction text with
  | nil =>
      intro w before split
      exact absurd split.symm (by simp [loopCalls])
  | cons c text ih =>
      intro w before split
      rw [loopCalls] at split
      cases leads : front apps w with
      | none =>
          rw [leads] at split
          obtain ⟨e, below, app, found, made, earlier⟩ := ih split
          refine ⟨e + 1, Nat.succ_lt_succ below, app, by simpa using found, by simpa using made, ?_⟩
          rw [List.take_succ_cons, loopCalls, leads, earlier]
          rfl
      | some first =>
          rw [leads] at split
          cases before with
          | nil =>
              obtain ⟨rfl, -⟩ := List.cons.inj split
              exact ⟨0, Nat.succ_pos _, first, by simpa using leads, by simp, rfl⟩
          | cons call' before =>
              obtain ⟨rfl, rest⟩ := List.cons.inj split
              obtain ⟨e, below, app, found, made, earlier⟩ := ih rest
              refine ⟨e + 1, Nat.succ_lt_succ below, app, by simpa using found, by simpa using made, ?_⟩
              rw [List.take_succ_cons, loopCalls, leads, earlier]
              rfl

theorem mem_finalCalls {apps : List AppEntryT} {data : Option Int} {call : MatchCall} {w : CStr} :
    call ∈ finalCalls apps data w ↔ ∃ app, front apps w = some app ∧ call = finalCall data w app := by
  rw [finalCalls, Option.mem_toList, Option.map_eq_some_iff]
  exact exists_congr fun app => and_congr_right fun _ => eq_comm

theorem mem_scanCalls {apps : List AppEntryT} {data : Option Int} {call : MatchCall} (w text : CStr) :
    call ∈ scanCalls apps data w text ↔
      (∃ e < text.length, ∃ app, front apps (w ++ text.take e) = some app ∧
        call = loopCall (w ++ text.take e) app) ∨
      ∃ app, front apps (w ++ text) = some app ∧ call = finalCall data (w ++ text) app := by
  rw [scanCalls, List.mem_append, mem_loopCalls, mem_finalCalls]

theorem length_scanCalls_le (apps : List AppEntryT) (data : Option Int) (w text : CStr) :
    (scanCalls apps data w text).length ≤ text.length + 1 := by
  induction text generalizing w with
  | nil => exact Option.length_toList_le
  | cons c text ih =>
      have rest := ih (w ++ [c])
      have one : ((front apps w).map (loopCall w)).toList.length ≤ 1 := Option.length_toList_le
      rw [scanCalls_cons, List.length_append, List.length_cons]
      omega

section Scan

variable {acsm : AcsmStruct2} {n : Nat} {label : Nat → CStr} {apps : List AppEntryT}

/-- The front of a state's match list. -/
theorem Compiled.head?_list (machine : Compiled acsm n label (apps.map patternOf)) {s : Nat}
    (below : s < n) {w : CStr}
    (spelled : label s = longest (PatternStem (apps.map patternOf)) (convertCaseEx w)) :
    (acsm.acsmMatchList s).head? = (front apps w).map patternOf := by
  rw [machine.lists below, spelled, endings_longest]
  exact leader_map AcsmPattern2.patrn patternOf apps (convertCaseEx w)

theorem Compiled.cases_list (machine : Compiled acsm n label (apps.map patternOf)) {s : Nat}
    (below : s < n) {w : CStr}
    (spelled : label s = longest (PatternStem (apps.map patternOf)) (convertCaseEx w)) :
    (front apps w = none ∧ acsm.acsmMatchList s = []) ∨
      ∃ app rest, front apps w = some app ∧ acsm.acsmMatchList s = patternOf app :: rest := by
  have head := machine.head?_list below spelled
  cases leads : front apps w with
  | none =>
      rw [leads] at head
      exact Or.inl ⟨rfl, List.head?_eq_none_iff.1 head⟩
  | some app =>
      rw [leads] at head
      obtain ⟨rest, split⟩ := List.head?_eq_some_iff.1 head
      exact Or.inr ⟨app, rest, rfl, split⟩

/-- Reading one byte. -/
theorem Compiled.next_spec (machine : Compiled acsm n label (apps.map patternOf)) {s : Nat}
    (below : s < n) {w : CStr}
    (spelled : label s = longest (PatternStem (apps.map patternOf)) (convertCaseEx w)) (c : UInt8) :
    bandedNext (acsm.acsmNextState s) (xlatcase c) < n ∧
      label (bandedNext (acsm.acsmNextState s) (xlatcase c)) =
        longest (PatternStem (apps.map patternOf)) (convertCaseEx (w ++ [c])) := by
  obtain ⟨inRange, word⟩ := machine.next below (xlatcase c)
  refine ⟨inRange, ?_⟩
  rw [word, spelled, longest_append (stem_leftClosed _ _)]
  simp [convertCaseEx]

variable {m : Type → Type} [Monad m] [LawfulMonad m] {onMatch : MatchCall → m Int}
  {act : MatchCall → m Unit}

/-- The scan from the state of the bytes `w`. -/
theorem bandedScan_eq (machine : Compiled acsm n label (apps.map patternOf))
    (silent : ∀ call, onMatch call = do act call; return 0) (data : Option Int) (currentState : Nat)
    (text : CStr) : ∀ (w : CStr) (s nfound : Nat), s < n →
      label s = longest (PatternStem (apps.map patternOf)) (convertCaseEx w) →
      bandedScan acsm onMatch data currentState text w.length s nfound =
        (do forM (scanCalls apps data w text) act
            return (nfound + (scanCalls apps data w text).length, currentState)) := by
  induction text with
  | nil =>
      intro w s nfound below spelled
      rw [bandedScan]
      rcases machine.cases_list below spelled with ⟨leads, listed⟩ | ⟨app, rest, leads, listed⟩
      · simp [scanCalls, loopCalls, finalCalls, leads, listed]
      · simp [scanCalls, loopCalls, finalCalls, leads, listed, finalCall, patternOf, silent]
  | cons c text ih =>
      intro w s nfound below spelled
      obtain ⟨below', spelled'⟩ := machine.next_spec below spelled c
      have scan := fun found => ih (w ++ [c]) _ found below' spelled'
      rw [List.length_append, List.length_singleton] at scan
      rw [bandedScan, scanCalls_cons]
      rcases machine.cases_list below spelled with ⟨leads, listed⟩ | ⟨app, rest, leads, listed⟩
      · simp [leads, listed, scan]
      · have flagged := machine.flag below (by rw [listed]; simp)
        simp [leads, listed, flagged, scan, loopCall, patternOf, silent, Nat.add_assoc, Nat.add_comm 1]

/-- **The search is the callback run over `scanCalls`**, for a callback that always
returns zero. -/
theorem acsmSearchSparseDFABanded_eq (machine : Compiled acsm n label (apps.map patternOf))
    (silent : ∀ call, onMatch call = do act call; return 0) (tx : CStr) (data : Option Int) :
    acsmSearchSparseDFABanded acsm onMatch tx data 0 =
      (do forM (scanCalls apps data [] tx) act
          return ((scanCalls apps data [] tx).length, 0)) := by
  have start : label 0 = longest (PatternStem (apps.map patternOf)) (convertCaseEx []) := machine.root
  simpa [acsmSearchSparseDFABanded] using bandedScan_eq machine silent data 0 tx [] 0 0 machine.pos start

end Scan

theorem searchCalls_eq {acsm : AcsmStruct2} {n : Nat} {label : Nat → CStr} {apps : List AppEntryT}
    (machine : Compiled acsm n label (apps.map patternOf)) (tx : CStr) (data : Option Int) :
    searchCalls acsm tx data = scanCalls apps data [] tx := by
  have collect : ∀ (calls before : List MatchCall),
      (StateT.run (m := Id) (forM calls fun call => modify fun calls => calls ++ [call]) before).2 =
        before ++ calls := by
    intro calls
    induction calls with
    | nil =>
        intro before
        rw [List.append_nil]
        rfl
    | cons call calls ih =>
        intro before
        simpa using ih (before ++ [call])
  rw [searchCalls, acsmSearchSparseDFABanded_eq machine fun _ => rfl]
  exact collect (scanCalls apps data [] tx) []

/-! ## Occurrences and reports -/

/-- The text of the entry stands at `s`, up to case. -/
def OccursAt (app : AppEntryT) (payload : CStr) (s : Nat) : Prop :=
  s + app.regex.length ≤ payload.length ∧
    convertCaseEx ((payload.drop s).take app.regex.length) = convertCaseEx app.regex

instance (app : AppEntryT) (payload : CStr) (s : Nat) : Decidable (OccursAt app payload s) :=
  inferInstanceAs (Decidable (_ ∧ _))

@[simp] theorem length_convertCaseEx (s : CStr) : (convertCaseEx s).length = s.length :=
  List.length_map ..

/-- An entry whose text ends the first `e` bytes occurs where it began. -/
theorem occursAt_of_suffix {app : AppEntryT} {payload : CStr} {e : Nat} (inside : e ≤ payload.length)
    (suffix : foldedText app <:+ convertCaseEx (payload.take e)) :
    app.regex.length ≤ e ∧ OccursAt app payload (e - app.regex.length) := by
  have short := suffix.length_le
  rw [foldedText, length_convertCaseEx, length_convertCaseEx, List.length_take,
    Nat.min_eq_left inside] at short
  refine ⟨short, by omega, ?_⟩
  have tail := List.suffix_iff_eq_drop.1 suffix
  rw [foldedText, length_convertCaseEx, length_convertCaseEx, List.length_take,
    Nat.min_eq_left inside] at tail
  rw [tail, convertCaseEx, convertCaseEx, ← List.map_drop, List.drop_take]
  congr 3
  omega

theorem front_occurs {apps : List AppEntryT} {payload : CStr} {e : Nat} {app : AppEntryT}
    (inside : e ≤ payload.length) (leads : front apps (payload.take e) = some app) :
    app ∈ apps ∧ app.regex.length ≤ e ∧ OccursAt app payload (e - app.regex.length) := by
  obtain ⟨member, suffix⟩ := mem_of_leader foldedText apps leads
  exact ⟨member, occursAt_of_suffix inside suffix⟩

/-- At the end of some occurrence that begins at `s` the front entry is one the
call reports as `id`: before the last byte by its id, after it by the address of
its text. -/
def ReportedAs (apps : List AppEntryT) (payload : CStr) (id : Uint) (s : Nat) : Prop :=
  ∃ e ≤ payload.length, ∃ q, front apps (payload.take e) = some q ∧ s + q.regex.length = e ∧
    (if e < payload.length then q.appId else q.addr) = id

theorem exists_call_iff {apps : List AppEntryT} {payload : CStr} {data : Option Int} {id : Uint}
    {s : Nat} :
    (∃ call ∈ scanCalls apps data [] payload, call.id = id ∧ call.index = s) ↔
      ReportedAs apps payload id s := by
  constructor
  · rintro ⟨call, made, rfl, index⟩
    rcases (mem_scanCalls [] payload).1 made with ⟨e, below, q, leads, rfl⟩ | ⟨q, leads, rfl⟩
    · rw [List.nil_append] at leads index
      obtain ⟨-, fits, -⟩ := front_occurs below.le leads
      refine ⟨e, below.le, q, leads, ?_, if_pos below⟩
      simp only [loopCall, List.length_take, Nat.min_eq_left below.le] at index
      omega
    · rw [List.nil_append] at leads index
      have whole : payload.take payload.length = payload := List.take_length
      obtain ⟨-, fits, -⟩ := front_occurs le_rfl (whole.symm ▸ leads)
      refine ⟨payload.length, le_rfl, q, by rwa [whole], ?_, if_neg (Nat.lt_irrefl _)⟩
      simp only [finalCall] at index
      omega
  · rintro ⟨e, inside, q, leads, starts, rfl⟩
    by_cases below : e < payload.length
    · refine ⟨loopCall (payload.take e) q, (mem_scanCalls [] payload).2 (Or.inl ⟨e, below, q, leads, rfl⟩),
        (if_pos below).symm, ?_⟩
      simp only [loopCall, List.length_take, Nat.min_eq_left inside]
      omega
    · obtain rfl : e = payload.length := by omega
      rw [List.take_length] at leads
      refine ⟨finalCall data payload q, (mem_scanCalls [] payload).2 (Or.inr ⟨q, leads, rfl⟩),
        (if_neg below).symm, ?_⟩
      simp only [finalCall]
      omega

/-- **Which occurrences the search reports.**  Compilation succeeds, and an
occurrence of an entry is reported exactly when an entry with the same id (before
the last byte; at the last byte: registered at an address that happens to be that
id) is at the front of the record where its own text ends. -/
theorem occurrence_reported_iff (apps : List AppEntryT) (payload : CStr) :
    ∃ acsm, sigParseAdapterAc apps = .ok acsm ∧ ∀ p ∈ apps, ∀ s, OccursAt p payload s →
      ((∃ call ∈ searchCalls acsm payload none, call.id = p.appId ∧ call.index = s) ↔
        ReportedAs apps payload p.appId s) := by
  obtain ⟨acsm, n, label, compiled, machine⟩ := sigParseAdapterAc_compiled apps
  refine ⟨acsm, compiled, fun p _ s _ => ?_⟩
  rw [searchCalls_eq machine]
  exact exists_call_iff

/-- Two entries with one text, and a text that ends the payload: the second entry
of the pair and the last occurrence are not reported. -/
theorem occurrence_lost :
    ¬ ∀ (apps : List AppEntryT) (payload : CStr), (∀ p ∈ apps, p.regex ≠ []) → 1 ≤ payload.length →
      ∃ acsm, sigParseAdapterAc apps = .ok acsm ∧ ∀ p ∈ apps, ∀ s, OccursAt p payload s →
        ∃ call ∈ searchCalls acsm payload none, call.id = p.appId ∧ call.index = s := by
  intro reported
  let apps : List AppEntryT := [⟨0x401, cstr "Host", 0x8050010⟩, ⟨0x1000000, cstr "host", 0x80500a0⟩]
  obtain ⟨acsm, compiled, found⟩ := reported apps (cstr "Host: host") (by decide) (by decide)
  obtain ⟨acsm', n, label, compiled', machine⟩ := sigParseAdapterAc_compiled apps
  obtain rfl : acsm' = acsm := Except.ok.inj (compiled'.symm.trans compiled)
  rw [searchCalls_eq machine] at found
  obtain ⟨call, made, id, index⟩ := found ⟨0x1000000, cstr "host", 0x80500a0⟩ (by decide) 0 (by decide)
  have calls : scanCalls apps none [] (cstr "Host: host") =
      [⟨0x401, 0, some 0⟩, ⟨0x8050010, 6, none⟩] := by decide +kernel
  rw [calls] at made
  simp only [List.mem_cons, List.not_mem_nil, or_false] at made
  rcases made with rfl | rfl
  · exact absurd id (by decide)
  · exact absurd id (by decide)

end Orchid
