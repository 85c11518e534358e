/-
# Searcher.Record -- what a search does to the pattern buffer

A callback is an event of the header context: a marker at a line start enters its
element's context, any other id is an item, counted when its element id is the
context (`callEvent`).  Running the callback over a list of calls is the context
scan of their events (`matchFound_forM`).  Two things can stop it: a store that has no
cell, and the call after the last byte, when it looks behind the null pointer it was
given.

What a run stores and where it is stopped for want of a cell is `Storing`, a relation
that sequences (`Storing.bind`).  So `httpParse2` leaves in the buffer the items of
`payloadEvents` that stand in their own context, from the context the previous payload
left (`httpParse2_run`), and `httpParse` appends the low halves of the items its own
scan counts (`httpParse_run`).
-/
import Orchid.Loader.Acsmx2.Search
import Orchid.Searcher.HttpSearch
import Orchid.Theory.ContextScan
import Orchid.Theory.Outcome

namespace Orchid

open Orchid.Theory

set_option autoImplicit false

/-! ## Events -/

abbrev HeaderEvent := ScanEvent Uint Uint

/-- The byte before the match is a line feed. -/
def afterLineFeed (tx : CStr) (data : Option Int) : Bool :=
  match charBefore tx data with
  | .ok c => c == 10
  | .error _ => false

/-- The event of a callback; a marker elsewhere than at a line start is none. -/
def callEvent (tx : CStr) (call : MatchCall) : Option HeaderEvent :=
  if isHttpElement call.id then
    if call.index = 0 ∨ afterLineFeed tx call.data then some (.enter (httpElementId call.id)) else none
  else some (.item call.id)

/-- The callback can look at what it has to. -/
def Readable (tx : CStr) (call : MatchCall) : Prop :=
  isHttpElement call.id = true → call.index ≠ 0 → ∃ c, charBefore tx call.data = .ok c

/-- Several stores in a row: what is in `pattern` then, and the index of each store up to
the first one behind the last cell. -/
def SearchState.storeAll (s : SearchState) (words : List Uint) : SearchState :=
  { s with
    pattern := (s.pattern ++ words).take PATTERN_SIZE
    stores := s.stores ++
      List.range' s.pattern.length (min words.length (PATTERN_SIZE + 1 - s.pattern.length))
    fits := List.length_take_le .. }

/-- The state after the events `es`. -/
def SearchState.scan (s : SearchState) (es : List HeaderEvent) : SearchState :=
  { s.storeAll (recorded httpElementId s.elementlast es) with elementlast := context s.elementlast es }

/-- There are cells left for all of `words`. -/
abbrev SearchState.Room (s : SearchState) (words : List Uint) : Prop :=
  s.pattern.length + words.length ≤ PATTERN_SIZE

section Room

variable {s : SearchState} {ws vs : List Uint}

theorem SearchState.Room.pattern (room : s.Room ws) : (s.storeAll ws).pattern = s.pattern ++ ws := by
  apply List.take_of_length_le
  rw [List.length_append]
  exact room

theorem SearchState.Room.stores (room : s.Room ws) :
    (s.storeAll ws).stores = s.stores ++ List.range' s.pattern.length ws.length := by
  have count : min ws.length (PATTERN_SIZE + 1 - s.pattern.length) = ws.length := by omega
  rw [SearchState.storeAll, count]

theorem SearchState.room_append :
    s.Room (ws ++ vs) ↔ s.Room ws ∧ (s.storeAll ws).Room vs := by
  constructor
  · intro room
    rw [SearchState.Room, List.length_append] at room
    have first : s.Room ws := by omega
    refine ⟨first, ?_⟩
    rw [SearchState.Room, first.pattern, List.length_append]
    omega
  · rintro ⟨first, rest⟩
    rw [SearchState.Room, first.pattern, List.length_append] at rest
    rw [SearchState.Room, List.length_append]
    omega

theorem SearchState.ext_iff' {s' : SearchState} : s = s' ↔
    s.pattern = s'.pattern ∧ s.stores = s'.stores ∧ s.elementlast = s'.elementlast := by
  cases s
  cases s'
  simp

theorem SearchState.Room.storeAll_append (room : s.Room ws) :
    s.storeAll (ws ++ vs) = (s.storeAll ws).storeAll vs := by
  rw [SearchState.ext_iff']
  refine ⟨?_, ?_, rfl⟩
  · show _ = ((s.storeAll ws).pattern ++ vs).take PATTERN_SIZE
    rw [room.pattern, List.append_assoc]
    rfl
  · show _ = (s.storeAll ws).stores ++ List.range' (s.storeAll ws).pattern.length _
    have count : min (ws ++ vs).length (PATTERN_SIZE + 1 - s.pattern.length) =
        ws.length + min vs.length (PATTERN_SIZE + 1 - (s.pattern.length + ws.length)) := by
      rw [List.length_append]
      omega
    rw [room.stores, room.pattern, List.length_append, List.append_assoc, List.range'_append_1,
      ← count]
    rfl

/-- Without room for all there is a store behind the last cell. -/
theorem SearchState.mem_stores (full : ¬ s.Room ws) : PATTERN_SIZE ∈ (s.storeAll ws).stores := by
  have fits := s.fits
  refine List.mem_append_right _ (List.mem_range'_1.2 ?_)
  omega

/-- Behind the store that has no cell nothing is stored. -/
theorem SearchState.storeAll_of_not_room (full : ¬ s.Room ws) : s.storeAll (ws ++ vs) = s.storeAll ws := by
  have fits := s.fits
  rw [SearchState.ext_iff']
  refine ⟨?_, ?_, rfl⟩
  · show (s.pattern ++ (ws ++ vs)).take PATTERN_SIZE = (s.pattern ++ ws).take PATTERN_SIZE
    rw [← List.append_assoc]
    apply List.take_append_of_le_length
    rw [List.length_append]
    omega
  · show s.stores ++ List.range' _ _ = s.stores ++ List.range' _ _
    have count : min (ws ++ vs).length (PATTERN_SIZE + 1 - s.pattern.length) =
        min ws.length (PATTERN_SIZE + 1 - s.pattern.length) := by
      rw [List.length_append]
      omega
    rw [count]

end Room

@[simp] theorem SearchState.storeAll_nil (s : SearchState) : s.storeAll [] = s := by
  have room : s.Room [] := s.fits
  rw [SearchState.ext_iff', room.pattern, room.stores]
  simp [SearchState.storeAll]

@[simp] theorem SearchState.scan_nil (s : SearchState) : s.scan [] = s := by
  simp [SearchState.scan, recorded, context]

theorem SearchState.scan_append {s : SearchState} {es : List HeaderEvent}
    (room : s.Room (recorded httpElementId s.elementlast es)) (fs : List HeaderEvent) :
    s.scan (es ++ fs) = (s.scan es).scan fs := by
  rw [SearchState.scan, recorded_append, context_append, room.storeAll_append]
  rfl

/-! ## Storing runs -/

/-- A run from `s` that stores `words` and then ends as `ending`, if there is room for
them; otherwise it stops at the first store that has no cell. -/
def Storing {α : Type} (s : SearchState) (words : List Uint)
    (ending result : EStateM.Result Trap SearchState α) : Prop :=
  (s.Room words ∧ result = ending) ∨
    ¬ s.Room words ∧ ∃ k, result = .error .patternRange { s.storeAll words with elementlast := k }

/-- The state a run ends in, whether it is stopped or not. -/
def stateAfter {ε σ α : Type} : EStateM.Result ε σ α → σ
  | .ok _ s => s
  | .error _ s => s

/-- The words and the indices of the stores do not depend on how the run ends. -/
theorem Storing.stores {α : Type} {s : SearchState} {words : List Uint}
    {ending result : EStateM.Result Trap SearchState α} (ran : Storing s words ending result)
    (after : s.Room words → (stateAfter ending).stores = (s.storeAll words).stores) :
    (stateAfter result).stores = (s.storeAll words).stores := by
  rcases ran with ⟨room, rfl⟩ | ⟨-, k, rfl⟩
  · exact after room
  · rfl

theorem Storing.nil {α : Type} {s : SearchState} {result : EStateM.Result Trap SearchState α} :
    Storing s [] result result := Or.inl ⟨s.fits, rfl⟩

theorem Storing.of_room {α : Type} {s : SearchState} {words : List Uint}
    {ending result : EStateM.Result Trap SearchState α} (ran : Storing s words ending result)
    (room : s.Room words) : result = ending := by
  rcases ran with ⟨-, ran⟩ | ⟨full, -⟩
  · exact ran
  · exact absurd room full

/-- A run that is not stopped had room. -/
theorem Storing.ok {α : Type} {s s' : SearchState} {words : List Uint} {a : α}
    {ending : EStateM.Result Trap SearchState α} (ran : Storing s words ending (.ok a s')) :
    s.Room words ∧ ending = .ok a s' := by
  rcases ran with ⟨room, ran⟩ | ⟨-, k, ran⟩
  · exact ⟨room, ran.symm⟩
  · cases ran

/-- Want of a cell is what stops a run that would not end so. -/
theorem Storing.room_iff {α : Type} {s : SearchState} {words : List Uint}
    {ending result : EStateM.Result Trap SearchState α} (ran : Storing s words ending result)
    (other : ∀ s', ending ≠ .error .patternRange s') :
    s.Room words ↔ ∀ s', result ≠ .error .patternRange s' := by
  rcases ran with ⟨room, rfl⟩ | ⟨full, k, rfl⟩
  · exact iff_of_true room other
  · exact iff_of_false full fun never => never _ rfl

/-- One run after the other. -/
theorem Storing.bind {α β : Type} {x : SearchM α} {f : α → SearchM β} {s s₀ : SearchState}
    {ws vs : List Uint} {a : α} {k : Uint} {ending : EStateM.Result Trap SearchState β}
    (first : Storing s ws (.ok a { s.storeAll ws with elementlast := k }) (x.run s₀))
    (next : Storing { s.storeAll ws with elementlast := k } vs ending
      ((f a).run { s.storeAll ws with elementlast := k })) :
    Storing s (ws ++ vs) ending ((x >>= f).run s₀) := by
  rw [EStateM.run_bind]
  rcases first with ⟨room, ran⟩ | ⟨full, k', ran⟩
  · rw [ran]
    rcases next with ⟨room', ran'⟩ | ⟨full', k', ran'⟩
    · exact Or.inl ⟨SearchState.room_append.2 ⟨room, room'⟩, ran'⟩
    · refine Or.inr ⟨fun both => full' (SearchState.room_append.1 both).2, k', ?_⟩
      rw [room.storeAll_append]
      exact ran'
  · rw [ran]
    refine Or.inr ⟨fun both => full (SearchState.room_append.1 both).1, k', ?_⟩
    rw [SearchState.storeAll_of_not_room full]

theorem Storing.bind_pure {α β : Type} {x : SearchM α} {g : α → β} {s s₀ s₁ : SearchState}
    {words : List Uint} {a : α} (ends : Storing s words (.ok a s₁) (x.run s₀)) :
    Storing s words (.ok (g a) s₁) ((x >>= fun a => pure (g a)).run s₀) := by
  rw [EStateM.run_bind]
  rcases ends with ⟨room, ran⟩ | ⟨full, k, ran⟩
  · exact Or.inl ⟨room, by rw [ran]; rfl⟩
  · exact Or.inr ⟨full, k, by rw [ran]⟩

/-- Nothing comes after a stop. -/
theorem Storing.bind_error {α β : Type} {x : SearchM α} {f : α → SearchM β} {s s₀ s₁ : SearchState}
    {words : List Uint} {trap : Trap} (stops : Storing s words (.error trap s₁) (x.run s₀)) :
    Storing s words (.error trap s₁) ((x >>= f).run s₀) := by
  rw [EStateM.run_bind]
  rcases stops with ⟨room, ran⟩ | ⟨full, k, ran⟩
  · exact Or.inl ⟨room, by rw [ran]⟩
  · exact Or.inr ⟨full, k, by rw [ran]⟩

theorem Storing.congr {α : Type} {s : SearchState} {words : List Uint}
    {ending ending' result : EStateM.Result Trap SearchState α} (ran : Storing s words ending result)
    (same : s.Room words → ending = ending') : Storing s words ending' result := by
  rcases ran with ⟨room, ran⟩ | full
  · exact Or.inl ⟨room, ran.trans (same room)⟩
  · exact Or.inr full

theorem storePattern_run (word : Uint) (s : SearchState) :
    Storing s [word] (.ok () (s.storeAll [word])) ((storePattern word).run s) := by
  by_cases room : s.pattern.length < PATTERN_SIZE
  · have fits : s.Room [word] := room
    refine Or.inl ⟨fits, ?_⟩
    have after : s.storeAll [word] = { s with
        pattern := s.pattern ++ [word]
        stores := s.stores ++ [s.pattern.length]
        fits := by rw [List.length_append]; exact room } := by
      rw [SearchState.ext_iff', fits.pattern, fits.stores]
      exact ⟨rfl, rfl, rfl⟩
    rw [after]
    exact dif_pos room
  · have full : ¬ s.Room [word] := room
    have length : s.pattern.length = PATTERN_SIZE := by
      have fits := s.fits
      omega
    refine Or.inr ⟨full, s.elementlast, ?_⟩
    have after : s.storeAll [word] = { s with stores := s.stores ++ [s.pattern.length] } := by
      rw [SearchState.ext_iff']
      refine ⟨?_, ?_, rfl⟩
      · show (s.pattern ++ [word]).take PATTERN_SIZE = s.pattern
        rw [← length, List.take_left]
      · show s.stores ++ List.range' _ (min 1 (PATTERN_SIZE + 1 - s.pattern.length)) = _
        rw [length]
        rfl
    rw [after]
    exact dif_neg room

/-! ## The callback -/

/-- A run of callbacks that stores what the events record and takes on their context. -/
abbrev Scans (s : SearchState) (es : List HeaderEvent) (result : EStateM.Result Trap SearchState Unit) : Prop :=
  Storing s (recorded httpElementId s.elementlast es) (.ok () (s.scan es)) result

theorem matchFoundBody_run {tx : CStr} {call : MatchCall} (readable : Readable tx call)
    (s : SearchState) : Scans s (callEvent tx call).toList ((matchFoundBody tx call).run s) := by
  have same : { s.storeAll [] with elementlast := s.elementlast } = s := s.storeAll_nil
  unfold matchFoundBody callEvent
  by_cases marker : isHttpElement call.id = true
  · simp only [marker, if_true]
    by_cases first : call.index = 0
    · simp only [first, if_true, true_or]
      refine Or.inl ⟨s.fits, ?_⟩
      simp [SearchState.scan, recorded, context]
    · obtain ⟨c, read⟩ := readable marker first
      simp only [first, if_false, false_or, afterLineFeed, read, beq_iff_eq]
      refine Or.inl ⟨?_, ?_⟩
      · split <;> exact s.fits
      · by_cases feed : c = 10
        · simp [feed, SearchState.scan, recorded, context]
        · simp [feed]
  · simp only [marker]
    by_cases here : httpElementId call.id = s.elementlast
    · have counted : recorded httpElementId s.elementlast [ScanEvent.item call.id] = [call.id] := by
        simp [recorded, here]
      have event : recorded httpElementId s.elementlast
          (some (ScanEvent.item call.id) : Option HeaderEvent).toList = [call.id] := counted
      have same : context s.elementlast (some (ScanEvent.item call.id) : Option HeaderEvent).toList =
          s.elementlast := rfl
      simp only [Bool.false_eq_true, if_false, Scans, SearchState.scan, event, same]
      simp only [EStateM.run_bind, EStateM.run_get, here, if_true]
      exact storePattern_run call.id s
    · refine Or.inl ⟨?_, ?_⟩
      · simpa [recorded, here] using s.fits
      · simp [SearchState.scan, recorded, context, here]

/-- Where it cannot look, the callback stops and has done nothing. -/
theorem matchFoundBody_unreadable {tx : CStr} {call : MatchCall} (unreadable : ¬ Readable tx call)
    (s : SearchState) :
    callEvent tx call = none ∧ (matchFoundBody tx call).run s = .error .textRange s := by
  simp only [Readable, not_forall] at unreadable
  obtain ⟨marker, inside, blind⟩ := unreadable
  cases read : charBefore tx call.data with
  | ok c => exact absurd ⟨c, read⟩ blind
  | error trap =>
      have range : trap = .textRange := by
        unfold charBefore at read
        split at read
        · exact (Except.error.inj read).symm
        · split at read
          · exact (Except.error.inj read).symm
          · split at read
            · exact (Except.error.inj read).symm
            · cases read
      subst range
      constructor
      · simp [callEvent, marker, inside, afterLineFeed, read]
      · simp [matchFoundBody, marker, inside, read]

/-- A run of callbacks is the context scan of their events. -/
theorem matchFound_forM {tx : CStr} (calls : List MatchCall)
    (readable : ∀ call ∈ calls, Readable tx call) (s : SearchState) :
    Scans s (calls.filterMap (callEvent tx)) ((forM calls (matchFoundBody tx)).run s) := by
  induction calls generalizing s with
  | nil =>
      refine Or.inl ⟨s.fits, ?_⟩
      simp
  | cons call calls ih =>
      have first := matchFoundBody_run (readable call (List.mem_cons_self ..)) s
      have rest := ih (fun c inside => readable c (List.mem_cons_of_mem _ inside))
        (s.scan (callEvent tx call).toList)
      have events : (call :: calls).filterMap (callEvent tx) =
          (callEvent tx call).toList ++ calls.filterMap (callEvent tx) := by
        cases h : callEvent tx call <;> simp [h]
      rw [events, Scans, recorded_append, List.forM_cons]
      refine Storing.congr (Storing.bind first rest) fun room => ?_
      rw [SearchState.scan_append (SearchState.room_append.1 room).1]

/-- The loop's calls point at the match, so the callback can look behind it. -/
theorem loopCalls_readable {apps : List AppEntryT} {tx : CStr} :
    ∀ call ∈ loopCalls apps [] tx, Readable tx call := by
  intro call made marker inside
  obtain ⟨e, below, app, leads, rfl⟩ := (mem_loopCalls [] tx).1 made
  rw [List.nil_append] at leads inside ⊢
  obtain ⟨-, fits, -⟩ := front_occurs below.le leads
  simp only [loopCall, List.length_take, Nat.min_eq_left below.le] at inside ⊢
  have positive : ¬ ((e : Int) - app.regex.length < 1) := by omega
  have inText : ((e : Int) - app.regex.length - 1).toNat < tx.length := by omega
  refine ⟨tx[((e : Int) - app.regex.length - 1).toNat], ?_⟩
  simp only [charBefore, if_neg positive, List.getElem?_eq_getElem inText]

/-! ## The Aho-Corasick search of a payload -/

/-- The events of a payload. -/
def payloadEvents (apps : List AppEntryT) (tx : CStr) : List HeaderEvent :=
  (scanCalls apps none [] tx).filterMap (callEvent tx)

/-- There is at most one event for each state the search passes. -/
theorem length_payloadEvents_le (apps : List AppEntryT) (tx : CStr) :
    (payloadEvents apps tx).length ≤ tx.length + 1 :=
  (List.length_filterMap_le _ _).trans (length_scanCalls_le apps none [] tx)

/-- The call after the last byte does not look behind a null pointer. -/
def EndReadable (apps : List AppEntryT) (tx : CStr) : Prop :=
  ∀ call ∈ finalCalls apps none tx, Readable tx call

/-- The search runs all callbacks unless the last one stops it. -/
theorem scanCalls_forM (apps : List AppEntryT) (tx : CStr) (s : SearchState) :
    (EndReadable apps tx ∧ Scans s (payloadEvents apps tx)
        ((forM (scanCalls apps none [] tx) (matchFoundBody tx)).run s)) ∨
      ¬ EndReadable apps tx ∧ Storing s (recorded httpElementId s.elementlast (payloadEvents apps tx))
        (.error .textRange (s.scan (payloadEvents apps tx)))
        ((forM (scanCalls apps none [] tx) (matchFoundBody tx)).run s) := by
  have loop := matchFound_forM (loopCalls apps [] tx) loopCalls_readable s
  by_cases readable : EndReadable apps tx
  · refine Or.inl ⟨readable, matchFound_forM _ (fun call made => ?_) s⟩
    rw [scanCalls, List.mem_append, List.nil_append] at made
    rcases made with inLoop | last
    · exact loopCalls_readable call inLoop
    · exact readable call last
  · refine Or.inr ⟨readable, ?_⟩
    simp only [EndReadable, not_forall] at readable
    obtain ⟨call, last, blind⟩ := readable
    have only : finalCalls apps none tx = [call] := by
      rw [finalCalls, Option.mem_toList] at last
      rw [finalCalls, last]
      rfl
    obtain ⟨silent, stops⟩ :=
      matchFoundBody_unreadable blind (s.scan ((loopCalls apps [] tx).filterMap (callEvent tx)))
    have events : payloadEvents apps tx = (loopCalls apps [] tx).filterMap (callEvent tx) := by
      rw [payloadEvents, scanCalls, List.nil_append, only, List.filterMap_append]
      simp [silent]
    have final : (forM [call] (matchFoundBody tx)).run
        (s.scan ((loopCalls apps [] tx).filterMap (callEvent tx))) =
        .error .textRange (s.scan ((loopCalls apps [] tx).filterMap (callEvent tx))) := by
      simp [stops]
    rw [events, scanCalls, List.nil_append, only, List.forM_append]
    rw [← List.append_nil (recorded httpElementId s.elementlast _), ← final]
    exact Storing.bind loop Storing.nil

/-- What `pattern_check` makes of the words that were stored. -/
def checkEnd (info : AppInfoS) (words : List Uint) (s : SearchState) :
    EStateM.Result Trap SearchState (Int × List Report) :=
  match patternCheck info words with
  | .error trap => .error trap s
  | .ok (_, reports) => .ok (0, reports) s

/-- What `httpParse2` does: the scan, then the signature check. -/
theorem httpParse2_run {acsm : AcsmStruct2} {apps : List AppEntryT}
    (compiled : sigParseAdapterAc apps = .ok acsm) (info : AppInfoS) (tx : CStr) (s : SearchState) :
    (EndReadable apps tx ∧
      Storing s.cleared (recorded httpElementId s.elementlast (payloadEvents apps tx))
        (checkEnd info (recorded httpElementId s.elementlast (payloadEvents apps tx))
          (s.cleared.scan (payloadEvents apps tx))) ((httpParse2 acsm info tx).run s)) ∨
      ¬ EndReadable apps tx ∧
        Storing s.cleared (recorded httpElementId s.elementlast (payloadEvents apps tx))
          (.error .textRange (s.cleared.scan (payloadEvents apps tx))) ((httpParse2 acsm info tx).run s) := by
  obtain ⟨acsm', n, label, compiled', machine⟩ := sigParseAdapterAc_compiled apps
  obtain rfl : acsm' = acsm := Except.ok.inj (compiled'.symm.trans compiled)
  have search : acsmSearchSparseDFABanded acsm' (matchFound tx) tx none 0 =
      (do forM (scanCalls apps none [] tx) (matchFoundBody tx)
          return ((scanCalls apps none [] tx).length, 0)) :=
    acsmSearchSparseDFABanded_eq machine (fun _ => rfl) tx none
  have clears : (modify SearchState.cleared : SearchM Unit).run s = .ok () s.cleared := rfl
  rw [httpParse2, search]
  simp only [EStateM.run_bind, clears]
  rcases scanCalls_forM apps tx s.cleared with
    ⟨readable, ⟨room, ran⟩ | ⟨full, k, ran⟩⟩ | ⟨unreadable, ⟨room, ran⟩ | ⟨full, k, ran⟩⟩
  · refine Or.inl ⟨readable, Or.inl ⟨room, ?_⟩⟩
    have stored : (s.cleared.scan (payloadEvents apps tx)).pattern =
        recorded httpElementId s.elementlast (payloadEvents apps tx) := room.pattern
    simp only [ran, EStateM.run_pure, EStateM.run_get, stored, checkEnd]
    cases patternCheck info (recorded httpElementId s.elementlast (payloadEvents apps tx)) <;> rfl
  · refine Or.inl ⟨readable, Or.inr ⟨full, k, ?_⟩⟩
    simp only [ran]
    rfl
  · refine Or.inr ⟨unreadable, Or.inl ⟨room, ?_⟩⟩
    simp only [ran]
  · refine Or.inr ⟨unreadable, Or.inr ⟨full, k, ?_⟩⟩
    simp only [ran]
    rfl

/-! ## The regex scan of a payload -/

/-- The event of an end state with id `matchId` after `offset` bytes. -/
def dfaEvent (tx : CStr) (offset : Nat) (matchId : Uint) : Except Trap (Option HeaderEvent) :=
  if isHttpElement matchId then
    let len := (httpElementLength matchId).toNat
    if offset < len then .error .assertion
    else if offset - len = 0 ∨ tx[offset - len - 1]? = some 10 then
      .ok (some (.enter (httpElementId matchId)))
    else .ok none
  else .ok (some (.item matchId))

/-- The next row and its event. -/
def dfaStep (graph : DfaGraphT) (tx : CStr) (pos curState : Nat) (c : UInt8) :
    Except Trap (Nat × Option HeaderEvent) :=
  match graph.nextRow curState c with
  | .error trap => .error trap
  | .ok next =>
      match graph.endId next with
      | .error trap => .error trap
      | .ok none => .ok (next, none)
      | .ok (some matchId) => (dfaEvent tx (pos + 1) matchId).map fun ev => (next, ev)

/-- The events of the scan from the row at `curState`, and the trap that ends it
early, if any. -/
def dfaTrace (graph : DfaGraphT) (tx : CStr) :
    CStr → Nat → Nat → List HeaderEvent × Option Trap
  | [], _, _ => ([], none)
  | c :: text, pos, curState =>
      match dfaStep graph tx pos curState c with
      | .error trap => ([], some trap)
      | .ok (next, ev) =>
          let (es, stop) := dfaTrace graph tx text (pos + 1) next
          (ev.toList ++ es, stop)

theorem length_dfaTrace_le (graph : DfaGraphT) (tx text : CStr) (pos curState : Nat) :
    (dfaTrace graph tx text pos curState).1.length ≤ text.length := by
  induction text generalizing pos curState with
  | nil => exact Nat.le_refl _
  | cons c text ih =>
      rw [dfaTrace]
      cases dfaStep graph tx pos curState c with
      | error trap => exact Nat.zero_le _
      | ok result =>
          obtain ⟨next, ev⟩ := result
          have rest := ih (pos + 1) next
          have one : ev.toList.length ≤ 1 := Option.length_toList_le
          show (ev.toList ++ (dfaTrace graph tx text (pos + 1) next).1).length ≤ text.length + 1
          rw [List.length_append]
          omega

/-- The words `httpParse` stores for the events `es`. -/
def dfaWords (elementLast : Uint) (es : List HeaderEvent) : List Uint :=
  (recorded httpElementId elementLast es).map (· &&& 0xFFFF)

theorem dfaWords_append (elementLast : Uint) (es fs : List HeaderEvent) :
    dfaWords elementLast (es ++ fs) =
      dfaWords elementLast es ++ dfaWords (context elementLast es) fs := by
  rw [dfaWords, recorded_append, List.map_append]
  rfl

theorem httpParseEnd_error {tx : CStr} {offset : Nat} {matchId : Uint} {trap : Trap}
    (event : dfaEvent tx offset matchId = .error trap) (elementLast : Uint) (s : SearchState) :
    (httpParseEnd tx offset matchId elementLast).run s = .error trap s := by
  unfold dfaEvent at event
  unfold httpParseEnd
  by_cases marker : isHttpElement matchId = true
  · by_cases short : offset < (httpElementLength matchId).toNat
    · simp only [marker, short, if_true] at event ⊢
      cases event
      rfl
    · simp only [marker, short, if_true, if_false] at event
      split at event <;> cases event
  · simp only [marker, Bool.false_eq_true, if_false] at event
    cases event

theorem httpParseEnd_run {tx : CStr} {offset : Nat} {matchId : Uint} {ev : Option HeaderEvent}
    (event : dfaEvent tx offset matchId = .ok ev) (elementLast : Uint) (s : SearchState) :
    Storing s (dfaWords elementLast ev.toList)
      (.ok (context elementLast ev.toList) (s.storeAll (dfaWords elementLast ev.toList)))
      ((httpParseEnd tx offset matchId elementLast).run s) := by
  unfold dfaEvent at event
  unfold httpParseEnd
  by_cases marker : isHttpElement matchId = true
  · by_cases short : offset < (httpElementLength matchId).toNat
    · simp only [marker, short, if_true] at event
      cases event
    · simp only [marker, short, if_true, if_false] at event ⊢
      split at event
      · next atStart =>
        cases event
        simp only [atStart, if_true]
        exact Or.inl ⟨s.fits, by rw [show dfaWords _ _ = [] from rfl, s.storeAll_nil]; rfl⟩
      · next inside =>
        cases event
        simp only [inside, if_false]
        exact Or.inl ⟨s.fits, by rw [show dfaWords _ _ = [] from rfl, s.storeAll_nil]; rfl⟩
  · simp only [marker, Bool.false_eq_true, if_false] at event ⊢
    cases event
    by_cases here : httpElementId matchId = elementLast
    · have counted : dfaWords elementLast (some (ScanEvent.item matchId)).toList =
          [matchId &&& 0xFFFF] := by
        simp [dfaWords, recorded, here]
      rw [counted, if_pos here]
      exact Storing.bind_pure (storePattern_run _ s)
    · have none_ : dfaWords elementLast (some (ScanEvent.item matchId)).toList = [] := by
        simp [dfaWords, recorded, here]
      rw [none_, if_neg here, s.storeAll_nil]
      exact Or.inl ⟨s.fits, rfl⟩

theorem httpParseLoop_stop {graph : DfaGraphT} {tx : CStr} {c : UInt8} {pos curState : Nat} {trap : Trap}
    (stops : dfaStep graph tx pos curState c = .error trap) (text : CStr) (elementLast : Uint)
    (s : SearchState) :
    (httpParseLoop graph tx (c :: text) pos curState elementLast).run s = .error trap s := by
  rw [dfaStep] at stops
  rw [httpParseLoop]
  cases row : graph.nextRow curState c with
  | error trap' =>
      rw [row] at stops
      cases stops
      rfl
  | ok next =>
      simp only [row] at stops ⊢
      cases final : graph.endId next with
      | error trap' =>
          rw [final] at stops
          cases stops
          rfl
      | ok found =>
          cases found with
          | none =>
              rw [final] at stops
              cases stops
          | some matchId =>
              simp only [final] at stops
              cases event : dfaEvent tx (pos + 1) matchId with
              | ok ev =>
                  rw [event] at stops
                  cases stops
              | error trap' =>
                  rw [event] at stops
                  cases stops
                  simp only [EStateM.run_bind, httpParseEnd_error event]

theorem httpParseLoop_step {graph : DfaGraphT} {tx : CStr} {c : UInt8} {pos curState next : Nat}
    {ev : Option HeaderEvent} (steps : dfaStep graph tx pos curState c = .ok (next, ev)) {text : CStr}
    {elementLast : Uint} {s : SearchState} {words : List Uint} {ending : EStateM.Result Trap SearchState Unit}
    (rest : Storing (s.storeAll (dfaWords elementLast ev.toList)) words ending
      ((httpParseLoop graph tx text (pos + 1) next (context elementLast ev.toList)).run
        (s.storeAll (dfaWords elementLast ev.toList)))) :
    Storing s (dfaWords elementLast ev.toList ++ words) ending
      ((httpParseLoop graph tx (c :: text) pos curState elementLast).run s) := by
  rw [dfaStep] at steps
  rw [httpParseLoop]
  cases row : graph.nextRow curState c with
  | error trap =>
      rw [row] at steps
      cases steps
  | ok next' =>
      simp only [row] at steps ⊢
      cases final : graph.endId next' with
      | error trap =>
          rw [final] at steps
          cases steps
      | ok found =>
          cases found with
          | none =>
              rw [final] at steps
              cases steps
              have nothing : dfaWords elementLast (none : Option HeaderEvent).toList = [] := rfl
              rw [nothing, s.storeAll_nil] at rest
              exact rest
          | some matchId =>
              simp only [final] at steps
              cases event : dfaEvent tx (pos + 1) matchId with
              | error trap =>
                  rw [event] at steps
                  cases steps
              | ok ev' =>
                  rw [event] at steps
                  cases steps
                  exact Storing.bind (k := s.elementlast) (httpParseEnd_run event elementLast s) rest

/-- The end of a scan that `stop` stops, if anything does. -/
def traceEnd {α : Type} (result : α) (stop : Option Trap) (s : SearchState) : EStateM.Result Trap SearchState α :=
  match stop with
  | none => .ok result s
  | some trap => .error trap s

/-- **The regex scan is the context scan of its events**, up to where it stops. -/
theorem httpParseLoop_run (graph : DfaGraphT) (tx : CStr) (text : CStr) :
    ∀ (pos curState : Nat) (elementLast : Uint) (s : SearchState),
      Storing s (dfaWords elementLast (dfaTrace graph tx text pos curState).1)
        (traceEnd () (dfaTrace graph tx text pos curState).2
          (s.storeAll (dfaWords elementLast (dfaTrace graph tx text pos curState).1)))
        ((httpParseLoop graph tx text pos curState elementLast).run s) := by
  induction text with
  | nil =>
      intro pos curState elementLast s
      have nothing : dfaWords elementLast (dfaTrace graph tx [] pos curState).1 = [] := rfl
      rw [nothing, s.storeAll_nil]
      exact Storing.nil
  | cons c text ih =>
      intro pos curState elementLast s
      rw [dfaTrace]
      cases step : dfaStep graph tx pos curState c with
      | error trap =>
          have nothing : dfaWords elementLast ([] : List HeaderEvent) = [] := rfl
          simp only [nothing, s.storeAll_nil, httpParseLoop_stop step]
          exact Storing.nil
      | ok result =>
          obtain ⟨next, ev⟩ := result
          simp only [dfaWords_append]
          refine Storing.congr (httpParseLoop_step step (ih (pos + 1) next _ _)) fun room => ?_
          rw [(SearchState.room_append.1 room).1.storeAll_append]

theorem httpParse_run (graph : DfaGraphT) (tx : CStr) (s : SearchState) :
    Storing s (dfaWords 0 (dfaTrace graph tx tx 0 0).1)
      (traceEnd 0 (dfaTrace graph tx tx 0 0).2 (s.storeAll (dfaWords 0 (dfaTrace graph tx tx 0 0).1)))
      ((httpParse graph tx).run s) := by
  rw [httpParse, EStateM.run_bind]
  rcases httpParseLoop_run graph tx tx 0 0 0 s with ⟨room, ran⟩ | ⟨full, k, ran⟩
  · refine Or.inl ⟨room, ?_⟩
    rw [ran]
    cases (dfaTrace graph tx tx 0 0).2 <;> rfl
  · exact Or.inr ⟨full, k, by rw [ran]⟩

/-! ## Stops that are no store

The signature check and the walk through the graph store nothing, so they do not stop
for want of a cell. -/

section NoStore

variable (info : AppInfoS)

theorem pure_ne {α : Type} (a : α) : (pure a : Except Trap α) ≠ .error .patternRange :=
  fun same => nomatch same

theorem printMatch_ne (i : Nat) (curEle : ElementEntryS) :
    printMatch info i curEle ≠ .error .patternRange := by
  unfold printMatch
  split <;> exact fun same => nomatch same

theorem pushExp_ne (expArray : List Nat) (exp : Nat) : pushExp expArray exp ≠ .error .patternRange := by
  unfold pushExp
  split <;> exact fun same => nomatch same

theorem advanceSlots_ne (i eleOffset : Nat) (curEle : ElementEntryS) (expArray : List Nat) :
    advanceSlots info i eleOffset curEle expArray ≠ .error .patternRange := by
  induction expArray with
  | nil => exact pure_ne _
  | cons exp expArray ih =>
      have later : ∀ {α : Type} (a : List Nat × List Report → α),
          (do let rest ← advanceSlots info i eleOffset curEle expArray; pure (a rest)) ≠
            .error .patternRange := fun _ => bind_ne_error ih fun _ => pure_ne _
      rw [advanceSlots]
      dsimp only
      split
      · split
        · exact bind_ne_error (printMatch_ne info i curEle) fun _ => bind_ne_error (pure_ne _) fun _ => later _
        · exact bind_ne_error (pure_ne _) fun _ => later _
      · exact later _

theorem patternCheckStep_ne (i : Nat) (word : Uint) (expArray : List Nat) :
    patternCheckStep info i word expArray ≠ .error .patternRange := by
  unfold patternCheckStep
  dsimp only
  split
  · exact fun same => nomatch same
  · next curEle _ =>
    split
    · exact bind_ne_error (printMatch_ne info i curEle) fun _ => bind_ne_error (pushExp_ne _ _) fun _ => pure_ne _
    · split
      · exact bind_ne_error (pushExp_ne _ _) fun _ => pure_ne _
      · exact advanceSlots_ne info i _ curEle expArray

theorem patternCheckLoop_ne (words : List Uint) : ∀ (i : Nat) (expArray : List Nat),
    patternCheckLoop info i expArray words ≠ .error .patternRange := by
  induction words with
  | nil => exact fun _ _ => pure_ne _
  | cons word words ih =>
      intro i expArray
      rw [patternCheckLoop]
      refine bind_ne_error (patternCheckStep_ne info i word expArray) fun result => ?_
      dsimp only
      split
      · exact pure_ne _
      · exact bind_ne_error (ih _ _) fun _ => pure_ne _

theorem patternCheck_ne (words : List Uint) : patternCheck info words ≠ .error .patternRange :=
  bind_ne_error (patternCheckLoop_ne info words 0 []) fun _ => pure_ne _

variable (graph : DfaGraphT) (tx : CStr)

theorem cell_ne (k : Nat) : graph.cell k ≠ .error .patternRange := by
  unfold DfaGraphT.cell
  split <;> exact fun same => nomatch same

theorem nextRow_ne (curState : Nat) (c : UInt8) : graph.nextRow curState c ≠ .error .patternRange :=
  bind_ne_error (cell_ne graph _) fun _ => pure_ne _

theorem endId_ne (curState : Nat) : graph.endId curState ≠ .error .patternRange := by
  refine bind_ne_error (cell_ne graph _) fun isEnd => ?_
  split
  · exact bind_ne_error (cell_ne graph _) fun _ => bind_ne_error (cell_ne graph _) fun _ => pure_ne _
  · exact pure_ne _

theorem dfaEvent_ne (offset : Nat) (matchId : Uint) : dfaEvent tx offset matchId ≠ .error .patternRange := by
  unfold dfaEvent
  dsimp only
  split
  · split
    · exact fun same => nomatch same
    · split <;> exact fun same => nomatch same
  · exact fun same => nomatch same

theorem dfaStep_ne (pos curState : Nat) (c : UInt8) : dfaStep graph tx pos curState c ≠ .error .patternRange := by
  unfold dfaStep
  split
  · next row =>
    rintro ⟨rfl⟩
    exact nextRow_ne graph curState c row
  · split
    · next final =>
      rintro ⟨rfl⟩
      exact endId_ne graph _ final
    · exact fun same => nomatch same
    · exact fun same => dfaEvent_ne tx _ _ (map_error_iff.1 same)

theorem dfaTrace_ne (text : CStr) : ∀ pos curState : Nat,
    (dfaTrace graph tx text pos curState).2 ≠ some .patternRange := by
  induction text with
  | nil => exact fun _ _ same => nomatch same
  | cons c text ih =>
      intro pos curState stops
      rw [dfaTrace] at stops
      split at stops
      · next step =>
        obtain rfl := Option.some.inj stops
        exact dfaStep_ne graph tx pos curState c step
      · next next_ ev step => exact ih (pos + 1) next_ stops

end NoStore

/-! ## Both engines -/

theorem patternCheck_fst {info : AppInfoS} {words : List Uint} {r : Int} {reports : List Report}
    (ran : patternCheck info words = .ok (r, reports)) : r = 0 := by
  unfold patternCheck at ran
  cases loop : patternCheckLoop info 0 [] words with
  | error trap =>
      rw [loop] at ran
      cases ran
  | ok reports' =>
      rw [loop] at ran
      cases ran
      rfl

/-- What searching a payload with both engines does: the first one or its check stops,
the second one does, or none. -/
theorem searchBoth_run {acsm : AcsmStruct2} {apps : List AppEntryT}
    (compiled : sigParseAdapterAc apps = .ok acsm) (info : AppInfoS) (graph : DfaGraphT) (tx : CStr)
    (s : SearchState) :
    (∃ trap, trap ≠ .patternRange ∧
      Storing s.cleared (recorded httpElementId s.elementlast (payloadEvents apps tx))
        (.error trap (s.cleared.scan (payloadEvents apps tx))) ((searchBoth acsm info graph tx).run s)) ∨
      (∃ trap, trap ≠ .patternRange ∧
        Storing s.cleared (recorded httpElementId s.elementlast (payloadEvents apps tx) ++
            dfaWords 0 (dfaTrace graph tx tx 0 0).1)
          (.error trap ((s.cleared.scan (payloadEvents apps tx)).storeAll
            (dfaWords 0 (dfaTrace graph tx tx 0 0).1))) ((searchBoth acsm info graph tx).run s)) ∨
      ∃ reports, patternCheck info (recorded httpElementId s.elementlast (payloadEvents apps tx)) =
          .ok (0, reports) ∧
        Storing s.cleared (recorded httpElementId s.elementlast (payloadEvents apps tx) ++
            dfaWords 0 (dfaTrace graph tx tx 0 0).1)
          (.ok (0, 0, reports) ((s.cleared.scan (payloadEvents apps tx)).storeAll
            (dfaWords 0 (dfaTrace graph tx tx 0 0).1))) ((searchBoth acsm info graph tx).run s) := by
  rcases httpParse2_run compiled info tx s with ⟨-, first⟩ | ⟨-, first⟩
  · unfold checkEnd at first
    cases checked : patternCheck info (recorded httpElementId s.elementlast (payloadEvents apps tx)) with
    | error trap =>
        rw [checked] at first
        refine Or.inl ⟨trap, ?_, Storing.bind_error first⟩
        rintro rfl
        exact patternCheck_ne _ _ checked
    | ok result =>
        obtain ⟨r, reports⟩ := result
        obtain rfl := patternCheck_fst checked
        rw [checked] at first
        have second := httpParse_run graph tx (s.cleared.scan (payloadEvents apps tx))
        refine Or.inr ?_
        cases stop : (dfaTrace graph tx tx 0 0).2 with
        | some trap =>
            rw [stop] at second
            refine Or.inl ⟨trap, ?_, Storing.bind first (Storing.bind_error second)⟩
            rintro rfl
            exact dfaTrace_ne graph tx tx 0 0 stop
        | none =>
            rw [stop] at second
            exact Or.inr ⟨reports, rfl, Storing.bind first (Storing.bind_pure second)⟩
  · exact Or.inl ⟨.textRange, (fun same => nomatch same), Storing.bind_error first⟩

/-- What a search that was not stopped has done. -/
theorem searchBoth_ended {acsm : AcsmStruct2} {apps : List AppEntryT}
    (compiled : sigParseAdapterAc apps = .ok acsm) {info : AppInfoS} {graph : DfaGraphT} {tx : CStr}
    {s s' : SearchState} {result : Int × Int × List Report}
    (ran : (searchBoth acsm info graph tx).run s = .ok result s') :
    ∃ reports, result = (0, 0, reports) ∧
      patternCheck info (recorded httpElementId s.elementlast (payloadEvents apps tx)) = .ok (0, reports) ∧
      s.cleared.Room (recorded httpElementId s.elementlast (payloadEvents apps tx) ++
        dfaWords 0 (dfaTrace graph tx tx 0 0).1) ∧
      (s.cleared.scan (payloadEvents apps tx)).storeAll (dfaWords 0 (dfaTrace graph tx tx 0 0).1) = s' := by
  rcases searchBoth_run compiled info graph tx s with ⟨trap, -, ends⟩ | ⟨trap, -, ends⟩ | ⟨reports, checked, ends⟩
  · rw [ran] at ends
    cases ends.ok.2
  · rw [ran] at ends
    cases ends.ok.2
  · rw [ran] at ends
    obtain ⟨room, same⟩ := ends.ok
    obtain ⟨rfl, rfl⟩ := EStateM.Result.ok.inj same
    exact ⟨reports, rfl, checked, room, rfl⟩

/-- A search that nothing stops. -/
theorem searchBoth_ok {acsm : AcsmStruct2} {apps : List AppEntryT}
    (compiled : sigParseAdapterAc apps = .ok acsm) {info : AppInfoS} {graph : DfaGraphT} {tx : CStr}
    {s : SearchState} {reports : List Report} (readable : EndReadable apps tx)
    (checked : patternCheck info (recorded httpElementId s.elementlast (payloadEvents apps tx)) =
      .ok (0, reports))
    (runs : (dfaTrace graph tx tx 0 0).2 = none)
    (room : s.cleared.Room (recorded httpElementId s.elementlast (payloadEvents apps tx) ++
      dfaWords 0 (dfaTrace graph tx tx 0 0).1)) :
    (searchBoth acsm info graph tx).run s =
      .ok (0, 0, reports) ((s.cleared.scan (payloadEvents apps tx)).storeAll
        (dfaWords 0 (dfaTrace graph tx tx 0 0).1)) := by
  have first : (httpParse2 acsm info tx).run s = .ok (0, reports) (s.cleared.scan (payloadEvents apps tx)) := by
    rcases httpParse2_run compiled info tx s with ⟨-, ran⟩ | ⟨unreadable, -⟩
    · rw [checkEnd, checked] at ran
      exact ran.of_room (SearchState.room_append.1 room).1
    · exact absurd readable unreadable
  have second := httpParse_run graph tx (s.cleared.scan (payloadEvents apps tx))
  rw [runs] at second
  rw [searchBoth, EStateM.run_bind, first]
  simp only [EStateM.run_bind, second.of_room (SearchState.room_append.1 room).2]
  rfl

theorem endReadable_of_nil {apps : List AppEntryT} {tx : CStr}
    (none_ : finalCalls apps none tx = []) : EndReadable apps tx := by
  intro call made
  rw [none_] at made
  exact absurd made (List.not_mem_nil)

/-- A graph of one row that no byte leaves and that is no end state. -/
def idleGraph : DfaGraphT :=
  { stateNum := 1, alphabetSize := 4, startOffset := 3, alphabetTable := fun _ => 0,
    nextTable := [0, 0, 0, 0] }

end Orchid
