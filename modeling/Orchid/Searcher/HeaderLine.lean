/-
# Searcher.HeaderLine -- the header a counted match belongs to

A marker hit at a line start enters its element's context, and nothing but the next
such hit leaves it: neither the end of the line nor a header without a marker.  So
a match is counted for the last marker reported at a line start, and it may stand
in any line from there on.

Both engines have this law: `counted_under_marker` for the Aho-Corasick calls, and
`dfa_counted_under_marker` for the regex scan, over what the generated graph is
relied on for (`RegexGraph`).
-/
import Orchid.Searcher.Record
import Orchid.Searcher.IdWord

namespace Orchid

open Orchid.Theory

set_option autoImplicit false

/-- A header marker of element id `e` stands at the line start `s` and ends at `o`. -/
def MarkerAt (payload : CStr) (e : Uint) (s o : Nat) : Prop :=
  ∃ marker ∈ httpMarkers, httpElementId marker.1 = e ∧ OccursAt ⟨marker.1, marker.2, 0⟩ payload s ∧
    s + marker.2.length = o ∧ (s = 0 ∨ payload[s - 1]? = some 10)

instance (payload : CStr) (e : Uint) (s o : Nat) : Decidable (MarkerAt payload e s o) :=
  inferInstanceAs (Decidable (∃ marker ∈ httpMarkers, _))

theorem httpMarkers_length :
    ∀ marker ∈ httpMarkers, (httpElementLength marker.1).toNat = marker.2.length := by
  decide

/-- The element ids of the markers are those that the keys of the items stand for. -/
theorem httpMarkers_keys (e : Uint) : (∃ marker ∈ httpMarkers, httpElementId marker.1 = e) ↔ ∃ key ∈ elementKeys, key.2 = e := by
  have marked : ∀ marker ∈ httpMarkers, ∃ key ∈ elementKeys, key.2 = httpElementId marker.1 := by decide
  have keyed : ∀ key ∈ elementKeys, ∃ marker ∈ httpMarkers, httpElementId marker.1 = key.2 := by decide
  constructor
  · rintro ⟨marker, member, rfl⟩
    exact marked marker member
  · rintro ⟨key, member, rfl⟩
    exact keyed key member

/-- An entry with a marker's id and text, ending where the first `o` bytes end, at a
line start. -/
theorem markerAt_of_suffix {payload : CStr} {o : Nat} {app : AppEntryT} (inside : o ≤ payload.length)
    (isMarker : (app.appId, app.regex) ∈ httpMarkers)
    (suffix : foldedText app <:+ convertCaseEx (payload.take o))
    (start : o - app.regex.length = 0 ∨ payload[o - app.regex.length - 1]? = some 10) :
    MarkerAt payload (httpElementId app.appId) (o - app.regex.length) o := by
  obtain ⟨fits, occurs⟩ := occursAt_of_suffix inside suffix
  refine ⟨(app.appId, app.regex), isMarker, rfl, occurs, ?_, start⟩
  exact Nat.sub_add_cancel fits

/-! ## The Aho-Corasick calls -/

/-- Which calls enter a context. -/
theorem callEvent_eq_enter_iff {tx : CStr} {call : MatchCall} {e : Uint} :
    callEvent tx call = some (.enter e) ↔
      isHttpElement call.id = true ∧ httpElementId call.id = e ∧
        (call.index = 0 ∨ afterLineFeed tx call.data = true) := by
  unfold callEvent
  by_cases marker : isHttpElement call.id = true
  · by_cases start : call.index = 0 ∨ afterLineFeed tx call.data = true
    · simp [marker, start]
    · simp [marker, start]
  · simp [marker]

theorem afterLineFeed_iff {tx : CStr} {k : Nat} :
    afterLineFeed tx (some (k : Int)) = true ↔ 0 < k ∧ tx[k - 1]? = some 10 := by
  by_cases first : (k : Int) < 1
  · have none_ : ¬ 0 < k := by omega
    simp [afterLineFeed, charBefore, first, none_]
  · have position : ((k : Int) - 1).toNat = k - 1 := by omega
    have behind : 0 < k := by omega
    rw [afterLineFeed, charBefore, if_neg first, position]
    cases read : tx[k - 1]? with
    | none => simp
    | some c => simp [behind]

/-- A call that stores counts its id in the context it is made in. -/
theorem counted_item {tx : CStr} {call : MatchCall} {s : SearchState} (readable : Readable tx call)
    (stores : (stateAfter ((matchFoundBody tx call).run s)).stores ≠ s.stores) :
    isHttpElement call.id = false ∧ httpElementId call.id = s.elementlast := by
  rw [(matchFoundBody_run readable s).stores fun _ => rfl] at stores
  have counted : recorded httpElementId s.elementlast (callEvent tx call).toList ≠ [] := by
    intro none_
    rw [none_, s.storeAll_nil] at stores
    exact stores rfl
  cases made : callEvent tx call with
  | none =>
      rw [made] at counted
      exact absurd rfl counted
  | some event =>
      rw [made] at counted
      cases event with
      | enter e => exact absurd rfl counted
      | item w =>
          unfold callEvent at made
          by_cases marker : isHttpElement call.id = true
          · rw [if_pos marker] at made
            split at made <;> cases made
          · rw [if_neg marker] at made
            obtain rfl : call.id = w := ScanEvent.item.inj (Option.some.inj made)
            refine ⟨Bool.eq_false_iff.2 marker, ?_⟩
            apply Decidable.byContradiction
            intro elsewhere
            exact counted (by simp [recorded, elsewhere])

/-- A call that passes a position is one of the loop's. -/
theorem scanCalls_split {apps : List AppEntryT} {tx : CStr} {before after : List MatchCall}
    {call : MatchCall} (split : scanCalls apps none [] tx = before ++ call :: after)
    (inLoop : call.data ≠ none) : ∃ rest, loopCalls apps [] tx = before ++ call :: rest := by
  have notLast : ∀ c ∈ finalCalls apps none ([] ++ tx), c.data = none := by
    intro c made
    obtain ⟨app, -, rfl⟩ := mem_finalCalls.1 made
    rfl
  unfold scanCalls at split
  rcases List.append_eq_append_iff.1 split with ⟨early, -, last⟩ | ⟨late, loop, last⟩
  · exact absurd (notLast call (last ▸ List.mem_append_right early (List.mem_cons_self ..))) inLoop
  · cases late with
    | nil =>
        have isLast : call ∈ finalCalls apps none ([] ++ tx) := by
          rw [← List.nil_append (finalCalls _ _ _), ← last]
          exact List.mem_cons_self ..
        exact absurd (notLast call isLast) inLoop
    | cons first late =>
        obtain ⟨rfl, -⟩ := List.cons.inj last
        exact ⟨late, loop⟩

section Marker

variable {root : List ApplicationS} {mem : Memory} {summary : AppStatisticsS} {info : AppInfoS}
  {apps : List AppEntryT}

/-- A loop call that enters a context is made for a marker at a line start. -/
theorem markerAt_of_enter (parsed : Parsed root) (room : (signatures root).flatten.length ≤ 2 ^ 24)
    (installed : installApplication mem summary root = .ok (info, apps))
    (known : ∀ e ∈ (signatures root).flatten, e.id ≠ 0) {payload : CStr} {o : Nat} {app : AppEntryT}
    {e : Uint} (inside : o ≤ payload.length) (leads : front apps (payload.take o) = some app)
    (enters : callEvent payload (loopCall (payload.take o) app) = some (.enter e)) :
    ∃ start : Nat, (loopCall (payload.take o) app).index = start ∧ MarkerAt payload e start o := by
  obtain ⟨marker, rfl, start⟩ := callEvent_eq_enter_iff.1 enters
  obtain ⟨member, suffix⟩ := mem_of_leader foldedText apps leads
  obtain ⟨fits, -⟩ := occursAt_of_suffix inside suffix
  have isMarker : (app.appId, app.regex) ∈ httpMarkers := by
    rcases entry_cases parsed room installed known member with isMarker | ⟨i, e, -, -, -, element, -, -⟩
    · exact isMarker
    · exact absurd (marker.symm.trans element) (by decide)
  have index : (loopCall (payload.take o) app).index = ((o - app.regex.length : Nat) : Int) := by
    simp only [loopCall, List.length_take, Nat.min_eq_left inside]
    omega
  refine ⟨o - app.regex.length, index, markerAt_of_suffix inside isMarker suffix ?_⟩
  rcases start with first | feed
  · rw [index] at first
    exact Or.inl (by omega)
  · have data : (loopCall (payload.take o) app).data = some ((o - app.regex.length : Nat) : Int) :=
      congrArg some index
    rw [data, afterLineFeed_iff] at feed
    exact Or.inr feed.2

/-- The call, made after `before`, is for an element that stands where the call says,
and the last call of `before` that entered a context was for a marker of that
element's id at a line start. -/
def CallUnderMarker (root : List ApplicationS) (apps : List AppEntryT) (payload : CStr)
    (before : List MatchCall) (call : MatchCall) : Prop :=
  ∃ app ∈ apps, ∃ i e at_, (signatures root).flatten[i]? = some e ∧ app.regex = e.matchStr ∧
    call.id = elementWord e.id i ∧ call.index = (at_ : Nat) ∧ OccursAt app payload at_ ∧
    ∃ earlier header since start stop, before = earlier ++ header :: since ∧
      callEvent payload header = some (.enter e.id) ∧
      (∀ c ∈ since, ∀ e', callEvent payload c ≠ some (.enter e')) ∧
      header.index = (start : Nat) ∧ MarkerAt payload e.id start stop ∧
      stop < at_ + app.regex.length

/-- What the Aho-Corasick search counts: a call of the loop that stores its id, made in
a context of this payload, is under a marker. -/
theorem counted_under_marker {acsm : AcsmStruct2} (parsed : Parsed root)
    (room : (signatures root).flatten.length ≤ 2 ^ 24)
    (installed : installApplication mem summary root = .ok (info, apps))
    (known : ∀ e ∈ (signatures root).flatten, e.id ≠ 0) (compiled : sigParseAdapterAc apps = .ok acsm)
    {payload : CStr} {before after : List MatchCall} {call : MatchCall} {s s' : SearchState}
    (split : searchCalls acsm payload none = before ++ call :: after) (inLoop : call.data ≠ none)
    (reached : (forM before (matchFoundBody payload)).run s = .ok () s')
    (stores : (stateAfter ((matchFoundBody payload call).run s')).stores ≠ s'.stores)
    (own : s.elementlast = 0 ∨ ∃ c ∈ before, ∃ e, callEvent payload c = some (.enter e)) :
    CallUnderMarker root apps payload before call := by
  obtain ⟨acsm', n, label, compiled', machine⟩ := sigParseAdapterAc_compiled apps
  obtain rfl : acsm' = acsm := Except.ok.inj (compiled'.symm.trans compiled)
  rw [searchCalls_eq machine] at split
  obtain ⟨rest, loop⟩ := scanCalls_split split inLoop
  obtain ⟨o, below, app, leads, rfl, earlierCalls⟩ := loopCalls_split payload loop
  simp only [List.nil_append] at leads loop stores ⊢
  obtain ⟨member, fits, occurs⟩ := front_occurs below.le leads
  -- the state in which the call is made
  have readable : ∀ c ∈ before ++ loopCall (payload.take o) app :: rest, Readable payload c :=
    loop ▸ loopCalls_readable
  have scanned := matchFound_forM before
    (fun c inside => readable c (List.mem_append_left _ inside)) s
  obtain rfl : s.scan (before.filterMap (callEvent payload)) = s' := by
    rw [reached] at scanned
    injection scanned.ok.2
  obtain ⟨element, here⟩ := counted_item
    (readable _ (List.mem_append_right _ (List.mem_cons_self ..))) stores
  -- what was matched
  obtain ⟨i, e, inTable, word, text, decodes⟩ : ∃ i e, (signatures root).flatten[i]? = some e ∧
      app.appId = elementWord e.id i ∧ app.regex = e.matchStr ∧
      DecodesTo app.appId e.id (BitVec.ofNat 32 i &&& 0xFFFF) := by
    rcases entry_cases parsed room installed known member with isMarker | isElement
    · exact absurd (element.symm.trans (httpMarkers_isHttpElement _ isMarker)) (by decide)
    · exact isElement
  have current : context s.elementlast (before.filterMap (callEvent payload)) = e.id :=
    here.symm.trans decodes.2.1
  refine ⟨app, member, i, e, o - app.regex.length, inTable, text, word, ?_, occurs, ?_⟩
  · simp only [loopCall, List.length_take, Nat.min_eq_left below.le]
    omega
  -- where the context comes from
  · rcases exists_enter_of_context (callEvent payload) s.elementlast before with
      ⟨same, silent⟩ | ⟨earlier, header, since, rfl, enters, last⟩
    · rcases own with clear | ⟨c, inside, e', enters⟩
      · exact absurd (current.symm.trans (same.trans clear)) (known e (List.mem_of_getElem? inTable))
      · exact absurd enters (silent c inside e')
    · rw [current] at enters
      have made : header ∈ loopCalls apps [] (payload.take o) := by
        rw [← earlierCalls]
        exact List.mem_append_right _ (List.mem_cons_self ..)
      obtain ⟨o', sooner, app', leads', same⟩ := (mem_loopCalls [] _).1 made
      rw [List.length_take, Nat.min_eq_left below.le] at sooner
      rw [List.nil_append, List.take_take, Nat.min_eq_left sooner.le] at leads' same
      subst same
      obtain ⟨start, index, marker⟩ := markerAt_of_enter parsed room installed known
        (sooner.le.trans below.le) leads' enters
      exact ⟨earlier, _, since, start, o', rfl, enters, last, index, marker, by omega⟩

end Marker

/-! ## The regex scan -/

/-- The row reached from the row at `curState`. -/
def DfaGraphT.rowAfter (graph : DfaGraphT) : Nat → CStr → Except Trap Nat
  | curState, [] => .ok curState
  | curState, c :: text =>
      match graph.nextRow curState c with
      | .error trap => .error trap
      | .ok next => graph.rowAfter next text

/-- The id of the row reached, if it is an end state. -/
def DfaGraphT.idAfter (graph : DfaGraphT) (curState : Nat) (text : CStr) : Option Uint :=
  match graph.rowAfter curState text with
  | .error _ => none
  | .ok row =>
      match graph.endId row with
      | .error _ => none
      | .ok found => found

/-- The event of the row reached, `offset` bytes into the text. -/
def dfaEventAt (graph : DfaGraphT) (tx : CStr) (curState offset : Nat) (text : CStr) :
    Option HeaderEvent :=
  match graph.idAfter curState text with
  | none => none
  | some matchId =>
      match dfaEvent tx offset matchId with
      | .error _ => none
      | .ok ev => ev

theorem dfaEventAt_eq_some {graph : DfaGraphT} {tx text : CStr} {curState offset : Nat}
    {ev : HeaderEvent} (met : dfaEventAt graph tx curState offset text = some ev) :
    ∃ w, graph.idAfter curState text = some w ∧ dfaEvent tx offset w = .ok (some ev) := by
  unfold dfaEventAt at met
  cases found : graph.idAfter curState text with
  | none =>
      rw [found] at met
      cases met
  | some w =>
      simp only [found] at met
      cases event : dfaEvent tx offset w with
      | error trap =>
          rw [event] at met
          cases met
      | ok ev' =>
          rw [event] at met
          obtain rfl : ev' = some ev := met
          exact ⟨w, rfl, event⟩

theorem dfaEvent_enter {tx : CStr} {offset : Nat} {w e : Uint}
    (enters : dfaEvent tx offset w = .ok (some (.enter e))) :
    isHttpElement w = true ∧ httpElementId w = e ∧
      (offset - (httpElementLength w).toNat = 0 ∨
        tx[offset - (httpElementLength w).toNat - 1]? = some 10) := by
  unfold dfaEvent at enters
  by_cases marker : isHttpElement w = true
  · rw [if_pos marker] at enters
    by_cases short : offset < (httpElementLength w).toNat
    · rw [if_pos short] at enters
      cases enters
    · by_cases start : offset - (httpElementLength w).toNat = 0 ∨
          tx[offset - (httpElementLength w).toNat - 1]? = some 10
      · rw [if_neg short, if_pos start] at enters
        exact ⟨marker, ScanEvent.enter.inj (Option.some.inj (Except.ok.inj enters)), start⟩
      · rw [if_neg short, if_neg start] at enters
        cases enters
  · rw [if_neg marker] at enters
    cases enters

theorem dfaEvent_item {tx : CStr} {offset : Nat} {w v : Uint}
    (item : dfaEvent tx offset w = .ok (some (.item v))) : isHttpElement w = false ∧ w = v := by
  unfold dfaEvent at item
  by_cases marker : isHttpElement w = true
  · rw [if_pos marker] at item
    by_cases short : offset < (httpElementLength w).toNat
    · rw [if_pos short] at item
      cases item
    · rw [if_neg short] at item
      split at item <;> cases item
  · rw [if_neg marker] at item
    exact ⟨Bool.eq_false_iff.2 marker, ScanEvent.item.inj (Option.some.inj (Except.ok.inj item))⟩

theorem dfaStep_ok {graph : DfaGraphT} {tx : CStr} {pos curState next : Nat} {c : UInt8}
    {ev : Option HeaderEvent} (step : dfaStep graph tx pos curState c = .ok (next, ev)) :
    graph.nextRow curState c = .ok next ∧ dfaEventAt graph tx curState (pos + 1) [c] = ev := by
  unfold dfaStep at step
  cases row : graph.nextRow curState c with
  | error trap =>
      rw [row] at step
      cases step
  | ok reached =>
      simp only [row] at step
      cases final : graph.endId reached with
      | error trap =>
          rw [final] at step
          cases step
      | ok found =>
          cases found with
          | none =>
              simp only [final] at step
              obtain ⟨rfl, rfl⟩ := Prod.mk.inj (Except.ok.inj step)
              exact ⟨rfl, by simp [dfaEventAt, DfaGraphT.idAfter, DfaGraphT.rowAfter, row, final]⟩
          | some matchId =>
              simp only [final] at step
              cases event : dfaEvent tx (pos + 1) matchId with
              | error trap =>
                  rw [event] at step
                  cases step
              | ok ev' =>
                  rw [event] at step
                  obtain ⟨rfl, rfl⟩ := Prod.mk.inj (Except.ok.inj step)
                  exact ⟨rfl, by
                    simp [dfaEventAt, DfaGraphT.idAfter, DfaGraphT.rowAfter, row, final, event]⟩

/-- The events of a scan nothing stops, by the number of bytes read. -/
theorem dfaTrace_events (graph : DfaGraphT) (tx : CStr) (text : CStr) :
    ∀ {pos curState : Nat}, (dfaTrace graph tx text pos curState).2 = none →
      (dfaTrace graph tx text pos curState).1 = (List.range text.length).filterMap fun i =>
        dfaEventAt graph tx curState (pos + (i + 1)) (text.take (i + 1)) := by
  induction text with
  | nil =>
      intro pos curState _
      rfl
  | cons c text ih =>
      intro pos curState runs
      rw [dfaTrace] at runs ⊢
      cases step : dfaStep graph tx pos curState c with
      | error trap =>
          rw [step] at runs
          cases runs
      | ok result =>
          obtain ⟨next, ev⟩ := result
          simp only [step] at runs
          obtain ⟨row, first⟩ := dfaStep_ok step
          have later : ∀ i, dfaEventAt graph tx curState (pos + (i + 1 + 1)) (c :: text.take (i + 1)) =
              dfaEventAt graph tx next (pos + 1 + (i + 1)) (text.take (i + 1)) := by
            intro i
            have offset : pos + (i + 1 + 1) = pos + 1 + (i + 1) := by omega
            rw [offset]
            simp only [dfaEventAt, DfaGraphT.idAfter, DfaGraphT.rowAfter, row]
          simp only [ih runs]
          rw [List.length_cons, List.range_succ_eq_map, List.filterMap_cons, List.filterMap_map]
          simp only [List.take_succ_cons, List.take_zero, Nat.zero_add, first, Function.comp_def, later]
          cases ev <;> rfl

/-- What the scan relies on the generated graph for: `denotes` is the patterns' own
meaning, up to case for a marker's literal text, and the scan is at an end state
only where a text of the pattern with that id ends. -/
structure RegexGraph (graph : DfaGraphT) (patterns : List AppEntryT) (denotes : CStr → CStr → Prop)
    (payload : CStr) : Prop where
  literal : ∀ marker ∈ httpMarkers, ∀ text, denotes marker.2 text →
    convertCaseEx text = convertCaseEx marker.2
  ends : ∀ o ≤ payload.length, 0 < o → ∀ w, graph.idAfter 0 (payload.take o) = some w →
    ∃ app ∈ patterns, app.appId = w ∧ ∃ text, text <:+ payload.take o ∧ denotes app.regex text

/-- The scan takes the id met after `o` bytes for a header marker at a line start. -/
def EntersAt (graph : DfaGraphT) (payload : CStr) (o : Nat) (e : Uint) : Prop :=
  dfaEventAt graph payload 0 o (payload.take o) = some (.enter e)

/-- What the scan sees as a marker at a line start is one. -/
theorem markerAt_of_entersAt {root : List ApplicationS} {dfaList : List AppEntryT}
    {alloc : Nat → Uint} {graph : DfaGraphT} {denotes : CStr → CStr → Prop} {payload : CStr}
    (parsed : Parsed root) (collected : parseApplication alloc root = .ok dfaList)
    (keys : KeysKnown root) (regex : RegexGraph graph dfaList denotes payload) {o : Nat} {e : Uint}
    (inside : o ≤ payload.length) (positive : 0 < o) (enters : EntersAt graph payload o e) :
    ∃ start, MarkerAt payload e start o := by
  obtain ⟨w, met, event⟩ := dfaEventAt_eq_some enters
  obtain ⟨app, member, rfl, text, suffix, denoted⟩ := regex.ends o inside positive w met
  obtain ⟨marker, rfl, atStart⟩ := dfaEvent_enter event
  have isMarker : (app.appId, app.regex) ∈ httpMarkers := by
    rcases pattern_cases parsed collected keys member with isMarker | ⟨pair, -, -, -, element, -, -⟩
    · exact isMarker
    · exact absurd (marker.symm.trans element) (by decide)
  have length : (httpElementLength app.appId).toNat = app.regex.length :=
    httpMarkers_length (app.appId, app.regex) isMarker
  rw [length] at atStart
  have folded : foldedText app <:+ convertCaseEx (payload.take o) := by
    have same := regex.literal (app.appId, app.regex) isMarker text denoted
    obtain ⟨start, split⟩ := suffix
    refine ⟨convertCaseEx start, ?_⟩
    show convertCaseEx start ++ convertCaseEx app.regex = convertCaseEx (payload.take o)
    rw [← same, ← split]
    exact List.map_append.symm
  exact ⟨_, markerAt_of_suffix inside isMarker folded atStart⟩

/-- An initial segment of the numbers, split at one of them. -/
theorem range_split {n x : Nat} {before after : List Nat} (split : List.range n = before ++ x :: after) :
    x < n ∧ ∀ y, x < y → y < n → y ∈ after := by
  have sorted : (before ++ x :: after).Pairwise (· < ·) := split ▸ List.pairwise_lt_range
  have member : ∀ y, y ∈ before ++ x :: after ↔ y < n := fun y => split ▸ List.mem_range
  refine ⟨(member x).1 (List.mem_append_right _ (List.mem_cons_self ..)), fun y above below => ?_⟩
  rcases List.mem_append.1 ((member y).2 below) with early | late
  · have reversed := (List.pairwise_append.1 sorted).2.2 y early x (List.mem_cons_self ..)
    omega
  · rcases List.mem_cons.1 late with rfl | inside
    · exact absurd above (Nat.lt_irrefl _)
    · exact inside

theorem filterMap_one {α β : Type} (f : α → Option β) (x : α) : [x].filterMap f = (f x).toList := by
  cases made : f x with
  | none => rw [List.filterMap_cons_none made]; rfl
  | some y => rw [List.filterMap_cons_some made]; rfl

/-- The events of the first `m` bytes by position. -/
theorem dfaTrace_take {graph : DfaGraphT} {payload : CStr} {m : Nat} (inside : m ≤ payload.length)
    (runs : (dfaTrace graph payload (payload.take m) 0 0).2 = none) :
    (dfaTrace graph payload (payload.take m) 0 0).1 = (List.range m).filterMap fun i =>
      dfaEventAt graph payload 0 (i + 1) (payload.take (i + 1)) := by
  rw [dfaTrace_events graph payload _ runs, List.length_take, Nat.min_eq_left inside]
  apply List.filterMap_congr
  intro i small
  rw [List.mem_range] at small
  rw [Nat.zero_add, List.take_take, Nat.min_eq_left (by omega)]

/-- The scan of the first `m` bytes that is not stopped. -/
theorem httpParseLoop_take {graph : DfaGraphT} {payload : CStr} {m : Nat} {s s' : SearchState}
    (inside : m ≤ payload.length)
    (ran : (httpParseLoop graph payload (payload.take m) 0 0 0).run s = .ok () s') :
    (dfaTrace graph payload (payload.take m) 0 0).2 = none ∧
      s.Room (dfaWords 0 ((List.range m).filterMap fun i =>
        dfaEventAt graph payload 0 (i + 1) (payload.take (i + 1)))) ∧
      s' = s.storeAll (dfaWords 0 ((List.range m).filterMap fun i =>
        dfaEventAt graph payload 0 (i + 1) (payload.take (i + 1)))) := by
  have scanned := httpParseLoop_run graph payload (payload.take m) 0 0 0 s
  rw [ran] at scanned
  obtain ⟨room, ending⟩ := scanned.ok
  cases runs : (dfaTrace graph payload (payload.take m) 0 0).2 with
  | some trap =>
      rw [runs] at ending
      cases ending
  | none =>
      rw [runs] at ending
      rw [dfaTrace_take inside runs] at room ending
      injection ending with _ same
      exact ⟨rfl, room, same.symm⟩

/-- A scan that one more byte stops has the same events. -/
theorem dfaTrace_snoc (graph : DfaGraphT) (tx : CStr) (c : UInt8) (text : CStr) :
    ∀ {pos curState : Nat}, (dfaTrace graph tx text pos curState).2 = none →
      (dfaTrace graph tx (text ++ [c]) pos curState).2 ≠ none →
      (dfaTrace graph tx (text ++ [c]) pos curState).1 = (dfaTrace graph tx text pos curState).1 := by
  induction text with
  | nil =>
      intro pos curState _ stops
      rw [List.nil_append, dfaTrace] at stops ⊢
      cases step : dfaStep graph tx pos curState c with
      | error trap => rfl
      | ok result =>
          rw [step] at stops
          exact absurd rfl stops
  | cons b text ih =>
      intro pos curState runs stops
      rw [List.cons_append, dfaTrace] at stops ⊢
      rw [dfaTrace] at runs ⊢
      cases step : dfaStep graph tx pos curState b with
      | error trap =>
          rw [step] at runs
      | ok result =>
          simp only [step] at runs stops
          simp only [ih runs stops]

/-- Words are stored for an event only if it is an item in its context. -/
theorem item_of_dfaWords_ne {k : Uint} {ev : Option HeaderEvent} (stored : dfaWords k ev.toList ≠ []) :
    ∃ w, ev = some (.item w) ∧ httpElementId w = k := by
  cases ev with
  | none => exact absurd rfl stored
  | some event =>
      cases event with
      | enter e => exact absurd rfl stored
      | item w =>
          refine ⟨w, rfl, ?_⟩
          apply Decidable.byContradiction
          intro elsewhere
          exact stored (by simp [dfaWords, recorded, elsewhere])

/-- After `n + 1` bytes the text of an item with the id met there ends, and the last id
before it that the scan took for a marker at a line start is a marker of that item's
element id. -/
def ByteUnderMarker (root : List ApplicationS) (graph : DfaGraphT) (denotes : CStr → CStr → Prop)
    (payload : CStr) (n : Nat) : Prop :=
  ∃ pair ∈ httpElements root,
    graph.idAfter 0 (payload.take (n + 1)) = some (httpSigId pair.2.id pair.1) ∧
    (∃ text, text <:+ payload.take (n + 1) ∧ denotes pair.2.matchStr text) ∧
    ∃ start stop, stop ≤ n ∧ EntersAt graph payload stop pair.2.id ∧
      MarkerAt payload pair.2.id start stop ∧
      ∀ o, stop < o → o ≤ n → ∀ e, ¬ EntersAt graph payload o e

/-- What the regex scan counts: a byte that makes it store a word is under a marker. -/
theorem dfa_counted_under_marker {root : List ApplicationS} {dfaList : List AppEntryT}
    {alloc : Nat → Uint} {graph : DfaGraphT} {denotes : CStr → CStr → Prop} {payload : CStr}
    (parsed : Parsed root) (collected : parseApplication alloc root = .ok dfaList)
    (keys : KeysKnown root) (regex : RegexGraph graph dfaList denotes payload)
    {n : Nat} (below : n < payload.length) {s s' : SearchState}
    (reached : (httpParseLoop graph payload (payload.take n) 0 0 0).run s = .ok () s')
    (stores : (stateAfter ((httpParseLoop graph payload (payload.take (n + 1)) 0 0 0).run s)).stores ≠
      s'.stores) :
    ByteUnderMarker root graph denotes payload n := by
  obtain ⟨runs, room, rfl⟩ := httpParseLoop_take below.le reached
  have longer := (httpParseLoop_run graph payload (payload.take (n + 1)) 0 0 0 s).stores fun _ => by
    cases (dfaTrace graph payload (payload.take (n + 1)) 0 0).2 <;> rfl
  rw [longer] at stores
  have runs' : (dfaTrace graph payload (payload.take (n + 1)) 0 0).2 = none := by
    apply Decidable.byContradiction
    intro stops
    rw [List.take_add_one, List.getElem?_eq_getElem below, Option.toList_some] at stops stores
    rw [dfaTrace_snoc graph payload _ _ runs stops, dfaTrace_take below.le runs] at stores
    exact stores rfl
  rw [dfaTrace_take below runs', List.range_succ, List.filterMap_append, dfaWords_append,
    room.storeAll_append, filterMap_one] at stores
  -- the last byte met an item in its context
  obtain ⟨w, last, here⟩ := item_of_dfaWords_ne fun none_ => stores (by
    rw [none_, SearchState.storeAll_nil])
  obtain ⟨w', met, event⟩ := dfaEventAt_eq_some last
  obtain ⟨element, rfl⟩ := dfaEvent_item event
  obtain ⟨app, member, rfl, text, suffix, denoted⟩ := regex.ends (n + 1) below (Nat.succ_pos n) w' met
  rcases pattern_cases parsed collected keys member with
    isMarker | ⟨pair, inElements, id, same, decodes⟩
  · exact absurd (element.symm.trans (httpMarkers_isHttpElement _ isMarker)) (by decide)
  · refine ⟨pair, inElements, id ▸ met, ⟨text, suffix, same ▸ denoted⟩, ?_⟩
    -- and the context comes from a marker
    have current := decodes.2.1.symm.trans here
    rcases exists_enter_of_context (fun i =>
        dfaEventAt graph payload 0 (i + 1) (payload.take (i + 1))) 0 (List.range n) with
      ⟨clear, -⟩ | ⟨before, x, after, split, enters, silent⟩
    · exact absurd (current.trans clear) (keys.1 _ (httpElements_mem inElements))
    · rw [← current] at enters
      obtain ⟨small, later⟩ := range_split split
      obtain ⟨start, marker⟩ :=
        markerAt_of_entersAt parsed collected keys regex (by omega) (Nat.succ_pos x) enters
      refine ⟨start, x + 1, small, enters, marker, fun o above inside e again => ?_⟩
      have inAfter := later (o - 1) (by omega) (by omega)
      have position : o - 1 + 1 = o := by omega
      refine silent (o - 1) inAfter e ?_
      rw [position]
      exact again

/-! ## Both engines -/

/-- **A match is counted for the last marker reported at a line start.**  In the
Aho-Corasick search whenever the call stores its id and a context was entered in the
same payload, or none was left over; in the regex scan always. -/
theorem counted_under_last_marker {root : List ApplicationS} {mem : Memory}
    {summary : AppStatisticsS} {info : AppInfoS} {apps dfaList : List AppEntryT} {acsm : AcsmStruct2}
    {graph : DfaGraphT} {denotes : CStr → CStr → Prop} {payload : CStr} (parsed : Parsed root)
    (room : (signatures root).flatten.length ≤ 2 ^ 24)
    (installed : installApplication mem summary root = .ok (info, apps))
    (collected : parseApplication mem.alloc root = .ok dfaList) (keys : KeysKnown root)
    (compiled : sigParseAdapterAc apps = .ok acsm)
    (regex : RegexGraph graph dfaList denotes payload) :
    (∀ (before after : List MatchCall) (call : MatchCall) (s s' : SearchState),
      searchCalls acsm payload none = before ++ call :: after → call.data ≠ none →
      (forM before (matchFoundBody payload)).run s = .ok () s' →
      (stateAfter ((matchFoundBody payload call).run s')).stores ≠ s'.stores →
      (s.elementlast = 0 ∨ ∃ c ∈ before, ∃ e, callEvent payload c = some (.enter e)) →
      CallUnderMarker root apps payload before call) ∧
    ∀ (n : Nat) (s s' : SearchState), n < payload.length →
      (httpParseLoop graph payload (payload.take n) 0 0 0).run s = .ok () s' →
      (stateAfter ((httpParseLoop graph payload (payload.take (n + 1)) 0 0 0).run s)).stores ≠ s'.stores →
      ByteUnderMarker root graph denotes payload n := by
  constructor
  · intro before after call s s' split inLoop reached stores own
    exact counted_under_marker parsed room installed keys.1 compiled split inLoop reached stores own
  · intro n s s' below reached stores
    exact dfa_counted_under_marker parsed collected keys regex below reached stores

/-- The part of the regex engine's graph for the host configuration that the text below
walks: the rows after the prefixes of `Host`, and the row after `a`. -/
def hostGraph : DfaGraphT :=
  { stateNum := 6, alphabetSize := 12, startOffset := 6
    alphabetTable := fun c =>
      if c = 72 ∨ c = 104 then 1 else if c = 79 ∨ c = 111 then 2 else if c = 83 ∨ c = 115 then 3
      else if c = 84 ∨ c = 116 then 4 else if c = 65 ∨ c = 97 then 5 else 0
    nextTable :=
      [0, 0, 0, 0, 0, 0, 0, 1, 0, 0, 0, 5,
       0, 0, 0, 0, 0, 0, 0, 0, 2, 0, 0, 0,
       0, 0, 0, 0, 0, 0, 0, 0, 0, 3, 0, 0,
       0, 0, 0, 0, 0, 0, 0, 0, 0, 0, 4, 0,
       1, 0x401, 0, 0xFFFF, 0, 0, 0, 0, 0, 0, 0, 0,
       1, 0x0001, 0x0101, 0xFFFF, 0, 0, 0, 0, 0, 0, 0, 0] }

/-- Both engines on one `Host` line. -/
theorem counted_under_host : ∃ acsm, sigParseAdapterAc (oneElementList 0x01000000 (cstr "a")) = .ok acsm ∧
    searchCalls acsm (cstr "Host: a.") none = [⟨0x401, 0, some 0⟩, ⟨0x01000000, 6, some 6⟩] ∧
    CallUnderMarker (oneSignature 0x10001 (cstr "http_host=a")) (oneElementList 0x01000000 (cstr "a"))
      (cstr "Host: a.") [⟨0x401, 0, some 0⟩] ⟨0x01000000, 6, some 6⟩ ∧
    ByteUnderMarker (oneSignature 0x10001 (cstr "http_host=a")) hostGraph
      (fun regex text => convertCaseEx text = convertCaseEx regex) (cstr "Host: a.") 6 := by
  obtain ⟨summary, -, installed⟩ := oneSignature_host
  obtain ⟨acsm, n, label, compiled, machine⟩ :=
    sigParseAdapterAc_compiled (oneElementList 0x01000000 (cstr "a"))
  have collected : parseApplication clearedMemory.alloc (oneSignature 0x10001 (cstr "http_host=a")) =
      .ok (markerEntries clearedMemory.alloc ++ [⟨0x01010001, cstr "a", 0x08050330⟩]) := rfl
  have met : ∀ o ≤ (cstr "Host: a.").length, hostGraph.idAfter 0 ((cstr "Host: a.").take o) =
      if o = 4 then some 0x401 else if o = 7 then some 0x01010001 else none := by
    decide +kernel
  have regex : RegexGraph hostGraph
      (markerEntries clearedMemory.alloc ++ [⟨0x01010001, cstr "a", 0x08050330⟩])
      (fun regex text => convertCaseEx text = convertCaseEx regex) (cstr "Host: a.") := by
    refine ⟨fun _ _ _ same => same, fun o inside _ w found => ?_⟩
    rw [met o inside] at found
    by_cases host : o = 4
    · subst host
      obtain rfl : (0x401 : Uint) = w := Option.some.inj found
      exact ⟨⟨0x401, cstr "Host", _⟩, List.mem_append_left _ (List.mem_of_getElem? (i := 4) rfl), rfl,
        cstr "Host", by decide, rfl⟩
    · by_cases item : o = 7
      · subst item
        obtain rfl : (0x01010001 : Uint) = w := Option.some.inj found
        exact ⟨⟨0x01010001, cstr "a", 0x08050330⟩, List.mem_append_right _ (List.mem_singleton_self _), rfl,
          cstr "a", by decide, rfl⟩
      · rw [if_neg host, if_neg item] at found
        cases found
  have calls : searchCalls acsm (cstr "Host: a.") none =
      [⟨0x401, 0, some 0⟩, ⟨0x01000000, 6, some 6⟩] := by
    rw [searchCalls_eq machine]
    decide +kernel
  obtain ⟨call, byte⟩ := counted_under_last_marker (oneSignature_parsed rfl) (by decide) installed
    collected (by decide) compiled regex
  refine ⟨acsm, compiled, calls, ?_, ?_⟩
  · exact call [_] [] _ .init ⟨[], [], 1, Nat.zero_le _⟩ calls (by decide) rfl (by decide) (Or.inl rfl)
  · exact byte 6 .init ⟨[], [], 0, Nat.zero_le _⟩ (by decide) rfl (by decide)

/-- The line that contains the position `s` begins with a marker of element id `e`. -/
def LineOfElement (payload : CStr) (e : Uint) (s : Nat) : Prop :=
  ∃ m ≤ s, (∀ j < s, m ≤ j → payload[j]? ≠ some 10) ∧ ∃ o ≤ payload.length, MarkerAt payload e m o

instance (payload : CStr) (e : Uint) (s : Nat) : Decidable (LineOfElement payload e s) :=
  inferInstanceAs (Decidable (∃ m ≤ s, _))

/-- A `Host` element is counted in the `Cookie` line that follows the `Host` line. -/
theorem counted_outside_line :
    ¬ ∀ (root : List ApplicationS) (mem : Memory) (summary : AppStatisticsS) (info : AppInfoS)
        (apps : List AppEntryT) (acsm : AcsmStruct2), Parsed root →
      getApplicationSummary root = .ok summary →
      installApplication mem summary root = .ok (info, apps) →
      (∀ e ∈ (signatures root).flatten, e.id ≠ 0) → sigParseAdapterAc apps = .ok acsm →
      ∀ (payload : CStr) (before after : List MatchCall) (call : MatchCall) (s' : SearchState),
        searchCalls acsm payload none = before ++ call :: after →
        (forM before (matchFoundBody payload)).run .init = .ok () s' →
        (stateAfter ((matchFoundBody payload call).run s')).stores ≠ s'.stores →
        ∃ s : Nat, call.index = s ∧ LineOfElement payload (httpElementId call.id) s := by
  intro inLine
  obtain ⟨summary, counted, installed⟩ := oneSignature_host
  obtain ⟨acsm, n, label, compiled, machine⟩ :=
    sigParseAdapterAc_compiled (oneElementList 0x01000000 (cstr "a"))
  have calls : searchCalls acsm (cstr "Host: x\nCookie: a\n") none =
      [⟨0x401, 0, some 0⟩, ⟨0x01000000, 16, some 16⟩] := by
    rw [searchCalls_eq machine]
    decide +kernel
  obtain ⟨s, position, line⟩ := inLine _ _ _ _ _ acsm (oneSignature_parsed rfl) counted
    installed (by decide) compiled (cstr "Host: x\nCookie: a\n") [_] [] _ ⟨[], [], 1, Nat.zero_le _⟩
    calls rfl (by decide)
  obtain rfl : 16 = s := Int.ofNat.inj position
  exact absurd line (by decide +kernel)

end Orchid
