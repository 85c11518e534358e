/-
# PacketProcess -- from captured frames to sessions and searches

`packetHeaders` reads the link, IP and transport headers of a frame through a byte
reader, in any monad; `packetHandler` looks up the session, and while the session
has no application searches the payload with both engines, assigning what each
returns to `app_id`.

Both engines return zero on every path, so nothing is ever assigned but zero
(`packetHandler_cases`): sessions stay unclassified and every payload is searched.
-/
import Orchid.Session
import Orchid.Searcher.Record

namespace Orchid

open Orchid.Theory

set_option autoImplicit false

/-! ## Headers -/

def IP_PROTO_TCP : UInt8 := 6
def IP_PROTO_UDP : UInt8 := 17

/-- A captured frame: `data` is the memory from its first byte on, of which `caplen`
bytes were captured.  The source keeps `caplen` in an `int`: this is a frame with
`caplen < 2 ^ 31`. -/
structure Frame where
  caplen : Nat
  data : Nat → UInt8

/-- What `packet_handler` takes from the headers: the arguments of the lookup and the
offset of the payload. -/
structure Headers where
  key : FlowKey
  payload : Nat
  deriving DecidableEq, Repr

section Headers

variable {m : Type → Type} [Monad m] (byte : Nat → m UInt8)

/-- A little-endian 16-bit load. -/
def loadUshort (k : Nat) : m Ushort := do
  let b0 ← byte k
  let b1 ← byte (k + 1)
  return b1.toBitVec ++ b0.toBitVec

/-- A little-endian 32-bit load. -/
def loadUint (k : Nat) : m Uint := do
  let b0 ← loadUshort byte k
  let b1 ← loadUshort byte (k + 2)
  return b1 ++ b0

/-- The two ports of a transport header. -/
def loadPorts (th : Nat) : m (Ushort × Ushort) := do
  let sport ← loadUshort byte th
  let dport ← loadUshort byte (th + 2)
  return (sport, dport)

/-- The lookup's arguments, once the transport header is read. -/
def loadKey (proto : UInt8) (ports : Ushort × Ushort) : m FlowKey := do
  let saddr ← loadUint byte (14 + 12)
  let daddr ← loadUint byte (14 + 16)
  return ⟨saddr, daddr, ports.1, ports.2, proto.toBitVec⟩

/-- The part of `packet_handler` that reads the headers; `none` are its early returns. -/
def packetHeaders : m (Option Headers) := do
  let etherType ← byte 12
  if etherType ≠ 0x08 then return none
  let etherType ← byte 13
  if etherType ≠ 0x00 then return none
  let verIhl ← byte 14
  let ipLen := (verIhl.toNat &&& 0xf) * 4
  let proto ← byte (14 + 9)
  if proto = IP_PROTO_TCP then
    let ports ← loadPorts byte (14 + ipLen)
    let hlen ← byte (14 + ipLen + 12)
    let key ← loadKey byte proto ports
    return some ⟨key, 14 + ipLen + (hlen.toNat >>> 4) <<< 2⟩
  else if proto = IP_PROTO_UDP then
    let ports ← loadPorts byte (14 + ipLen)
    let key ← loadKey byte proto ports
    return some ⟨key, 14 + ipLen + 8⟩
  else return none

end Headers

def Frame.headers (frame : Frame) : Option Headers :=
  Id.run (packetHeaders fun k => pure (frame.data k))

/-- The captured bytes from `payload` on. -/
def Frame.payloadFrom (frame : Frame) (payload : Nat) : CStr :=
  (List.range' payload (frame.caplen - payload)).map frame.data

theorem length_payloadFrom (frame : Frame) (payload : Nat) :
    (frame.payloadFrom payload).length = frame.caplen - payload := by
  rw [Frame.payloadFrom, List.length_map, List.length_range']

/-! ## Handling -/

/-- The globals the loader fills. -/
structure Globals where
  appgraph2 : AcsmStruct2
  appArray : AppInfoS
  appgraph : DfaGraphT

structure World where
  table : SessionTable
  search : SearchState

def World.init : World := { table := createSessionTable, search := .init }

abbrev HandlerM := EStateM Trap World

/-- A frame that reached the lookup: its session and payload, whether the payload was
searched, and what `pattern_check` printed. -/
structure Handled where
  sess : Nat
  payload : CStr
  searched : Bool
  reports : List Report

/-- A search on the searcher's globals. -/
def onSearch {α : Type} (act : SearchM α) : HandlerM α := fun world =>
  match act.run world.search with
  | .ok result search => .ok result { world with search := search }
  | .error trap search => .error trap { world with search := search }

/-- `sess->app_id = value`. -/
def setAppId (sess : Nat) (value : Int) (world : World) : World :=
  { world with
    table :=
      { world.table with
        heap := world.table.heap.modify sess fun s => { s with appId := BitVec.ofInt 16 value } } }

def findSession (key : FlowKey) : HandlerM Nat := fun world =>
  match world.table.find key with
  | .error trap => .error trap world
  | .ok (sess, table) => .ok sess { world with table := table }

def getAppId (sess : Nat) : HandlerM Ushort := fun world =>
  match world.table.heap[sess]? with
  | none => .error .dangling world
  | some s => .ok s.appId world

section Handler

variable (globals : Globals)

/-- The two searches and the assignments of their results. -/
def classify (sess : Nat) (payload : CStr) : HandlerM (List Report) := do
  let (first, reports) ← onSearch (httpParse2 globals.appgraph2 globals.appArray payload)
  modify (setAppId sess first)
  let second ← onSearch (httpParse globals.appgraph payload)
  modify (setAppId sess second)
  return reports

def packetHandler (frame : Frame) : HandlerM (Option Handled) := do
  match frame.headers with
  | none => return none
  | some headers =>
      let payloadLen : Int := frame.caplen - headers.payload
      let payload := frame.payloadFrom headers.payload
      let sess ← findSession headers.key
      let appId ← getAppId sess
      if appId = 0 then
        if payloadLen > 0 then
          let reports ← classify globals sess payload
          return some ⟨sess, payload, true, reports⟩
        else return some ⟨sess, payload, false, []⟩
      else return some ⟨sess, payload, false, []⟩

/-- The frames of a capture, one after another. -/
def handleAll : List Frame → HandlerM (List Handled)
  | [] => return []
  | frame :: frames => do
      let handled ← packetHandler globals frame
      let rest ← handleAll frames
      return handled.toList ++ rest

end Handler

/-! ## One frame -/

/-- The table is in order and no session has an application. -/
structure WorldOk (world : World) : Prop where
  table : SessionInv world.table
  unclassified : ∀ (n : Nat) (sess : SessionS), world.table.heap[n]? = some sess → sess.appId = 0

theorem worldOk_init : WorldOk .init :=
  ⟨sessionInv_create, fun _ _ here => by cases here⟩

theorem modify_eq_self {α : Type} {f : α → α} (xs : List α) (k : Nat)
    (fixed : ∀ x ∈ xs, f x = x) : xs.modify k f = xs := by
  induction xs generalizing k with
  | nil => cases k <;> rfl
  | cons x xs ih =>
      cases k with
      | zero => rw [List.modify_zero_cons, fixed x (List.mem_cons_self ..)]
      | succ k => rw [List.modify_succ_cons, ih k fun y inside => fixed y (List.mem_cons_of_mem _ inside)]

/-- Assigning zero to an unclassified session changes nothing. -/
theorem WorldOk.setAppId_zero {world : World} (ok : WorldOk world) (sess : Nat) :
    setAppId sess 0 world = world := by
  have same : world.table.heap.modify sess (fun s => { s with appId := BitVec.ofInt 16 0 }) =
      world.table.heap := by
    refine modify_eq_self _ _ fun s inside => ?_
    obtain ⟨n, here⟩ := List.mem_iff_getElem?.1 inside
    have zero := ok.unclassified n s here
    cases s
    simp only at zero
    subst zero
    rfl
  rw [setAppId, same]

/-- A lookup creates unclassified sessions only. -/
theorem WorldOk.find {world : World} (ok : WorldOk world) (key : FlowKey) :
    ∃ n table, world.table.find key = .ok (n, table) ∧ WorldOk { world with table := table } ∧
      world.table.heap <+: table.heap ∧ ∃ sess, table.heap[n]? = some sess := by
  obtain ⟨n, table, ran, inv, grown, sess, here, -⟩ := ok.table.find key
  refine ⟨n, table, ran, ⟨inv, ?_⟩, grown, sess, here⟩
  rcases sessionTableFind_cases ok.table key with ⟨m, -, same⟩ | ⟨-, created⟩
  · obtain ⟨-, rfl⟩ := Prod.mk.inj (Except.ok.inj (ran.symm.trans same))
    exact ok.unclassified
  · obtain ⟨-, rfl⟩ := Prod.mk.inj (Except.ok.inj (ran.symm.trans created))
    intro k s inside
    rw [SessionTable.created, List.getElem?_append] at inside
    split at inside
    · exact ok.unclassified k s inside
    · obtain rfl := List.mem_singleton.1 (List.mem_of_getElem? inside)
      rfl

theorem WorldOk.withSearch {world : World} (ok : WorldOk world) (search : SearchState) :
    WorldOk { world with search := search } := ⟨ok.table, ok.unclassified⟩

section Run

variable {globals : Globals} {apps : List AppEntryT}

theorem httpParse2_zero (compiled : sigParseAdapterAc apps = .ok globals.appgraph2) {tx : CStr}
    {s s' : SearchState} {r : Int} {reports : List Report}
    (ran : (httpParse2 globals.appgraph2 globals.appArray tx).run s = .ok (r, reports) s') : r = 0 := by
  rcases httpParse2_run compiled globals.appArray tx s with ⟨-, same⟩ | ⟨-, same⟩
  · rw [ran] at same
    have ended := same.ok.2
    unfold checkEnd at ended
    split at ended
    · cases ended
    · cases ended
      rfl
  · rw [ran] at same
    cases same.ok.2

theorem httpParse_zero {graph : DfaGraphT} {tx : CStr} {s s' : SearchState} {r : Int}
    (ran : (httpParse graph tx).run s = .ok r s') : r = 0 := by
  have same := httpParse_run graph tx s
  rw [ran] at same
  have ended := same.ok.2
  cases stop : (dfaTrace graph tx tx 0 0).2 with
  | some trap =>
      rw [stop] at ended
      cases ended
  | none =>
      rw [stop] at ended
      cases ended
      rfl

/-- Classifying is the two searches: what is assigned is zero both times. -/
theorem classify_run (compiled : sigParseAdapterAc apps = .ok globals.appgraph2) {world : World}
    (ok : WorldOk world) (sess : Nat) (payload : CStr) :
    (classify globals sess payload).run world =
      match (searchBoth globals.appgraph2 globals.appArray globals.appgraph payload).run
        world.search with
      | .ok (_, _, reports) search => .ok reports { world with search := search }
      | .error trap search => .error trap { world with search := search } := by
  have onSearch_run : ∀ {α : Type} (act : SearchM α) (w : World), (onSearch act).run w =
      match act.run w.search with
      | .ok result search => .ok result { w with search := search }
      | .error trap search => .error trap { w with search := search } := fun _ _ => rfl
  unfold classify searchBoth
  simp only [EStateM.run_bind, onSearch_run]
  cases first : (httpParse2 globals.appgraph2 globals.appArray payload).run world.search with
  | error trap search => rfl
  | ok result search =>
      obtain ⟨r, reports⟩ := result
      obtain rfl := httpParse2_zero compiled first
      simp only [EStateM.run_modify, (ok.withSearch search).setAppId_zero]
      cases second : (httpParse globals.appgraph payload).run search with
      | error trap search' => rfl
      | ok r search' =>
          obtain rfl := httpParse_zero second
          simp only [(ok.withSearch search').setAppId_zero]
          rfl

/-- **What handling a frame does.**  Nothing before the lookup; then the lookup, and a
search of the payload if there is one. -/
theorem packetHandler_cases (compiled : sigParseAdapterAc apps = .ok globals.appgraph2) {world : World}
    (ok : WorldOk world) (frame : Frame) :
    (frame.headers = none ∧ (packetHandler globals frame).run world = .ok none world) ∨
      ∃ headers n table, frame.headers = some headers ∧ WorldOk { world with table := table } ∧
        world.table.heap <+: table.heap ∧ (∃ sess, table.heap[n]? = some sess) ∧
        ((frame.caplen ≤ headers.payload ∧ (packetHandler globals frame).run world =
            .ok (some ⟨n, frame.payloadFrom headers.payload, false, []⟩) { world with table := table }) ∨
          (headers.payload < frame.caplen ∧ (packetHandler globals frame).run world =
            match (searchBoth globals.appgraph2 globals.appArray globals.appgraph
              (frame.payloadFrom headers.payload)).run world.search with
            | .ok (_, _, reports) search =>
                .ok (some ⟨n, frame.payloadFrom headers.payload, true, reports⟩) ⟨table, search⟩
            | .error trap search => .error trap ⟨table, search⟩)) := by
  unfold packetHandler
  cases read : frame.headers with
  | none => exact Or.inl ⟨rfl, rfl⟩
  | some headers =>
      obtain ⟨n, table, found, ok', grown, sess, here⟩ := ok.find headers.key
      refine Or.inr ⟨headers, n, table, rfl, ok', grown, ⟨sess, here⟩, ?_⟩
      have lookup : (findSession headers.key).run world = .ok n { world with table := table } := by
        unfold findSession EStateM.run
        simp only [found]
      have appId : (getAppId n).run { world with table := table } =
          .ok 0 { world with table := table } := by
        unfold getAppId EStateM.run
        simp only [here, ok'.unclassified n sess here]
      simp only [EStateM.run_bind, lookup, appId, if_true]
      by_cases nonempty : headers.payload < frame.caplen
      · refine Or.inr ⟨nonempty, ?_⟩
        have positive : (frame.caplen : Int) - headers.payload > 0 := by omega
        simp only [if_pos positive, EStateM.run_bind, classify_run compiled ok']
        cases (searchBoth globals.appgraph2 globals.appArray globals.appgraph
          (frame.payloadFrom headers.payload)).run world.search <;> rfl
      · refine Or.inl ⟨Nat.le_of_not_lt nonempty, ?_⟩
        have empty : ¬ (frame.caplen : Int) - headers.payload > 0 := by omega
        rw [if_neg empty]
        rfl

/-- A frame that is handled to the end: either nothing is searched and nothing reported,
or its payload is, and the searches end. -/
theorem packetHandler_ok_cases (compiled : sigParseAdapterAc apps = .ok globals.appgraph2)
    {world world' : World} (ok : WorldOk world) {frame : Frame} {handled : Option Handled}
    (ran : (packetHandler globals frame).run world = .ok handled world') :
    WorldOk world' ∧ world.table.heap <+: world'.table.heap ∧
      ((world'.search = world.search ∧
          (∀ headers, frame.headers = some headers → frame.caplen ≤ headers.payload) ∧
          ∀ h ∈ handled, h.reports = [] ∧ ∃ sess, world'.table.heap[h.sess]? = some sess) ∨
        ∃ headers n reports, frame.headers = some headers ∧ headers.payload < frame.caplen ∧
          handled = some ⟨n, frame.payloadFrom headers.payload, true, reports⟩ ∧
          (∃ sess, world'.table.heap[n]? = some sess) ∧
          (searchBoth globals.appgraph2 globals.appArray globals.appgraph
            (frame.payloadFrom headers.payload)).run world.search = .ok (0, 0, reports) world'.search) := by
  rcases packetHandler_cases compiled ok frame with
    ⟨read, step⟩ | ⟨headers, n, table, read, ok', grown, here, ⟨empty, step⟩ | ⟨nonempty, step⟩⟩
  · rw [step] at ran
    cases ran
    refine ⟨ok, List.prefix_refl _, Or.inl ⟨rfl, fun headers read' => ?_, fun h inside => (nomatch inside)⟩⟩
    rw [read] at read'
    cases read'
  · rw [step] at ran
    cases ran
    refine ⟨ok', grown, Or.inl ⟨rfl, fun headers' read' => ?_, fun h inside => ?_⟩⟩
    · rw [read] at read'
      cases read'
      exact empty
    · cases inside
      exact ⟨rfl, here⟩
  · rw [step] at ran
    cases ends : (searchBoth globals.appgraph2 globals.appArray globals.appgraph
        (frame.payloadFrom headers.payload)).run world.search with
    | error trap search =>
        rw [ends] at ran
        cases ran
    | ok result search =>
        obtain ⟨reports, rfl, -⟩ := searchBoth_ended compiled ends
        rw [ends] at ran
        cases ran
        exact ⟨ok'.withSearch _, grown, Or.inr ⟨headers, n, reports, read, nonempty, rfl, here, ends⟩⟩

end Run

/-! ## A run -/

section Frames

variable {globals : Globals}

/-- Every frame meets `meets` in the state it is handled in. -/
def EachStep (globals : Globals) (meets : World → Frame → Prop) : World → List Frame → Prop
  | _, [] => True
  | world, frame :: frames => meets world frame ∧
      ∀ handled world', (packetHandler globals frame).run world = .ok handled world' →
        EachStep globals meets world' frames

theorem EachStep.of_forall {meets : World → Frame → Prop} {frames : List Frame} {world : World}
    (all : ∀ world, ∀ frame ∈ frames, meets world frame) : EachStep globals meets world frames := by
  induction frames generalizing world with
  | nil => trivial
  | cons frame frames ih =>
      refine ⟨all world frame (List.mem_cons_self ..), fun handled world' _ => ?_⟩
      exact ih fun world' frame' inside => all world' frame' (List.mem_cons_of_mem _ inside)

theorem EachStep.first {meets : World → Frame → Prop} {first second : List Frame} {world : World}
    (each : EachStep globals meets world (first ++ second)) : EachStep globals meets world first := by
  induction first generalizing world with
  | nil => trivial
  | cons frame first ih => exact ⟨each.1, fun handled world' ran => ih (each.2 handled world' ran)⟩

theorem handleAll_cons (frame : Frame) (frames : List Frame) (world : World) :
    (handleAll globals (frame :: frames)).run world =
      match (packetHandler globals frame).run world with
      | .error trap world' => .error trap world'
      | .ok handled world' =>
          match (handleAll globals frames).run world' with
          | .error trap world'' => .error trap world''
          | .ok rest world'' => .ok (handled.toList ++ rest) world'' := by
  rw [handleAll, EStateM.run_bind]
  cases (packetHandler globals frame).run world with
  | error trap world' => rfl
  | ok handled world' =>
      simp only [EStateM.run_bind]
      cases (handleAll globals frames).run world' <;> rfl

/-- A run that is not stopped, step by step. -/
theorem handleAll_cons_ok {frame : Frame} {frames : List Frame} {world world'' : World}
    {log : List Handled} (ran : (handleAll globals (frame :: frames)).run world = .ok log world'') :
    ∃ handled world' rest, (packetHandler globals frame).run world = .ok handled world' ∧
      (handleAll globals frames).run world' = .ok rest world'' ∧ log = handled.toList ++ rest := by
  rw [handleAll_cons] at ran
  cases step : (packetHandler globals frame).run world with
  | error trap world' =>
      rw [step] at ran
      cases ran
  | ok handled world' =>
      rw [step] at ran
      cases after : (handleAll globals frames).run world' with
      | error trap world₂ =>
          simp only [after] at ran
          cases ran
      | ok rest world₂ =>
          simp only [after] at ran
          cases ran
          exact ⟨handled, world', rest, rfl, after, rfl⟩

end Frames

/-! ## A plain frame -/

/-- An IPv4 UDP frame without options that carries `payload`. -/
def udpFrame (payload : CStr) : Frame :=
  { caplen := 42 + payload.length
    data := fun k =>
      if k = 12 then 0x08 else if k = 14 then 0x45 else if k = 23 then IP_PROTO_UDP
      else if k < 42 then 0 else payload.getD (k - 42) 0 }

theorem udpFrame_headers (payload : CStr) :
    (udpFrame payload).headers = some ⟨⟨0, 0, 0, 0, 17⟩, 42⟩ := by
  simp [Frame.headers, packetHeaders, loadPorts, loadKey, loadUshort, loadUint, udpFrame,
    IP_PROTO_TCP, IP_PROTO_UDP]

theorem udpFrame_payload (payload : CStr) : (udpFrame payload).payloadFrom 42 = payload := by
  have count : (udpFrame payload).caplen - 42 = payload.length := Nat.add_sub_cancel_left ..
  rw [Frame.payloadFrom, count]
  apply List.ext_getElem
  · rw [List.length_map, List.length_range']
  · intro k inside inside'
    have above : ¬ 42 + k < 42 := by omega
    have first : ¬ 42 + k = 12 := by omega
    have second : ¬ 42 + k = 14 := by omega
    have third : ¬ 42 + k = 23 := by omega
    rw [List.getElem_map, List.getElem_range', Nat.one_mul]
    show (udpFrame payload).data (42 + k) = payload[k]
    simp only [udpFrame, if_neg first, if_neg second, if_neg third, if_neg above,
      Nat.add_sub_cancel_left]
    rw [List.getD_eq_getElem?_getD, List.getElem?_eq_getElem inside', Option.getD_some]

end Orchid
