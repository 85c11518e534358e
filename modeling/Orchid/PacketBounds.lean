/-
# PacketBounds -- what of a frame is read, and what of it is searched

`packetHeaders` is one program for any byte reader; with a reader that keeps the
offsets it lists the header bytes `packet_handler` looks at (`recorded_eq`).  None of
them is compared with the captured length, and a frame that is cut inside its headers
goes to the lookup like any other (`stays_inside_iff`).

The payload's length is what the headers leave of the captured length.  The IP total
length is not looked at, so trailing bytes of the link layer are searched
(`searches_payload_iff`).
-/
import Orchid.PacketProcess

namespace Orchid

open Orchid.Theory

set_option autoImplicit false

/-! ## The headers of a frame -/

namespace Frame

variable (frame : Frame)

/-- EtherType IPv4. -/
def IsIpv4 : Prop := frame.data 12 = 0x08 ∧ frame.data 13 = 0x00

instance : Decidable frame.IsIpv4 := inferInstanceAs (Decidable (_ ∧ _))

def proto : UInt8 := frame.data 23

/-- An IPv4 frame of one of the two protocols. -/
def IsTransport : Prop := frame.IsIpv4 ∧ (frame.proto = IP_PROTO_TCP ∨ frame.proto = IP_PROTO_UDP)

instance : Decidable frame.IsTransport := inferInstanceAs (Decidable (_ ∧ _))

/-- `iphdrsize`. -/
def ipLen : Nat := ((frame.data 14).toNat &&& 0xf) * 4

/-- `tcphdrsize`, or the size of the UDP header. -/
def transportLen : Nat :=
  if frame.proto = IP_PROTO_TCP then ((frame.data (14 + frame.ipLen + 12)).toNat >>> 4) <<< 2 else 8

def payloadOffset : Nat := 14 + frame.ipLen + frame.transportLen

/-- `iptlen`: the total length is in network byte order. -/
def iptlen : Nat := (frame.data 16).toNat * 256 + (frame.data 17).toNat

/-- What the lookup is called with. -/
def flowKey : FlowKey :=
  Id.run do
    let ports ← loadPorts (fun k => pure (frame.data k)) (14 + frame.ipLen)
    loadKey (fun k => pure (frame.data k)) frame.proto ports

theorem headers_eq : frame.headers =
    if frame.IsTransport then some ⟨frame.flowKey, frame.payloadOffset⟩ else none := by
  unfold Frame.headers packetHeaders IsTransport IsIpv4
  by_cases first : frame.data 12 = 0x08
  · by_cases second : frame.data 13 = 0x00
    · by_cases tcp : frame.data 23 = IP_PROTO_TCP
      · simp [first, second, tcp, proto, flowKey, payloadOffset, transportLen, ipLen]
      · by_cases udp : frame.data 23 = IP_PROTO_UDP
        · have other : ¬ IP_PROTO_UDP = IP_PROTO_TCP := by decide
          simp [first, second, udp, other, proto, flowKey, payloadOffset, transportLen, ipLen]
        · simp [first, second, tcp, udp, proto]
    · simp [first, second]
  · simp [first]

/-! ## The bytes that are read -/

/-- A reader that keeps the offsets. -/
def recorder (k : Nat) : StateM (List Nat) UInt8 := do
  modify (· ++ [k])
  return frame.data k

/-- The offsets of the header bytes `packet_handler` reads, in order. -/
def reads : List Nat := ((packetHeaders frame.recorder).run []).2

/-- The bytes of the ports and the two addresses. -/
def keyReads : List Nat :=
  let th := 14 + frame.ipLen
  [th, th + 1, th + 2, th + 3] ++ (if frame.proto = IP_PROTO_TCP then [th + 12] else []) ++
    [26, 27, 28, 29, 30, 31, 32, 33]

/-- With the recorder the program returns what it returns without. -/
theorem recorded_eq : (packetHeaders frame.recorder).run [] = (frame.headers,
    if frame.data 12 ≠ 0x08 then [12]
    else if frame.data 13 ≠ 0x00 then [12, 13]
    else [12, 13, 14, 23] ++ if frame.IsTransport then frame.keyReads else []) := by
  rw [headers_eq]
  show Id.run ((packetHeaders frame.recorder).run []) = _
  unfold packetHeaders IsTransport IsIpv4 keyReads flowKey
  by_cases first : frame.data 12 = 0x08
  · by_cases second : frame.data 13 = 0x00
    · by_cases tcp : frame.data 23 = IP_PROTO_TCP
      · simp [first, second, tcp, proto, payloadOffset, transportLen, ipLen, recorder, loadPorts, loadKey,
          loadUshort, loadUint, Nat.add_assoc]
      · by_cases udp : frame.data 23 = IP_PROTO_UDP
        · have other : ¬ IP_PROTO_UDP = IP_PROTO_TCP := by decide
          simp [first, second, udp, other, proto, payloadOffset, transportLen, ipLen, recorder, loadPorts,
            loadKey, loadUshort, loadUint, Nat.add_assoc]
        · simp [first, second, tcp, udp, proto, recorder]
    · simp [first, second, recorder]
  · simp [first, recorder]

/-! ## The search -/

/-- What the two searches are called with, for a session with this application. -/
def searchCall (appId : Ushort) : Option CStr :=
  match frame.headers with
  | none => none
  | some headers =>
      if appId = 0 ∧ (frame.caplen : Int) - headers.payload > 0 then some (frame.payloadFrom headers.payload)
      else none

/-- The handler, by what it searches. -/
theorem packetHandler_eq (globals : Globals) : packetHandler globals frame =
    match frame.headers with
    | none => return none
    | some headers => do
        let sess ← findSession headers.key
        let appId ← getAppId sess
        match frame.searchCall appId with
        | none => return some ⟨sess, frame.payloadFrom headers.payload, false, []⟩
        | some text => do
            let reports ← classify globals sess text
            return some ⟨sess, text, true, reports⟩ := by
  unfold packetHandler searchCall
  cases frame.headers with
  | none => rfl
  | some headers =>
      dsimp only
      congr 1
      funext sess
      congr 1
      funext appId
      by_cases fresh : appId = 0
      · by_cases positive : (frame.caplen : Int) - headers.payload > 0
        · rw [if_pos fresh, if_pos positive, if_pos ⟨fresh, positive⟩]
        · rw [if_pos fresh, if_neg positive, if_neg fun both => positive both.2]
      · rw [if_neg fresh, if_neg fun both => fresh both.1]

/-- A frame is ignored only if it is not for one of the two protocols. -/
theorem ignored_iff (globals : Globals) (world : World) :
    (packetHandler globals frame).run world = .ok none world ↔ ¬ frame.IsTransport := by
  rw [packetHandler_eq, headers_eq]
  by_cases transport : frame.IsTransport
  · rw [if_pos transport]
    refine iff_of_false (fun ran => ?_) fun other => other transport
    simp only [EStateM.run_bind] at ran
    cases found : (findSession frame.flowKey).run world with
    | error trap world' =>
        rw [found] at ran
        cases ran
    | ok sess world' =>
        rw [found] at ran
        dsimp only at ran
        cases read : (getAppId sess).run world' with
        | error trap world'' =>
            rw [read] at ran
            cases ran
        | ok appId world'' =>
            rw [read] at ran
            dsimp only at ran
            cases call : frame.searchCall appId with
            | none =>
                rw [call] at ran
                cases ran
            | some text =>
                rw [call] at ran
                simp only [EStateM.run_bind] at ran
                cases classified : (classify globals sess text).run world'' with
                | error trap final =>
                    rw [classified] at ran
                    cases ran
                | ok reports final =>
                    rw [classified] at ran
                    cases ran
  · rw [if_neg transport]
    exact iff_of_true rfl transport

/-! ## Staying inside the captured bytes -/

/-- All headers of the frame were captured, the fixed parts and the declared lengths. -/
structure HeadersCaptured : Prop where
  link : 14 ≤ frame.caplen
  ip : frame.IsIpv4 → 34 ≤ frame.caplen ∧ 14 + frame.ipLen ≤ frame.caplen
  transport : frame.IsTransport → frame.payloadOffset ≤ frame.caplen ∧
    14 + frame.ipLen + (if frame.proto = IP_PROTO_TCP then 20 else 8) ≤ frame.caplen

/-- `packet_handler` reads and searches captured bytes only, and ignores a frame that
is too short for its headers. -/
structure StaysInside (globals : Globals) (world : World) : Prop where
  reads : ∀ k ∈ frame.reads, k < frame.caplen
  search : ∀ appId text, frame.searchCall appId = some text → ∃ payload len, payload + len ≤ frame.caplen ∧
    text = (List.range' payload len).map frame.data
  ignores : ¬ frame.HeadersCaptured → (packetHandler globals frame).run world = .ok none world

/-- The bytes that decide about the frame were captured, and all headers if it is for
one of the two protocols. -/
structure LongEnough : Prop where
  etherType : 13 ≤ frame.caplen
  etherType' : frame.data 12 = 0x08 → 14 ≤ frame.caplen
  proto : frame.IsIpv4 → 24 ≤ frame.caplen
  headers : frame.IsTransport → frame.HeadersCaptured

theorem reads_eq : frame.reads =
    if frame.data 12 ≠ 0x08 then [12]
    else if frame.data 13 ≠ 0x00 then [12, 13]
    else [12, 13, 14, 23] ++ if frame.IsTransport then frame.keyReads else [] :=
  congrArg Prod.snd frame.recorded_eq

theorem searchCall_inside {appId : Ushort} {text : CStr} (called : frame.searchCall appId = some text) :
    ∃ payload len, payload + len ≤ frame.caplen ∧ text = (List.range' payload len).map frame.data := by
  unfold searchCall at called
  cases read : frame.headers with
  | none =>
      rw [read] at called
      cases called
  | some headers =>
      rw [read] at called
      dsimp only at called
      split at called
      · rename_i both
        obtain ⟨-, positive⟩ := both
        exact ⟨headers.payload, frame.caplen - headers.payload, by omega, (Option.some.inj called).symm⟩
      · cases called

/-- The bytes of the lookup's key lie inside captured headers. -/
theorem keyReads_inside (captured : frame.HeadersCaptured) (transport : frame.IsTransport) :
    ∀ k ∈ frame.keyReads, k < frame.caplen := by
  obtain ⟨fixed, -⟩ := captured.ip transport.1
  obtain ⟨-, bound⟩ := captured.transport transport
  intro k member
  unfold keyReads at member
  by_cases tcp : frame.proto = IP_PROTO_TCP
  · rw [if_pos tcp] at bound
    simp only [if_pos tcp, List.cons_append, List.nil_append, List.mem_cons, List.not_mem_nil, or_false] at member
    omega
  · rw [if_neg tcp] at bound
    simp only [if_neg tcp, List.cons_append, List.nil_append, List.mem_cons, List.not_mem_nil, or_false] at member
    omega

/-- **When `packet_handler` stays inside the captured bytes.**  Exactly for the frames
that are long enough: no length is checked. -/
theorem stays_inside_iff (globals : Globals) (world : World) :
    frame.StaysInside globals world ↔ frame.LongEnough := by
  constructor
  · intro inside
    have reads := inside.reads
    rw [reads_eq] at reads
    refine ⟨?_, fun first => ?_, fun ipv4 => ?_, fun transport => ?_⟩
    · have member : 12 < frame.caplen := by
        refine reads 12 ?_
        split
        · simp
        · split <;> simp
      exact member
    · rw [if_neg (by simp [first])] at reads
      have member : 13 < frame.caplen := by
        refine reads 13 ?_
        split <;> simp
      exact member
    · rw [if_neg (by simp [ipv4.1]), if_neg (by simp [ipv4.2])] at reads
      exact reads 23 (by simp)
    · refine Classical.byContradiction fun short => ?_
      exact (frame.ignored_iff globals world).1 (inside.ignores short) transport
  · intro long
    refine ⟨fun k member => ?_, fun appId text => frame.searchCall_inside, fun short => ?_⟩
    · rw [reads_eq] at member
      have base := long.etherType
      by_cases first : frame.data 12 = 0x08
      · rw [if_neg (by simp [first])] at member
        have base' := long.etherType' first
        by_cases second : frame.data 13 = 0x00
        · rw [if_neg (by simp [second])] at member
          have base'' := long.proto ⟨first, second⟩
          rcases List.mem_append.1 member with fixed | later
          · simp only [List.mem_cons, List.not_mem_nil, or_false] at fixed
            omega
          · by_cases transport : frame.IsTransport
            · rw [if_pos transport] at later
              exact frame.keyReads_inside (long.headers transport) transport k later
            · rw [if_neg transport] at later
              cases later
        · rw [if_pos second] at member
          simp only [List.mem_cons, List.not_mem_nil, or_false] at member
          omega
      · rw [if_pos first] at member
        obtain rfl := List.mem_singleton.1 member
        exact base
    · exact (frame.ignored_iff globals world).2 fun transport => short (long.headers transport)

end Frame

/-- An IPv4 frame of which only the link header was captured. -/
def cutFrame : Frame := { caplen := 14, data := fun k => if k = 12 then 0x08 else 0 }

/-- Of a frame cut behind the link header the IP header is read. -/
theorem cut_frame_is_read : ¬ ∀ (globals : Globals) (world : World) (frame : Frame),
    frame.StaysInside globals world := by
  intro inside
  obtain ⟨acsm, -⟩ := sigParseAdapterAc_compiled []
  let globals : Globals := ⟨acsm, ⟨[], [], []⟩, ⟨0, 0, 0, fun _ => 0, []⟩⟩
  have member : 14 ∈ cutFrame.reads := by
    rw [Frame.reads_eq, if_neg (by decide), if_neg (by decide)]
    exact List.mem_append_left _ (by decide)
  have bound := (inside globals .init cutFrame).reads 14 member
  exact absurd bound (by decide)

/-! ## Searching the payload -/

namespace Frame

variable (frame : Frame)

/-- A TCP or UDP frame with captured headers, whose total length covers them. -/
structure Datagram : Prop where
  transport : frame.IsTransport
  captured : frame.HeadersCaptured
  covers : frame.ipLen + frame.transportLen ≤ frame.iptlen

/-- The captured bytes of the transport payload, if there are any. -/
def transportPayload : Option CStr :=
  let stop := min frame.caplen (14 + frame.iptlen)
  if frame.payloadOffset < stop then
    some ((List.range' frame.payloadOffset (stop - frame.payloadOffset)).map frame.data)
  else none

/-- `call` is what the handler searches the frame with: if there is a call, both
engines run on exactly that text, otherwise none does. -/
def Searches (globals : Globals) (world : World) (call : Option CStr) : Prop :=
  ∃ n table, (packetHandler globals frame).run world =
    match call with
    | none => .ok (some ⟨n, frame.payloadFrom frame.payloadOffset, false, []⟩) { world with table := table }
    | some text =>
        match (searchBoth globals.appgraph2 globals.appArray globals.appgraph text).run world.search with
        | .ok (_, _, reports) search => .ok (some ⟨n, text, true, reports⟩) ⟨table, search⟩
        | .error trap search => .error trap ⟨table, search⟩

/-- A frame that is searched is not left alone. -/
theorem Searches.not_none {globals : Globals} {world : World} {text : CStr}
    (searches : frame.Searches globals world (some text)) : ¬ frame.Searches globals world none := by
  rintro ⟨n', table', left⟩
  obtain ⟨n, table, ran⟩ := searches
  rw [left] at ran
  dsimp only at ran
  split at ran
  · cases ran
  · cases ran

theorem searchCall_eq (transport : frame.IsTransport) : frame.searchCall 0 =
    if frame.payloadOffset < frame.caplen then some (frame.payloadFrom frame.payloadOffset) else none := by
  unfold searchCall
  rw [headers_eq, if_pos transport]
  dsimp only
  by_cases nonempty : frame.payloadOffset < frame.caplen
  · rw [if_pos ⟨rfl, by omega⟩, if_pos nonempty]
  · rw [if_neg (fun both => nonempty (by omega)), if_neg nonempty]

/-- The handler searches what it calls the searches with. -/
theorem searches_searchCall {globals : Globals} {apps : List AppEntryT}
    (compiled : sigParseAdapterAc apps = .ok globals.appgraph2) {world : World} (ok : WorldOk world)
    (transport : frame.IsTransport) : frame.Searches globals world (frame.searchCall 0) := by
  rw [searchCall_eq frame transport]
  rcases packetHandler_cases compiled ok frame with ⟨read, -⟩ | ⟨headers, n, table, read, -, -, -, step⟩
  · rw [headers_eq, if_pos transport] at read
    cases read
  · rw [headers_eq, if_pos transport] at read
    obtain rfl := Option.some.inj read
    refine ⟨n, table, ?_⟩
    rcases step with ⟨empty, ran⟩ | ⟨nonempty, ran⟩
    · rw [if_neg (Nat.not_lt.2 empty), ran]
    · rw [if_pos nonempty]
      exact ran

/-- Apart from trailing bytes the two are the same. -/
theorem searchCall_eq_iff (datagram : frame.Datagram) :
    frame.searchCall 0 = frame.transportPayload ↔ frame.caplen ≤ 14 + frame.iptlen := by
  obtain ⟨offset, -⟩ := datagram.captured.transport datagram.transport
  have covers := datagram.covers
  have start : frame.payloadOffset = 14 + frame.ipLen + frame.transportLen := rfl
  rw [searchCall_eq frame datagram.transport]
  unfold transportPayload
  by_cases fits : frame.caplen ≤ 14 + frame.iptlen
  · simp only [Nat.min_eq_left fits, fits, iff_true]
    rfl
  · have padded : 14 + frame.iptlen ≤ frame.caplen := by omega
    simp only [Nat.min_eq_right padded, fits, iff_false]
    rw [if_pos (by omega)]
    intro same
    by_cases nonempty : frame.payloadOffset < 14 + frame.iptlen
    · rw [if_pos nonempty] at same
      have lengths := congrArg List.length (Option.some.inj same)
      rw [length_payloadFrom, List.length_map, List.length_range'] at lengths
      omega
    · rw [if_neg nonempty] at same
      cases same

end Frame

/-- The frames handled so far leave the table in order. -/
theorem handleAll_worldOk {globals : Globals} {apps : List AppEntryT}
    (compiled : sigParseAdapterAc apps = .ok globals.appgraph2) (frames : List Frame) :
    ∀ {world world' : World} {log : List Handled}, WorldOk world →
      (handleAll globals frames).run world = .ok log world' → WorldOk world' := by
  induction frames with
  | nil =>
      intro world world' log ok ran
      cases ran
      exact ok
  | cons frame frames ih =>
      intro world world' log ok ran
      obtain ⟨handled, between, rest, step, later, -⟩ := handleAll_cons_ok ran
      exact ih (packetHandler_ok_cases compiled ok step).1 later

/-- **When exactly the payload is searched.**  After any frames, the handler searches a
datagram's transport payload exactly if nothing behind the IP datagram was captured. -/
theorem searches_payload_iff {globals : Globals} {apps : List AppEntryT}
    (compiled : sigParseAdapterAc apps = .ok globals.appgraph2) {history : List Frame} {world : World}
    {log : List Handled} (reached : (handleAll globals history).run .init = .ok log world) {frame : Frame}
    (datagram : frame.Datagram) :
    frame.Searches globals world (frame.searchCall 0) ∧
      (frame.searchCall 0 = frame.transportPayload ↔ frame.caplen ≤ 14 + frame.iptlen) :=
  ⟨frame.searches_searchCall compiled (handleAll_worldOk compiled history worldOk_init reached)
    datagram.transport, frame.searchCall_eq_iff datagram⟩

/-- A UDP datagram of total length `total` that carries the payload and `trailing` bytes
of the link layer behind it. -/
def paddedFrame (payload : CStr) (trailing : Nat) : Frame :=
  { caplen := 42 + payload.length + trailing
    data := fun k =>
      if k = 12 then 0x08 else if k = 14 then 0x45 else if k = 17 then (28 + payload.length).toUInt8
      else if k = 23 then IP_PROTO_UDP else if k < 42 then 0 else payload.getD (k - 42) 0 }

theorem paddedFrame_datagram (payload : CStr) (trailing : Nat) (short : payload.length < 200) :
    (paddedFrame payload trailing).Datagram ∧
      (paddedFrame payload trailing).iptlen = 28 + payload.length := by
  have total : (paddedFrame payload trailing).iptlen = 28 + payload.length := by
    show 0 * 256 + (28 + payload.length).toUInt8.toNat = _
    rw [Nat.zero_mul, Nat.zero_add]
    exact Nat.mod_eq_of_lt (by omega)
  have caplen : (paddedFrame payload trailing).caplen = 42 + payload.length + trailing := rfl
  have ipLen : (paddedFrame payload trailing).ipLen = 20 := by
    show ((0x45 : UInt8).toNat &&& 0xf) * 4 = 20
    decide
  have transportLen : (paddedFrame payload trailing).transportLen = 8 := rfl
  have udp : ¬ (paddedFrame payload trailing).proto = IP_PROTO_TCP := by
    show ¬ IP_PROTO_UDP = IP_PROTO_TCP
    decide
  refine ⟨⟨⟨⟨rfl, rfl⟩, Or.inr rfl⟩, ⟨by omega, fun _ => by omega, fun _ => ⟨?_, ?_⟩⟩, by omega⟩, total⟩
  · unfold Frame.payloadOffset
    omega
  · rw [if_neg udp]
    omega

/-- A datagram without trailing bytes. -/
theorem searches_payload_plain : ∃ acsm, sigParseAdapterAc [] = .ok acsm ∧
    (paddedFrame (cstr "Host: x") 0).searchCall 0 = (paddedFrame (cstr "Host: x") 0).transportPayload := by
  obtain ⟨acsm, n, label, compiled, -⟩ := sigParseAdapterAc_compiled []
  obtain ⟨datagram, total⟩ := paddedFrame_datagram (cstr "Host: x") 0 (by decide)
  refine ⟨acsm, compiled, ?_⟩
  refine (@searches_payload_iff ⟨acsm, ⟨[], [], []⟩, ⟨0, 0, 0, fun _ => 0, []⟩⟩ [] compiled [] .init [] rfl
    _ datagram).2.2 ?_
  rw [total]
  decide

/-- Bytes behind the datagram are searched. -/
theorem padding_is_searched : ¬ ∀ (globals : Globals) (apps : List AppEntryT) (frame : Frame),
    sigParseAdapterAc apps = .ok globals.appgraph2 → frame.Datagram →
    frame.Searches globals .init frame.transportPayload := by
  intro exact_
  obtain ⟨acsm, n, label, compiled, -⟩ := sigParseAdapterAc_compiled []
  obtain ⟨datagram, total⟩ := paddedFrame_datagram [] 18 (by decide)
  let globals : Globals := ⟨acsm, ⟨[], [], []⟩, ⟨0, 0, 0, fun _ => 0, []⟩⟩
  have payload : (paddedFrame [] 18).transportPayload = none := by
    rw [Frame.transportPayload, total]
    decide
  have left := exact_ globals [] _ compiled datagram
  have searched :=
    @Frame.searches_searchCall (paddedFrame [] 18) globals [] compiled .init worldOk_init datagram.transport
  rw [payload] at left
  rw [(paddedFrame [] 18).searchCall_eq datagram.transport, if_pos (by decide)] at searched
  exact searched.not_none _ left

end Orchid
