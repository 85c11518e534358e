/-
# Session -- the flow table

A session holds two flows, one for each direction, and each flow is chained in a
hash bucket of its own key.  Sessions are never freed, so a session pointer is the
number of its allocation, and a flow pointer is that number with the side.

`session_table_find` searches the key's bucket, then the bucket of the reversed key
for the same key, and creates a session if neither holds it.  The invariant is
`SessionInv`: the buckets are `Theory.Filed` with the flows of all sessions, newest
first, and no two sessions share a key in either direction.  A lookup is then a
search of all flows (`sessionTableFind_cases`), and the second search never finds
what the first did not.
-/
import Orchid.Machine
import Orchid.Theory.Buckets
import Mathlib.Algebra.Group.Nat.Defs

namespace Orchid

open Orchid.Theory

set_option autoImplicit false

/-! ## Data -/

def HASH_TABLE_SIZE : Nat := 5471

def FLOW_INIT_SIDE : Uint := 0

structure FlowS where
  psess : Nat
  flowflag : Uint
  sip : Uint
  dip : Uint
  sport : Ushort
  dport : Ushort
  proto : Uchar
  deriving DecidableEq, Repr

structure SessionS where
  flow0 : FlowS
  flow1 : FlowS
  sessionId : Uint
  appId : Ushort
  deriving DecidableEq, Repr

inductive FlowSide where
  | flow0
  | flow1
  deriving DecidableEq, Repr

/-- The address of a flow inside its session. -/
structure FlowPtr where
  sess : Nat
  side : FlowSide
  deriving DecidableEq, Repr

/-- The globals of `session.c` and the sessions allocated so far. -/
structure SessionTable where
  heap : List SessionS
  htable : List (List FlowPtr)
  sessionTable : List Nat
  gNextSessId : Uint
  deriving DecidableEq, Repr

/-! ## Hashing -/

def hash (a : Uint) : Uint :=
  let a := (a + 0x7ed55d16) + (a <<< 12)
  let a := (a ^^^ 0xc761c23c) ^^^ (a >>> 19)
  let a := (a + 0x165667b1) + (a <<< 5)
  let a := (a + 0xd3a2646c) ^^^ (a <<< 9)
  let a := (a + 0xfd7046c5) + (a <<< 3)
  (a ^^^ 0xb55a4f09) ^^^ (a >>> 16)

def hash5tuple (sip dip : Uint) (sport dport : Ushort) (proto : Uchar) : Nat :=
  let result := hash sip ^^^ hash dip ^^^
    hash ((sport.setWidth 32 <<< 16) ||| dport.setWidth 32) ^^^ hash (proto.setWidth 32)
  result.toNat % HASH_TABLE_SIZE

/-! ## The table -/

def SessionS.flow (sess : SessionS) : FlowSide → FlowS
  | .flow0 => sess.flow0
  | .flow1 => sess.flow1

section Find

variable (sip dip : Uint) (sport dport : Ushort) (proto : Uchar)

/-- One `TAILQ_FOREACH` over a bucket: the session of the first flow with the key. -/
def findFlow (heap : List SessionS) : List FlowPtr → Except Trap (Option Nat)
  | [] => .ok none
  | ptr :: bucket =>
      match heap[ptr.sess]? with
      | none => .error .dangling
      | some sess =>
          let flow := sess.flow ptr.side
          if flow.sip = sip ∧ flow.dip = dip ∧ flow.sport = sport ∧ flow.dport = dport ∧
              flow.proto = proto then
            .ok (some flow.psess)
          else findFlow heap bucket

/-- The session that is allocated for a key, at the address `sess`. -/
def newSession (sess : Nat) (sessionId : Uint) : SessionS :=
  { flow0 :=
      { psess := sess, flowflag := FLOW_INIT_SIDE, sip := sip, dip := dip, sport := sport
        dport := dport, proto := proto }
    flow1 :=
      { psess := sess, flowflag := 0, sip := dip, dip := sip, sport := dport, dport := sport
        proto := proto }
    sessionId := sessionId
    appId := 0 }

/-- `TAILQ_INSERT_HEAD` into a bucket. -/
def insertFlow (htable : List (List FlowPtr)) (hres : Nat) (ptr : FlowPtr) :
    Except Trap (List (List FlowPtr)) :=
  match htable[hres]? with
  | none => .error .tableRange
  | some bucket => .ok (htable.set hres (ptr :: bucket))

def findInBucket (table : SessionTable) (hres : Nat) : Except Trap (Option Nat) :=
  match table.htable[hres]? with
  | none => .error .tableRange
  | some bucket => findFlow sip dip sport dport proto table.heap bucket

/-- `session_table_find`: the session and the table after it. -/
def sessionTableFind (table : SessionTable) : Except Trap (Nat × SessionTable) := do
  let hres := hash5tuple sip dip sport dport proto
  match ← findInBucket sip dip sport dport proto table hres with
  | some sess => return (sess, table)
  | none =>
      let hres2 := hash5tuple dip sip dport sport proto
      match ← findInBucket sip dip sport dport proto table hres2 with
      | some sess => return (sess, table)
      | none =>
          let sess := table.heap.length
          let gNextSessId := table.gNextSessId + 1
          let htable ← insertFlow table.htable hres ⟨sess, .flow0⟩
          let htable ← insertFlow htable hres2 ⟨sess, .flow1⟩
          return (sess,
            { heap := table.heap ++ [newSession sip dip sport dport proto sess gNextSessId]
              htable := htable
              sessionTable := table.sessionTable ++ [sess]
              gNextSessId := gNextSessId })

end Find

def createSessionTable : SessionTable :=
  { heap := [], htable := List.replicate HASH_TABLE_SIZE [], sessionTable := [], gNextSessId := 0 }

/-! ## Keys -/

/-- The arguments of a lookup. -/
structure FlowKey where
  sip : Uint
  dip : Uint
  sport : Ushort
  dport : Ushort
  proto : Uchar
  deriving DecidableEq, Repr

/-- Source and destination exchanged. -/
def FlowKey.mirror (key : FlowKey) : FlowKey :=
  ⟨key.dip, key.sip, key.dport, key.sport, key.proto⟩

def FlowKey.hash (key : FlowKey) : Nat :=
  hash5tuple key.sip key.dip key.sport key.dport key.proto

def FlowS.key (flow : FlowS) : FlowKey :=
  ⟨flow.sip, flow.dip, flow.sport, flow.dport, flow.proto⟩

def SessionTable.find (table : SessionTable) (key : FlowKey) : Except Trap (Nat × SessionTable) :=
  sessionTableFind key.sip key.dip key.sport key.dport key.proto table

/-- The lookups `keys` in a row: the sessions returned and the table after them. -/
def SessionTable.findAll (table : SessionTable) : List FlowKey → Except Trap (List Nat × SessionTable)
  | [] => .ok ([], table)
  | key :: keys => do
      let (sess, table) ← table.find key
      let (rest, table) ← table.findAll keys
      return (sess :: rest, table)

theorem FlowKey.hash_lt (key : FlowKey) : key.hash < HASH_TABLE_SIZE :=
  Nat.mod_lt _ (by decide)

/-- The comparison of the source is equality of keys. -/
theorem FlowS.key_eq_iff {flow : FlowS} {key : FlowKey} :
    (flow.sip = key.sip ∧ flow.dip = key.dip ∧ flow.sport = key.sport ∧ flow.dport = key.dport ∧
      flow.proto = key.proto) ↔ flow.key = key := by
  cases key
  simp [FlowS.key]

/-! ## The invariant -/

/-- The key a flow pointer leads to. -/
def keyAt (heap : List SessionS) (ptr : FlowPtr) : Option FlowKey :=
  heap[ptr.sess]?.map fun sess => (sess.flow ptr.side).key

/-- The bucket of a flow. -/
def slotAt (heap : List SessionS) (ptr : FlowPtr) : Nat :=
  match keyAt heap ptr with
  | none => 0
  | some key => key.hash

/-- The flows of the first `n` sessions, newest first. -/
def flowPtrs : Nat → List FlowPtr
  | 0 => []
  | n + 1 => ⟨n, .flow1⟩ :: ⟨n, .flow0⟩ :: flowPtrs n

/-- The session at address `n`: both flows point back to it and mirror each other. -/
structure SessionAt (n : Nat) (sess : SessionS) : Prop where
  back0 : sess.flow0.psess = n
  back1 : sess.flow1.psess = n
  mirrored : sess.flow1.key = sess.flow0.key.mirror
  numbered : sess.sessionId = BitVec.ofNat 32 (n + 1)

/-- The key belongs to the session, in one of the two directions. -/
def SessionS.Owns (sess : SessionS) (key : FlowKey) : Prop :=
  key = sess.flow0.key ∨ key = sess.flow0.key.mirror

structure SessionInv (table : SessionTable) : Prop where
  filed : Filed (slotAt table.heap) HASH_TABLE_SIZE (flowPtrs table.heap.length) table.htable
  sessions : ∀ n sess, table.heap[n]? = some sess → SessionAt n sess
  order : table.sessionTable = List.range table.heap.length
  counter : table.gNextSessId = BitVec.ofNat 32 table.heap.length
  unique : ∀ (n n' : Nat) (sess sess' : SessionS) (key : FlowKey), table.heap[n]? = some sess →
    table.heap[n']? = some sess' → sess.Owns key → sess'.Owns key → n = n'

theorem mem_flowPtrs {n : Nat} {ptr : FlowPtr} : ptr ∈ flowPtrs n ↔ ptr.sess < n := by
  induction n with
  | zero => simp [flowPtrs]
  | succ n ih =>
      obtain ⟨sess, side⟩ := ptr
      rw [flowPtrs, List.mem_cons, List.mem_cons, ih]
      cases side <;> simp <;> omega

theorem flowPtrs_nodup (n : Nat) : (flowPtrs n).Nodup := by
  induction n with
  | zero => exact List.nodup_nil
  | succ n ih =>
      have fresh : ∀ side, (⟨n, side⟩ : FlowPtr) ∉ flowPtrs n := by
        intro side inside
        exact absurd (mem_flowPtrs.1 inside) (Nat.lt_irrefl n)
      rw [flowPtrs, List.nodup_cons, List.nodup_cons]
      refine ⟨?_, fresh _, ih⟩
      rw [List.mem_cons]
      rintro (same | inside)
      · cases same
      · exact fresh _ inside

theorem SessionAt.owns_iff {n : Nat} {sess : SessionS} (at_ : SessionAt n sess) {key : FlowKey} :
    sess.Owns key ↔ ∃ side, (sess.flow side).key = key := by
  constructor
  · rintro (rfl | rfl)
    · exact ⟨.flow0, rfl⟩
    · exact ⟨.flow1, at_.mirrored⟩
  · rintro ⟨side, rfl⟩
    cases side with
    | flow0 => exact Or.inl rfl
    | flow1 => exact Or.inr at_.mirrored

theorem SessionS.owns_mirror {sess : SessionS} {key : FlowKey} (owns : sess.Owns key) :
    sess.Owns key.mirror := by
  rcases owns with rfl | rfl
  · exact Or.inr rfl
  · exact Or.inl rfl

/-- Two keys of one session are equal or each other's mirror. -/
theorem SessionS.owns_both {sess : SessionS} {key key' : FlowKey} (owns : sess.Owns key)
    (owns' : sess.Owns key') : key = key' ∨ key = key'.mirror := by
  rcases owns with rfl | rfl <;> rcases owns' with rfl | rfl
  · exact Or.inl rfl
  · exact Or.inr rfl
  · exact Or.inr rfl
  · exact Or.inl rfl

/-! ## Searching -/

/-- A walk over a chain of live flows is a search by key. -/
theorem findFlow_eq {heap : List SessionS}
    (sessions : ∀ n sess, heap[n]? = some sess → SessionAt n sess) (key : FlowKey)
    (bucket : List FlowPtr) (live : ∀ ptr ∈ bucket, ptr.sess < heap.length) :
    findFlow key.sip key.dip key.sport key.dport key.proto heap bucket =
      .ok ((bucket.find? fun ptr => keyAt heap ptr = some key).map FlowPtr.sess) := by
  induction bucket with
  | nil => rfl
  | cons ptr bucket ih =>
      have rest := ih fun p inside => live p (List.mem_cons_of_mem _ inside)
      have below := live ptr (List.mem_cons_self ..)
      have found : heap[ptr.sess]? = some heap[ptr.sess] := List.getElem?_eq_getElem below
      have at_ := sessions _ _ found
      have back : (heap[ptr.sess].flow ptr.side).psess = ptr.sess := by
        cases ptr.side with
        | flow0 => exact at_.back0
        | flow1 => exact at_.back1
      rw [findFlow, found]
      simp only [FlowS.key_eq_iff]
      have read : keyAt heap ptr = some (heap[ptr.sess].flow ptr.side).key := by
        rw [keyAt, found]
        rfl
      by_cases same : (heap[ptr.sess].flow ptr.side).key = key
      · rw [if_pos same, List.find?_cons_of_pos (by simp [read, same]), back]
        rfl
      · rw [if_neg same, List.find?_cons_of_neg (by simp [read, same]), rest]

/-- The session of a key, if there is one: a search of all flows. -/
def SessionTable.owner (table : SessionTable) (key : FlowKey) : Option Nat :=
  ((flowPtrs table.heap.length).find? fun ptr => keyAt table.heap ptr = some key).map FlowPtr.sess

theorem SessionInv.owner_some {table : SessionTable} (inv : SessionInv table) {key : FlowKey} {n : Nat} :
    table.owner key = some n ↔ ∃ sess, table.heap[n]? = some sess ∧ sess.Owns key := by
  have sound : ∀ {m}, table.owner key = some m → ∃ sess, table.heap[m]? = some sess ∧ sess.Owns key := by
    intro m found
    obtain ⟨ptr, hit, rfl⟩ := Option.map_eq_some_iff.1 found
    have read := List.find?_some hit
    simp only [keyAt, decide_eq_true_eq, Option.map_eq_some_iff] at read
    obtain ⟨sess, here, same⟩ := read
    exact ⟨sess, here, ((inv.sessions _ _ here).owns_iff).2 ⟨ptr.side, same⟩⟩
  constructor
  · exact sound
  · rintro ⟨sess, here, owns⟩
    cases found : table.owner key with
    | none =>
        obtain ⟨side, same⟩ := ((inv.sessions _ _ here).owns_iff).1 owns
        rw [SessionTable.owner, Option.map_eq_none_iff, List.find?_eq_none] at found
        have inside : (⟨n, side⟩ : FlowPtr) ∈ flowPtrs table.heap.length :=
          mem_flowPtrs.2 (List.getElem?_eq_some_iff.1 here).1
        exact absurd (by simp [keyAt, here, same]) (found _ inside)
    | some m =>
        obtain ⟨sess', here', owns'⟩ := sound found
        rw [inv.unique m n sess' sess key here' here owns' owns]

theorem SessionInv.findInBucket {table : SessionTable} (inv : SessionInv table) (key : FlowKey)
    {hres : Nat} (inRange : hres < HASH_TABLE_SIZE) :
    findInBucket key.sip key.dip key.sport key.dport key.proto table hres =
      .ok ((((flowPtrs table.heap.length).filter fun ptr => slotAt table.heap ptr = hres).find?
        fun ptr => keyAt table.heap ptr = some key).map FlowPtr.sess) := by
  rw [Orchid.findInBucket, inv.filed.getElem? inRange]
  exact findFlow_eq inv.sessions key _ fun ptr inside =>
    mem_flowPtrs.1 (List.mem_filter.1 inside).1

/-- The key's own bucket finds the key's session. -/
theorem SessionInv.findInBucket_hash {table : SessionTable} (inv : SessionInv table) (key : FlowKey) :
    Orchid.findInBucket key.sip key.dip key.sport key.dport key.proto table key.hash =
      .ok (table.owner key) := by
  rw [inv.findInBucket key key.hash_lt, find?_filter_slot, SessionTable.owner]
  intro ptr _ hit
  rw [slotAt, of_decide_eq_true hit]

/-- Without a session of the key no bucket finds one. -/
theorem SessionInv.findInBucket_none {table : SessionTable} (inv : SessionInv table) {key : FlowKey}
    (free : table.owner key = none) {hres : Nat} (inRange : hres < HASH_TABLE_SIZE) :
    Orchid.findInBucket key.sip key.dip key.sport key.dport key.proto table hres = .ok none := by
  rw [SessionTable.owner, Option.map_eq_none_iff, List.find?_eq_none] at free
  rw [inv.findInBucket key inRange, Option.map_eq_none_iff.2]
  rw [List.find?_eq_none]
  exact fun ptr inside => free ptr (List.mem_filter.1 inside).1

/-! ## One lookup -/

/-- The table after a session was created for `key`. -/
def SessionTable.created (table : SessionTable) (key : FlowKey) : SessionTable :=
  let heap := table.heap ++
    [newSession key.sip key.dip key.sport key.dport key.proto table.heap.length (table.gNextSessId + 1)]
  { heap := heap
    htable := fileAll (slotAt heap) HASH_TABLE_SIZE (flowPtrs (table.heap.length + 1))
    sessionTable := table.sessionTable ++ [table.heap.length]
    gNextSessId := table.gNextSessId + 1 }

theorem slotAt_append {heap : List SessionS} {sess : SessionS} {ptr : FlowPtr}
    (old : ptr.sess < heap.length) : slotAt heap ptr = slotAt (heap ++ [sess]) ptr := by
  rw [slotAt, slotAt, keyAt, keyAt, List.getElem?_append_left old]

/-- **What a lookup does.**  It returns the session of the key and changes nothing, or
creates the session. -/
theorem sessionTableFind_cases {table : SessionTable} (inv : SessionInv table) (key : FlowKey) :
    (∃ n, table.owner key = some n ∧ table.find key = .ok (n, table)) ∨
      (table.owner key = none ∧ table.find key = .ok (table.heap.length, table.created key)) := by
  have first := inv.findInBucket_hash key
  cases found : table.owner key with
  | some n =>
      refine Or.inl ⟨n, rfl, ?_⟩
      rw [FlowKey.hash, found] at first
      simp only [SessionTable.find, sessionTableFind, first, bind, Except.bind, pure, Except.pure]
  | none =>
      refine Or.inr ⟨rfl, ?_⟩
      have second : Orchid.findInBucket key.sip key.dip key.sport key.dport key.proto table
          (hash5tuple key.dip key.sip key.dport key.sport key.proto) = .ok none :=
        inv.findInBucket_none found key.mirror.hash_lt
      rw [FlowKey.hash, found] at first
      let sess := newSession key.sip key.dip key.sport key.dport key.proto table.heap.length
        (table.gNextSessId + 1)
      -- the old chains, seen from the new heap
      have filed : Filed (slotAt (table.heap ++ [sess])) HASH_TABLE_SIZE (flowPtrs table.heap.length)
          table.htable :=
        inv.filed.congr fun ptr inside => slotAt_append (mem_flowPtrs.1 inside)
      have slot0 : slotAt (table.heap ++ [sess]) ⟨table.heap.length, .flow0⟩ =
          hash5tuple key.sip key.dip key.sport key.dport key.proto := by
        simp [slotAt, keyAt, sess, newSession, SessionS.flow, FlowS.key, FlowKey.hash]
      have slot1 : slotAt (table.heap ++ [sess]) ⟨table.heap.length, .flow1⟩ =
          hash5tuple key.dip key.sip key.dport key.sport key.proto := by
        simp [slotAt, keyAt, sess, newSession, SessionS.flow, FlowS.key, FlowKey.hash]
      have filed0 := filed.insert ⟨table.heap.length, .flow0⟩
      have filed1 := filed0.insert ⟨table.heap.length, .flow1⟩
      have head0 := filed.getElem? (b := slotAt (table.heap ++ [sess]) ⟨table.heap.length, .flow0⟩)
        (slot0 ▸ key.hash_lt)
      have head1 := filed0.getElem? (b := slotAt (table.heap ++ [sess]) ⟨table.heap.length, .flow1⟩)
        (slot1 ▸ key.mirror.hash_lt)
      rw [slot0] at head0 filed0 filed1 head1
      rw [slot1] at head1 filed1
      unfold SessionTable.find sessionTableFind
      simp only [first, second, insertFlow, head0, head1, bind, Except.bind, pure, Except.pure]
      rw [show _ = fileAll _ _ _ from filed1]
      rfl

/-- The session that is created. -/
theorem newSession_at (key : FlowKey) (n : Nat) {sessionId : Uint}
    (numbered : sessionId = BitVec.ofNat 32 (n + 1)) :
    SessionAt n (newSession key.sip key.dip key.sport key.dport key.proto n sessionId) :=
  ⟨rfl, rfl, rfl, numbered⟩

theorem newSession_owns {key key' : FlowKey} {n : Nat} {sessionId : Uint} :
    (newSession key.sip key.dip key.sport key.dport key.proto n sessionId).Owns key' ↔
      key' = key ∨ key' = key.mirror := Iff.rfl

/-- Creating a session keeps the invariant. -/
theorem SessionInv.created {table : SessionTable} (inv : SessionInv table) {key : FlowKey}
    (free : table.owner key = none) : SessionInv (table.created key) := by
  have counter : table.gNextSessId + 1 = BitVec.ofNat 32 (table.heap.length + 1) := by
    rw [inv.counter, BitVec.ofNat_add]
    rfl
  -- an old session does not own a key of the new one
  have fresh : ∀ (n : Nat) (sess : SessionS) (key' : FlowKey), table.heap[n]? = some sess →
      sess.Owns key' → ¬ (key' = key ∨ key' = key.mirror) := by
    intro n sess key' here owns same
    have ownsKey : sess.Owns key := by
      rcases same with rfl | rfl
      · exact owns
      · exact SessionS.owns_mirror owns
    have found : table.owner key = some n := inv.owner_some.2 ⟨sess, here, ownsKey⟩
    rw [free] at found
    cases found
  have cells : ∀ (n : Nat) (sess : SessionS), (table.created key).heap[n]? = some sess →
      table.heap[n]? = some sess ∨ (n = table.heap.length ∧
        sess = newSession key.sip key.dip key.sport key.dport key.proto table.heap.length
          (table.gNextSessId + 1)) := by
    intro n sess here
    rw [SessionTable.created, List.getElem?_append] at here
    by_cases old : n < table.heap.length
    · rw [if_pos old] at here
      exact Or.inl here
    · rw [if_neg old, List.getElem?_singleton] at here
      by_cases last : n - table.heap.length = 0
      · rw [if_pos last] at here
        exact Or.inr ⟨by omega, (Option.some.inj here).symm⟩
      · rw [if_neg last] at here
        cases here
  constructor
  · rw [SessionTable.created, Filed, List.length_append, List.length_singleton]
  · intro n sess here
    rcases cells n sess here with old | ⟨rfl, rfl⟩
    · exact inv.sessions n sess old
    · exact newSession_at key _ counter
  · show table.sessionTable ++ [table.heap.length] = List.range (table.heap ++ [_]).length
    rw [inv.order, List.length_append, List.length_singleton, List.range_succ]
  · show table.gNextSessId + 1 = BitVec.ofNat 32 (table.heap ++ [_]).length
    rw [counter, List.length_append, List.length_singleton]
  · intro n n' sess sess' key' here here' owns owns'
    rcases cells n sess here with old | ⟨rfl, rfl⟩ <;>
      rcases cells n' sess' here' with old' | ⟨rfl, rfl⟩
    · exact inv.unique n n' sess sess' key' old old' owns owns'
    · exact absurd (newSession_owns.1 owns') (fresh n sess key' old owns)
    · exact absurd (newSession_owns.1 owns) (fresh n' sess' key' old' owns')
    · rfl

theorem sessionInv_create : SessionInv createSessionTable := by
  refine ⟨Filed.nil _ _, ?_, rfl, rfl, ?_⟩
  · intro n sess here
    cases here
  · intro n n' sess sess' key here
    cases here

/-- One lookup: the invariant, what is returned, and what stays. -/
theorem SessionInv.find {table : SessionTable} (inv : SessionInv table) (key : FlowKey) :
    ∃ n table', table.find key = .ok (n, table') ∧ SessionInv table' ∧ table.heap <+: table'.heap ∧
      ∃ sess, table'.heap[n]? = some sess ∧ sess.Owns key := by
  rcases sessionTableFind_cases inv key with ⟨n, found, ran⟩ | ⟨free, ran⟩
  · exact ⟨n, table, ran, inv, List.prefix_rfl, inv.owner_some.1 found⟩
  · have here : (table.created key).heap[table.heap.length]? = some (newSession key.sip key.dip key.sport
        key.dport key.proto table.heap.length (table.gNextSessId + 1)) := List.getElem?_concat_length
    exact ⟨_, _, ran, inv.created free, List.prefix_append _ _, _, here, Or.inl rfl⟩

/-! ## All lookups -/

/-- The sessions returned for `keys`: each owns its key. -/
theorem SessionInv.findAll {table : SessionTable} (inv : SessionInv table) (keys : List FlowKey) :
    ∃ results table', table.findAll keys = .ok (results, table') ∧ SessionInv table' ∧
      table.heap <+: table'.heap ∧
      List.Forall₂ (fun key n => ∃ sess, table'.heap[n]? = some sess ∧ sess.Owns key) keys results := by
  induction keys generalizing table with
  | nil => exact ⟨[], table, rfl, inv, List.prefix_rfl, List.Forall₂.nil⟩
  | cons key keys ih =>
      obtain ⟨n, next, ran, inv', grown, sess, here, owns⟩ := inv.find key
      obtain ⟨results, last, rest, inv'', grown', related⟩ := ih inv'
      refine ⟨n :: results, last, ?_, inv'', grown.trans grown', ?_⟩
      · rw [SessionTable.findAll, ran]
        simp only [bind, Except.bind, rest]
        rfl
      · refine List.Forall₂.cons ⟨sess, ?_, owns⟩ related
        obtain ⟨more, same⟩ := grown'
        rw [← same]
        exact List.getElem?_append_left (List.getElem?_eq_some_iff.1 here).1 ▸ here

/-- What holds of the table between lookups. -/
structure TableOk (table : SessionTable) : Prop where
  /-- both flows of a session point back to it and mirror each other -/
  flows : ∀ (n : Nat) (sess : SessionS), table.heap[n]? = some sess →
    sess.flow0.psess = n ∧ sess.flow1.psess = n ∧ sess.flow1.key = sess.flow0.key.mirror
  buckets : table.htable.length = HASH_TABLE_SIZE
  hashed : ∀ ptr key, keyAt table.heap ptr = some key → key.hash < HASH_TABLE_SIZE
  /-- a bucket holds the flows of its hash, each once, and nothing else -/
  filed : ∀ (b : Nat) (bucket : List FlowPtr), table.htable[b]? = some bucket → ∀ ptr,
    bucket.count ptr = if (keyAt table.heap ptr).map FlowKey.hash = some b then 1 else 0
  order : table.sessionTable = List.range table.heap.length
  ids : table.heap.length < 2 ^ 32 → ∀ (n n' : Nat) (sess sess' : SessionS),
    table.heap[n]? = some sess → table.heap[n']? = some sess' →
    sess.sessionId = sess'.sessionId → n = n'
  /-- a lookup that hits changes nothing -/
  hit : ∀ (n : Nat) (sess : SessionS) (key : FlowKey), table.heap[n]? = some sess → sess.Owns key →
    table.find key = .ok (n, table)

theorem SessionInv.count_eq {table : SessionTable} (inv : SessionInv table) {b : Nat}
    {bucket : List FlowPtr} (here : table.htable[b]? = some bucket) (ptr : FlowPtr) :
    bucket.count ptr = if (keyAt table.heap ptr).map FlowKey.hash = some b then 1 else 0 := by
  rw [inv.filed.count_eq (flowPtrs_nodup _) here ptr]
  refine if_congr ?_ rfl rfl
  rw [mem_flowPtrs, slotAt]
  by_cases live : ptr.sess < table.heap.length
  · have read : keyAt table.heap ptr = some (table.heap[ptr.sess].flow ptr.side).key := by
      rw [keyAt, List.getElem?_eq_getElem live]
      rfl
    simp [read, live]
  · have read : keyAt table.heap ptr = none := by
      rw [keyAt, List.getElem?_eq_none (Nat.le_of_not_lt live)]
      rfl
    simp [read, live]

theorem SessionInv.ok {table : SessionTable} (inv : SessionInv table) : TableOk table := by
  constructor
  · intro n sess here
    have at_ := inv.sessions n sess here
    exact ⟨at_.back0, at_.back1, at_.mirrored⟩
  · rw [inv.filed, fileAll, List.length_map, List.length_range]
  · exact fun _ key _ => key.hash_lt
  · exact fun b bucket here => inv.count_eq here
  · exact inv.order
  · intro few n n' sess sess' here here' same
    rw [(inv.sessions n sess here).numbered, (inv.sessions n' sess' here').numbered] at same
    have below := (List.getElem?_eq_some_iff.1 here).1
    have below' := (List.getElem?_eq_some_iff.1 here').1
    have numbers := congrArg BitVec.toNat same
    rw [BitVec.toNat_ofNat, BitVec.toNat_ofNat, Nat.mod_eq_of_lt (by omega),
      Nat.mod_eq_of_lt (by omega)] at numbers
    omega
  · intro n sess key here owns
    have found := inv.owner_some.2 ⟨sess, here, owns⟩
    rcases sessionTableFind_cases inv key with ⟨m, found', ran⟩ | ⟨free, -⟩
    · rw [found] at found'
      obtain rfl := Option.some.inj found'
      exact ran
    · rw [found] at free
      cases free

/-- **The table maps flows to sessions, in both directions and uniquely.**  After any
lookups from the empty table, two of them returned the same session exactly when
their keys are equal or mirror each other, and the table is in order. -/
theorem session_table_maps_flows (keys : List FlowKey) :
    ∃ results table, createSessionTable.findAll keys = .ok (results, table) ∧
      results.length = keys.length ∧
      (∀ (i j n m : Nat) (key key' : FlowKey), keys[i]? = some key → keys[j]? = some key' →
        results[i]? = some n → results[j]? = some m →
        (n = m ↔ key = key' ∨ key = key'.mirror)) ∧
      TableOk table := by
  obtain ⟨results, table, ran, inv, -, related⟩ := sessionInv_create.findAll keys
  refine ⟨results, table, ran, related.length_eq.symm, ?_, inv.ok⟩
  intro i j n m key key' atI atJ resultI resultJ
  have owned : ∀ {i n : Nat} {key : FlowKey}, keys[i]? = some key → results[i]? = some n →
      ∃ sess, table.heap[n]? = some sess ∧ sess.Owns key := by
    intro i n key here result
    obtain ⟨below, same⟩ := List.getElem?_eq_some_iff.1 here
    obtain ⟨below', same'⟩ := List.getElem?_eq_some_iff.1 result
    have related := related.get below below'
    simp only [List.get_eq_getElem, same, same'] at related
    exact related
  obtain ⟨sess, here, owns⟩ := owned atI resultI
  obtain ⟨sess', here', owns'⟩ := owned atJ resultJ
  constructor
  · rintro rfl
    obtain rfl := Option.some.inj (here.symm.trans here')
    exact SessionS.owns_both owns owns'
  · intro same
    have ownsKey : sess'.Owns key := by
      rcases same with rfl | rfl
      · exact owns'
      · exact SessionS.owns_mirror owns'
    exact inv.unique n m sess sess' key here here' owns ownsKey

end Orchid
