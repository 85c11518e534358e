/-
# Loader.HttpParse -- header markers and the two signature splitters

`initHttpSig` pushes the five header markers; a marker's id word has a zero top
byte, its text's length in the middle bytes and its element id in the low byte.
`parseHttpSigInto_` splits a `sig_match` value into elements for the installed
tables and counts them, `parseHttpSig` splits the copy kept in the signature into
pattern entries for the regex engine.  Both walk `strtok` over `&` and stop on a
second item of a signature of type `SIG_SINGLE`.
-/
import Orchid.Loader.Application

namespace Orchid

set_option autoImplicit false

/-- `new_app_sig` and `STAILQ_INSERT_TAIL` in a row.  `alloc k` is the address of
the buffer of the entry that becomes number `k` of the list. -/
def pushAppSig (alloc : Nat → Uint) (appList : List AppEntryT) (id : Uint) (sig : Option CStr) :
    Except Trap (List AppEntryT) := do
  let sigEntry ← newAppSig (alloc appList.length) id sig
  stailqInsertTail appList sigEntry

/-- The id words and texts of the header markers, in insertion order. -/
def httpMarkers : List (Uint × CStr) :=
  [(0x00000404, cstr "GET "), (0x00000504, cstr "POST "), (0x00000a02, cstr "User-Agent"),
    (0x00000703, cstr "Referer"), (0x00000401, cstr "Host")]

/-- The length of a marker's text over its element id. -/
def markerWord (e : Nat) (text : CStr) : Uint := BitVec.ofNat 32 (text.length * 256 + e)

theorem httpMarkers_eq : httpMarkers =
    [(4, cstr "GET "), (4, cstr "POST "), (2, cstr "User-Agent"), (3, cstr "Referer"), (1, cstr "Host")].map
      fun marker => (markerWord marker.1 marker.2, marker.2) := by
  decide

def initHttpSig (alloc : Nat → Uint) (appList : List AppEntryT) : Except Trap (List AppEntryT) :=
  httpMarkers.foldlM (fun list marker => pushAppSig alloc list marker.1 (some marker.2)) appList

def getElementIdFromSig (sig : CStr) : Uint :=
  if cstr "http_host" <+: sig then 1
  else if cstr "http_ua" <+: sig then 2
  else if cstr "http_re" <+: sig then 3
  else if cstr "http_url" <+: sig then 4
  else 0

/-- The keys of the items and their element ids. -/
def elementKeys : List (CStr × Uint) :=
  [(cstr "http_host", 1), (cstr "http_ua", 2), (cstr "http_re", 3), (cstr "http_url", 4)]

/-- No key begins another one, so the order of the comparisons does not matter. -/
theorem elementKeys_unique {sig : CStr} {key key' : CStr × Uint} (member : key ∈ elementKeys) (member' : key' ∈ elementKeys)
    (begins : key.1 <+: sig) (begins' : key'.1 <+: sig) : key = key' := by
  have apart : ∀ key ∈ elementKeys, ∀ key' ∈ elementKeys, key.1 <+: key'.1 → key = key' := by decide
  rcases List.prefix_or_prefix_of_prefix begins begins' with first | second
  · exact apart key member key' member' first
  · exact (apart key' member' key member second).symm

/-- **The id of an item** is that of the key it begins with, and zero if it begins with
none of them. -/
theorem getElementIdFromSig_eq_iff {sig : CStr} {id : Uint} : getElementIdFromSig sig = id ↔
    (∃ key ∈ elementKeys, key.1 <+: sig ∧ key.2 = id) ∨ (∀ key ∈ elementKeys, ¬ key.1 <+: sig) ∧ id = 0 := by
  have found : (∃ key ∈ elementKeys, key.1 <+: sig ∧ key.2 = getElementIdFromSig sig) ∨
      (∀ key ∈ elementKeys, ¬ key.1 <+: sig) ∧ getElementIdFromSig sig = 0 := by
    unfold getElementIdFromSig
    split
    · next host => exact Or.inl ⟨(cstr "http_host", 1), by decide, host, rfl⟩
    · next noHost =>
      split
      · next ua => exact Or.inl ⟨(cstr "http_ua", 2), by decide, ua, rfl⟩
      · next noUa =>
        split
        · next re => exact Or.inl ⟨(cstr "http_re", 3), by decide, re, rfl⟩
        · next noRe =>
          split
          · next url => exact Or.inl ⟨(cstr "http_url", 4), by decide, url, rfl⟩
          · next noUrl => exact Or.inr ⟨by simp [elementKeys, noHost, noUa, noRe, noUrl], rfl⟩
  constructor
  · rintro rfl
    exact found
  · rintro (⟨key, member, begins, rfl⟩ | ⟨noKey, rfl⟩)
    · rcases found with ⟨key', member', begins', same⟩ | ⟨noKey, -⟩
      · rw [elementKeys_unique member member' begins begins', same]
      · exact absurd begins (noKey key member)
    · rcases found with ⟨key, member, begins, -⟩ | ⟨-, zero⟩
      · exact absurd begins (noKey key member)
      · exact zero

/-- The text after the first `=` that is not the first byte; `none` is the null
returned when there is none.  The scan advances before it compares. -/
def getKeyFromSig : CStr → Option CStr
  | [] => none
  | [_] => none
  | _ :: c :: rest => if c = 61 then some rest else getKeyFromSig (c :: rest)

/-- One `strtok` call on the saved position `s`: the token and the new position. -/
def strtok (delim : UInt8) (s : CStr) : Option (CStr × CStr) :=
  match s.dropWhile (· == delim) with
  | [] => none
  | c :: rest =>
      some ((c :: rest).takeWhile (· != delim), ((c :: rest).dropWhile (· != delim)).drop 1)

/-- The `&` that separates the items of a signature. -/
def delims : UInt8 := 38

/-- The token loop of `parse_http_sig_`: `result` is the current token with the
position `strtok` keeps, `list` what the elements are appended to and `n` their
count. -/
def parseHttpSigLoop_ (type : Uint) :
    Nat → Option (CStr × CStr) → List ElementS → Nat → Except Trap (List ElementS × Nat)
  | _, none, list, n => .ok (list, n)
  | 0, some _, _, _ => .error .fuel
  | rounds + 1, some (result, saved), list, n => do
      let elementId := getElementIdFromSig result
      let elementEntry ← newSigElement elementId (getKeyFromSig result)
      let list ← stailqInsertTail list elementEntry
      let result := strtok delims saved
      if type = SIG_SINGLE ∧ result.isSome then throw .assertion
      parseHttpSigLoop_ type rounds result list (n + 1)

/-- `parse_http_sig_`: the list and the count it returns. -/
def parseHttpSigInto_ (list : List ElementS) (sig : CStr) (type : Uint) : Except Trap (List ElementS × Nat) :=
  parseHttpSigLoop_ type (sig.length + 1) (strtok delims sig) list 0

/-- The list for an empty one. -/
def parseHttpSig_ (sig : CStr) (type : Uint) : Except Trap (List ElementS) :=
  (parseHttpSigInto_ [] sig type).map Prod.fst

/-- The id word `parse_http_sig` builds: the element id above, the signature's own
id (not masked) below. -/
def httpSigId (elementId sigIndex : Uint) : Uint := ((elementId &&& 0xFF) <<< 24) ||| sigIndex

def parseHttpSigLoop (alloc : Nat → Uint) (sigIndex type : Uint) :
    Nat → Option (CStr × CStr) → List AppEntryT → Except Trap (List AppEntryT)
  | _, none, appList => .ok appList
  | 0, some _, _ => .error .fuel
  | n + 1, some (result, saved), appList => do
      let sigId := httpSigId (getElementIdFromSig result) sigIndex
      let appList ← pushAppSig alloc appList sigId (getKeyFromSig result)
      let result := strtok delims saved
      if type = SIG_SINGLE ∧ result.isSome then throw .assertion
      parseHttpSigLoop alloc sigIndex type n result appList

def parseHttpSig (alloc : Nat → Uint) (appList : List AppEntryT) (sig : CStr)
    (sigIndex type : Uint) : Except Trap (List AppEntryT) :=
  parseHttpSigLoop alloc sigIndex type (sig.length + 1) (strtok delims sig) appList

end Orchid
