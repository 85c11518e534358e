/-
# Loader.Runs -- both splitters take the runs between the separators

`strtok` hands out the maximal runs without `&` that are not empty, in order
(`items_eq_runs`), and `get_key_from_sig` finds the text behind a run's first `=` that
is not its first byte (`getKeyFromSig_eq`).

So on a text that fits its buffer and whose runs all have such an `=`, neither splitter
stops: both make one entry of each run, with the same element id and the same text, at
the end of the list they are given (`splitters_agree`).  The second one runs on the copy
that the action of `app_sig` kept.
-/
import Orchid.Loader.Items
import Orchid.Loader.SigParser
import Orchid.Searcher.IdWord

namespace Orchid

open Orchid.Theory

set_option autoImplicit false

/-! ## Runs -/

/-- The maximal runs without `&` that are not empty, in order. -/
def runs (s : CStr) : List CStr := (s.splitOn delims).filter (· ≠ [])

/-- All that stands behind the first `=` that is not the first byte. -/
def behindEquals (run : CStr) : CStr := (run.tail.dropWhile (· != 61)).tail

theorem runs_delims (s : CStr) : runs (delims :: s) = runs s := by
  have first : (delims :: s).splitOn delims = [] :: s.splitOn delims :=
    (List.splitOn_append_cons_self [] s).trans (by rw [List.splitOn_nil]; rfl)
  rw [runs, first, runs]
  exact List.filter_cons_of_neg (by simp)

theorem runs_item {item : CStr} (nonempty : item ≠ []) (free : delims ∉ item) (rest : CStr) :
    runs (item ++ delims :: rest) = item :: runs rest ∧ runs item = [item] := by
  constructor
  · rw [runs, List.splitOn_append_cons_self_of_not_mem free, runs]
    exact List.filter_cons_of_pos (by simpa using nonempty)
  · rw [runs, List.splitOn_eq_singleton free]
    exact List.filter_cons_of_pos (by simpa using nonempty)

theorem strtok_delims (s : CStr) : strtok delims (delims :: s) = strtok delims s := by
  unfold strtok
  rw [List.dropWhile_cons_of_pos (by decide)]

/-- **What `strtok` hands out.** -/
theorem items_eq_runs (s : CStr) : items s = runs s := by
  have walk : ∀ (length : Nat) (s : CStr), s.length = length → ∀ n, s.length < n →
      tokensFrom n (strtok delims s) = runs s := by
    intro length
    induction length using Nat.strong_induction_on with
    | _ length ih =>
        intro s same n rounds
        obtain ⟨m, rfl⟩ : ∃ m, n = m + 1 := ⟨n - 1, by omega⟩
        by_cases inside : delims ∈ s
        · obtain ⟨item, rest, rfl, free⟩ := List.eq_append_cons_of_mem inside
          rw [List.length_append, List.length_cons] at same rounds
          by_cases empty : item = []
          · subst empty
            rw [List.length_nil] at same
            rw [List.nil_append, strtok_delims, runs_delims]
            exact ih rest.length (by omega) rest rfl _ (by omega)
          · rw [(strtok_item empty free rest).1, (runs_item empty free rest).1, tokensFrom]
            rw [ih rest.length (by omega) rest rfl m (by omega)]
        · by_cases empty : s = []
          · subst empty
            rfl
          · rw [(strtok_item empty inside []).2, (runs_item empty inside []).2, tokensFrom]
            cases m <;> rfl
  exact walk _ s rfl _ (Nat.lt_succ_self _)

/-- **What `get_key_from_sig` finds.** -/
theorem getKeyFromSig_eq (item : CStr) :
    getKeyFromSig item = if 61 ∈ item.tail then some (behindEquals item) else none := by
  induction item using getKeyFromSig.induct with
  | case1 => rfl
  | case2 => rfl
  | case3 first rest =>
      rw [getKeyFromSig, if_pos rfl, if_pos (by simp)]
      rfl
  | case4 first c rest differs ih =>
      rw [getKeyFromSig, if_neg differs, ih]
      have member : 61 ∈ (first :: c :: rest : CStr).tail ↔ 61 ∈ (c :: rest : CStr).tail := by
        simp [Ne.symm differs]
      have behind : behindEquals (first :: c :: rest) = behindEquals (c :: rest) := by
        show ((c :: rest : CStr).dropWhile (· != 61)).tail = _
        rw [List.dropWhile_cons_of_pos (by simpa using differs)]
        rfl
      simp only [member, behind]

/-- There are no more runs than rounds. -/
theorem runs_length (s : CStr) : (runs s).length ≤ s.length + 1 := by
  have walk : ∀ (n : Nat) (cur : Option (CStr × CStr)), (tokensFrom n cur).length ≤ n := by
    intro n
    induction n with
    | zero => rintro (_ | pair) <;> exact Nat.le_refl 0
    | succ n ih =>
        rintro (_ | pair)
        · exact Nat.zero_le _
        · exact Nat.succ_le_succ (ih _)
  rw [← items_eq_runs]
  exact walk _ _

/-! ## Both splitters -/

/-- The element id in an id word. -/
def AppEntryT.topByte (app : AppEntryT) : Uint := app.appId >>> 24

/-- The element of a run. -/
def runElement (run : CStr) : ElementS := ⟨getElementIdFromSig run, behindEquals run⟩

/-- What both splitters make of a text, behind whatever the lists held before; and that
the action of `app_sig` keeps the whole text for the second one. -/
structure SplitAlike (s : CStr) (sigId type : Uint) : Prop where
  elements : ∀ list : List ElementS,
    parseHttpSigInto_ list s type = .ok (list ++ (runs s).map runElement, (runs s).length)
  patterns : ∀ (alloc : Nat → Uint) (appList : List AppEntryT), ∃ apps,
    parseHttpSig alloc appList s sigId type = .ok (appList ++ apps) ∧
      apps.map AppEntryT.regex = (runs s).map behindEquals ∧
      (sigId.toNat < 2 ^ 24 → apps.map AppEntryT.topByte = (runs s).map getElementIdFromSig)
  kept : ∀ pairs : List KeyPairS, getStrValueFromKey pairs (cstr "sig_match") = some s →
    getMatchTypeValue pairs = type → ∃ sig, appSig pairs = .ok sig ∧ sig.type = type ∧
      sig.matchStr = s ∧ sig.elements = (runs s).map runElement ∧ sig.eleNum.toNat = (runs s).length

section Runs

variable {s : CStr} {type : Uint}

/-- A run that fits and has an `=` makes an element and a pattern. -/
theorem push_run {run : CStr} (short : run.length < MAX_SIG_LENGTH) (equals : 61 ∈ run.tail) :
    (∀ list, pushElement list run = .ok (list ++ [runElement run])) ∧
      ∀ alloc sigId list, pushPattern alloc sigId list run =
        .ok (list ++ [⟨httpSigId (getElementIdFromSig run) sigId, behindEquals run, alloc list.length⟩]) := by
  have key : getKeyFromSig run = some (behindEquals run) := by rw [getKeyFromSig_eq, if_pos equals]
  have fits : ¬ (behindEquals run).length ≥ MAX_SIG_LENGTH := by
    have := getKeyFromSig_length key
    omega
  refine ⟨fun list => ?_, fun alloc sigId list => ?_⟩
  · rw [pushElement_eq short, key]
    rfl
  · rw [pushPattern, key, pushAppSig_some, if_neg fits]

theorem httpSigId_top (run : CStr) {sigId : Uint} (small : sigId.toNat < 2 ^ 24) :
    httpSigId (getElementIdFromSig run) sigId >>> 24 = getElementIdFromSig run := by
  have whole : BitVec.ofNat 32 sigId.toNat = sigId := by simp
  have top := offset_top small
  rw [whole] at top
  rw [httpSigId, topByte_word, byte_of_lt (getElementIdFromSig_lt run), top]
  exact BitVec.or_zero

/-- **Both splitters split alike and in order.** -/
theorem splitters_agree (sigId : Uint) (short : s.length < MAX_SIG_LENGTH)
    (equals : ∀ run ∈ runs s, 61 ∈ run.tail) (single : type = SIG_SINGLE → (runs s).length ≤ 1) :
    SplitAlike s sigId type := by
  have push : ∀ {run}, run ∈ runs s → _ := fun {run} inside =>
    push_run ((items_length (items_eq_runs s ▸ inside)).trans_lt short) (equals run inside)
  have split : parseHttpSig_ s type = .ok ((runs s).map runElement) := by
    obtain ⟨es, ran, rfl⟩ := @foldlM_total _ _ _ pushElement (fun done es => es = done.map runElement) (runs s)
      (fun done run rest whole before held => by
        subst held
        exact ⟨_, (push (by simp [whole])).1 _, by simp⟩) [] rfl
    rw [parseHttpSig_items_, items_eq_runs]
    exact itemLoop_ok_iff.2 ⟨ran, single⟩
  refine ⟨fun list => ?_, fun alloc appList => ?_, fun pairs found same => ?_⟩
  · rw [parseHttpSigInto_eq, split]
    show Except.ok (_, ((runs s).map runElement).length) = _
    rw [List.length_map]
  · obtain ⟨list, ran, apps, rfl, texts, ids⟩ := @foldlM_total _ _ _ (pushPattern alloc sigId)
      (fun done list => ∃ apps, list = appList ++ apps ∧ apps.map AppEntryT.regex = done.map behindEquals ∧
        (sigId.toNat < 2 ^ 24 → apps.map AppEntryT.topByte = done.map getElementIdFromSig)) (runs s)
      (fun done run rest whole before held => by
        obtain ⟨apps, rfl, texts, ids⟩ := held
        refine ⟨_, (push (by simp [whole])).2 alloc sigId _, apps ++ [_], List.append_assoc .., ?_, fun small => ?_⟩
        · simp [texts]
        · simp [ids small, AppEntryT.topByte, httpSigId_top run small]) appList ⟨[], by simp, rfl, fun _ => rfl⟩
    refine ⟨apps, ?_, texts, ids⟩
    rw [parseHttpSig_items, items_eq_runs]
    exact itemLoop_ok_iff.2 ⟨ran, single⟩
  · subst same
    rw [appSig, found]
    simp only [if_neg (Nat.not_le.2 short), parseHttpSigInto_eq, split]
    refine ⟨_, rfl, rfl, rfl, rfl, ?_⟩
    have few := runs_length s
    have small : (runs s).length < 2 ^ 32 := by
      have : MAX_SIG_LENGTH = 128 := rfl
      omega
    show (BitVec.ofNat 32 ((runs s).map runElement).length).toNat = _
    rw [List.length_map, BitVec.toNat_ofNat, Nat.mod_eq_of_lt small]

end Runs

/-- Two items around an empty one; the second text has an `=` of its own. -/
theorem splitters_agree_hostAgent :
    SplitAlike (cstr "http_host=a&&http_ua=b=c") 0x10001 SIG_MULTI :=
  splitters_agree 0x10001 (by decide) (by decide) (by decide)

end Orchid
