/-
# Loader.Acsmx2.Compile -- what a compiled machine is

A banded row keeps the values between the first and the last non-zero transition
of a full row, so reading it back gives the full row (`bandedNext_bandedRow`); the
row of a state without transitions has width zero and its wrapped first index
sends every byte to state zero.

`Compiled acsm n label ps` is the meaning of the finished tables: each row steps
to the longest suffix that is a stem, each match list is the record of its state's
word, and the match flag tells whether the record is empty.  `sigParseAdapterAc`
never fails and builds such a machine for the registered entries
(`sigParseAdapterAc_compiled`).
-/
import Orchid.Loader.Acsmx2.Dfa

namespace Orchid

open Orchid.Theory
open AcsmStruct2 (bandBounds bandedRow)

set_option autoImplicit false

/-! ## Full rows -/

theorem listConvToFull_eq {acsm : AcsmStruct2} {r : Nat}
    (nodup : ((acsm.acsmTransTable r).map TransNode.key).Nodup) (c : UInt8) :
    acsm.listConvToFull r c = (lookup (acsm.acsmTransTable r) c).getD 0 := by
  have walk : ∀ (list : List TransNode) (full : UInt8 → Nat), (list.map TransNode.key).Nodup →
      list.foldl (fun full t => Function.update full t.key t.nextState) full c =
        (lookup list c).getD (full c) := by
    intro list
    induction list with
    | nil => exact fun _ _ => rfl
    | cons t list ih =>
        intro full nodup
        obtain ⟨fresh, nodup⟩ := List.nodup_cons.1 nodup
        rw [List.foldl_cons, ih _ nodup]
        by_cases here : t.key = c
        · subst here
          have absent : lookup list t.key = none := by
            rw [lookup_eq_none_iff, List.any_eq_false]
            intro u inside same
            exact fresh (List.mem_map.2 ⟨u, inside, by simpa using same⟩)
          rw [absent, Function.update_self]
          simp [lookup]
        · rw [Function.update_of_ne (Ne.symm here)]
          simp [lookup, here]
  exact walk _ _ nodup

/-! ## Banded rows -/

/-- Whether `(first, last)` are the bounds of the non-zero values below `k`. -/
def BoundsBelow (full : UInt8 → Nat) (k : Nat) (bounds : Int × Int) : Prop :=
  (bounds = (-1, -2) ∧ ∀ i < k, full (UInt8.ofNat i) = 0) ∨
    ∃ a b : Nat, bounds = ((a : Int), (b : Int)) ∧ a ≤ b ∧ b < k ∧
      ∀ i < k, full (UInt8.ofNat i) ≠ 0 → a ≤ i ∧ i ≤ b

theorem bandBounds_spec (full : UInt8 → Nat) : BoundsBelow full 256 (bandBounds full) := by
  unfold bandBounds
  generalize 256 = k
  induction k with
  | zero => exact Or.inl ⟨rfl, fun i impossible => absurd impossible (Nat.not_lt_zero i)⟩
  | succ k ih =>
      rw [List.range_succ, List.foldl_append, List.foldl_cons, List.foldl_nil]
      revert ih
      generalize (List.range k).foldl _ _ = bounds
      rintro (⟨rfl, blank⟩ | ⟨a, b, rfl, ordered, below, inside⟩)
      · by_cases here : full (UInt8.ofNat k) = 0
        · refine Or.inl ⟨by simp [here], fun i below => ?_⟩
          rcases Nat.lt_succ_iff_lt_or_eq.1 below with below | rfl
          · exact blank i below
          · exact here
        · refine Or.inr ⟨k, k, by simp [here], le_rfl, Nat.lt_succ_self k, fun i below nonzero => ?_⟩
          rcases Nat.lt_succ_iff_lt_or_eq.1 below with below | rfl
          · exact absurd (blank i below) nonzero
          · exact ⟨le_rfl, le_rfl⟩
      · by_cases here : full (UInt8.ofNat k) = 0
        · refine Or.inr ⟨a, b, by simp [here], ordered, Nat.lt_succ_of_lt below,
            fun i belowI nonzero => ?_⟩
          rcases Nat.lt_succ_iff_lt_or_eq.1 belowI with belowI | rfl
          · exact inside i belowI nonzero
          · exact absurd here nonzero
        · have started : ¬ ((a : Int) < 0) := by omega
          refine Or.inr ⟨a, k, by simp [here, started], by omega, Nat.lt_succ_self k,
            fun i belowI nonzero => ?_⟩
          rcases Nat.lt_succ_iff_lt_or_eq.1 belowI with belowI | rfl
          · exact ⟨(inside i belowI nonzero).1, belowI.le⟩
          · exact ⟨by omega, le_rfl⟩

/-- **A banded row holds the full row.** -/
theorem bandedNext_bandedRow (full : UInt8 → Nat) (c : UInt8) :
    bandedNext (bandedRow full) c = full c := by
  have inByte : c.toNat < 256 := c.toNat_lt
  have named : UInt8.ofNat c.toNat = c := UInt8.ofNat_toNat
  rcases bandBounds_spec full with ⟨bounds, blank⟩ | ⟨a, b, bounds, ordered, below, inside⟩
  · have zero : full c = 0 := named ▸ blank c.toNat inByte
    have wrapped : c.toNat < 4294967295 := by omega
    simp [bandedNext, bandedRow, rowCell, bounds, zero, wrapped]
  · have width : ((b : Int) - a + 1).toNat = b - a + 1 := by omega
    have index : ((a : Int) % 4294967296).toNat = a := by omega
    by_cases low : c.toNat < a
    · have zero : full c = 0 := by
        by_contra nonzero
        have := (inside c.toNat inByte (named.symm ▸ nonzero)).1
        omega
      simp [bandedNext, bandedRow, rowCell, bounds, zero, width, index, low]
    · by_cases high : b < c.toNat
      · have zero : full c = 0 := by
          by_contra nonzero
          have := (inside c.toNat inByte (named.symm ▸ nonzero)).2
          omega
        have outside : a + (b - a + 1) ≤ c.toNat := by omega
        simp [bandedNext, bandedRow, rowCell, bounds, zero, width, index, outside]
      · have within : ¬ (a + (b - a + 1) ≤ c.toNat) := by omega
        obtain ⟨k, place, inRow⟩ : ∃ k, 4 + c.toNat - a = k + 4 ∧ k < b - a + 1 :=
          ⟨c.toNat - a, by omega, by omega⟩
        have same : a + k = c.toNat := by omega
        simp [-UInt8.ofNat_add, bandedNext, bandedRow, rowCell, bounds, width, index, low, within, place,
          inRow, same, named]

@[simp] theorem rowCell_set_flag (row : List Nat) {k : Nat} (other : k ≠ 1) :
    rowCell (row.set 1 1) k = rowCell row k := by
  simp [rowCell, List.getD_eq_getElem?_getD, other.symm]

/-- The match flag does not move the transitions. -/
theorem bandedNext_set_flag (row : List Nat) (c : UInt8) :
    bandedNext (row.set 1 1) c = bandedNext row c := by
  unfold bandedNext
  rw [rowCell_set_flag row (by decide), rowCell_set_flag row (by decide)]
  by_cases low : c.toNat < rowCell row 3
  · simp [low]
  · rw [if_neg low, if_neg low, rowCell_set_flag row (by omega)]

namespace AcsmStruct2

theorem convFullDFAToBanded_eq (acsm : AcsmStruct2) :
    acsm.convFullDFAToBanded =
      { acsm with
        acsmNextState := fun k => if k < acsm.acsmNumStates then bandedRow (acsm.listConvToFull k)
          else acsm.acsmNextState k } := by
  have walk : ∀ n, (List.range n).foldl (fun (acsm : AcsmStruct2) k =>
      { acsm with
        acsmNextState := Function.update acsm.acsmNextState k (bandedRow (acsm.listConvToFull k)) })
      acsm = { acsm with
        acsmNextState := fun k => if k < n then bandedRow (acsm.listConvToFull k)
          else acsm.acsmNextState k } := by
    intro n
    induction n with
    | zero => rfl
    | succ n ih =>
        rw [List.range_succ, List.foldl_append, ih, List.foldl_cons, List.foldl_nil]
        congr 1
        funext k
        by_cases here : k = n
        · subst here
          simp [listConvToFull]
        · have : k < n + 1 ↔ k < n := by omega
          simp [here, this]
  exact walk _

theorem acsmUpdateMatchStates_eq (acsm : AcsmStruct2) :
    acsm.acsmUpdateMatchStates =
      { acsm with
        acsmNextState := fun k => if k < acsm.acsmNumStates ∧ acsm.acsmMatchList k ≠ [] then
          (acsm.acsmNextState k).set 1 1 else acsm.acsmNextState k } := by
  have walk : ∀ n, (List.range n).foldl (fun (acsm : AcsmStruct2) state =>
      if acsm.acsmMatchList state ≠ [] then
        { acsm with
          acsmNextState := Function.update acsm.acsmNextState state
            ((acsm.acsmNextState state).set 1 1) }
      else acsm)
      acsm = { acsm with
        acsmNextState := fun k => if k < n ∧ acsm.acsmMatchList k ≠ [] then
          (acsm.acsmNextState k).set 1 1 else acsm.acsmNextState k } := by
    intro n
    induction n with
    | zero => simp
    | succ n ih =>
        rw [List.range_succ, List.foldl_append, ih, List.foldl_cons, List.foldl_nil]
        by_cases listed : acsm.acsmMatchList n = []
        · simp only [listed, ne_eq, not_true_eq_false, if_false]
          congr 1
          funext k
          by_cases here : k = n
          · subst here
            simp [listed]
          · have : k < n + 1 ↔ k < n := by omega
            simp [this]
        · simp only [listed, ne_eq, not_false_eq_true, if_true]
          congr 1
          funext k
          by_cases here : k = n
          · subst here
            simp [listed]
          · have : k < n + 1 ↔ k < n := by omega
            simp [here, this]
  exact walk _

end AcsmStruct2

/-! ## The compiled machine -/

/-- The tables of a compiled machine over the entries `ps`. -/
structure Compiled (acsm : AcsmStruct2) (n : Nat) (label : Nat → CStr) (ps : List AcsmPattern2) :
    Prop where
  pos : 0 < n
  root : label 0 = []
  next : ∀ {s}, s < n → ∀ c, bandedNext (acsm.acsmNextState s) c < n ∧
    label (bandedNext (acsm.acsmNextState s) c) = longest (PatternStem ps) (label s ++ [c])
  lists : ∀ {s}, s < n → acsm.acsmMatchList s = endings AcsmPattern2.patrn ps (label s)
  flag : ∀ {s}, s < n → acsm.acsmMatchList s ≠ [] → rowCell (acsm.acsmNextState s) 1 ≠ 0

/-- The value of a converted row. -/
theorem DfaState.fullRow {base acsm : AcsmStruct2} {n : Nat} {label : Nat → CStr}
    {ps : List AcsmPattern2} (trie : Trie base n label (PatternStem ps))
    (state : DfaState base n label ps acsm fun r => r < n) {r : Nat} (below : r < n) (c : UInt8) :
    acsm.listConvToFull r c < n ∧
      label (acsm.listConvToFull r c) = longest (PatternStem ps) (label r ++ [c]) := by
  rw [listConvToFull_eq (state.keys r)]
  have inP := longest_mem (stem_leftClosed AcsmPattern2.patrn ps) (label r ++ [c])
  obtain ⟨j, belowJ, spelled⟩ := (trie.stems _).1 inP
  by_cases nonzero : j = 0
  · subst nonzero
    cases found : lookup (acsm.acsmTransTable r) c with
    | none => exact ⟨trie.pos, spelled⟩
    | some i =>
        obtain ⟨belowI, -, word⟩ := (state.rows r below below c i).1 found
        exact ⟨belowI, word⟩
  · rw [(state.rows r below below c j).2 ⟨belowJ, nonzero, spelled⟩]
    exact ⟨belowJ, spelled⟩

/-- Storing the rows and loading the flags. -/
theorem compiled_of_dfa {base acsm : AcsmStruct2} {n : Nat} {label : Nat → CStr}
    {ps : List AcsmPattern2} (table : NfaTable base n label ps)
    (lists : ∀ s < n, base.acsmMatchList s = endings AcsmPattern2.patrn ps (label s))
    (state : DfaState base n label ps acsm fun r => r < n) :
    Compiled acsm.convFullDFAToBanded.acsmUpdateMatchStates n label ps := by
  have states : acsm.acsmNumStates = n := state.states.trans table.states
  have row : ∀ {s}, s < n → (acsm.convFullDFAToBanded.acsmUpdateMatchStates).acsmNextState s =
      if acsm.acsmMatchList s ≠ [] then (bandedRow (acsm.listConvToFull s)).set 1 1
      else bandedRow (acsm.listConvToFull s) := by
    intro s below
    rw [AcsmStruct2.acsmUpdateMatchStates_eq, AcsmStruct2.convFullDFAToBanded_eq]
    simp [states, below]
  have kept : (acsm.convFullDFAToBanded.acsmUpdateMatchStates).acsmMatchList = base.acsmMatchList := by
    rw [AcsmStruct2.acsmUpdateMatchStates_eq, AcsmStruct2.convFullDFAToBanded_eq]
    exact state.lists
  refine ⟨table.trie.pos, table.trie.root, ?_, ?_, ?_⟩
  · intro s below c
    have transition : bandedNext ((acsm.convFullDFAToBanded.acsmUpdateMatchStates).acsmNextState s) c =
        acsm.listConvToFull s c := by
      rw [row below]
      split
      · rw [bandedNext_set_flag, bandedNext_bandedRow]
      · exact bandedNext_bandedRow _ c
    rw [transition]
    exact state.fullRow table.trie below c
  · intro s below
    rw [kept]
    exact lists s below
  · intro s below listed
    rw [kept, ← state.lists] at listed
    rw [row below, if_pos listed]
    simp [rowCell, bandedRow]

/-- **Compilation.**  It never fails, and the machine is that of the entries in
the order of registration. -/
theorem acsmCompile2_compiled {acsm : AcsmStruct2} {ps : List AcsmPattern2}
    (patterns : acsm.acsmPatterns = ps.reverse) (trans : acsm.acsmTransTable = fun _ => [])
    (lists : acsm.acsmMatchList = fun _ => []) :
    ∃ acsm' n label, acsm.acsmCompile2 = .ok acsm' ∧ Compiled acsm' n label ps := by
  let empty : AcsmStruct2 := { acsm with acsmNumStates := 0 }
  let built := acsm.acsmPatterns.foldl AcsmStruct2.addPatternStates empty
  let counted : AcsmStruct2 := { built with acsmNumStates := built.acsmNumStates + 1 }
  have start : KeywordTable empty (fun _ => []) [] := keywordTable_empty rfl trans lists
  obtain ⟨label, keywords⟩ := keywordTable_of_patterns acsm.acsmPatterns start
  rw [List.nil_append] at keywords
  have sameStem : ∀ w, PatternStem ps w ↔ Stem AcsmPattern2.patrn acsm.acsmPatterns w := by
    intro w
    simp [Stem, patterns]
  have trie : Trie counted (built.acsmNumStates + 1) label (PatternStem ps) :=
    (keywords.trie.iff sameStem).congr rfl
  have ownLists : ∀ {s}, s < built.acsmNumStates + 1 →
      counted.acsmMatchList s = own AcsmPattern2.patrn ps (label s) := by
    intro s below
    refine (keywords.lists s below).trans ?_
    rw [patterns, own, own, List.filter_reverse, List.reverse_reverse]
  obtain ⟨nfa, ranNfa, sameTrans, states, failure, full⟩ := buildNFA_spec trie rfl ownLists
  have table : NfaTable nfa (built.acsmNumStates + 1) label ps :=
    ⟨trie.congr sameTrans, states, failure⟩
  obtain ⟨dfa, ranDfa, state⟩ := convertNFAToDFA_spec table
  refine ⟨dfa.convFullDFAToBanded.acsmUpdateMatchStates, _, label, ?_, compiled_of_dfa table full state⟩
  have chain : acsm.acsmCompile2 = (do
      let acsm ← counted.buildNFA
      let acsm ← acsm.convertNFAToDFA
      return acsm.convFullDFAToBanded.acsmUpdateMatchStates) := rfl
  rw [chain, ranNfa]
  show (nfa.convertNFAToDFA >>= fun acsm => _) = _
  rw [ranDfa]
  rfl

/-- The entry the list item registers. -/
def patternOf (app : AppEntryT) : AcsmPattern2 :=
  { patrn := convertCaseEx app.regex, n := app.regex.length, udata := app.addr, iid := app.appId }

theorem registered (apps : List AppEntryT) :
    apps.foldl (fun acsm app => acsmAddPattern2 acsm app.regex app.addr app.appId) acsmNew2 =
      { acsmNew2 with acsmPatterns := (apps.map patternOf).reverse } := by
  have walk : ∀ (acsm : AcsmStruct2),
      apps.foldl (fun acsm app => acsmAddPattern2 acsm app.regex app.addr app.appId) acsm =
        { acsm with acsmPatterns := (apps.map patternOf).reverse ++ acsm.acsmPatterns } := by
    induction apps with
    | nil => exact fun _ => rfl
    | cons app apps ih =>
        intro acsm
        rw [List.foldl_cons, ih]
        simp [acsmAddPattern2, patternOf]
  simpa [acsmNew2] using walk acsmNew2

theorem sigParseAdapterAc_compiled (apps : List AppEntryT) :
    ∃ acsm n label, sigParseAdapterAc apps = .ok acsm ∧
      Compiled acsm n label (apps.map patternOf) := by
  rw [sigParseAdapterAc, registered]
  exact acsmCompile2_compiled rfl rfl rfl

end Orchid
