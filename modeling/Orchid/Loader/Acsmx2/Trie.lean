/-
# Loader.Acsmx2.Trie -- the keyword state table is the trie of the patterns

States are numbered in the order they are made, so the word that leads to a state
is not visible in the tables.  `Trie acsm n label P` says that the transition
lists of the states below `n` are the trie of the word set `P`, with `label` the
word of each state: no two states share a word, a transition on `c` exists exactly
where the extended word is a state, and the words are exactly `P`.

`addPatternStates` walks down the existing states (`matchUpPattern_spec`) and adds
one state per byte left (`Trie.addState`), so after all patterns the words are the
stems of the pattern texts and each state lists the patterns that spell its word,
in reverse order of registration in the pattern list (`keywordTable_of_patterns`).
-/
import Orchid.Loader.Acsmx2
import Orchid.Theory.Keywords
import Mathlib.Data.List.Basic

namespace Orchid

open Orchid.Theory

set_option autoImplicit false

/-! ## Transition lists -/

/-- The state a transition list leads to on a byte. -/
def lookup (list : List TransNode) (c : UInt8) : Option Nat :=
  (list.find? fun t => t.key == c).map (·.nextState)

@[simp] theorem lookup_nil (c : UInt8) : lookup [] c = none := rfl

theorem lookup_map_reset (list : List TransNode) (c d : UInt8) (s : Nat) :
    lookup (list.map fun t => if t.key == c then { t with nextState := s } else t) d =
      if d = c then (lookup list d).map fun _ => s else lookup list d := by
  induction list with
  | nil => simp
  | cons t list ih =>
      unfold lookup at ih ⊢
      by_cases onC : t.key = c <;> by_cases onD : t.key = d
      · subst onC onD; simp
      · subst onC
        simpa [onD] using ih
      · subst onD
        simp [onC]
      · simpa [onC, onD] using ih

theorem lookup_eq_none_iff {list : List TransNode} {c : UInt8} :
    lookup list c = none ↔ (list.any fun t => t.key == c) = false := by
  simp [lookup]

theorem lookup_putTrans (list : List TransNode) (c d : UInt8) (s : Nat) :
    lookup (AcsmStruct2.putTrans list c s) d = if d = c then some s else lookup list d := by
  unfold AcsmStruct2.putTrans
  split
  · rename_i present
    rw [lookup_map_reset]
    by_cases same : d = c
    · subst same
      have found : lookup list d ≠ none := by
        rw [Ne, lookup_eq_none_iff, present]; simp
      obtain ⟨old, hold⟩ := Option.ne_none_iff_exists'.1 found
      simp [hold]
    · simp [same]
  · by_cases same : d = c
    · subst same; simp [lookup]
    · simp [lookup, same, Ne.symm same]

namespace AcsmStruct2

theorem listGetNextState_eq (acsm : AcsmStruct2) (state : Nat) (c : UInt8) :
    acsm.listGetNextState state c =
      (lookup (acsm.acsmTransTable state) c).or (if state = 0 then some 0 else none) := by
  unfold listGetNextState lookup
  cases (acsm.acsmTransTable state).find? fun t => t.key == c <;> simp

theorem listGetNextState2_eq (acsm : AcsmStruct2) (state : Nat) (c : UInt8) :
    acsm.listGetNextState2 state c = (lookup (acsm.acsmTransTable state) c).getD 0 := by
  unfold listGetNextState2 lookup
  cases (acsm.acsmTransTable state).find? fun t => t.key == c <;> simp

theorem lookup_put (acsm : AcsmStruct2) (i j s : Nat) (c d : UInt8) :
    lookup ((acsm.listPutNextState i c s).acsmTransTable j) d =
      if j = i ∧ d = c then some s else lookup (acsm.acsmTransTable j) d := by
  by_cases atI : j = i
  · subst atI
    simp [listPutNextState, lookup_putTrans]
  · simp [listPutNextState, atI]

theorem keys_putTrans {list : List TransNode} (nodup : (list.map TransNode.key).Nodup)
    (c : UInt8) (s : Nat) : ((putTrans list c s).map TransNode.key).Nodup := by
  unfold putTrans
  split
  · have same : (list.map fun t => if t.key == c then { t with nextState := s } else t).map
        TransNode.key = list.map TransNode.key := by
      rw [List.map_map]
      refine List.map_congr_left fun t _ => ?_
      by_cases h : t.key = c <;> simp [h]
    rwa [same]
  · rename_i absent
    refine List.nodup_cons.2 ⟨fun member => absent ?_, nodup⟩
    obtain ⟨t, inside, rfl⟩ := List.mem_map.1 member
    exact List.any_eq_true.2 ⟨t, inside, beq_self_eq_true _⟩

theorem keys_put (acsm : AcsmStruct2)
    (nodup : ∀ i, ((acsm.acsmTransTable i).map TransNode.key).Nodup) (i s : Nat) (c : UInt8) :
    ∀ j, (((acsm.listPutNextState i c s).acsmTransTable j).map TransNode.key).Nodup := by
  intro j
  by_cases here : j = i
  · subst here
    have := keys_putTrans (nodup j) c s
    simpa [listPutNextState] using this
  · simpa [listPutNextState, here] using nodup j

end AcsmStruct2

/-! ## The trie -/

/-- The transition lists of the states below `n` are the trie of `P`. -/
structure Trie (acsm : AcsmStruct2) (n : Nat) (label : Nat → CStr) (P : CStr → Prop) : Prop where
  pos : 0 < n
  root : label 0 = []
  inj : ∀ {i j}, i < n → j < n → label i = label j → i = j
  trans : ∀ {i}, i < n → ∀ c j,
    lookup (acsm.acsmTransTable i) c = some j ↔ j < n ∧ label j = label i ++ [c]
  stems : ∀ w, P w ↔ ∃ i < n, label i = w
  beyond : ∀ i, n ≤ i → acsm.acsmTransTable i = []
  keys : ∀ i, ((acsm.acsmTransTable i).map TransNode.key).Nodup

namespace Trie

variable {acsm : AcsmStruct2} {n : Nat} {label : Nat → CStr} {P : CStr → Prop}

theorem mem (trie : Trie acsm n label P) {i : Nat} (below : i < n) : P (label i) :=
  (trie.stems _).2 ⟨i, below, rfl⟩

theorem target_ne_zero (trie : Trie acsm n label P) {i j : Nat} {c : UInt8} (below : i < n)
    (edge : lookup (acsm.acsmTransTable i) c = some j) : j ≠ 0 := by
  rintro rfl
  have := ((trie.trans below c 0).1 edge).2
  rw [trie.root] at this
  simp at this

theorem lookup_eq_none (trie : Trie acsm n label P) {i : Nat} {c : UInt8} (below : i < n) :
    lookup (acsm.acsmTransTable i) c = none ↔ ¬ P (label i ++ [c]) := by
  rw [trie.stems]
  constructor
  · rintro none_ ⟨j, belowJ, spelled⟩
    rw [(trie.trans below c j).2 ⟨belowJ, spelled⟩] at none_
    exact absurd none_ (by simp)
  · intro outside
    cases found : lookup (acsm.acsmTransTable i) c with
    | none => rfl
    | some j => exact absurd ⟨j, (trie.trans below c j).1 found⟩ outside

/-- Only the transition lists matter. -/
theorem congr {acsm' : AcsmStruct2} (trie : Trie acsm n label P)
    (same : acsm'.acsmTransTable = acsm.acsmTransTable) : Trie acsm' n label P := by
  constructor
  · exact trie.pos
  · exact trie.root
  · exact trie.inj
  · rw [same]; exact trie.trans
  · exact trie.stems
  · rw [same]; exact trie.beyond
  · rw [same]; exact trie.keys

/-- A new state for one byte: the trie gains the extended word. -/
theorem addState (trie : Trie acsm n label P) (closed : LeftClosed P) {i : Nat} {c : UInt8}
    (below : i < n) (missing : ¬ P (label i ++ [c])) :
    Trie (acsm.listPutNextState i c n) (n + 1) (Function.update label n (label i ++ [c]))
      (fun w => P w ∨ w = label i ++ [c]) := by
  have old : ∀ {j}, j < n → Function.update label n (label i ++ [c]) j = label j := fun h =>
    Function.update_of_ne h.ne _ _
  have unspelled : ∀ {j}, j < n → label j ≠ label i ++ [c] := fun h spelled =>
    missing ((trie.stems _).2 ⟨_, h, spelled⟩)
  have ne : i ≠ n := below.ne
  refine ⟨Nat.succ_pos n, ?_, ?_, ?_, ?_, ?_, acsm.keys_put trie.keys i n c⟩
  · rw [old trie.pos, trie.root]
  · intro j k hj hk same
    rcases Nat.lt_succ_iff_lt_or_eq.1 hj with hj | rfl <;>
      rcases Nat.lt_succ_iff_lt_or_eq.1 hk with hk | rfl
    · rw [old hj, old hk] at same
      exact trie.inj hj hk same
    · rw [old hj, Function.update_self] at same
      exact absurd same (unspelled hj)
    · rw [old hk, Function.update_self] at same
      exact absurd same.symm (unspelled hk)
    · rfl
  · intro j hj d k
    rw [AcsmStruct2.lookup_put]
    rcases Nat.lt_succ_iff_lt_or_eq.1 hj with hj | rfl
    · rw [old hj]
      by_cases here : j = i ∧ d = c
      · obtain ⟨rfl, rfl⟩ := here
        rw [if_pos ⟨rfl, rfl⟩, Option.some.injEq]
        constructor
        · rintro rfl
          exact ⟨Nat.lt_succ_self _, Function.update_self ..⟩
        · rintro ⟨hk, spelled⟩
          rcases Nat.lt_succ_iff_lt_or_eq.1 hk with hk | rfl
          · rw [old hk] at spelled
            exact absurd spelled (unspelled hk)
          · rfl
      · rw [if_neg here, trie.trans hj d k]
        constructor
        · exact fun ⟨hk, spelled⟩ => ⟨hk.trans (Nat.lt_succ_self n), by rw [old hk, spelled]⟩
        · rintro ⟨hk, spelled⟩
          rcases Nat.lt_succ_iff_lt_or_eq.1 hk with hk | rfl
          · exact ⟨hk, by rwa [old hk] at spelled⟩
          · rw [Function.update_self] at spelled
            obtain ⟨sameLabel, sameByte⟩ := List.append_inj' spelled rfl
            exact absurd ⟨(trie.inj below hj sameLabel).symm, (List.cons.inj sameByte).1.symm⟩ here
    · rw [if_neg fun h => ne h.1.symm, trie.beyond j le_rfl, lookup_nil, Function.update_self]
      refine ⟨fun h => absurd h (by simp), fun ⟨hk, spelled⟩ => ?_⟩
      -- the new word has no extension: its left factor would have been a word already
      rcases Nat.lt_succ_iff_lt_or_eq.1 hk with hk | rfl
      · rw [old hk] at spelled
        exact absurd (closed.left ((trie.stems _).2 ⟨k, hk, spelled⟩)) missing
      · rw [Function.update_self] at spelled
        simp at spelled
  · intro w
    rw [trie.stems]
    constructor
    · rintro (⟨j, hj, rfl⟩ | rfl)
      · exact ⟨j, hj.trans (Nat.lt_succ_self n), old hj⟩
      · exact ⟨n, Nat.lt_succ_self n, Function.update_self ..⟩
    · rintro ⟨j, hj, rfl⟩
      rcases Nat.lt_succ_iff_lt_or_eq.1 hj with hj | rfl
      · exact Or.inl ⟨j, hj, (old hj).symm⟩
      · exact Or.inr (Function.update_self ..)
  · intro j hj
    have : j ≠ i := by omega
    exact (Function.update_of_ne this _ _).trans (trie.beyond j (by omega))

theorem iff {Q : CStr → Prop} (trie : Trie acsm n label P) (same : ∀ w, Q w ↔ P w) :
    Trie acsm n label Q := by
  have : Q = P := funext fun w => propext (same w)
  rwa [this]

/-- The walk down the existing states stops where the next byte leaves the trie. -/
theorem matchUpPattern_spec (trie : Trie acsm n label P) (pattern : CStr) {i : Nat} (below : i < n) :
    (acsm.matchUpPattern i pattern).1 < n ∧
      label (acsm.matchUpPattern i pattern).1 ++ (acsm.matchUpPattern i pattern).2 =
        label i ++ pattern ∧
      ∀ c rest, (acsm.matchUpPattern i pattern).2 = c :: rest →
        ¬ P (label (acsm.matchUpPattern i pattern).1 ++ [c]) := by
  induction pattern generalizing i with
  | nil => exact ⟨below, rfl, fun _ _ impossible => absurd impossible (by simp [AcsmStruct2.matchUpPattern])⟩
  | cons c pattern ih =>
      rw [AcsmStruct2.matchUpPattern, AcsmStruct2.listGetNextState_eq]
      cases edge : lookup (acsm.acsmTransTable i) c with
      | none =>
          have stop : ¬ P (label i ++ [c]) := (trie.lookup_eq_none below).1 edge
          by_cases atRoot : i = 0
          · subst atRoot
            simpa using ⟨below, stop⟩
          · simpa [atRoot] using ⟨below, stop⟩
      | some j =>
          have nonzero := trie.target_ne_zero below edge
          obtain ⟨belowJ, spelled⟩ := (trie.trans below c j).1 edge
          obtain ⟨h1, h2, h3⟩ := ih belowJ
          simp only [Option.some_or, if_neg nonzero]
          refine ⟨h1, ?_, h3⟩
          rw [h2, spelled]
          simp

/-- One state per byte left: the trie gains the rest of the pattern. -/
theorem addNewStates_spec (pattern : CStr) :
    ∀ {acsm : AcsmStruct2} {label : Nat → CStr} {P : CStr → Prop} {i : Nat},
      Trie acsm (acsm.acsmNumStates + 1) label P → LeftClosed P → i < acsm.acsmNumStates + 1 →
      (∀ c rest, pattern = c :: rest → ¬ P (label i ++ [c])) →
      ∃ label', Trie (acsm.addNewStates i pattern).1 ((acsm.addNewStates i pattern).1.acsmNumStates + 1)
          label' (fun w => P w ∨ w <+: label i ++ pattern) ∧
        (acsm.addNewStates i pattern).2 < (acsm.addNewStates i pattern).1.acsmNumStates + 1 ∧
        label' (acsm.addNewStates i pattern).2 = label i ++ pattern ∧
        acsm.acsmNumStates ≤ (acsm.addNewStates i pattern).1.acsmNumStates ∧
        (∀ j < acsm.acsmNumStates + 1, label' j = label j) ∧
        (acsm.addNewStates i pattern).1.acsmMatchList = acsm.acsmMatchList := by
  induction pattern with
  | nil =>
      intro acsm label P i trie closed below _
      refine ⟨label, trie.iff fun w => ?_, below, by simp [AcsmStruct2.addNewStates], le_rfl,
        fun _ _ => rfl, rfl⟩
      rw [List.append_nil]
      refine ⟨fun h => h.elim id ?_, Or.inl⟩
      rintro ⟨v, spelled⟩
      exact closed.left (spelled.symm ▸ trie.mem below)
  | cons c pattern ih =>
      intro acsm label P i trie closed below missing
      have stop : ¬ P (label i ++ [c]) := missing c pattern rfl
      let acsm' := ({ acsm with acsmNumStates := acsm.acsmNumStates + 1 } : AcsmStruct2).listPutNextState
        i c (acsm.acsmNumStates + 1)
      let label' := Function.update label (acsm.acsmNumStates + 1) (label i ++ [c])
      have next : Trie acsm' (acsm'.acsmNumStates + 1) label' (fun w => P w ∨ w = label i ++ [c]) :=
        (trie.addState closed below stop).congr rfl
      have newLabel : label' acsm'.acsmNumStates = label i ++ [c] := Function.update_self ..
      have closed' : LeftClosed fun w => P w ∨ w = label i ++ [c] := by
        refine ⟨Or.inl closed.nil, ?_⟩
        rintro u v (inP | same)
        · exact Or.inl (closed.left inP)
        · rcases List.eq_nil_or_concat v with rfl | ⟨v, d, rfl⟩
          · exact Or.inr (by simpa using same)
          · rw [List.concat_eq_append, ← List.append_assoc] at same
            have := (List.append_inj' same rfl).1
            exact Or.inl (closed.left (this.symm ▸ trie.mem below))
      have missing' : ∀ d rest, pattern = d :: rest →
          ¬ (P (label' acsm'.acsmNumStates ++ [d]) ∨
            label' acsm'.acsmNumStates ++ [d] = label i ++ [c]) := by
        intro d rest _
        rw [newLabel]
        rintro (inP | same)
        · exact stop (closed.left inP)
        · simp at same
      obtain ⟨label'', trie'', h1, h2, h3, h4, h5⟩ :=
        ih next closed' (Nat.lt_succ_self _) missing'
      refine ⟨label'', trie''.iff fun w => ?_, h1, ?_, (Nat.le_succ _).trans h3, fun j hj => ?_, h5⟩
      · have regroup : label' acsm'.acsmNumStates ++ pattern = label i ++ c :: pattern := by
          rw [newLabel]; simp
        rw [regroup]
        constructor
        · exact fun h => h.imp_left Or.inl
        · rintro ((h | rfl) | h)
          · exact Or.inl h
          · exact Or.inr ⟨pattern, by simp⟩
          · exact Or.inr h
      · exact h2.trans (by rw [newLabel]; simp)
      · exact (h4 j (Nat.lt_succ_of_lt hj)).trans (Function.update_of_ne hj.ne _ _)

end Trie

/-! ## All patterns -/

/-- After the patterns `ps`: the trie of their stems, and at each state the
patterns that spell its word, the last added first. -/
structure KeywordTable (acsm : AcsmStruct2) (label : Nat → CStr) (ps : List AcsmPattern2) : Prop where
  trie : Trie acsm (acsm.acsmNumStates + 1) label (Stem AcsmPattern2.patrn ps)
  lists : ∀ i < acsm.acsmNumStates + 1,
    acsm.acsmMatchList i = (own AcsmPattern2.patrn ps (label i)).reverse
  empty : ∀ i, acsm.acsmNumStates + 1 ≤ i → acsm.acsmMatchList i = []

theorem stem_snoc (ps : List AcsmPattern2) (p : AcsmPattern2) (w : CStr) :
    Stem AcsmPattern2.patrn (ps ++ [p]) w ↔ Stem AcsmPattern2.patrn ps w ∨ w <+: p.patrn := by
  simp only [Stem, List.mem_append, List.mem_singleton]
  constructor
  · rintro (rfl | ⟨q, member | rfl, h⟩)
    · exact Or.inl (Or.inl rfl)
    · exact Or.inl (Or.inr ⟨q, member, h⟩)
    · exact Or.inr h
  · rintro ((rfl | ⟨q, member, h⟩) | h)
    · exact Or.inl rfl
    · exact Or.inr ⟨q, Or.inl member, h⟩
    · exact Or.inr ⟨p, Or.inr rfl, h⟩

theorem own_eq_nil {ps : List AcsmPattern2} {w : CStr} (outside : ¬ Stem AcsmPattern2.patrn ps w) :
    own AcsmPattern2.patrn ps w = [] := by
  rw [List.eq_nil_iff_forall_not_mem]
  intro q member
  obtain ⟨inside, rfl⟩ := (mem_own _ _).1 member
  exact outside (stem_text _ _ inside)

/-- Adding one pattern. -/
theorem KeywordTable.addPattern {acsm : AcsmStruct2} {label : Nat → CStr} {ps : List AcsmPattern2}
    (table : KeywordTable acsm label ps) (p : AcsmPattern2) :
    ∃ label', KeywordTable (acsm.addPatternStates p) label' (ps ++ [p]) := by
  obtain ⟨h1, h2, h3⟩ := table.trie.matchUpPattern_spec p.patrn (Nat.succ_pos acsm.acsmNumStates)
  rw [table.trie.root, List.nil_append] at h2
  obtain ⟨label', trie', g1, g2, g3, g4, g5⟩ :=
    Trie.addNewStates_spec _ table.trie (stem_leftClosed _ ps) h1 h3
  rw [h2] at trie' g2
  let state := (acsm.addNewStates (acsm.matchUpPattern 0 p.patrn).1
    (acsm.matchUpPattern 0 p.patrn).2).2
  have trieNew : Trie (acsm.addPatternStates p) ((acsm.addPatternStates p).acsmNumStates + 1) label'
      (Stem AcsmPattern2.patrn (ps ++ [p])) := (trie'.iff fun w => stem_snoc ps p w).congr rfl
  have listsNew : (acsm.addPatternStates p).acsmMatchList =
      Function.update acsm.acsmMatchList state (p :: acsm.acsmMatchList state) := by
    rw [← g5]; rfl
  have before : ∀ i < (acsm.addPatternStates p).acsmNumStates + 1,
      acsm.acsmMatchList i = (own AcsmPattern2.patrn ps (label' i)).reverse := by
    intro i hi
    by_cases old : i < acsm.acsmNumStates + 1
    · rw [table.lists i old, g4 i old]
    · -- a state made for this pattern: no earlier pattern spells its word
      rw [table.empty i (Nat.not_lt.1 old), own_eq_nil, List.reverse_nil]
      intro stem
      obtain ⟨j, hj, spelled⟩ := (table.trie.stems _).1 stem
      rw [← g4 j hj] at spelled
      have belowJ : j < (acsm.addPatternStates p).acsmNumStates + 1 :=
        hj.trans_le (Nat.succ_le_succ g3)
      exact old (trieNew.inj belowJ hi spelled ▸ hj)
  refine ⟨label', trieNew, fun i hi => ?_, fun i hi => ?_⟩
  · rw [listsNew, own, List.filter_append, List.reverse_append]
    by_cases here : i = state
    · subst here
      have spelled : p.patrn = label' state := g2.symm
      rw [Function.update_self, before _ hi, own]
      simp [spelled]
    · have other : p.patrn ≠ label' i := fun same => here (trieNew.inj hi g1 (same.symm.trans g2.symm))
      rw [Function.update_of_ne here, before _ hi, own]
      simp [other]
  · rw [listsNew, Function.update_of_ne (fun h => absurd g1 (by subst h; exact Nat.not_lt.2 hi))]
    exact table.empty i ((Nat.succ_le_succ g3).trans hi)

/-- The state table of a pattern list, built from an empty one. -/
theorem keywordTable_of_patterns (ps : List AcsmPattern2) {acsm : AcsmStruct2} {label : Nat → CStr}
    {qs : List AcsmPattern2} (table : KeywordTable acsm label qs) :
    ∃ label', KeywordTable (ps.foldl AcsmStruct2.addPatternStates acsm) label' (qs ++ ps) := by
  induction ps generalizing acsm label qs with
  | nil => exact ⟨label, by simpa using table⟩
  | cons p ps ih =>
      obtain ⟨label', next⟩ := table.addPattern p
      obtain ⟨label'', final⟩ := ih next
      exact ⟨label'', by simpa using final⟩

theorem keywordTable_empty {acsm : AcsmStruct2} (states : acsm.acsmNumStates = 0)
    (trans : acsm.acsmTransTable = fun _ => []) (lists : acsm.acsmMatchList = fun _ => []) :
    KeywordTable acsm (fun _ => []) [] := by
  refine ⟨⟨by omega, rfl, fun hi hj _ => by omega, fun _ c j => ?_, fun w => ?_, fun i _ => by rw [trans],
    fun i => by rw [trans]; exact List.nodup_nil⟩,
    fun i _ => by rw [lists]; rfl, fun i _ => by rw [lists]⟩
  · simp [trans]
  · simp only [Stem, List.not_mem_nil, false_and, exists_false, or_false]
    constructor
    · intro empty
      exact ⟨0, by omega, empty.symm⟩
    · rintro ⟨_, _, empty⟩
      exact empty.symm

end Orchid
