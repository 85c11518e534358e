/-
# RegexParse.Minimise -- rows that are alike become one

`minimise` compares the rows of a table, keeps the first one of those that are alike,
and numbers the targets anew; it does so until a pass finds nothing.  The jam row is left
out of the comparison.

`Merges` says how the rows of one table stand for those of another.  It composes, so a
pass is all there is to look at (`SoundRows.minimiseDfa`).  What a minimised table reads,
and the values of its end rows, are those of the table it was made of
(`LexTable.minimise_run`), and no two of its rows are alike (`LexTable.minimise_apart`).
It need not be the smallest such table: rows that lead to each other in a circle are
never found alike.
-/
import Orchid.RegexParse.Build

namespace Orchid

open Orchid.Theory

set_option autoImplicit false

/-! ## minimise -/

/-- A row with all its columns, as `memcmp` sees it. -/
def tableRow (alphabet : Nat) (dfa : List Uint) (i : Nat) : List Uint := (dfa.drop (i * alphabet)).take alphabet

/-- `lookup_`, `index_set_` and `new_index_`. -/
structure Merge where
  lookup : List Uint
  indexSet : List Nat
  newIndex : Nat

/-- A later row, if it is like the row `index`. -/
def mergeRow (alphabet : Nat) (dfa : List Uint) (index : Nat) (merge : Merge) (curr : Nat) : Merge :=
  if curr ∈ merge.indexSet then merge
  else if tableRow alphabet dfa index = tableRow alphabet dfa curr then
    { merge with
      lookup := merge.lookup.set curr (BitVec.ofNat 32 merge.newIndex)
      indexSet := setInsert curr merge.indexSet }
  else merge

def mergeRows (alphabet : Nat) (dfa : List Uint) (rows : Nat) (merge : Merge) (index : Nat) : Merge :=
  let merge := (List.range' (index + 1) (rows - (index + 1))).foldl (mergeRow alphabet dfa index) merge
  if merge.lookup[index]?.getD 0 = npos then
    { merge with
      lookup := merge.lookup.set index (BitVec.ofNat 32 merge.newIndex)
      newIndex := merge.newIndex + 1 }
  else merge

def mergeAll (alphabet : Nat) (dfa : List Uint) : Merge :=
  let rows := dfa.length / alphabet
  (List.range' 1 (rows - 1)).foldl (mergeRows alphabet dfa rows) ⟨(List.replicate rows npos).set 0 0, [], 1⟩

/-- Targets go through the lookup; nothing is written into the dead column. -/
def mergedRow (lookup row : List Uint) : List Uint :=
  row.mapIdx fun c value =>
    if c < eolIndex then value else if c = deadStateIndex then 0 else lookup[value.toNat]?.getD 0

/-- The rows but the jam row that are kept. -/
def keptRows (rows : Nat) (merge : Merge) : List Nat := (List.range' 1 (rows - 1)).filter (· ∉ merge.indexSet)

/-- The jam row; the row for the beginning of a line is numbered anew as well. -/
def mergedJam (alphabet : Nat) (dfa lookup : List Uint) : List Uint :=
  let jam := tableRow alphabet dfa 0
  if dfa.headD 0 ≠ 0 then jam.set 0 (lookup[(dfa.headD 0).toNat]?.getD 0) else jam

def mergedTable (alphabet : Nat) (dfa lookup : List Uint) (kept : List Nat) : List Uint :=
  mergedJam alphabet dfa lookup ++ kept.flatMap fun index => mergedRow lookup (tableRow alphabet dfa index)

/-- `minimise_dfa`. -/
def minimiseDfa (alphabet : Nat) (dfa : List Uint) : List Uint :=
  let merge := mergeAll alphabet dfa
  if merge.indexSet = [] then dfa
  else mergedTable alphabet dfa merge.lookup (keptRows (dfa.length / alphabet) merge)

theorem length_mergedRow (lookup row : List Uint) : (mergedRow lookup row).length = row.length := List.length_mapIdx

theorem length_tableRow_le (alphabet : Nat) (dfa : List Uint) (i : Nat) : (tableRow alphabet dfa i).length ≤ alphabet :=
  List.length_take_le ..

theorem length_flatMap_le {α β : Type} {f : α → List β} {n : Nat} (each : ∀ a, (f a).length ≤ n) (l : List α) :
    (l.flatMap f).length ≤ l.length * n := by
  induction l with
  | nil => simp
  | cons a l ih =>
      rw [List.flatMap_cons, List.length_append, List.length_cons, Nat.succ_mul, Nat.add_comm]
      exact Nat.add_le_add ih (each a)

theorem length_mergedJam (alphabet : Nat) (dfa lookup : List Uint) :
    (mergedJam alphabet dfa lookup).length = (tableRow alphabet dfa 0).length := by
  unfold mergedJam
  dsimp only
  split
  · exact List.length_set
  · rfl

/-- A pass adds no rows. -/
theorem length_minimiseDfa_le (alphabet : Nat) (dfa : List Uint) : (minimiseDfa alphabet dfa).length ≤ dfa.length := by
  unfold minimiseDfa
  dsimp only
  split
  · exact Nat.le_refl _
  · next nonempty =>
    have rows : 1 ≤ dfa.length / alphabet := by
      by_contra none_
      refine nonempty ?_
      unfold mergeAll
      rw [Nat.lt_one_iff.1 (Nat.not_le.1 none_)]
      rfl
    have jam := (length_mergedJam alphabet dfa (mergeAll alphabet dfa).lookup).trans_le (length_tableRow_le alphabet dfa 0)
    have each := fun index => (length_mergedRow (mergeAll alphabet dfa).lookup (tableRow alphabet dfa index)).trans_le
      (length_tableRow_le alphabet dfa index)
    have count : (keptRows (dfa.length / alphabet) (mergeAll alphabet dfa)).length ≤ dfa.length / alphabet - 1 :=
      (List.length_filter_le ..).trans (Nat.le_of_eq List.length_range')
    rw [mergedTable, List.length_append]
    calc _ ≤ alphabet + (dfa.length / alphabet - 1) * alphabet :=
          Nat.add_le_add jam ((length_flatMap_le each _).trans (Nat.mul_le_mul_right _ count))
      _ = dfa.length / alphabet * alphabet := by
          rw [Nat.add_comm, ← Nat.succ_mul, Nat.succ_eq_add_one, Nat.sub_add_cancel rows]
      _ ≤ dfa.length := Nat.div_mul_le_self ..

/-- The passes, until the size stays. -/
def minimiseLoop (alphabet : Nat) (dfa : List Uint) : List Uint :=
  let next := minimiseDfa alphabet dfa
  if next.length = dfa.length then next else minimiseLoop alphabet next
termination_by dfa.length
decreasing_by exact Nat.lt_of_le_of_ne (length_minimiseDfa_le alphabet dfa) (by assumption)

/-- `minimise` for a machine with one lexer state. -/
def LexTable.minimise (table : LexTable) : LexTable :=
  if table.alphabet ≠ 0 then { table with dfa := minimiseLoop table.alphabet table.dfa } else table

/-! ## Which rows are kept -/

section Merging

variable {alphabet : Nat} {dfa : List Uint}

/-- What the inner loop has done: the rows like the row `index` that were in no set are in the set. -/
structure Swept (alphabet : Nat) (dfa : List Uint) (index : Nat) (currs : List Nat) (merge merge' : Merge) : Prop where
  length : merge'.lookup.length = merge.lookup.length
  next : merge'.newIndex = merge.newIndex
  indexSet : ∀ c, c ∈ merge'.indexSet ↔ c ∈ merge.indexSet ∨ c ∈ currs ∧ tableRow alphabet dfa index = tableRow alphabet dfa c
  old : ∀ c, c ∉ merge'.indexSet ∨ c ∈ merge.indexSet → merge'.lookup[c]? = merge.lookup[c]?
  new : ∀ c < merge.lookup.length, c ∈ merge'.indexSet → c ∉ merge.indexSet →
    merge'.lookup[c]? = some (BitVec.ofNat 32 merge.newIndex)

theorem mergeRow_swept (index : Nat) (merge : Merge) (curr : Nat) :
    Swept alphabet dfa index [curr] merge (mergeRow alphabet dfa index merge curr) := by
  unfold mergeRow
  by_cases seen : curr ∈ merge.indexSet
  · rw [if_pos seen]
    refine ⟨rfl, rfl, fun c => ?_, fun _ _ => rfl, fun c _ here free => absurd here free⟩
    refine ⟨Or.inl, fun here => here.elim id ?_⟩
    rintro ⟨same, -⟩
    rwa [List.mem_singleton.1 same]
  · rw [if_neg seen]
    by_cases alike : tableRow alphabet dfa index = tableRow alphabet dfa curr
    · rw [if_pos alike]
      have sets : ∀ c, c ∈ setInsert curr merge.indexSet ↔
          c ∈ merge.indexSet ∨ c ∈ [curr] ∧ tableRow alphabet dfa index = tableRow alphabet dfa c := by
        intro c
        rw [mem_setInsert, or_comm, List.mem_singleton]
        refine or_congr_right (iff_self_and.2 ?_)
        rintro rfl
        exact alike
      refine ⟨List.length_set, rfl, sets, fun c free => ?_, fun c inside here free => ?_⟩
      · refine List.getElem?_set_ne fun same => ?_
        rcases free with free | free
        · exact free (mem_setInsert.2 (Or.inl same.symm))
        · exact seen (same ▸ free)
      · obtain rfl := (mem_setInsert.1 here).resolve_right free
        exact List.getElem?_set_self inside
    · rw [if_neg alike]
      refine ⟨rfl, rfl, fun c => ⟨Or.inl, fun here => here.elim id ?_⟩, fun _ _ => rfl, fun c _ here free => absurd here free⟩
      rintro ⟨same, alike'⟩
      rw [List.mem_singleton.1 same] at alike'
      exact absurd alike' alike

theorem Swept.cons {index curr : Nat} {currs : List Nat} {merge merge' merge'' : Merge}
    (first : Swept alphabet dfa index [curr] merge merge') (rest : Swept alphabet dfa index currs merge' merge'') :
    Swept alphabet dfa index (curr :: currs) merge merge'' where
  length := rest.length.trans first.length
  next := rest.next.trans first.next
  indexSet c := by
    rw [rest.indexSet, first.indexSet, List.mem_singleton, or_assoc, ← or_and_right, ← List.mem_cons]
  old c free := by
    have grown : c ∈ merge'.indexSet → c ∈ merge''.indexSet := fun here => (rest.indexSet c).2 (Or.inl here)
    have kept : c ∈ merge.indexSet → c ∈ merge'.indexSet := fun here => (first.indexSet c).2 (Or.inl here)
    rw [rest.old c (free.imp_right kept), first.old c (free.imp_left fun free here => free (grown here))]
  new c inside here free := by
    by_cases before : c ∈ merge'.indexSet
    · rw [rest.old c (Or.inr before)]
      exact first.new c inside before free
    · rw [rest.new c (first.length ▸ inside) here before, first.next]

theorem foldl_mergeRow (index : Nat) (currs : List Nat) : ∀ merge,
    Swept alphabet dfa index currs merge (currs.foldl (mergeRow alphabet dfa index) merge) := by
  induction currs with
  | nil =>
      intro merge
      exact ⟨rfl, rfl, by simp, fun _ _ => rfl, fun c _ here free => absurd here free⟩
  | cons curr currs ih => exact fun merge => (mergeRow_swept index merge curr).cons (ih _)

/-- The rows before `index` have been looked at; `kept` are those of them that are kept.  A row that has a number has
that of a kept row it is like. -/
structure Merging (alphabet : Nat) (dfa : List Uint) (rows index : Nat) (kept : List Nat) (merge : Merge) : Prop where
  length : merge.lookup.length = rows
  zero : merge.lookup[0]? = some 0
  next : merge.newIndex = kept.length + 1
  kept_ : kept = (List.range' 1 (index - 1)).filter (· ∉ merge.indexSet)
  indexSet : ∀ c, c ∈ merge.indexSet ↔ c < rows ∧ ∃ j ∈ kept, j < c ∧ tableRow alphabet dfa j = tableRow alphabet dfa c
  found : ∀ c < rows, 1 ≤ c → c < index ∨ c ∈ merge.indexSet → ∃ v f, merge.lookup[c]? = some (BitVec.ofNat 32 (v + 1)) ∧
    kept[v]? = some f ∧ tableRow alphabet dfa f = tableRow alphabet dfa c
  fresh : ∀ c < rows, index ≤ c → c ∉ merge.indexSet → merge.lookup[c]? = some npos
  apart : kept.Pairwise fun i j => tableRow alphabet dfa i ≠ tableRow alphabet dfa j

variable {rows index : Nat} {kept : List Nat} {merge : Merge}

theorem Merging.mem_kept (merging : Merging alphabet dfa rows index kept merge) {j : Nat} :
    j ∈ kept ↔ (1 ≤ j ∧ j < index) ∧ j ∉ merge.indexSet := by
  rw [merging.kept_, List.mem_filter, List.mem_range'_1, decide_eq_true_iff]
  exact and_congr_left fun _ => by omega

theorem Merging.length_le (merging : Merging alphabet dfa rows index kept merge) : kept.length ≤ index - 1 := by
  rw [merging.kept_]
  exact (List.length_filter_le ..).trans (Nat.le_of_eq List.length_range')

theorem mem_later (below : index < rows) {c : Nat} : c ∈ List.range' (index + 1) (rows - (index + 1)) ↔ index < c ∧ c < rows := by
  rw [List.mem_range'_1]
  omega

theorem Merging.not_zero (merging : Merging alphabet dfa rows index kept merge) : 0 ∉ merge.indexSet := by
  rw [merging.indexSet]
  rintro ⟨-, j, -, less, -⟩
  cases less

theorem kept_succ (positive : 1 ≤ index) (p : Nat → Bool) :
    (List.range' 1 (index + 1 - 1)).filter p = (List.range' 1 (index - 1)).filter p ++ [index].filter p := by
  obtain ⟨n, rfl⟩ : ∃ n, index = n + 1 := ⟨index - 1, by omega⟩
  rw [Nat.add_sub_cancel, Nat.add_sub_cancel, List.range'_concat, List.filter_append, Nat.one_mul, Nat.add_comm 1]

/-- The row `index` is like a kept one: nothing changes. -/
theorem Merging.seen (merging : Merging alphabet dfa rows index kept merge) (positive : 1 ≤ index) (below : index < rows)
    (few : rows < npos.toNat) (here : index ∈ merge.indexSet) :
    Merging alphabet dfa rows (index + 1) kept (mergeRows alphabet dfa rows merge index) := by
  have swept := @foldl_mergeRow alphabet dfa index (List.range' (index + 1) (rows - (index + 1))) merge
  unfold mergeRows
  dsimp only
  generalize (List.range' (index + 1) (rows - (index + 1))).foldl (mergeRow alphabet dfa index) merge = merge' at swept
  have same : ∀ c, c ∈ merge'.indexSet ↔ c ∈ merge.indexSet := by
    intro c
    rw [swept.indexSet, or_iff_left_iff_imp]
    rintro ⟨later, alike⟩
    obtain ⟨after, inside⟩ := (mem_later below).1 later
    obtain ⟨-, j, member, less, alike'⟩ := (merging.indexSet index).1 here
    exact (merging.indexSet c).2 ⟨inside, j, member, less.trans after, alike'.trans alike⟩
  have old : ∀ c, merge'.lookup[c]? = merge.lookup[c]? := fun c => swept.old c <| by
    rw [same]
    exact (em _).symm
  have numbered : ¬ merge'.lookup[index]?.getD 0 = npos := by
    obtain ⟨v, f, at_, there, -⟩ := merging.found index below positive (Or.inr here)
    have less := (List.getElem?_eq_some_iff.1 there).1
    have count := merging.length_le
    rw [old, at_]
    intro last
    have value := congrArg BitVec.toNat last
    simp only [Option.getD_some, BitVec.toNat_ofNat] at value
    have bound : npos.toNat < 2 ^ 32 := npos.isLt
    rw [Nat.mod_eq_of_lt (by omega)] at value
    omega
  rw [if_neg numbered]
  refine ⟨swept.length.trans merging.length, (old 0).trans merging.zero, swept.next.trans merging.next, ?_, fun c => ?_,
    fun c inside nonempty known => ?_, fun c inside later free => ?_, merging.apart⟩
  · rw [kept_succ positive, List.filter_singleton, decide_eq_false (not_not.2 ((same index).2 here)), merging.kept_]
    simp only [same, cond_false, List.append_nil]
  · rw [same, merging.indexSet]
  · rw [old]
    refine merging.found c inside nonempty ?_
    rw [same] at known
    rcases known with less | known
    · rcases Nat.lt_succ_iff_lt_or_eq.1 less with less | rfl
      · exact Or.inl less
      · exact Or.inr here
    · exact Or.inr known
  · rw [old]
    exact merging.fresh c inside (Nat.le_of_succ_le later) ((same c).not.1 free)

/-- The row `index` is kept. -/
theorem Merging.keep (merging : Merging alphabet dfa rows index kept merge) (positive : 1 ≤ index) (below : index < rows)
    (free : index ∉ merge.indexSet) :
    Merging alphabet dfa rows (index + 1) (kept ++ [index]) (mergeRows alphabet dfa rows merge index) := by
  have swept := @foldl_mergeRow alphabet dfa index (List.range' (index + 1) (rows - (index + 1))) merge
  unfold mergeRows
  dsimp only
  generalize (List.range' (index + 1) (rows - (index + 1))).foldl (mergeRow alphabet dfa index) merge = merge' at swept
  have sets : ∀ c, c ∈ merge'.indexSet ↔
      c ∈ merge.indexSet ∨ (index < c ∧ c < rows) ∧ tableRow alphabet dfa index = tableRow alphabet dfa c := fun c => by
    rw [swept.indexSet, mem_later below]
  have same : ∀ c ≤ index, c ∈ merge'.indexSet ↔ c ∈ merge.indexSet := by
    intro c early
    rw [sets, or_iff_left]
    rintro ⟨⟨later, -⟩, -⟩
    omega
  have fresh : merge'.lookup[index]? = some npos := by
    rw [swept.old index (Or.inl ((same index (Nat.le_refl _)).not.2 free))]
    exact merging.fresh index below (Nat.le_refl _) free
  have inside' : index < merge'.lookup.length := by
    rw [swept.length, merging.length]
    exact below
  have last : (kept ++ [index])[kept.length]? = some index := List.getElem?_concat_length ..
  rw [if_pos (by rw [fresh]; rfl)]
  refine ⟨List.length_set.trans (swept.length.trans merging.length), ?_, ?_, ?_, fun c => ?_,
    fun c inside nonempty known => ?_, fun c inside later free' => ?_, ?_⟩
  · show (merge'.lookup.set index _)[0]? = _
    rw [List.getElem?_set_ne (by omega), swept.old 0 (Or.inl ((same 0 (Nat.zero_le _)).not.2 merging.not_zero))]
    exact merging.zero
  · show merge'.newIndex + 1 = _
    rw [swept.next, merging.next, List.length_append]
    rfl
  · rw [kept_succ positive, List.filter_singleton, decide_eq_true ((same index (Nat.le_refl _)).not.2 free), merging.kept_]
    simp only [cond_true]
    congr 1
    refine List.filter_congr fun c member => ?_
    rw [List.mem_range'_1] at member
    exact decide_eq_decide.2 (same c (by omega)).not.symm
  · show c ∈ merge'.indexSet ↔ _
    rw [sets, merging.indexSet]
    constructor
    · rintro (⟨inside, j, member, less, alike⟩ | ⟨⟨later, inside⟩, alike⟩)
      · exact ⟨inside, j, List.mem_append_left _ member, less, alike⟩
      · exact ⟨inside, index, by simp, later, alike⟩
    · rintro ⟨inside, j, member, less, alike⟩
      rcases List.mem_append.1 member with member | member
      · exact Or.inl ⟨inside, j, member, less, alike⟩
      · obtain rfl := List.mem_singleton.1 member
        exact Or.inr ⟨⟨less, inside⟩, alike⟩
  · show ∃ v f, (merge'.lookup.set index _)[c]? = _ ∧ _
    rw [swept.next, merging.next]
    by_cases this : c = index
    · obtain rfl := this
      exact ⟨kept.length, c, List.getElem?_set_self inside', last, rfl⟩
    · rw [List.getElem?_set_ne (Ne.symm this)]
      by_cases before : c < index ∨ c ∈ merge.indexSet
      · obtain ⟨v, f, at_, there, alike⟩ := merging.found c inside nonempty before
        refine ⟨v, f, ?_, ?_, alike⟩
        · rw [swept.old c, at_]
          rcases before with less | old
          · rw [same c (Nat.le_of_lt less)]
            exact (em _).symm
          · exact Or.inr old
        · rw [List.getElem?_append_left (List.getElem?_eq_some_iff.1 there).1]
          exact there
      · have new : c ∈ merge'.indexSet := known.resolve_left fun less => before (Or.inl (by omega))
        refine ⟨kept.length, index, ?_, last, ?_⟩
        · rw [swept.new c (by rw [merging.length]; exact inside) new fun old => before (Or.inr old), merging.next]
        · exact (((sets c).1 new).resolve_left fun old => before (Or.inr old)).2
  · show (merge'.lookup.set index _)[c]? = _
    rw [List.getElem?_set_ne (by omega), swept.old c (Or.inl free')]
    exact merging.fresh c inside (Nat.le_of_succ_le later) fun old => free' ((sets c).2 (Or.inl old))
  · refine List.pairwise_append.2 ⟨merging.apart, List.pairwise_singleton .., fun j member i single alike => free ?_⟩
    rw [List.mem_singleton.1 single] at alike
    exact (merging.indexSet index).2 ⟨below, j, member, (merging.mem_kept.1 member).1.2, alike⟩

/-- One round of the outer loop. -/
theorem Merging.step (merging : Merging alphabet dfa rows index kept merge) (positive : 1 ≤ index) (below : index < rows)
    (few : rows < npos.toNat) : ∃ kept', Merging alphabet dfa rows (index + 1) kept' (mergeRows alphabet dfa rows merge index) := by
  by_cases here : index ∈ merge.indexSet
  · exact ⟨kept, merging.seen positive below few here⟩
  · exact ⟨kept ++ [index], merging.keep positive below here⟩

theorem Merging.loop (few : rows < npos.toNat) {n : Nat} : ∀ {index : Nat} {kept : List Nat} {merge : Merge},
    Merging alphabet dfa rows index kept merge → 1 ≤ index → index + n = rows →
      ∃ kept', Merging alphabet dfa rows rows kept' ((List.range' index n).foldl (mergeRows alphabet dfa rows) merge) := by
  induction n with
  | zero =>
      rintro index kept merge merging - rfl
      exact ⟨kept, merging⟩
  | succ n ih =>
      intro index kept merge merging positive whole
      obtain ⟨kept', next⟩ := merging.step positive (by omega) few
      exact ih next (Nat.le_succ_of_le positive) (by omega)

theorem merging_start (nonempty : 1 ≤ rows) :
    Merging alphabet dfa rows 1 [] ⟨(List.replicate rows npos).set 0 0, [], 1⟩ where
  length := by simp
  zero := List.getElem?_set_self (by rw [List.length_replicate]; exact nonempty)
  next := rfl
  kept_ := rfl
  indexSet := by simp
  found c _ positive known := by
    rcases known with less | impossible
    · omega
    · cases impossible
  fresh c inside positive _ := by
    rw [List.getElem?_set_ne (by omega), List.getElem?_replicate, if_pos inside]
  apart := List.Pairwise.nil

/-- **What a pass finds.** -/
theorem mergeAll_merging (length : dfa.length = alphabet * rows) (wide : 0 < alphabet) (nonempty : 1 ≤ rows) (few : rows < npos.toNat) :
    Merging alphabet dfa rows rows (keptRows rows (mergeAll alphabet dfa)) (mergeAll alphabet dfa) := by
  have count : dfa.length / alphabet = rows := by rw [length, Nat.mul_div_cancel_left _ wide]
  obtain ⟨kept, merging⟩ := (@merging_start alphabet dfa rows nonempty).loop few (n := rows - 1)
    (Nat.le_refl 1) (by omega)
  have all : mergeAll alphabet dfa =
      (List.range' 1 (rows - 1)).foldl (mergeRows alphabet dfa rows) ⟨(List.replicate rows npos).set 0 0, [], 1⟩ := by
    unfold mergeAll
    rw [count]
  rw [← all] at merging
  rwa [keptRows, ← merging.kept_]

end Merging

/-! ## What the rows of the new table are -/

section Cells

variable {alphabet : Nat} {dfa : List Uint}

theorem cellAt_tableRow {r c : Nat} (inside : c < alphabet) :
    cellAt alphabet dfa r c = (tableRow alphabet dfa r)[c]?.getD 0 := by
  unfold cellAt tableRow
  rw [List.getElem?_take_of_lt inside, List.getElem?_drop]

theorem length_tableRow {rows r : Nat} (length : dfa.length = alphabet * rows) (inside : r < rows) :
    (tableRow alphabet dfa r).length = alphabet := by
  have behind : (r + 1) * alphabet ≤ rows * alphabet := Nat.mul_le_mul_right _ inside
  rw [Nat.succ_mul] at behind
  unfold tableRow
  rw [List.length_take, List.length_drop, length, Nat.mul_comm alphabet]
  omega

/-- Cells of a table that is put together from rows. -/
theorem cellAt_flatten {table : List (List Uint)} (each : ∀ row ∈ table, row.length = alphabet) {r : Nat} {row : List Uint}
    (here : table[r]? = some row) {c : Nat} (inside : c < alphabet) : cellAt alphabet table.flatten r c = row[c]?.getD 0 := by
  induction table generalizing r with
  | nil => cases here
  | cons first table ih =>
      have length := each first List.mem_cons_self
      unfold cellAt at ih ⊢
      rw [List.flatten_cons]
      cases r with
      | zero =>
          obtain rfl := Option.some.inj here
          rw [Nat.zero_mul, Nat.zero_add, List.getElem?_append_left (length ▸ inside)]
      | succ r =>
          rw [List.getElem?_append_right (by rw [length, Nat.succ_mul]; omega), length,
            show (r + 1) * alphabet + c - alphabet = r * alphabet + c by rw [Nat.succ_mul]; omega]
          exact ih (fun other member => each other (List.mem_cons_of_mem _ member)) here

theorem length_flatten_rows {table : List (List Uint)} (each : ∀ row ∈ table, row.length = alphabet) :
    table.flatten.length = alphabet * table.length := by
  rw [List.length_flatten, List.map_congr_left each, List.map_const', List.sum_replicate_nat, Nat.mul_comm]

theorem getElem?_mergedRow {lookup row : List Uint} {c : Nat} {value : Uint} (here : row[c]? = some value) :
    (mergedRow lookup row)[c]? =
      some (if c < eolIndex then value else if c = deadStateIndex then 0 else lookup[value.toNat]?.getD 0) := by
  unfold mergedRow
  rw [List.getElem?_mapIdx, here]
  rfl

end Cells

/-! ## What a pass keeps -/

/-- A table whose targets are among its rows. -/
structure SoundRows (alphabet rows : Nat) (dfa : List Uint) : Prop where
  wide : transitionsIndex ≤ alphabet
  length : dfa.length = alphabet * rows
  start : 2 ≤ rows
  few : rows < npos.toNat
  targets : ∀ r < rows, ∀ c < alphabet, eolIndex ≤ c → (cellAt alphabet dfa r c).toNat < rows
  front : (cellAt alphabet dfa 0 0).toNat < rows
  jam : ∀ c < alphabet, c ≠ 0 → cellAt alphabet dfa 0 c = 0
  dead : ∀ r < rows, cellAt alphabet dfa r deadStateIndex = 0

/-- The row `m r` of the second table stands for the row `r` of the first. -/
structure Merges (alphabet rows : Nat) (dfa : List Uint) (rows' : Nat) (dfa' : List Uint) (m : Nat → Nat) : Prop where
  sound : SoundRows alphabet rows' dfa'
  fewer : rows' ≤ rows
  zero : m 0 = 0
  start : m 1 = 1
  inside : ∀ r < rows, 1 ≤ r → 1 ≤ m r ∧ m r < rows'
  low : ∀ r < rows, 1 ≤ r → ∀ c < eolIndex, cellAt alphabet dfa' (m r) c = cellAt alphabet dfa r c
  high : ∀ r < rows, ∀ c < alphabet, eolIndex ≤ c → (cellAt alphabet dfa' (m r) c).toNat = m (cellAt alphabet dfa r c).toNat
  front : (cellAt alphabet dfa' 0 0).toNat = m (cellAt alphabet dfa 0 0).toNat

section Merges

variable {alphabet rows rows' rows'' : Nat} {dfa dfa' dfa'' : List Uint} {m m' : Nat → Nat}

theorem SoundRows.merges (sound : SoundRows alphabet rows dfa) : Merges alphabet rows dfa rows dfa id where
  sound := sound
  fewer := Nat.le_refl _
  zero := rfl
  start := rfl
  inside _ below positive := ⟨positive, below⟩
  low _ _ _ _ _ := rfl
  high _ _ _ _ _ := rfl
  front := rfl

theorem Merges.trans (first : Merges alphabet rows dfa rows' dfa' m)
    (second : Merges alphabet rows' dfa' rows'' dfa'' m') : Merges alphabet rows dfa rows'' dfa'' (m' ∘ m) where
  sound := second.sound
  fewer := second.fewer.trans first.fewer
  zero := by rw [Function.comp_apply, first.zero, second.zero]
  start := by rw [Function.comp_apply, first.start, second.start]
  inside r below positive := by
    obtain ⟨positive', below'⟩ := first.inside r below positive
    exact second.inside (m r) below' positive'
  low r below positive c less := by
    obtain ⟨positive', below'⟩ := first.inside r below positive
    rw [Function.comp_apply, second.low _ below' positive' c less, first.low r below positive c less]
  high r below c inside high := by
    have below' : m r < rows' := by
      rcases Nat.eq_zero_or_pos r with rfl | positive
      · rw [first.zero]
        exact Nat.lt_of_lt_of_le Nat.two_pos first.sound.start
      · exact (first.inside r below positive).2
    rw [Function.comp_apply, second.high _ below' c inside high, first.high r below c inside high]
    rfl
  front := by rw [second.front, first.front]; rfl

/-- The numbers that a pass gives out. -/
def Merge.number (merge : Merge) (r : Nat) : Nat := (merge.lookup[r]?.getD 0).toNat

theorem Merging.number {kept : List Nat} {merge : Merge} (merging : Merging alphabet dfa rows rows kept merge)
    (few : rows < npos.toNat) {r : Nat} (below : r < rows) (positive : 1 ≤ r) :
    ∃ v f, merge.number r = v + 1 ∧ kept[v]? = some f ∧ tableRow alphabet dfa f = tableRow alphabet dfa r := by
  obtain ⟨v, f, at_, there, alike⟩ := merging.found r below positive (Or.inl below)
  have less := (List.getElem?_eq_some_iff.1 there).1
  have count := merging.length_le
  have bound : npos.toNat < 2 ^ 32 := npos.isLt
  refine ⟨v, f, ?_, there, alike⟩
  unfold Merge.number
  rw [at_, Option.getD_some, BitVec.toNat_ofNat, Nat.mod_eq_of_lt (by omega)]

theorem SoundRows.getElem?_tableRow (sound : SoundRows alphabet rows dfa) {r c : Nat} (below : r < rows) (inside : c < alphabet) :
    (tableRow alphabet dfa r)[c]? = some (cellAt alphabet dfa r c) := by
  have short : c < (tableRow alphabet dfa r).length := (length_tableRow sound.length below).symm ▸ inside
  rw [cellAt_tableRow inside, List.getElem?_eq_getElem short]
  rfl

theorem headD_eq_cellAt : dfa.headD 0 = cellAt alphabet dfa 0 0 := by
  unfold cellAt
  rw [Nat.zero_mul, List.headD_eq_head?_getD, List.head?_eq_getElem?]

section Pass

variable (sound : SoundRows alphabet rows dfa) {kept : List Nat} {merge : Merge}
  (merging : Merging alphabet dfa rows rows kept merge)

include sound merging

/-- The new table, row by row. -/
theorem Merging.flatten : mergedTable alphabet dfa merge.lookup kept =
      (mergedJam alphabet dfa merge.lookup :: kept.map fun index => mergedRow merge.lookup (tableRow alphabet dfa index)).flatten ∧
    ∀ row ∈ mergedJam alphabet dfa merge.lookup :: kept.map fun index => mergedRow merge.lookup (tableRow alphabet dfa index),
      row.length = alphabet := by
  refine ⟨by rw [mergedTable, List.flatMap_def, List.flatten_cons], fun row member => ?_⟩
  rcases List.mem_cons.1 member with rfl | member
  · rw [length_mergedJam, length_tableRow sound.length (Nat.lt_of_lt_of_le Nat.two_pos sound.start)]
  · obtain ⟨j, inside, rfl⟩ := List.mem_map.1 member
    rw [length_mergedRow, length_tableRow sound.length (merging.mem_kept.1 inside).1.2]

theorem Merging.cell_succ {v j c : Nat} (here : kept[v]? = some j) (inside : c < alphabet) :
    cellAt alphabet (mergedTable alphabet dfa merge.lookup kept) (v + 1) c =
      if c < eolIndex then cellAt alphabet dfa j c
      else if c = deadStateIndex then 0 else merge.lookup[(cellAt alphabet dfa j c).toNat]?.getD 0 := by
  obtain ⟨flat, each⟩ := merging.flatten sound
  have below := (merging.mem_kept.1 (List.mem_of_getElem? here)).1.2
  rw [flat, cellAt_flatten each (r := v + 1) (by rw [List.getElem?_cons_succ, List.getElem?_map, here]; rfl) inside,
    getElem?_mergedRow (sound.getElem?_tableRow below inside)]
  rfl

theorem Merging.cell_zero {c : Nat} (inside : c < alphabet) :
    (cellAt alphabet (mergedTable alphabet dfa merge.lookup kept) 0 c).toNat = merge.number (cellAt alphabet dfa 0 c).toNat := by
  obtain ⟨flat, each⟩ := merging.flatten sound
  have nonempty : 0 < rows := Nat.lt_of_lt_of_le Nat.two_pos sound.start
  have zero : merge.number 0 = 0 := by
    unfold Merge.number
    rw [merging.zero]
    rfl
  rw [flat, cellAt_flatten each (r := 0) List.getElem?_cons_zero inside]
  unfold mergedJam
  dsimp only
  rw [@headD_eq_cellAt alphabet dfa]
  have row := sound.getElem?_tableRow nonempty inside
  split
  · by_cases first : c = 0
    · obtain rfl := first
      rw [List.getElem?_set_self ((length_tableRow sound.length nonempty).symm ▸ inside)]
      rfl
    · rw [List.getElem?_set_ne (Ne.symm first), row, sound.jam c inside first, Option.getD_some]
      exact zero.symm
  · next none_ =>
    rw [row, Option.getD_some]
    by_cases first : c = 0
    · obtain rfl := first
      rw [not_not.1 none_]
      exact zero.symm
    · rw [sound.jam c inside first]
      exact zero.symm

/-- The row that stands for a row has its values, and its targets in new numbers. -/
theorem Merging.cell {r c : Nat} (below : r < rows) (positive : 1 ≤ r) (inside : c < alphabet) :
    cellAt alphabet (mergedTable alphabet dfa merge.lookup kept) (merge.number r) c =
      if c < eolIndex then cellAt alphabet dfa r c
      else if c = deadStateIndex then 0 else merge.lookup[(cellAt alphabet dfa r c).toNat]?.getD 0 := by
  obtain ⟨v, f, number, there, alike⟩ := merging.number sound.few below positive
  have same : cellAt alphabet dfa f c = cellAt alphabet dfa r c := by rw [cellAt_tableRow inside, cellAt_tableRow inside, alike]
  rw [number, merging.cell_succ sound there inside, same]

theorem Merging.soundRows : SoundRows alphabet (kept.length + 1) (mergedTable alphabet dfa merge.lookup kept) := by
  obtain ⟨flat, each⟩ := merging.flatten sound
  have count := merging.length_le
  have start := sound.start
  have nonempty : 0 < rows := Nat.lt_of_lt_of_le Nat.two_pos sound.start
  have number : ∀ r < rows, merge.number r < kept.length + 1 := by
    intro r below
    rcases Nat.eq_zero_or_pos r with rfl | positive
    · unfold Merge.number
      rw [merging.zero]
      exact Nat.succ_pos _
    · obtain ⟨v, f, value, there, -⟩ := merging.number sound.few below positive
      rw [value]
      exact Nat.succ_lt_succ (List.getElem?_eq_some_iff.1 there).1
  have first : 1 ∈ kept := by
    refine merging.mem_kept.2 ⟨⟨Nat.le_refl _, sound.start⟩, fun seen => ?_⟩
    obtain ⟨-, j, member, less, -⟩ := (merging.indexSet 1).1 seen
    have := (merging.mem_kept.1 member).1.1
    omega
  refine ⟨sound.wide, ?_, Nat.succ_le_succ (List.length_pos_of_mem first), ?_, fun r below c inside high => ?_, ?_,
    fun c inside other => ?_, fun r below => ?_⟩
  · rw [flat, length_flatten_rows each, List.length_cons, List.length_map]
  · exact Nat.lt_of_le_of_lt (by omega) sound.few
  · cases r with
    | zero =>
        rw [merging.cell_zero sound inside]
        exact number _ (sound.targets 0 nonempty c inside high)
    | succ v =>
        have here := List.getElem?_eq_getElem (Nat.lt_of_succ_lt_succ below)
        rw [merging.cell_succ sound here inside, if_neg (Nat.not_lt.2 high)]
        split
        · exact Nat.succ_pos _
        · exact number _ (sound.targets _ (merging.mem_kept.1 (List.mem_of_getElem? here)).1.2 c inside high)
  · rw [merging.cell_zero sound (Nat.lt_of_lt_of_le (by decide) sound.wide)]
    exact number _ sound.front
  · have value := merging.cell_zero sound inside
    rw [sound.jam c inside other] at value
    refine BitVec.eq_of_toNat_eq (value.trans ?_)
    unfold Merge.number
    rw [show (0 : Uint).toNat = 0 from rfl, merging.zero]
    rfl
  · have inside : deadStateIndex < alphabet := Nat.lt_of_lt_of_le (by decide) sound.wide
    cases r with
    | zero =>
        refine BitVec.eq_of_toNat_eq ((merging.cell_zero sound inside).trans ?_)
        rw [sound.jam _ inside (by decide)]
        unfold Merge.number
        rw [show (0 : Uint).toNat = 0 from rfl, merging.zero]
        rfl
    | succ v =>
        rw [merging.cell_succ sound (List.getElem?_eq_getElem (Nat.lt_of_succ_lt_succ below)) inside, if_neg (by decide), if_pos rfl]

/-- The table that a pass makes stands for the one it was made of. -/
theorem Merging.merges : Merges alphabet rows dfa (kept.length + 1) (mergedTable alphabet dfa merge.lookup kept) merge.number where
  sound := merging.soundRows sound
  fewer := by
    have count := merging.length_le
    have start := sound.start
    omega
  zero := by
    unfold Merge.number
    rw [merging.zero]
    rfl
  start := by
    obtain ⟨v, f, number, there, alike⟩ := merging.number sound.few sound.start (Nat.le_refl 1)
    have member := merging.mem_kept.1 (List.mem_of_getElem? there)
    -- a later row that is like the first one is not kept
    have first : f = 1 := by
      by_contra other
      have notFirst : 1 ∉ merge.indexSet := by
        intro seen
        obtain ⟨-, j, inside, less, -⟩ := (merging.indexSet 1).1 seen
        have positive := (merging.mem_kept.1 inside).1.1
        omega
      have kept_ : 1 ∈ kept := merging.mem_kept.2 ⟨⟨Nat.le_refl 1, sound.start⟩, notFirst⟩
      have positive := member.1.1
      exact member.2 ((merging.indexSet f).2 ⟨member.1.2, 1, kept_, by omega, alike.symm⟩)
    subst first
    have order : kept.Pairwise (· < ·) := by
      rw [merging.kept_]
      exact List.Pairwise.filter _ (List.pairwise_lt_range' ..)
    have least : v = 0 := by
      by_contra later
      obtain ⟨below, same⟩ := List.getElem?_eq_some_iff.1 there
      have less := List.pairwise_iff_getElem.1 order 0 v (by omega) below (by omega)
      have positive := (merging.mem_kept.1 (List.getElem_mem (show 0 < kept.length by omega))).1.1
      omega
    rw [number, least]
  inside r below positive := by
    obtain ⟨v, f, number, there, -⟩ := merging.number sound.few below positive
    rw [number]
    exact ⟨Nat.succ_pos v, Nat.succ_lt_succ (List.getElem?_eq_some_iff.1 there).1⟩
  low r below positive c less := by
    rw [merging.cell sound below positive (less.trans (Nat.lt_of_lt_of_le (by decide) sound.wide)), if_pos less]
  high r below c inside high := by
    rcases Nat.eq_zero_or_pos r with rfl | positive
    · have zero : merge.number 0 = 0 := by
        unfold Merge.number
        rw [merging.zero]
        rfl
      rw [zero, merging.cell_zero sound inside]
    · rw [merging.cell sound below positive inside, if_neg (Nat.not_lt.2 high)]
      split
      · next dead =>
        rw [dead, sound.dead r below]
        unfold Merge.number
        rw [show (0 : Uint).toNat = 0 from rfl, merging.zero]
        rfl
      · rfl
  front := merging.cell_zero sound (Nat.lt_of_lt_of_le (by decide) sound.wide)

end Pass

/-- **A pass leaves what the table reads.**  If it leaves the size, no two rows are alike. -/
theorem SoundRows.minimiseDfa (sound : SoundRows alphabet rows dfa) :
    ∃ rows' m, Merges alphabet rows dfa rows' (minimiseDfa alphabet dfa) m ∧
      ((Orchid.minimiseDfa alphabet dfa).length = dfa.length →
        Orchid.minimiseDfa alphabet dfa = dfa ∧
          ∀ r r', 1 ≤ r → r < r' → r' < rows → tableRow alphabet dfa r ≠ tableRow alphabet dfa r') := by
  have wide : 0 < alphabet := Nat.lt_of_lt_of_le (by decide) sound.wide
  have merging := mergeAll_merging sound.length wide (Nat.le_of_succ_le sound.start) sound.few
  have count : dfa.length / alphabet = rows := by rw [sound.length, Nat.mul_div_cancel_left _ wide]
  unfold Orchid.minimiseDfa
  dsimp only
  rw [count]
  generalize mergeAll alphabet dfa = merge at merging ⊢
  generalize keptRows rows merge = kept at merging ⊢
  by_cases none_ : merge.indexSet = []
  · rw [if_pos none_]
    refine ⟨rows, id, sound.merges, fun _ => ⟨rfl, fun r r' positive less below alike => ?_⟩⟩
    have free : ∀ c, c ∉ merge.indexSet := by simp [none_]
    exact free r' ((merging.indexSet r').2 ⟨below, r, merging.mem_kept.2 ⟨⟨positive, less.trans below⟩, free r⟩, less, alike⟩)
  · rw [if_neg none_]
    refine ⟨_, _, merging.merges sound, fun same => ?_⟩
    -- a row in the set is not kept, so there are fewer rows
    exfalso
    obtain ⟨c, seen⟩ := List.exists_mem_of_ne_nil _ none_
    obtain ⟨below, j, member, less, -⟩ := (merging.indexSet c).1 seen
    have positive := (merging.mem_kept.1 member).1.1
    have left : ∃ x ∈ List.range' 1 (rows - 1), ¬ decide (x ∉ merge.indexSet) = true :=
      ⟨c, List.mem_range'_1.2 (by omega), by simpa using seen⟩
    have shorter := List.length_filter_lt_length_iff_exists.2 left
    rw [← merging.kept_, List.length_range'] at shorter
    rw [(merging.soundRows sound).length, sound.length] at same
    have equal := Nat.eq_of_mul_eq_mul_left wide same
    omega

/-- **The passes.** -/
theorem minimiseLoop_merges : ∀ {rows : Nat}, SoundRows alphabet rows dfa →
    ∃ rows' m, Merges alphabet rows dfa rows' (minimiseLoop alphabet dfa) m ∧
      minimiseDfa alphabet (minimiseLoop alphabet dfa) = minimiseLoop alphabet dfa ∧
        ∀ r r', 1 ≤ r → r < r' → r' < rows' →
          tableRow alphabet (minimiseLoop alphabet dfa) r ≠ tableRow alphabet (minimiseLoop alphabet dfa) r' := by
  induction dfa using minimiseLoop.induct alphabet with
  | case1 dfa next =>
      rename_i same
      intro rows sound
      obtain ⟨rows', m, -, last⟩ := sound.minimiseDfa
      obtain ⟨fixed, apart⟩ := last same
      have done : minimiseLoop alphabet dfa = dfa := by
        rw [minimiseLoop, if_pos same, fixed]
      rw [done]
      exact ⟨rows, id, sound.merges, fixed, apart⟩
  | case2 dfa next more =>
      rename_i ih
      intro rows sound
      obtain ⟨rows', m, first, -⟩ := sound.minimiseDfa
      obtain ⟨rows'', m', rest, fixed, apart⟩ := ih first.sound
      have done : minimiseLoop alphabet dfa = minimiseLoop alphabet (minimiseDfa alphabet dfa) := by
        conv_lhs => rw [minimiseLoop, if_neg more]
      rw [done]
      exact ⟨rows'', m' ∘ m, first.trans rest, fixed, apart⟩

end Merges

/-! ## What a minimised table reads -/

/-- A table of rows that lead to rows, with a lookup into its columns. -/
structure LexTable.Sound (table : LexTable) : Prop where
  rows : SoundRows table.alphabet table.rows table.dfa
  lookup : ∀ b, deadStateIndex ≤ (table.lookup b).toNat ∧ (table.lookup b).toNat < table.alphabet

/-- A table that was built of rules without `$`. -/
theorem Source.sound {flags : Nat} {seenBol : Bool} {rules : List Rule} {table : LexTable} {root : Node} {heap : Heap}
    {map : CharsetMap} {exprs : List (Expr Nat)} {seen : List (List Nat)}
    (source : Source flags seenBol rules table root heap map exprs seen) (few : table.rows < npos.toNat) : table.Sound := by
  obtain ⟨e, es, rfl, expr⟩ := source.expr
  have built := source.built
  have ready := source.joined.ready expr source.trees
  have count := source.rows
  obtain ⟨eolSet, rows⟩ := built.rows
  obtain ⟨first, there, -⟩ := built.start
  have nonempty := (List.getElem?_eq_some_iff.1 there).1
  have wide : transitionsIndex ≤ table.alphabet := (Nat.le_add_left ..).trans built.alphabet
  have read : ∀ i < table.alphabet * (seen.length + 1), i = 0 ∨ eolIndex ≤ i % table.alphabet →
      (table.dfa[i]?.getD 0).toNat < table.rows := by
    intro i inside high
    rw [← built.targets.length] at inside
    rw [List.getElem?_eq_getElem inside, count]
    exact Nat.lt_succ_of_le (built.targets.inside i _ (List.getElem?_eq_getElem inside) high)
  refine ⟨⟨wide, ?_, by omega, few, fun r below c inside high => ?_, ?_, rows.jam, fun r below => ?_⟩, fun b => ?_⟩
  · rw [count]
    exact built.targets.length
  · refine read _ ?_ (Or.inr ?_)
    · rw [count] at below
      exact index_lt below inside
    · rwa [Nat.mul_add_mod_self_right, Nat.mod_eq_of_lt inside]
  · have front := read 0 (Nat.mul_pos (Nat.lt_of_lt_of_le (by decide) wide) (Nat.succ_pos _)) (Or.inl rfl)
    rwa [← Nat.zero_mul table.alphabet] at front
  · rcases r with _ | j
    · exact rows.jam deadStateIndex (Nat.lt_of_lt_of_le (by decide) wide) (by decide)
    · rw [← LexTable.cell_eq]
      exact built.dead_column (by omega)
  · rcases built.column ready b with ⟨dead, -⟩ | ⟨k, column, inside, -⟩
    · rw [dead]
      exact ⟨Nat.le_refl _, Nat.lt_of_lt_of_le (by decide) wide⟩
    · rw [column]
      exact ⟨(show deadStateIndex ≤ transitionsIndex by decide).trans (Nat.le_add_left ..), inside⟩

section Table

variable {table : LexTable}

theorem LexTable.Sound.minimise_eq (sound : table.Sound) :
    table.minimise = { table with dfa := minimiseLoop table.alphabet table.dfa } := by
  have wide := sound.rows.wide
  unfold LexTable.minimise transitionsIndex at *
  rw [if_pos (by omega)]

/-- A byte leads from the row that stands for a row to the row that stands for its target. -/
theorem Merges.step (sound : table.Sound) {rows' : Nat} {dfa' : List Uint} {m : Nat → Nat}
    (merges : Merges table.alphabet table.rows table.dfa rows' dfa' m) {r : Nat} (inside : 1 ≤ r ∧ r < table.rows) (b : UInt8) :
    ({ table with dfa := dfa' } : LexTable).step (m r) b = (table.step r b).map m := by
  obtain ⟨high, column⟩ := sound.lookup b
  have target := sound.rows.targets r inside.2 _ column (Nat.le_of_succ_le high)
  have value := merges.high r inside.2 _ column (Nat.le_of_succ_le high)
  unfold LexTable.step
  rw [LexTable.cell_eq, LexTable.cell_eq]
  by_cases missing : cellAt table.alphabet table.dfa r (table.lookup b).toNat = 0
  · rw [missing, show (0 : Uint).toNat = 0 from rfl, merges.zero] at value
    rw [if_pos missing, if_pos (BitVec.eq_of_toNat_eq value)]
    rfl
  · rw [if_neg missing, if_neg fun zero => ?_, value]
    · rfl
    · have positive : 1 ≤ (cellAt table.alphabet table.dfa r (table.lookup b).toNat).toNat := by
        by_contra none_
        exact missing (BitVec.eq_of_toNat_eq (Nat.lt_one_iff.1 (Nat.not_le.1 none_)))
      have other := (merges.inside _ target positive).1
      rw [← value, zero] at other
      cases other

theorem LexTable.Sound.closed (sound : table.Sound) (r : Nat) (b : UInt8) (next : Nat) (inside : 1 ≤ r ∧ r < table.rows)
    (stepped : table.step r b = some next) : 1 ≤ next ∧ next < table.rows := by
  obtain ⟨high, column⟩ := sound.lookup b
  have target := sound.rows.targets r inside.2 _ column (Nat.le_of_succ_le high)
  unfold LexTable.step at stepped
  split at stepped
  · cases stepped
  · next nonempty =>
    obtain rfl := Option.some.inj stepped
    rw [LexTable.cell_eq] at nonempty ⊢
    refine ⟨?_, target⟩
    by_contra none_
    exact nonempty (BitVec.eq_of_toNat_eq (Nat.lt_one_iff.1 (Nat.not_le.1 none_)))

theorem LexTable.Sound.inside (sound : table.Sound) {text : CStr} {row : Nat} (ran : run table.step 1 text = some row) :
    1 ≤ row ∧ row < table.rows :=
  run_closed table.step sound.closed ⟨Nat.le_refl 1, sound.rows.start⟩ ran

section Carried

variable {rows' : Nat} {dfa' : List Uint} {m : Nat → Nat} (sound : table.Sound)
  (merges : Merges table.alphabet table.rows table.dfa rows' dfa' m)

include sound merges

theorem Merges.run (text : CStr) :
    run ({ table with dfa := dfa' } : LexTable).step 1 text = (run table.step 1 text).map m := by
  have commutes := fun r b inside => merges.step sound (r := r) inside b
  have carried := run_map table.step sound.closed commutes text ⟨Nat.le_refl 1, sound.rows.start⟩
  rwa [merges.start] at carried

theorem Merges.rows_le : ({ table with dfa := dfa' } : LexTable).rows ≤ table.rows := by
  have wide : 0 < table.alphabet := Nat.lt_of_lt_of_le (by decide) sound.rows.wide
  show dfa'.length / table.alphabet ≤ table.rows
  rw [merges.sound.length, Nat.mul_div_cancel_left _ wide]
  exact merges.fewer

theorem Merges.values {text : CStr} {row : Nat} (ran : Theory.run table.step 1 text = some row) {c : Nat} (low : c < eolIndex) :
    ({ table with dfa := dfa' } : LexTable).cell (m row) c = table.cell row c := by
  obtain ⟨positive, below⟩ := sound.inside ran
  rw [LexTable.cell_eq, LexTable.cell_eq]
  exact merges.low row below positive c low

end Carried

/-- **A minimised table reads what the table reads**: the rows that a text leads to in the two have the same values, and their
anchors lead to rows that stand for each other. -/
theorem LexTable.minimise_run (sound : table.Sound) : ∃ m : Nat → Nat, m 0 = 0 ∧ m 1 = 1 ∧
    (∀ text, run table.minimise.step 1 text = (run table.step 1 text).map m) ∧
    (table.minimise.cell 0 0).toNat = m (table.cell 0 0).toNat ∧
    ∀ text row, run table.step 1 text = some row → 1 ≤ m row ∧
      (∀ c < eolIndex, table.minimise.cell (m row) c = table.cell row c) ∧
      (table.minimise.cell (m row) eolIndex).toNat = m (table.cell row eolIndex).toNat := by
  obtain ⟨rows', m, merges, -⟩ := minimiseLoop_merges sound.rows
  rw [sound.minimise_eq]
  refine ⟨m, merges.zero, merges.start, merges.run sound, ?_, fun text row ran => ?_⟩
  · rw [LexTable.cell_eq, LexTable.cell_eq]
    exact merges.front
  · obtain ⟨positive, below⟩ := sound.inside ran
    refine ⟨(merges.inside row below positive).1, fun c less => merges.values sound ran less, ?_⟩
    rw [LexTable.cell_eq, LexTable.cell_eq]
    exact merges.high row below _ (Nat.lt_of_lt_of_le (by decide) sound.rows.wide) (Nat.le_refl _)

end Table

/-- Two letters lead to two rows that are alike. -/
def alikeTable : LexTable where
  alphabet := 9
  lookup b := if b = 97 then 7 else if b = 98 then 8 else 6
  dfa := List.replicate 16 0 ++ [2, 3] ++ [1, 5, 0, 0, 0, 0, 0, 0, 0] ++ [1, 5, 0, 0, 0, 0, 0, 0, 0]

theorem alikeTable_sound : alikeTable.Sound where
  rows :=
    { wide := by decide
      length := by decide
      start := by decide
      few := by decide
      targets := by decide
      front := by decide
      jam := by decide
      dead := by decide }
  lookup b := by
    show 6 ≤ (if b = 97 then 7 else if b = 98 then 8 else 6 : Uint).toNat ∧
      (if b = 97 then 7 else if b = 98 then 8 else 6 : Uint).toNat < 9
    split_ifs <;> decide

theorem alikeTable_run : ∃ m : Nat → Nat, m 1 = 1 ∧ run alikeTable.step 1 [98] = some 3 ∧
    run alikeTable.minimise.step 1 [98] = some (m 3) ∧ alikeTable.minimise.cell (m 3) idIndex = 5 := by
  obtain ⟨m, -, start, runs, -, rows⟩ := LexTable.minimise_run alikeTable_sound
  have ran : run alikeTable.step 1 [98] = some 3 := by decide
  refine ⟨m, start, ran, by rw [runs, ran]; rfl, ?_⟩
  rw [(rows [98] 3 ran).2.1 idIndex (by decide)]
  decide

section Table

variable {table : LexTable}

/-- **No two rows of a minimised table are alike**, there are no more of them than before, and another call changes nothing. -/
theorem LexTable.minimise_apart (sound : table.Sound) : table.minimise.rows ≤ table.rows ∧
    (∀ r r', 1 ≤ r → r < r' → r' < table.minimise.rows →
      tableRow table.alphabet table.minimise.dfa r ≠ tableRow table.alphabet table.minimise.dfa r') ∧
    table.minimise.minimise = table.minimise := by
  obtain ⟨rows', m, merges, fixed, apart⟩ := minimiseLoop_merges sound.rows
  have wide : 0 < table.alphabet := Nat.lt_of_lt_of_le (by decide) sound.rows.wide
  have again : minimiseLoop table.alphabet (minimiseLoop table.alphabet table.dfa) = minimiseLoop table.alphabet table.dfa := by
    rw [minimiseLoop, fixed, if_pos rfl]
  have count : ({ table with dfa := minimiseLoop table.alphabet table.dfa } : LexTable).rows = rows' := by
    show (minimiseLoop table.alphabet table.dfa).length / table.alphabet = rows'
    rw [merges.sound.length, Nat.mul_div_cancel_left _ wide]
  rw [sound.minimise_eq, count]
  refine ⟨merges.fewer, apart, ?_⟩
  unfold LexTable.minimise
  rw [if_pos (Nat.pos_iff_ne_zero.1 wide)]
  dsimp only
  rw [again]

end Table

theorem alikeTable_apart : alikeTable.minimise.rows ≤ 4 ∧ alikeTable.minimise.minimise = alikeTable.minimise := by
  obtain ⟨fewer, -, again⟩ := LexTable.minimise_apart alikeTable_sound
  exact ⟨fewer, again⟩

end Orchid
