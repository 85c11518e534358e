/-
# RegexParse.Rows -- what holds of the table while it is filled

`Rows` says of the rows made so far: each has the values of the first end node in its
set (`endCell`), no two sets are the same, and a transition that is there leads to the
row of the followers of the leaves that its class reads.  `done` are the transitions
that have been looked at; those are missing only where there are no followers, or where
a lazy one is left out at an end row.

`closure` and the passes over the classes of a row keep it, so a pass over the table
does, and since there are no more rows than sets of nodes the passes end
(`buildRows_spec`).
-/
import Orchid.RegexParse.Subset
import Mathlib.Data.Finset.Powerset

namespace Orchid

open Orchid.Theory

set_option autoImplicit false

/-! ## Cells of a table -/

section Cells

variable {alphabet : Nat} {dfa : List Uint}

def cellAt (alphabet : Nat) (dfa : List Uint) (r c : Nat) : Uint := dfa[r * alphabet + c]?.getD 0

/-- A row and a column are read off the index. -/
theorem index_inj {r r' c c' : Nat} (inside : c < alphabet) (inside' : c' < alphabet)
    (same : r * alphabet + c = r' * alphabet + c') : r = r' ∧ c = c' := by
  have positive : 0 < alphabet := Nat.lt_of_le_of_lt (Nat.zero_le c) inside
  have rows : r = r' := by
    have div : (r * alphabet + c) / alphabet = (r' * alphabet + c') / alphabet := by rw [same]
    rwa [Nat.mul_comm r, Nat.mul_comm r', Nat.mul_add_div positive, Nat.mul_add_div positive,
      Nat.div_eq_of_lt inside, Nat.div_eq_of_lt inside', Nat.add_zero, Nat.add_zero] at div
  subst rows
  exact ⟨rfl, Nat.add_left_cancel same⟩

theorem index_lt {r n c : Nat} (row : r < n) (inside : c < alphabet) : r * alphabet + c < alphabet * n := by
  have next : (r + 1) * alphabet ≤ n * alphabet := Nat.mul_le_mul_right _ row
  rw [Nat.succ_mul] at next
  rw [Nat.mul_comm alphabet]
  omega

theorem cellAt_set {n r c : Nat} (length : dfa.length = alphabet * n) (row : r < n) (inside : c < alphabet) (v : Uint)
    {r' c' : Nat} (inside' : c' < alphabet) :
    cellAt alphabet (dfa.set (r * alphabet + c) v) r' c' = if r' = r ∧ c' = c then v else cellAt alphabet dfa r' c' := by
  unfold cellAt
  by_cases here : r' = r ∧ c' = c
  · obtain ⟨rfl, rfl⟩ := here
    rw [if_pos ⟨rfl, rfl⟩, List.getElem?_set_self (by rw [length]; exact index_lt row inside)]
    rfl
  · rw [if_neg here, List.getElem?_set_ne fun same => here ?_]
    obtain ⟨row, column⟩ := index_inj inside inside' same
    exact ⟨row.symm, column.symm⟩

theorem cellAt_append {n r c : Nat} (length : dfa.length = alphabet * n) (row : r < n) (inside : c < alphabet)
    (new : List Uint) : cellAt alphabet (dfa ++ new) r c = cellAt alphabet dfa r c := by
  unfold cellAt
  rw [List.getElem?_append_left (by rw [length]; exact index_lt row inside)]

theorem cellAt_append_last {n c : Nat} (length : dfa.length = alphabet * n) (new : List Uint) :
    cellAt alphabet (dfa ++ new) n c = new[c]?.getD 0 := by
  have behind : dfa.length ≤ n * alphabet + c := by
    rw [length, Nat.mul_comm]
    exact Nat.le_add_right ..
  have rest : n * alphabet + c - dfa.length = c := by
    rw [length, Nat.mul_comm]
    omega
  unfold cellAt
  rw [List.getElem?_append_right behind, rest]

end Cells

/-! ## End rows -/

def endNode? : Cell → Option EndState
  | .leafNode _ _ _ _ => none
  | .endNode end_ => some end_

/-- The first end node of a row. -/
def endOf (heap : Heap) (vector : List Nat) : Option EndState := vector.findSome? fun p => heap[p]?.bind endNode?

/-- The columns in front of the classes. -/
def endCell : Option EndState → Nat → Uint
  | none, _ => 0
  | some end_, c =>
      if c = endStateIndex then (if end_.popDfa then endStateBit ||| popDfaBit else endStateBit)
      else if c = idIndex then end_.id
      else if c = userIdIndex then end_.userId
      else if c = pushDfaIndex then end_.pushDfa
      else if c = nextDfaIndex then end_.nextDfa
      else 0

theorem getD_set {row : List Uint} {i c : Nat} (inside : c < row.length) (v : Uint) :
    (row.set i v)[c]?.getD 0 = if c = i then v else row[c]?.getD 0 := by
  by_cases here : c = i
  · subst here
    rw [if_pos rfl, List.getElem?_set_self inside]
    rfl
  · rw [if_neg here, List.getElem?_set_ne (Ne.symm here)]

theorem getElem?_newRow {alphabet : Nat} (end_ : Option EndState) {c : Nat} (inside : c < alphabet) :
    (newRow alphabet end_)[c]?.getD 0 = endCell end_ c := by
  cases end_ with
  | none => simp [newRow, endCell, inside]
  | some end_ =>
      have zero : (List.replicate alphabet (0 : Uint))[c]?.getD 0 = 0 := by simp [inside]
      unfold newRow endCell
      rw [getD_set (by simpa using inside), getD_set (by simpa using inside), getD_set (by simpa using inside),
        getD_set (by simpa using inside), getD_set (by simpa using inside), zero]
      unfold endStateIndex idIndex userIdIndex pushDfaIndex nextDfaIndex
      by_cases c0 : c = 0
      · simp [c0]
      · by_cases c1 : c = 1
        · simp [c1]
        · by_cases c2 : c = 2
          · simp [c2]
          · by_cases c3 : c = 3 <;> simp [c0, c1, c2, c3]

theorem length_newRow {alphabet : Nat} (end_ : Option EndState) : (newRow alphabet end_).length = alphabet := by
  cases end_ <;> simp [newRow]

theorem findSome?_foldl_enqueue {β : Type} (f : Nat → Option β) {xs : List Nat} : ∀ {q : List Nat},
    (xs.foldl enqueue q).findSome? f = (q ++ xs).findSome? f := by
  induction xs with
  | nil => simp
  | cons x xs ih =>
      intro q
      rw [List.foldl_cons, ih]
      unfold enqueue
      split
      · next inside =>
        rw [List.findSome?_append, List.findSome?_append, List.findSome?_cons]
        cases found : q.findSome? f with
        | none =>
            rw [List.findSome?_eq_none_iff.1 found x inside]
        | some b => rfl
      · rw [List.append_assoc]
        rfl

theorem foldl_closureEx (heap : Heap) {followpos : List Nat} : ∀ {end_ : Option EndState} {vector : List Nat},
    followpos.foldl (closureEx heap) (end_, vector) =
      (end_.or (endOf heap followpos), followpos.foldl enqueue vector) := by
  induction followpos with
  | nil => simp [endOf]
  | cons p followpos ih =>
      intro end_ vector
      rw [List.foldl_cons, closureEx, ih]
      have first : endOf heap (p :: followpos) = (heap[p]?.bind endNode?).or (endOf heap followpos) := by
        unfold endOf
        rw [List.findSome?_cons]
        cases heap[p]?.bind endNode? <;> rfl
      rw [first]
      cases end_ with
      | some end_ => rfl
      | none =>
          cases here : heap[p]? with
          | none => rfl
          | some cell => cases cell <;> rfl

theorem sameSet_iff {v w : List Nat} : sameSet v w = true ↔ ∀ p, p ∈ v ↔ p ∈ w := by
  simp only [sameSet, Bool.and_eq_true, List.all_eq_true, decide_eq_true_eq]
  exact ⟨fun both p => ⟨both.1 p, both.2 p⟩, fun same => ⟨fun p => (same p).1, fun p => (same p).2⟩⟩

theorem endCell_high (end_ : Option EndState) {c : Nat} (high : eolIndex ≤ c) : endCell end_ c = 0 := by
  unfold eolIndex at high
  cases end_ with
  | none => rfl
  | some end_ =>
      have apart : c ≠ 0 ∧ c ≠ 1 ∧ c ≠ 2 ∧ c ≠ 3 ∧ c ≠ 4 := by omega
      simp [endCell, endStateIndex, idIndex, userIdIndex, pushDfaIndex, nextDfaIndex, apart]

/-! ## The rows -/

/-- The followers of the leaves of a row that the class reads. -/
def Followers (heap : Heap) (sets : SetMapping) (vector : List Nat) (k q : Nat) : Prop :=
  ∃ p ∈ vector, ReadBy heap sets k p ∧ q ∈ heap.followpos p

/-- The row `t` is the one of the followers. -/
def Leads (heap : Heap) (sets : SetMapping) (seen : List (List Nat)) (vector : List Nat) (k t : Nat) : Prop :=
  1 ≤ t ∧ ∃ next, seen[t - 1]? = some next ∧ ∀ q, q ∈ next ↔ Followers heap sets vector k q

theorem Leads.mono {heap : Heap} {sets : SetMapping} {seen seen' : List (List Nat)} (more : seen <+: seen')
    {vector : List Nat} {k t : Nat} (leads : Leads heap sets seen vector k t) : Leads heap sets seen' vector k t := by
  obtain ⟨positive, next, here, same⟩ := leads
  obtain ⟨rest, rfl⟩ := more
  refine ⟨positive, next, ?_, same⟩
  rw [List.getElem?_append_left (List.getElem?_eq_some_iff.1 here).1]
  exact here

/-- `P` is a property of all rows, `done` are the transitions that have been looked at. -/
structure Rows (heap : Heap) (sets : SetMapping) (alphabet : Nat) (P : List Nat → Prop) (done : Nat → Nat → Prop)
    (rows : DfaRows) : Prop where
  length : rows.dfa.length = alphabet * (rows.seenVectors.length + 1)
  fine : ∀ vector ∈ rows.seenVectors, P vector
  once : rows.seenVectors.Pairwise fun v w => ¬ ∀ p, p ∈ v ↔ p ∈ w
  /-- nothing is read in the jam row -/
  jam : ∀ c < alphabet, c ≠ 0 → cellAt alphabet rows.dfa 0 c = 0
  ends : ∀ j vector, rows.seenVectors[j]? = some vector → ∀ c < transitionsIndex, c ≠ eolIndex →
    cellAt alphabet rows.dfa (j + 1) c = endCell (endOf heap vector) c
  sound : ∀ j vector, rows.seenVectors[j]? = some vector → ∀ k, k + transitionsIndex < alphabet →
    cellAt alphabet rows.dfa (j + 1) (k + transitionsIndex) ≠ 0 →
      ∃ t, cellAt alphabet rows.dfa (j + 1) (k + transitionsIndex) = BitVec.ofNat 32 t ∧
        Leads heap sets rows.seenVectors vector k t
  complete : ∀ j vector, rows.seenVectors[j]? = some vector → ∀ k, k + transitionsIndex < alphabet → done j k →
    heap.Eager ∨ endOf heap vector = none → (∃ q, Followers heap sets vector k q) →
      ∃ t, cellAt alphabet rows.dfa (j + 1) (k + transitionsIndex) = BitVec.ofNat 32 t ∧
        Leads heap sets rows.seenVectors vector k t
  bound : ∀ j k, done j k → j < rows.seenVectors.length

section Rows

variable {heap : Heap} {sets : SetMapping} {alphabet : Nat} {P : List Nat → Prop} {done : Nat → Nat → Prop}

/-- A new row has no transitions. -/
theorem Rows.push {rows : DfaRows} (good : Rows heap sets alphabet P done rows) (wide : transitionsIndex ≤ alphabet)
    {vector : List Nat} (fine : P vector) (new : ∀ v ∈ rows.seenVectors, ¬ ∀ p, p ∈ v ↔ p ∈ vector) :
    Rows heap sets alphabet P done
      { rows with
        seenVectors := rows.seenVectors ++ [vector]
        dfa := rows.dfa ++ newRow alphabet (endOf heap vector) } := by
  have more : rows.seenVectors <+: rows.seenVectors ++ [vector] := List.prefix_append ..
  have old : ∀ {r c : Nat}, r ≤ rows.seenVectors.length → c < alphabet →
      cellAt alphabet (rows.dfa ++ newRow alphabet (endOf heap vector)) r c = cellAt alphabet rows.dfa r c :=
    fun row inside => cellAt_append good.length (Nat.lt_succ_of_le row) inside _
  have last : ∀ {c : Nat}, c < alphabet → cellAt alphabet (rows.dfa ++ newRow alphabet (endOf heap vector))
      (rows.seenVectors.length + 1) c = endCell (endOf heap vector) c := by
    intro c inside
    rw [cellAt_append_last good.length, getElem?_newRow _ inside]
  -- a row is one of the old ones or the last
  have split : ∀ {j : Nat} {v : List Nat}, (rows.seenVectors ++ [vector])[j]? = some v →
      rows.seenVectors[j]? = some v ∧ j < rows.seenVectors.length ∨ j = rows.seenVectors.length ∧ v = vector := by
    intro j v here
    by_cases below : j < rows.seenVectors.length
    · rw [List.getElem?_append_left below] at here
      exact Or.inl ⟨here, below⟩
    · rw [List.getElem?_append_right (Nat.le_of_not_lt below)] at here
      have inside := (List.getElem?_eq_some_iff.1 here).1
      have zero : j - rows.seenVectors.length = 0 := Nat.lt_one_iff.1 inside
      rw [zero] at here
      exact Or.inr ⟨by omega, (Option.some.inj here).symm⟩
  refine ⟨?_, ?_, ?_, ?_, ?_, ?_, ?_, ?_⟩
  · show (rows.dfa ++ newRow alphabet _).length = alphabet * ((rows.seenVectors ++ [vector]).length + 1)
    rw [List.length_append, length_newRow, good.length, List.length_append, List.length_singleton,
      Nat.mul_succ alphabet (_ + 1)]
  · intro v member
    rcases List.mem_append.1 member with member | member
    · exact good.fine v member
    · exact List.mem_singleton.1 member ▸ fine
  · refine List.pairwise_append.2 ⟨good.once, List.pairwise_singleton .., fun v member w last => ?_⟩
    rw [List.mem_singleton.1 last]
    exact new v member
  · intro c inside nonzero
    rw [old (Nat.zero_le _) inside]
    exact good.jam c inside nonzero
  · intro j v here c low notEol
    rcases split here with ⟨here, below⟩ | ⟨rfl, rfl⟩
    · rw [old below (Nat.lt_of_lt_of_le low wide)]
      exact good.ends j v here c low notEol
    · exact last (Nat.lt_of_lt_of_le low wide)
  · intro j v here k inside nonzero
    rcases split here with ⟨here, below⟩ | ⟨rfl, rfl⟩
    · rw [old below inside] at nonzero ⊢
      obtain ⟨t, cell, leads⟩ := good.sound j v here k inside nonzero
      exact ⟨t, cell, leads.mono more⟩
    · rw [last inside, endCell_high _ (by unfold eolIndex transitionsIndex; omega)] at nonzero
      exact absurd rfl nonzero
  · intro j v here k inside looked greedy nonempty
    rcases split here with ⟨here, below⟩ | ⟨rfl, rfl⟩
    · rw [old below inside]
      obtain ⟨t, cell, leads⟩ := good.complete j v here k inside looked greedy nonempty
      exact ⟨t, cell, leads.mono more⟩
    · exact absurd (good.bound _ k looked) (Nat.lt_irrefl _)
  · intro j k looked
    rw [List.length_append]
    exact Nat.lt_succ_of_lt (good.bound j k looked)

/-- What a look-up of followers among the rows gives. -/
structure HasRow (heap : Heap) (sets : SetMapping) (alphabet : Nat) (P : List Nat → Prop) (done : Nat → Nat → Prop)
    (followpos : List Nat) (rows : DfaRows) (t : Nat) (rows' : DfaRows) : Prop where
  good : Rows heap sets alphabet P done rows'
  more : rows.seenVectors <+: rows'.seenVectors
  eolSet : rows'.eolSet = rows.eolSet
  cells : ∀ r c, r ≤ rows.seenVectors.length → c < alphabet → cellAt alphabet rows'.dfa r c = cellAt alphabet rows.dfa r c
  positive : 1 ≤ t
  row : ∃ next, rows'.seenVectors[t - 1]? = some next ∧ ∀ q, q ∈ next ↔ q ∈ followpos

theorem Rows.closure {rows : DfaRows} (good : Rows heap sets alphabet P done rows) (wide : transitionsIndex ≤ alphabet)
    {followpos : List Nat} (nonempty : followpos ≠ []) (fine : P (followpos.foldl enqueue [])) :
    ∃ t rows', closure heap alphabet followpos rows = (some t, rows') ∧
      HasRow heap sets alphabet P done followpos rows t rows' := by
  have members : ∀ q, q ∈ followpos.foldl enqueue [] ↔ q ∈ followpos := by
    intro q
    simp [mem_foldl_enqueue]
  have end_ : endOf heap (followpos.foldl enqueue []) = endOf heap followpos := findSome?_foldl_enqueue _
  unfold Orchid.closure
  rw [if_neg (by simpa using nonempty), foldl_closureEx]
  dsimp only
  cases found : rows.seenVectors.findIdx? (sameSet (followpos.foldl enqueue [])) with
  | some k =>
      refine ⟨k + 1, rows, rfl, good, List.prefix_rfl, rfl, fun _ _ _ _ => rfl, Nat.succ_pos k, ?_⟩
      obtain ⟨inside, same, -⟩ := List.findIdx?_eq_some_iff_getElem.1 found
      refine ⟨rows.seenVectors[k], List.getElem?_eq_getElem inside, fun q => ?_⟩
      rw [← members q]
      exact (sameSet_iff.1 same q).symm
  | none =>
      have new : ∀ v ∈ rows.seenVectors, ¬ ∀ p, p ∈ v ↔ p ∈ followpos.foldl enqueue [] := by
        intro v member same
        have differs := List.findIdx?_eq_none_iff.1 found v member
        rw [sameSet_iff.2 fun p => (same p).symm] at differs
        cases differs
      have pushed := good.push wide fine new
      rw [end_] at pushed
      refine ⟨_, _, rfl, pushed, List.prefix_append .., rfl, fun r c row inside => ?_, Nat.succ_pos _, ?_⟩
      · exact cellAt_append good.length (Nat.lt_succ_of_le row) inside _
      · refine ⟨followpos.foldl enqueue [], ?_, members⟩
        show (rows.seenVectors ++ [_])[rows.seenVectors.length]? = _
        rw [List.getElem?_append_right (Nat.le_refl _), Nat.sub_self]
        rfl

/-! ### The transitions of a row -/

/-- The columns `ks` of the row behind `index` lead to `t`. -/
structure Wrote (alphabet index t : Nat) (ks : List Nat) (rows rows' : DfaRows) : Prop where
  seen : rows'.seenVectors = rows.seenVectors
  length : rows'.dfa.length = rows.dfa.length
  cells : ∀ r c, c < alphabet → r ≠ 0 ∨ c ≠ 0 → r ≠ index + 1 ∨ c ≠ eolIndex → cellAt alphabet rows'.dfa r c =
    if r = index + 1 ∧ ∃ k ∈ ks, k + transitionsIndex = c then BitVec.ofNat 32 t else cellAt alphabet rows.dfa r c
  eolSet : eolToken ∉ ks → rows'.eolSet = rows.eolSet

/-- The classes of a set are columns of the table, or anchors. -/
def InTable (alphabet : Nat) (ks : List Nat) : Prop :=
  ∀ k ∈ ks, k + transitionsIndex < alphabet ∨ k = bolToken ∨ k = eolToken

section Write

variable {index n t : Nat} (wide : transitionsIndex ≤ alphabet) (few : alphabet ≤ eolToken)

include wide few

theorem setTransition_wrote {rows : DfaRows} (length : rows.dfa.length = alphabet * n) (row : index + 1 < n) {k : Nat}
    (inTable : InTable alphabet [k]) : Wrote alphabet index t [k] rows (setTransition alphabet index t rows k) := by
  have anchors : eolIndex < alphabet ∧ 0 < alphabet := by
    unfold transitionsIndex at wide
    unfold eolIndex
    omega
  have outside : ∀ {c : Nat}, c < alphabet → ∀ token, eolToken ≤ token → ¬ token + transitionsIndex = c := by
    intro c inside token high
    unfold transitionsIndex
    omega
  unfold setTransition
  split
  · next bol =>
    refine ⟨rfl, List.length_set, fun r c inside elsewhere notEol => ?_, fun _ => rfl⟩
    have never : ¬ (r = index + 1 ∧ ∃ k' ∈ [k], k' + transitionsIndex = c) := by
      rintro ⟨-, k', member, same⟩
      rw [List.mem_singleton.1 member, bol] at same
      exact outside inside bolToken (by decide) same
    have corner : cellAt alphabet (rows.dfa.set (0 * alphabet + 0) (BitVec.ofNat 32 t)) r c = _ :=
      cellAt_set length (by omega) anchors.2 _ inside
    rw [Nat.zero_mul, Nat.zero_add, if_neg (by omega)] at corner
    rw [if_neg never]
    exact corner
  · next notBol =>
    split
    · next eol =>
      refine ⟨rfl, List.length_set, fun r c inside elsewhere notEol => ?_, fun free => absurd eol ?_⟩
      · have never : ¬ (r = index + 1 ∧ ∃ k' ∈ [k], k' + transitionsIndex = c) := by
          rintro ⟨-, k', member, same⟩
          rw [List.mem_singleton.1 member, eol] at same
          exact outside inside eolToken (Nat.le_refl _) same
        rw [if_neg never]
        show cellAt alphabet (rows.dfa.set _ _) r c = _
        rw [cellAt_set length row anchors.1 _ inside, if_neg fun both => notEol.elim (fun no => no both.1) fun no => no both.2]
      · exact fun same => free (by simp [same])
    · next notEol =>
      have column : k + transitionsIndex < alphabet := by
        rcases inTable k List.mem_cons_self with column | bol | eol
        · exact column
        · exact absurd bol notBol
        · exact absurd eol notEol
      refine ⟨rfl, List.length_set, fun r c inside _ _ => ?_, fun _ => rfl⟩
      show cellAt alphabet (rows.dfa.set _ _) r c = _
      rw [cellAt_set length row column _ inside]
      refine if_congr (and_congr_right fun _ => ?_) rfl rfl
      simp [eq_comm]

theorem foldl_setTransition {ks : List Nat} : ∀ {rows : DfaRows}, rows.dfa.length = alphabet * n → index + 1 < n →
    InTable alphabet ks → Wrote alphabet index t ks rows (ks.foldl (setTransition alphabet index t) rows) := by
  induction ks with
  | nil =>
      intro rows _ _ _
      exact ⟨rfl, rfl, fun r c _ _ _ => by simp, fun _ => rfl⟩
  | cons k ks ih =>
      intro rows length row inTable
      have first := setTransition_wrote (t := t) wide few length row (k := k) fun k' member =>
        inTable k' (by rw [List.mem_singleton.1 member]; exact List.mem_cons_self)
      have rest := ih (first.length.trans length) row fun k' member => inTable k' (List.mem_cons_of_mem _ member)
      refine ⟨rest.seen.trans first.seen, rest.length.trans first.length, fun r c inside elsewhere notEol => ?_, fun free => ?_⟩
      · rw [List.foldl_cons, rest.cells r c inside elsewhere notEol, first.cells r c inside elsewhere notEol]
        by_cases here : r = index + 1
        · by_cases later : ∃ k' ∈ ks, k' + transitionsIndex = c
          · have whole : ∃ k' ∈ k :: ks, k' + transitionsIndex = c := by
              obtain ⟨k', member, same⟩ := later
              exact ⟨k', List.mem_cons_of_mem _ member, same⟩
            rw [if_pos ⟨here, later⟩, if_pos ⟨here, whole⟩]
          · rw [if_neg fun both => later both.2]
            refine if_congr (and_congr_right fun _ => ?_) rfl rfl
            simp only [List.mem_cons, List.not_mem_nil, or_false, exists_eq_left, or_and_right, exists_or, later]
        · rw [if_neg fun both => here both.1, if_neg fun both => here both.1, if_neg fun both => here both.1]
      · rw [List.foldl_cons, rest.eolSet fun member => free (List.mem_cons_of_mem _ member),
          first.eolSet fun member => free (by rw [List.mem_singleton.1 member]; exact List.mem_cons_self)]

end Write

theorem prefix_getElem? {α : Type} {l l' : List α} (more : l <+: l') {j : Nat} {a : α} (here : l[j]? = some a) :
    l'[j]? = some a := by
  obtain ⟨rest, rfl⟩ := more
  rwa [List.getElem?_append_left (List.getElem?_eq_some_iff.1 here).1]

/-- The transitions of a set are written. -/
theorem Rows.write {rows rows' : DfaRows} (good : Rows heap sets alphabet P done rows) (wide : transitionsIndex ≤ alphabet)
    {index t : Nat} {vector : List Nat} (here : rows.seenVectors[index]? = some vector) {ks : List Nat}
    (leads : ∀ k ∈ ks, Leads heap sets rows.seenVectors vector k t) (wrote : Wrote alphabet index t ks rows rows') :
    Rows heap sets alphabet P (fun j k => done j k ∨ j = index ∧ k ∈ ks) rows' := by
  have high : ∀ k, eolIndex ≠ k + transitionsIndex ∧ k + transitionsIndex ≠ 0 := by
    intro k
    unfold eolIndex transitionsIndex
    omega
  have cell : ∀ j k, k + transitionsIndex < alphabet → cellAt alphabet rows'.dfa (j + 1) (k + transitionsIndex) =
      if j = index ∧ k ∈ ks then BitVec.ofNat 32 t else cellAt alphabet rows.dfa (j + 1) (k + transitionsIndex) := by
    intro j k inside
    rw [wrote.cells _ _ inside (Or.inr (high k).2) (Or.inr (high k).1.symm)]
    exact if_congr (by simp) rfl rfl
  refine ⟨?_, ?_, ?_, ?_, ?_, ?_, ?_, ?_⟩
  · rw [wrote.length, good.length, wrote.seen]
  · rw [wrote.seen]
    exact good.fine
  · rw [wrote.seen]
    exact good.once
  · intro c inside nonzero
    rw [wrote.cells 0 c inside (Or.inr nonzero) (Or.inl (Nat.succ_ne_zero index).symm), if_neg (by simp)]
    exact good.jam c inside nonzero
  · intro j v there c low notEol
    rw [wrote.seen] at there
    have never : ¬ (j + 1 = index + 1 ∧ ∃ k ∈ ks, k + transitionsIndex = c) := by
      rintro ⟨-, k, -, same⟩
      omega
    rw [wrote.cells _ c (Nat.lt_of_lt_of_le low wide) (Or.inl (Nat.succ_ne_zero j)) (Or.inr notEol), if_neg never]
    exact good.ends j v there c low notEol
  · intro j v there k inside nonzero
    rw [wrote.seen] at there ⊢
    rw [cell j k inside] at nonzero ⊢
    split at nonzero
    · next written =>
      obtain ⟨rfl, member⟩ := written
      obtain rfl : v = vector := Option.some.inj (there.symm.trans here)
      rw [if_pos ⟨rfl, member⟩]
      exact ⟨t, rfl, leads k member⟩
    · next old =>
      rw [if_neg old]
      exact good.sound j v there k inside nonzero
  · intro j v there k inside looked greedy nonempty
    rw [wrote.seen] at there ⊢
    rw [cell j k inside]
    by_cases written : j = index ∧ k ∈ ks
    · obtain ⟨rfl, member⟩ := written
      obtain rfl : v = vector := Option.some.inj (there.symm.trans here)
      rw [if_pos ⟨rfl, member⟩]
      exact ⟨t, rfl, leads k member⟩
    · rw [if_neg written]
      exact good.complete j v there k inside (looked.resolve_right written) greedy nonempty
  · rintro j k (looked | ⟨rfl, -⟩)
    · rw [wrote.seen]
      exact good.bound j k looked
    · rw [wrote.seen]
      exact (List.getElem?_eq_some_iff.1 here).1

/-- Transitions that are looked at and not written: there are no followers, or lazy ones
are left out. -/
theorem Rows.look {rows : DfaRows} (good : Rows heap sets alphabet P done rows) {index : Nat} {vector : List Nat}
    (here : rows.seenVectors[index]? = some vector) {ks : List Nat}
    (missing : ∀ k ∈ ks, heap.Eager ∨ endOf heap vector = none → ¬ ∃ q, Followers heap sets vector k q) :
    Rows heap sets alphabet P (fun j k => done j k ∨ j = index ∧ k ∈ ks) rows := by
  refine { good with complete := ?_, bound := ?_ }
  · intro j v there k inside looked greedy nonempty
    rcases looked with looked | ⟨rfl, member⟩
    · exact good.complete j v there k inside looked greedy nonempty
    · obtain rfl : v = vector := Option.some.inj (there.symm.trans here)
      exact absurd nonempty (missing k member greedy)
  · rintro j k (looked | ⟨rfl, -⟩)
    · exact good.bound j k looked
    · exact (List.getElem?_eq_some_iff.1 here).1

/-- What the set of a row has to be. -/
structure Serves (heap : Heap) (sets : SetMapping) (alphabet : Nat) (P : List Nat → Prop) (vector : List Nat)
    (equivset : Equivset) : Prop where
  inTable : InTable alphabet equivset.indexVector
  followpos : ∀ k ∈ equivset.indexVector, ∀ q, q ∈ equivset.followpos ↔ Followers heap sets vector k q
  greedy : heap.Eager → equivset.greedy = true
  fine : equivset.followpos ≠ [] → P (equivset.followpos.foldl enqueue [])

section Pass

variable (wide : transitionsIndex ≤ alphabet) (few : alphabet ≤ eolToken)

include wide few

theorem Rows.addTransitions {rows : DfaRows} (good : Rows heap sets alphabet P done rows) {index : Nat}
    {vector : List Nat} (here : rows.seenVectors[index]? = some vector) {equivset : Equivset}
    (serves : Serves heap sets alphabet P vector equivset) :
    Rows heap sets alphabet P (fun j k => done j k ∨ j = index ∧ k ∈ equivset.indexVector)
        (addTransitions heap alphabet index rows equivset) ∧
      rows.seenVectors <+: (addTransitions heap alphabet index rows equivset).seenVectors ∧
      (eolToken ∉ equivset.indexVector → (addTransitions heap alphabet index rows equivset).eolSet = rows.eolSet) := by
  by_cases none_ : equivset.followpos = []
  · have closed : Orchid.closure heap alphabet equivset.followpos rows = (none, rows) := by
      rw [none_]
      rfl
    rw [Orchid.addTransitions, closed]
    refine ⟨good.look here fun k member _ nonempty => ?_, List.prefix_rfl, fun _ => rfl⟩
    obtain ⟨q, follows⟩ := nonempty
    rw [← serves.followpos k member, none_] at follows
    cases follows
  · obtain ⟨t, rows', closed, spec⟩ := good.closure wide none_ (serves.fine none_)
    have here' := prefix_getElem? spec.more here
    have inside := (List.getElem?_eq_some_iff.1 here').1
    have flag : rows'.dfa[(index + 1) * alphabet]?.getD 0 = endCell (endOf heap vector) 0 :=
      spec.good.ends index vector here' 0 (by decide) (by decide)
    rw [Orchid.addTransitions, closed]
    dsimp only
    by_cases pruned : rows'.dfa[(index + 1) * alphabet]?.getD 0 ≠ 0 ∧ equivset.greedy = false
    · rw [if_pos pruned]
      refine ⟨spec.good.look here' fun k member greedy _ => ?_, spec.more, fun _ => spec.eolSet⟩
      rcases greedy with eager | notEnd
      · rw [serves.greedy eager] at pruned
        cases pruned.2
      · rw [flag, notEnd] at pruned
        exact pruned.1 rfl
    · rw [if_neg pruned]
      have wrote := foldl_setTransition (t := t) wide few spec.good.length (Nat.succ_lt_succ inside) serves.inTable
      refine ⟨spec.good.write wide here' (fun k member => ⟨spec.positive, ?_⟩) wrote, ?_, fun free => ?_⟩
      · obtain ⟨next, at_, same⟩ := spec.row
        exact ⟨next, at_, fun q => (same q).trans (serves.followpos k member q)⟩
      · rw [wrote.seen]
        exact spec.more
      · rw [wrote.eolSet free, spec.eolSet]

/-- A pass over the sets of a row. -/
theorem Rows.foldl_addTransitions {index : Nat} {vector : List Nat} {equivList : List Equivset} :
    ∀ {done : Nat → Nat → Prop} {rows : DfaRows}, Rows heap sets alphabet P done rows →
      rows.seenVectors[index]? = some vector → (∀ equivset ∈ equivList, Serves heap sets alphabet P vector equivset) →
      Rows heap sets alphabet P (fun j k => done j k ∨ j = index ∧ ∃ equivset ∈ equivList, k ∈ equivset.indexVector)
          (equivList.foldl (Orchid.addTransitions heap alphabet index) rows) ∧
        rows.seenVectors <+: (equivList.foldl (Orchid.addTransitions heap alphabet index) rows).seenVectors ∧
        ((∀ equivset ∈ equivList, eolToken ∉ equivset.indexVector) →
          (equivList.foldl (Orchid.addTransitions heap alphabet index) rows).eolSet = rows.eolSet) := by
  induction equivList with
  | nil =>
      intro done rows good _ _
      simp only [List.not_mem_nil, false_and, exists_false, and_false, or_false]
      exact ⟨good, List.prefix_rfl, fun _ => rfl⟩
  | cons equivset equivList ih =>
      intro done rows good here serves
      obtain ⟨good₁, more₁, eol₁⟩ := good.addTransitions wide few here (serves equivset List.mem_cons_self)
      obtain ⟨good₂, more₂, eol₂⟩ := ih good₁ (prefix_getElem? more₁ here) fun other member =>
        serves other (List.mem_cons_of_mem _ member)
      rw [List.foldl_cons]
      refine ⟨?_, more₁.trans more₂, fun free => ?_⟩
      · have same : (fun j k => (done j k ∨ j = index ∧ k ∈ equivset.indexVector) ∨
            j = index ∧ ∃ equivset ∈ equivList, k ∈ equivset.indexVector) =
            fun j k => done j k ∨ j = index ∧ ∃ other ∈ equivset :: equivList, k ∈ other.indexVector := by
          funext j k
          simp only [List.mem_cons, or_and_right, exists_or, exists_eq_left, and_or_left, or_assoc]
        rw [← same]
        exact good₂
      · rw [eol₂ fun other member => free other (List.mem_cons_of_mem _ member), eol₁ (free equivset List.mem_cons_self)]

end Pass

/-! ### The whole table -/

/-- `P` holds of the rows that a row with `P` leads to, and a row with `P` can be cut. -/
structure Closing (heap : Heap) (sets : SetMapping) (alphabet : Nat) (P : List Nat → Prop) : Prop where
  serves : ∀ vector, P vector → ∀ equivset ∈ buildEquivList heap sets vector, Serves heap sets alphabet P vector equivset
  covers : ∀ vector, P vector → ∀ k, (∃ p ∈ vector, ReadBy heap sets k p) →
    ∃ equivset ∈ buildEquivList heap sets vector, k ∈ equivset.indexVector
  inside : ∀ vector, P vector → ∀ p ∈ vector, p < heap.length

/-- Without followers there is nothing to look at. -/
theorem Rows.looked {rows : DfaRows} (good : Rows heap sets alphabet P done rows) {done' : Nat → Nat → Prop}
    (bound : ∀ j k, done' j k → j < rows.seenVectors.length)
    (less : ∀ j vector k, rows.seenVectors[j]? = some vector → done' j k →
      (∃ q, Followers heap sets vector k q) → done j k) : Rows heap sets alphabet P done' rows :=
  { good with
    complete := fun j v there k inside looked greedy nonempty =>
      good.complete j v there k inside (less j v k there looked nonempty) greedy nonempty
    bound := bound }

section Whole

variable (wide : transitionsIndex ≤ alphabet) (few : alphabet ≤ eolToken) (closing : Closing heap sets alphabet P)

include wide few closing

theorem Rows.buildRow {rows : DfaRows} {index : Nat} (good : Rows heap sets alphabet P (fun j _ => j < index) rows)
    {vector : List Nat} (here : rows.seenVectors[index]? = some vector) :
    Rows heap sets alphabet P (fun j _ => j < index + 1) (buildRow heap sets alphabet index vector rows) ∧
      rows.seenVectors <+: (buildRow heap sets alphabet index vector rows).seenVectors ∧
      ((∀ equivset ∈ buildEquivList heap sets vector, eolToken ∉ equivset.indexVector) →
        (buildRow heap sets alphabet index vector rows).eolSet = rows.eolSet) := by
  have fine := good.fine vector (List.mem_of_getElem? here)
  obtain ⟨good', more, eol⟩ := good.foldl_addTransitions wide few here (closing.serves vector fine)
  refine ⟨good'.looked ?_ ?_, more, eol⟩
  · intro j k below
    have inside := (List.getElem?_eq_some_iff.1 (prefix_getElem? more here)).1
    omega
  · intro j v k there below nonempty
    rcases Nat.lt_succ_iff_lt_or_eq.1 below with below | rfl
    · exact Or.inl below
    · obtain rfl : v = vector := Option.some.inj (there.symm.trans (prefix_getElem? more here))
      obtain ⟨q, p, member, read, -⟩ := nonempty
      exact Or.inr ⟨rfl, closing.covers v fine k ⟨p, member, read⟩⟩

omit wide few in
/-- There are no more rows than sets of nodes. -/
theorem Rows.length_le {rows : DfaRows} (good : Rows heap sets alphabet P done rows) :
    rows.seenVectors.length ≤ 2 ^ heap.length := by
  have once : (rows.seenVectors.map List.toFinset).Nodup := by
    refine List.pairwise_map.2 (good.once.imp fun {v w} differ same => differ fun p => ?_)
    rw [← List.mem_toFinset, ← List.mem_toFinset, same]
  have inside : (rows.seenVectors.map List.toFinset).toFinset ⊆ (Finset.range heap.length).powerset := by
    intro set member
    obtain ⟨v, there, rfl⟩ := List.mem_map.1 (List.mem_toFinset.1 member)
    rw [Finset.mem_powerset]
    intro p here
    exact Finset.mem_range.2 (closing.inside v (good.fine v there) p (List.mem_toFinset.1 here))
  have count := Finset.card_le_card inside
  rwa [List.toFinset_card_of_nodup once, List.length_map, Finset.card_powerset, Finset.card_range] at count

/-- **The passes over the rows end with all transitions looked at.** -/
theorem Rows.buildRows {rounds : Nat} : ∀ {index : Nat} {rows : DfaRows},
    Rows heap sets alphabet P (fun j _ => j < index) rows → index ≤ rows.seenVectors.length →
      2 ^ heap.length ≤ index + rounds → ∃ rows', buildRows heap sets alphabet rounds index rows = .ok rows' ∧
        Rows heap sets alphabet P (fun j _ => j < rows'.seenVectors.length) rows' ∧
        rows.seenVectors <+: rows'.seenVectors ∧
        ((∀ vector, P vector → ∀ equivset ∈ buildEquivList heap sets vector, eolToken ∉ equivset.indexVector) →
          rows'.eolSet = rows.eolSet) := by
  induction rounds with
  | zero =>
      intro index rows good below enough
      have all : index = rows.seenVectors.length := by
        have := good.length_le closing
        omega
      unfold Orchid.buildRows
      rw [List.getElem?_eq_none_iff.2 (Nat.le_of_eq all.symm)]
      exact ⟨rows, rfl, all ▸ good, List.prefix_rfl, fun _ => rfl⟩
  | succ rounds ih =>
      intro index rows good below enough
      unfold Orchid.buildRows
      cases here : rows.seenVectors[index]? with
      | none =>
          have all : index = rows.seenVectors.length := Nat.le_antisymm below (List.getElem?_eq_none_iff.1 here)
          exact ⟨rows, rfl, all ▸ good, List.prefix_rfl, fun _ => rfl⟩
      | some vector =>
          obtain ⟨good', more, eol⟩ := good.buildRow wide few closing here
          have inside := (List.getElem?_eq_some_iff.1 (prefix_getElem? more here)).1
          obtain ⟨rows', done, final, more', eol'⟩ := ih good' inside (by omega)
          refine ⟨rows', done, final, more.trans more', fun free => ?_⟩
          rw [eol' free, eol (free vector (good.fine vector (List.mem_of_getElem? here)))]

end Whole

end Rows

/-! ### The targets -/

/-- What is written for an anchor or a class, or nothing, is one of `n` rows behind the jam row. -/
structure Targets (alphabet n : Nat) (dfa : List Uint) : Prop where
  length : dfa.length = alphabet * (n + 1)
  inside : ∀ (i : Nat) (v : Uint), dfa[i]? = some v → i = 0 ∨ eolIndex ≤ i % alphabet → v.toNat ≤ n

section Targets

variable {heap : Heap} {alphabet n : Nat} {dfa : List Uint}

theorem targets_nil (alphabet : Nat) : Targets alphabet 0 (List.replicate alphabet 0) where
  length := by simp
  inside i v here _ := by
    obtain rfl : v = 0 := List.eq_of_mem_replicate (List.mem_of_getElem? here)
    exact Nat.le_refl _

theorem Targets.set (targets : Targets alphabet n dfa) (i : Nat) {t : Nat} (below : t ≤ n) :
    Targets alphabet n (dfa.set i (BitVec.ofNat 32 t)) where
  length := by rw [List.length_set, targets.length]
  inside j v here high := by
    rw [List.getElem?_set] at here
    split at here
    · split at here
      · obtain rfl := Option.some.inj here
        rw [BitVec.toNat_ofNat]
        exact (Nat.mod_le ..).trans below
      · cases here
    · exact targets.inside j v here high

/-- A new row leads nowhere. -/
theorem Targets.push (targets : Targets alphabet n dfa) (end_ : Option EndState) :
    Targets alphabet (n + 1) (dfa ++ newRow alphabet end_) where
  length := by rw [List.length_append, targets.length, length_newRow, Nat.mul_succ alphabet (n + 1)]
  inside i v here high := by
    by_cases old : i < dfa.length
    · rw [List.getElem?_append_left old] at here
      exact Nat.le_succ_of_le (targets.inside i v here high)
    · obtain ⟨c, rfl⟩ := Nat.exists_eq_add_of_le (Nat.le_of_not_lt old)
      rw [List.getElem?_append_right (Nat.le_add_right ..), Nat.add_sub_cancel_left] at here
      have inRow : c < alphabet := by
        rw [← @length_newRow alphabet end_]
        exact (List.getElem?_eq_some_iff.1 here).1
      have behind : alphabet ≤ dfa.length := by
        rw [targets.length]
        exact Nat.le_mul_of_pos_right _ (Nat.succ_pos n)
      have column : (dfa.length + c) % alphabet = c := by
        rw [targets.length, Nat.mul_add_mod, Nat.mod_eq_of_lt inRow]
      have high : eolIndex ≤ c := by
        rcases high with zero | high
        · omega
        · rwa [column] at high
      have value := getElem?_newRow end_ inRow
      rw [here, endCell_high _ high] at value
      rw [show v = 0 from value]
      exact Nat.zero_le _

variable {rows : DfaRows}

theorem Targets.closure (targets : Targets alphabet rows.seenVectors.length rows.dfa)
    {followpos : List Nat} {found : Option Nat} {rows' : DfaRows}
    (closed : closure heap alphabet followpos rows = (found, rows')) :
    Targets alphabet rows'.seenVectors.length rows'.dfa ∧ ∀ t, found = some t → t ≤ rows'.seenVectors.length := by
  unfold Orchid.closure at closed
  split at closed
  · obtain ⟨rfl, rfl⟩ := Prod.mk.inj closed
    exact ⟨targets, fun t none_ => by cases none_⟩
  · dsimp only at closed
    split at closed
    · next k there =>
      obtain ⟨rfl, rfl⟩ := Prod.mk.inj closed
      obtain ⟨inside, -⟩ := List.findIdx?_eq_some_iff_getElem.1 there
      exact ⟨targets, fun t same => Option.some.inj same ▸ inside⟩
    · obtain ⟨rfl, rfl⟩ := Prod.mk.inj closed
      dsimp only
      rw [List.length_append]
      exact ⟨targets.push _, fun t same => Nat.le_of_eq (Option.some.inj same).symm⟩

theorem setTransition_targets {index t k : Nat} (targets : Targets alphabet rows.seenVectors.length rows.dfa)
    (below : t ≤ rows.seenVectors.length) :
    Targets alphabet (setTransition alphabet index t rows k).seenVectors.length (setTransition alphabet index t rows k).dfa ∧
      (setTransition alphabet index t rows k).seenVectors = rows.seenVectors := by
  unfold setTransition
  split_ifs
  · exact ⟨targets.set _ below, rfl⟩
  · exact ⟨targets.set _ below, rfl⟩
  · exact ⟨targets.set _ below, rfl⟩

theorem foldl_setTransition_targets {index t : Nat} {ks : List Nat} : ∀ {rows : DfaRows},
    Targets alphabet rows.seenVectors.length rows.dfa → t ≤ rows.seenVectors.length →
    Targets alphabet (ks.foldl (setTransition alphabet index t) rows).seenVectors.length
      (ks.foldl (setTransition alphabet index t) rows).dfa := by
  induction ks with
  | nil => exact fun targets _ => targets
  | cons k ks ih =>
      intro rows targets below
      obtain ⟨wrote, same⟩ := @setTransition_targets _ _ index t k targets below
      exact ih wrote (same ▸ below)

theorem addTransitions_targets {index : Nat} {equivset : Equivset}
    (targets : Targets alphabet rows.seenVectors.length rows.dfa) :
    Targets alphabet (addTransitions heap alphabet index rows equivset).seenVectors.length
      (addTransitions heap alphabet index rows equivset).dfa := by
  unfold addTransitions
  split
  · next closed => exact (targets.closure closed).1
  · next t rows' closed =>
    obtain ⟨targets', below⟩ := targets.closure closed
    split
    · exact targets'
    · exact foldl_setTransition_targets targets' (below t rfl)

theorem buildRow_targets {sets : SetMapping} {index : Nat} {vector : List Nat}
    (targets : Targets alphabet rows.seenVectors.length rows.dfa) :
    Targets alphabet (buildRow heap sets alphabet index vector rows).seenVectors.length
      (buildRow heap sets alphabet index vector rows).dfa := by
  unfold buildRow
  exact List.foldlRecOn (motive := fun rows : DfaRows => Targets alphabet rows.seenVectors.length rows.dfa) _ _ targets
    fun _ targets _ _ => addTransitions_targets targets

/-- **Every target is a row.** -/
theorem buildRows_targets {sets : SetMapping} {rounds : Nat} :
    ∀ {index : Nat} {rows rows' : DfaRows}, Targets alphabet rows.seenVectors.length rows.dfa →
      buildRows heap sets alphabet rounds index rows = .ok rows' → Targets alphabet rows'.seenVectors.length rows'.dfa := by
  induction rounds with
  | zero =>
      intro index rows rows' targets done
      unfold buildRows at done
      split at done
      · obtain rfl := Except.ok.inj done
        exact targets
      · cases done
  | succ rounds ih =>
      intro index rows rows' targets done
      unfold buildRows at done
      split at done
      · obtain rfl := Except.ok.inj done
        exact targets
      · exact ih (buildRow_targets targets) done

end Targets

end Orchid
