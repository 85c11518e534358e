/-
# RegexParse.TableRuns -- what the runs of the table are

`Ready` is what the parser hands to `buildDfa`: a linked tree whose leaves have sets of
the map for their tokens.  Then `buildDfa` ends, and the row that a run of its table
reaches is the set of the leaves that the word leads to in the tree's expression
(`Built.run_reach`); if no leaf is lazy, there is a row for every word that leads
anywhere (`Built.run_some`).  An end row has the values of the end node that comes first
in the order of the ranks (`endOf_first`).
-/
import Orchid.RegexParse.Rows

namespace Orchid

open Orchid.Theory

set_option autoImplicit false

/-- The bytes that the leaf reads. -/
def LeafReads (map : CharsetMap) (kinds : Kinds) (b : UInt8) (p : Nat) : Prop :=
  ∃ entry ∈ map, kinds[p]? = some (Sum.inl (.charset entry.2)) ∧ b ∈ entry.1

/-- A token of a leaf that can be read. -/
def TokenOf (map : CharsetMap) : LeafToken → Prop
  | .charset id => ∃ entry ∈ map, entry.2 = id
  | .bol => True
  | .eol => True
  | .null => False

/-- What the parser leaves; `rank` orders the leaves by their rules. -/
structure Ready (map : CharsetMap) (heap : Heap) (root : Node) (rank : Nat → Nat) : Prop where
  numbered : Numbered map
  linked : Linked heap [root]
  tokens : ∀ p ∈ root.expr.positions, (∃ token, heap.kinds[p]? = some (Sum.inl token) ∧ TokenOf map token) ∨
    ∃ end_, heap.kinds[p]? = some (Sum.inr end_)
  first : root.expr.first ≠ []
  keeps : ∀ p q, root.expr.Follows p q → rank q = rank p
  order : root.expr.first.Pairwise fun a b => rank a ≤ rank b

/-- Without a `$` nothing clashes with the newline. -/
def NoEol (heap : Heap) (root : Node) : Prop := ∀ p ∈ root.expr.positions, heap.kinds[p]? ≠ some (Sum.inl .eol)

/-- Without a `^` rows are only led to by texts. -/
def NoBol (heap : Heap) (root : Node) : Prop := ∀ p ∈ root.expr.positions, heap.kinds[p]? ≠ some (Sum.inl .bol)

/-- What holds of every row. -/
structure RowOf (map : CharsetMap) (heap : Heap) (root : Node) (rank : Nat → Nat) (vector : List Nat) : Prop where
  inside : ∀ p ∈ vector, p ∈ root.expr.positions
  order : vector.Pairwise fun a b => rank a ≤ rank b
  nonempty : vector ≠ []
  led : NoBol heap root → NoEol heap root →
    ∃ word, ∀ p, p ∈ vector ↔ root.expr.Reach (LeafReads map heap.kinds) word p

theorem fillEquivset_eq {heap : Heap} {p : Nat} {token : LeafToken}
    (kind : heap.kinds[p]? = some (Sum.inl token)) (sets : SetMapping) : fillEquivset heap sets p =
      (tokenIndexes sets token).map fun indexes => ⟨indexes, heap.greedy p, heap.followpos p⟩ := by
  obtain ⟨token', setGreedy, greedy, followpos, here⟩ := Heap.IsLeaf.cell ⟨token, kind⟩
  obtain rfl : token' = token := by
    rw [Heap.kinds, List.getElem?_map, here] at kind
    exact Sum.inl.inj (Option.some.inj kind)
  rw [Heap.followpos_of_cell here, Heap.greedy_of_cell here]
  unfold fillEquivset
  rw [here]
  rfl

theorem fillEquivset_end {heap : Heap} {p : Nat} {end_ : EndState}
    (kind : heap.kinds[p]? = some (Sum.inr end_)) (sets : SetMapping) : fillEquivset heap sets p = none := by
  rw [Heap.kinds, List.getElem?_map] at kind
  obtain ⟨cell, here, same⟩ := Option.map_eq_some_iff.1 kind
  unfold fillEquivset
  rw [here]
  cases cell with
  | leafNode token setGreedy greedy followpos => cases same
  | endNode end_ => rfl

/-- Every class has a byte of its own. -/
theorem exists_pick {map : CharsetMap} (numbered : Numbered map) : ∃ pick : Fin (partitionCharsets map).length → Fin 256,
    Function.Injective pick ∧ ∀ i, ∃ b : UInt8, (partitionCharsets map)[i].has b ∧ (pick i).val = b.toNat := by
  have parts := (partitionCharsets_spec numbered.nonempty).1
  have byte : ∀ i : Fin (partitionCharsets map).length, ∃ b, (partitionCharsets map)[i].has b := fun i =>
    parts.nonempty _ (List.getElem_mem i.2)
  choose pick picked using byte
  have apart := List.pairwise_iff_getElem.1 parts.apart
  refine ⟨fun i => ⟨(pick i).toNat, UInt8.toNat_lt (pick i)⟩, fun i j same => ?_, fun i => ⟨pick i, picked i, rfl⟩⟩
  have bytes : pick i = pick j := UInt8.toNat_inj.1 (Fin.val_eq_of_eq same)
  rcases Nat.lt_trichotomy i j with less | equal | more
  · exact absurd (bytes ▸ picked j) (apart i j i.2 j.2 less _ (picked i))
  · exact Fin.ext equal
  · exact absurd (bytes ▸ picked j) (fun there => apart j i j.2 i.2 more _ (bytes ▸ there) (picked i))

/-- There are no more classes than bytes. -/
theorem length_partitionCharsets {map : CharsetMap} (numbered : Numbered map) : (partitionCharsets map).length ≤ 256 := by
  obtain ⟨pick, injective, -⟩ := exists_pick numbered
  simpa using Fintype.card_le_of_injective pick injective

/-- A byte that is in no set has no class. -/
theorem length_partitionCharsets_lt {map : CharsetMap} (numbered : Numbered map) {b : UInt8}
    (unread : ∀ entry ∈ map, b ∉ entry.1) : (partitionCharsets map).length ≤ 255 := by
  obtain ⟨pick, injective, picked⟩ := exists_pick numbered
  have other : Finset.univ.image pick ⊆ Finset.univ.erase ⟨b.toNat, UInt8.toNat_lt b⟩ := by
    intro byte member
    obtain ⟨i, -, rfl⟩ := Finset.mem_image.1 member
    refine Finset.mem_erase.2 ⟨fun same => ?_, Finset.mem_univ _⟩
    obtain ⟨c, inside, value⟩ := picked i
    obtain rfl : c = b := UInt8.toNat_inj.1 (value.symm.trans (congrArg Fin.val same))
    obtain ⟨entry, there, read⟩ := ((partitionCharsets_spec numbered.nonempty).2.1 c).1 ⟨_, List.getElem_mem i.2, inside⟩
    exact unread entry there read
  have count := Finset.card_le_card other
  rwa [Finset.card_image_of_injective _ injective, Finset.card_erase_of_mem (Finset.mem_univ _), Finset.card_univ,
    Finset.card_univ, Fintype.card_fin, Fintype.card_fin] at count

section Ready

variable {map : CharsetMap} {heap : Heap} {root : Node} {rank : Nat → Nat}

/-- Which classes read which leaves of the tree. -/
theorem Ready.readBy (ready : Ready map heap root rank) {p : Nat} (member : p ∈ root.expr.positions) {k : Nat} :
    ReadBy heap (setMapping map) k p ↔
      (∃ entry ∈ map, heap.kinds[p]? = some (Sum.inl (.charset entry.2)) ∧ k ∈ (setMapping map).classes entry.2) ∨
        heap.kinds[p]? = some (Sum.inl .bol) ∧ k = bolToken ∨ heap.kinds[p]? = some (Sum.inl .eol) ∧ k = eolToken := by
  unfold ReadBy
  rcases ready.tokens p member with ⟨token, kind, of_⟩ | ⟨end_, kind⟩
  · rw [fillEquivset_eq kind, kind]
    cases token with
    | charset id =>
        obtain ⟨entry, inside, rfl⟩ := of_
        simp only [tokenIndexes, Option.map_some, Option.some.injEq, exists_eq_left', Sum.inl.injEq,
          LeafToken.charset.injEq, reduceCtorEq, false_and, or_false]
        constructor
        · exact fun read => ⟨entry, inside, rfl, read⟩
        · rintro ⟨entry', inside', same, read⟩
          rwa [same]
    | bol => simp [tokenIndexes]
    | eol => simp [tokenIndexes]
    | null => exact of_.elim
  · rw [fillEquivset_end kind, kind]
    simp

theorem Ready.cuttable (ready : Ready map heap root rank) {vector : List Nat}
    (inside : ∀ p ∈ vector, p ∈ root.expr.positions) : Cuttable heap (setMapping map) vector := by
  intro p member equivset filled
  rcases ready.tokens p (inside p member) with ⟨token, kind, of_⟩ | ⟨end_, kind⟩
  · rw [fillEquivset_eq kind] at filled
    obtain ⟨indexes, here, rfl⟩ := Option.map_eq_some_iff.1 filled
    cases token with
    | charset id =>
        obtain ⟨entry, inside, rfl⟩ := of_
        obtain rfl := Option.some.inj here
        refine ⟨ready.numbered.sorted _, ?_⟩
        obtain ⟨b, read⟩ := ready.numbered.nonempty entry inside
        rcases ready.numbered.lookup b with ⟨-, none_⟩ | ⟨k, charset, class_, holds, -⟩
        · exact absurd read (none_ entry inside)
        · exact List.ne_nil_of_mem ((ready.numbered.reads_iff inside class_ holds).1 read)
    | bol =>
        obtain rfl := Option.some.inj here
        exact ⟨List.pairwise_singleton .., by simp⟩
    | eol =>
        obtain rfl := Option.some.inj here
        exact ⟨List.pairwise_singleton .., by simp⟩
    | null => exact of_.elim
  · rw [fillEquivset_end kind] at filled
    cases filled

theorem Ready.follows (ready : Ready map heap root rank) {p : Nat} (member : p ∈ root.expr.positions) (q : Nat) :
    q ∈ heap.followpos p ↔ root.expr.Follows p q :=
  ready.linked.follows root List.mem_cons_self p member q

/-- A class reads the leaves that each of its bytes is read by. -/
theorem Ready.readBy_byte (ready : Ready map heap root rank) {k : Nat} {charset : Charset} {b : UInt8}
    (class_ : (partitionCharsets map)[k]? = some charset) (holds : b ∈ charset.token) :
    ∀ p ∈ root.expr.positions, ReadBy heap (setMapping map) k p ↔ LeafReads map heap.kinds b p := by
  have few := length_partitionCharsets ready.numbered
  have below := (List.getElem?_eq_some_iff.1 class_).1
  intro p member
  rw [ready.readBy member]
  constructor
  · rintro (⟨entry, inside, kind, read⟩ | ⟨-, other⟩ | ⟨-, other⟩)
    · exact ⟨entry, inside, kind, (ready.numbered.reads_iff inside class_ holds).2 read⟩
    · unfold bolToken at other
      omega
    · unfold eolToken at other
      omega
  · rintro ⟨entry, inside, kind, read⟩
    exact Or.inl ⟨entry, inside, kind, (ready.numbered.reads_iff inside class_ holds).1 read⟩

/-- Without anchors every class of a row has a byte. -/
theorem Ready.exists_byte (ready : Ready map heap root rank) (noBol : NoBol heap root) (noEol : NoEol heap root) {k p : Nat}
    (member : p ∈ root.expr.positions) (read : ReadBy heap (setMapping map) k p) :
    ∃ b, ∀ p ∈ root.expr.positions, ReadBy heap (setMapping map) k p ↔ LeafReads map heap.kinds b p := by
  rcases (ready.readBy member).1 read with ⟨entry, entryIn, -, class_⟩ | ⟨bol, -⟩ | ⟨eol, -⟩
  · obtain ⟨charset, at_, -⟩ := (ready.numbered.mem_classes (ready.numbered.below entry entryIn)).1 class_
    obtain ⟨b, holds⟩ := (partitionCharsets_spec ready.numbered.nonempty).1.nonempty _ (List.mem_of_getElem? at_)
    exact ⟨b, ready.readBy_byte at_ holds⟩
  · exact absurd bol (noBol p member)
  · exact absurd eol (noEol p member)

theorem foldl_enqueue_ne_nil {followpos : List Nat} (nonempty : followpos ≠ []) : followpos.foldl enqueue [] ≠ [] := by
  obtain ⟨q, inside⟩ := List.exists_mem_of_ne_nil _ nonempty
  exact List.ne_nil_of_mem (mem_foldl_enqueue.2 (Or.inr inside))

/-- Rows lead to rows. -/
theorem Ready.closing (ready : Ready map heap root rank) {alphabet : Nat}
    (alphabet_ : (partitionCharsets map).length + transitionsIndex ≤ alphabet) :
    Closing heap (setMapping map) alphabet (RowOf map heap root rank) where
  serves vector row equivset member := by
    have cuttable := ready.cuttable row.inside
    obtain ⟨k₀, here₀⟩ := cuttable.refine.1.nonempty equivset member
    have followers := fun k (here : k ∈ equivset.indexVector) => cuttable.followpos member here
    refine ⟨fun k here => ?_, followers, fun eager => cuttable.greedy eager member here₀,
      fun nonempty => ⟨fun q inside => ?_, ?_, foldl_enqueue_ne_nil nonempty, fun noBol noEol => ?_⟩⟩
    · obtain ⟨p, inside, read⟩ := (cuttable.covers k).1 ⟨equivset, member, here⟩
      rcases (ready.readBy (row.inside p inside)).1 read with ⟨entry, entryIn, -, class_⟩ | ⟨-, bol⟩ | ⟨-, eol⟩
      · obtain ⟨charset, at_, -⟩ := (ready.numbered.mem_classes (ready.numbered.below entry entryIn)).1 class_
        have below := (List.getElem?_eq_some_iff.1 at_).1
        exact Or.inl (by omega)
      · exact Or.inr (Or.inl bol)
      · exact Or.inr (Or.inr eol)
    · rcases mem_foldl_enqueue.1 inside with nil | inside
      · cases nil
      · obtain ⟨p, member', -, follows⟩ := (followers k₀ here₀ q).1 inside
        exact ((ready.follows (row.inside p member') q).1 follows).subset.2
    · refine pairwise_foldl_enqueue (cuttable.sorted row.order (fun p inside q follows => ?_) member here₀)
        List.Pairwise.nil (by simp)
      exact ready.keeps p q ((ready.follows (row.inside p inside) q).1 follows)
    · obtain ⟨p₀, inside₀, read₀⟩ := (cuttable.covers k₀).1 ⟨equivset, member, here₀⟩
      obtain ⟨b, same⟩ := ready.exists_byte noBol noEol (row.inside p₀ inside₀) read₀
      obtain ⟨word, led⟩ := row.led noBol noEol
      refine ⟨word ++ [b], fun q => ?_⟩
      rw [mem_foldl_enqueue, Expr.reach_snoc]
      simp only [List.not_mem_nil, false_or, ← led]
      rw [followers k₀ here₀ q]
      refine exists_congr fun p => and_congr_right fun inside => ?_
      rw [same p (row.inside p inside), ready.follows (row.inside p inside)]
  covers vector row k := ((ready.cuttable row.inside).covers k).2
  inside vector row p member := ready.linked.inside root List.mem_cons_self p (row.inside p member)

theorem Ready.start (ready : Ready map heap root rank) : RowOf map heap root rank (root.firstpos.foldl enqueue []) := by
  rw [root.firstpos_eq]
  refine ⟨fun p inside => ?_, pairwise_foldl_enqueue ready.order List.Pairwise.nil (by simp), foldl_enqueue_ne_nil ready.first,
    fun _ _ => ⟨[], fun p => ?_⟩⟩
  · rcases mem_foldl_enqueue.1 inside with nil | inside
    · cases nil
    · exact Expr.first_subset root.expr p inside
  · rw [mem_foldl_enqueue, Expr.reach_nil]
    simp

/-! ## The table -/

/-- What `buildDfa` leaves: the sets of the rows from the start row on. -/
structure Built (map : CharsetMap) (heap : Heap) (root : Node) (rank : Nat → Nat) (seen : List (List Nat))
    (dfa : List Uint) (table : LexTable) : Prop where
  rows : ∃ eolSet, Rows heap (setMapping map) table.alphabet (RowOf map heap root rank) (fun j _ => j < seen.length)
    ⟨seen, dfa, eolSet⟩
  start : ∃ vector, seen[0]? = some vector ∧ ∀ q, q ∈ vector ↔ q ∈ root.expr.first
  lookup : table.lookup = (setMapping map).lookup
  alphabet : (partitionCharsets map).length + transitionsIndex ≤ table.alphabet
  targets : Targets table.alphabet seen.length dfa

theorem rows_nil (heap : Heap) (sets : SetMapping) (alphabet : Nat) (P : List Nat → Prop) :
    Rows heap sets alphabet P (fun j _ => j < 0) ⟨[], List.replicate alphabet 0, []⟩ where
  length := by simp
  fine := by simp
  once := List.Pairwise.nil
  jam c inside _ := by simp [cellAt, inside]
  ends := by simp
  sound := by simp
  complete := by simp
  bound j _ below := absurd below (Nat.not_lt_zero j)

/-- The first row is the start row. -/
theorem closure_nil (heap : Heap) (alphabet : Nat) {followpos : List Nat} (nonempty : followpos ≠ []) (dfa : List Uint)
    (eolSet : List Nat) : closure heap alphabet followpos ⟨[], dfa, eolSet⟩ =
      (some 1, ⟨[followpos.foldl enqueue []], dfa ++ newRow alphabet (endOf heap followpos), eolSet⟩) := by
  unfold closure
  rw [if_neg (by simpa using nonempty), foldl_closureEx]
  rfl

theorem Ready.no_eolToken (ready : Ready map heap root rank) (noEol : NoEol heap root) {vector : List Nat}
    (row : RowOf map heap root rank vector) : ∀ equivset ∈ buildEquivList heap (setMapping map) vector,
      eolToken ∉ equivset.indexVector := by
  intro equivset member here
  obtain ⟨p, inside, read⟩ := ((ready.cuttable row.inside).covers eolToken).1 ⟨equivset, member, here⟩
  have few := length_partitionCharsets ready.numbered
  rcases (ready.readBy (row.inside p inside)).1 read with ⟨entry, entryIn, -, class_⟩ | ⟨-, other⟩ | ⟨eol, -⟩
  · obtain ⟨charset, at_, -⟩ := (ready.numbered.mem_classes (ready.numbered.below entry entryIn)).1 class_
    have below := (List.getElem?_eq_some_iff.1 at_).1
    unfold eolToken at below
    omega
  · cases other
  · exact noEol p (row.inside p inside) eol

theorem Ready.buildDfa (ready : Ready map heap root rank) (noEol : NoEol heap root) :
    ∃ table seen, buildDfa map root heap none = .ok table ∧ Built map heap root rank seen table.dfa table ∧
      table.alphabet = (partitionCharsets map).length + transitionsIndex := by
  have few := length_partitionCharsets ready.numbered
  have wide : transitionsIndex ≤ (partitionCharsets map).length + transitionsIndex := Nat.le_add_left ..
  have small : (partitionCharsets map).length + transitionsIndex ≤ eolToken := by
    unfold transitionsIndex eolToken
    omega
  have nonempty : root.firstpos ≠ [] := root.firstpos_eq ▸ ready.first
  have closing := ready.closing (Nat.le_refl _)
  obtain ⟨t, rows, closed, spec⟩ := (rows_nil heap (setMapping map) ((partitionCharsets map).length + transitionsIndex)
    (RowOf map heap root rank)).closure wide nonempty ready.start
  have first := closed
  rw [closure_nil heap _ nonempty] at first
  obtain ⟨-, rfl⟩ := Prod.mk.inj first
  obtain ⟨rows', done, good, more, eol⟩ := spec.good.buildRows wide small closing (Nat.zero_le _)
    (show 2 ^ heap.length ≤ 0 + 2 ^ heap.length by omega)
  have noClash := eol fun vector row => ready.no_eolToken noEol row
  have targets := buildRows_targets ((targets_nil ((partitionCharsets map).length + transitionsIndex)).closure closed).1 done
  refine ⟨⟨(partitionCharsets map).length + transitionsIndex, (setMapping map).lookup, rows'.dfa⟩, rows'.seenVectors, ?_,
    ⟨⟨rows'.eolSet, good⟩, ⟨root.firstpos.foldl enqueue [], prefix_getElem? more rfl, fun q => ?_⟩, rfl, Nat.le_refl _, targets⟩, rfl⟩
  · unfold Orchid.buildDfa
    have inRange : ¬ (partitionCharsets map).length + transitionsIndex + 0 > npos.toNat := by
      show ¬ _ > 0xFFFFFFFF
      unfold transitionsIndex
      omega
    simp only [Option.map_none, Option.isNone_none, if_true, if_neg inRange]
    rw [Nat.add_zero, closed]
    show (do let rows ← buildRows _ _ _ _ _ _; _) = _
    rw [done]
    show Except.ok (LexTable.mk _ _ (fixClashes _ _ rows'.eolSet rows'.dfa)) = _
    rw [noClash]
    rfl
  · rw [mem_foldl_enqueue, root.firstpos_eq]
    simp

/-! ## Runs -/

section Runs

variable {seen : List (List Nat)} {table : LexTable} (ready : Ready map heap root rank)
  (built : Built map heap root rank seen table.dfa table)

theorem LexTable.cell_eq (table : LexTable) (r c : Nat) : table.cell r c = cellAt table.alphabet table.dfa r c := by
  unfold LexTable.cell cellAt
  rw [Nat.mul_comm]

include ready built

omit ready in
theorem Built.row {j : Nat} {vector : List Nat} (here : seen[j]? = some vector) : RowOf map heap root rank vector := by
  obtain ⟨eolSet, rows⟩ := built.rows
  exact rows.fine vector (List.mem_of_getElem? here)

/-- The column of a byte: that of its class, or the dead one. -/
theorem Built.column (b : UInt8) :
    ((table.lookup b).toNat = deadStateIndex ∧ ∀ p, ¬ LeafReads map heap.kinds b p) ∨
      ∃ k, (table.lookup b).toNat = k + transitionsIndex ∧ k + transitionsIndex < table.alphabet ∧
        ∀ p ∈ root.expr.positions, ReadBy heap (setMapping map) k p ↔ LeafReads map heap.kinds b p := by
  have few := length_partitionCharsets ready.numbered
  have alphabet := built.alphabet
  rw [built.lookup]
  rcases ready.numbered.lookup b with ⟨dead, none_⟩ | ⟨k, charset, class_, holds, column⟩
  · refine Or.inl ⟨by rw [dead]; rfl, ?_⟩
    rintro p ⟨entry, inside, -, read⟩
    exact none_ entry inside read
  · have below := (List.getElem?_eq_some_iff.1 class_).1
    have value : ((setMapping map).lookup b).toNat = k + transitionsIndex := by
      rw [column, BitVec.toNat_ofNat, Nat.mod_eq_of_lt (by unfold transitionsIndex; omega)]
    exact Or.inr ⟨k, value, by omega, ready.readBy_byte class_ holds⟩

omit ready in
/-- **Without anchors there are no more rows than the texts that lead anywhere can be told apart by.** -/
theorem Built.length_le (noBol : NoBol heap root) (noEol : NoEol heap root) {κ : Type} [DecidableEq κ] {fold : UInt8 → κ}
    (same : ∀ b b', fold b = fold b' → ∀ p ∈ root.expr.positions, LeafReads map heap.kinds b p → LeafReads map heap.kinds b' p)
    {keys : List (List κ)} (inside : ∀ w q, root.expr.Reach (LeafReads map heap.kinds) w q → w.map fold ∈ keys) :
    seen.length ≤ keys.length := by
  have word : ∀ j : Fin seen.length, ∃ w, ∀ p, p ∈ seen[j] ↔ root.expr.Reach (LeafReads map heap.kinds) w p := fun j =>
    (built.row (List.getElem?_eq_getElem j.2)).led noBol noEol
  choose word led using word
  obtain ⟨eolSet, rows⟩ := built.rows
  have apart := List.pairwise_iff_getElem.1 rows.once
  have again : ∀ i j : Fin seen.length, (word i).map fold = (word j).map fold → ∀ p, p ∈ seen[i] ↔ p ∈ seen[j] := by
    intro i j equal p
    rw [led, led]
    exact ⟨fun reach => reach.map same _ equal.symm, fun reach => reach.map same _ equal⟩
  have injective : Function.Injective fun j => (word j).map fold := by
    intro i j equal
    rcases Nat.lt_trichotomy i j with less | this | more
    · exact absurd (again i j equal) (apart i j i.2 j.2 less)
    · exact Fin.ext this
    · exact absurd (again j i equal.symm) (apart j i j.2 i.2 more)
  have all : (Finset.univ.image fun j => (word j).map fold) ⊆ keys.toFinset := by
    intro key member
    obtain ⟨j, -, rfl⟩ := Finset.mem_image.1 member
    obtain ⟨q, here⟩ := List.exists_mem_of_ne_nil _ (built.row (List.getElem?_eq_getElem j.2)).nonempty
    exact List.mem_toFinset.2 (inside _ q ((led j q).1 here))
  have count := Finset.card_le_card all
  rw [Finset.card_image_of_injective _ injective, Finset.card_univ, Fintype.card_fin] at count
  exact count.trans (List.toFinset_card_le keys)

/-- A byte leads on if a leaf of the row reads it, and it leads to the followers. -/
theorem Built.followers {j : Nat} {vector : List Nat} (here : seen[j]? = some vector) {k : Nat} {b : UInt8}
    (same : ∀ p ∈ root.expr.positions, ReadBy heap (setMapping map) k p ↔ LeafReads map heap.kinds b p) (q : Nat) :
    Followers heap (setMapping map) vector k q ↔
      ∃ p ∈ vector, LeafReads map heap.kinds b p ∧ root.expr.Follows p q := by
  have row := built.row here
  unfold Followers
  refine exists_congr fun p => and_congr_right fun member => ?_
  rw [same p (row.inside p member), ready.follows (row.inside p member)]

omit ready in
theorem Built.dead_column {j : Nat} (below : j < seen.length) : table.cell (j + 1) deadStateIndex = 0 := by
  obtain ⟨eolSet, rows⟩ := built.rows
  rw [LexTable.cell_eq, rows.ends j _ (List.getElem?_eq_getElem below) deadStateIndex (by decide) (by decide)]
  exact endCell_high _ (by decide)

theorem Built.step_row (few : seen.length + 1 < npos.toNat) {j : Nat} {vector : List Nat} (here : seen[j]? = some vector)
    {b : UInt8} {t : Nat} (stepped : table.step (j + 1) b = some t) : ∃ i next, t = i + 1 ∧ seen[i]? = some next ∧
      ∀ q, q ∈ next ↔ ∃ p ∈ vector, LeafReads map heap.kinds b p ∧ root.expr.Follows p q := by
  have below := (List.getElem?_eq_some_iff.1 here).1
  unfold LexTable.step at stepped
  rcases built.column ready b with ⟨dead, -⟩ | ⟨k, column, inside, same⟩
  · rw [dead, built.dead_column below, if_pos rfl] at stepped
    cases stepped
  · rw [column] at stepped
    split at stepped
    · cases stepped
    · next nonzero =>
      obtain ⟨eolSet, rows⟩ := built.rows
      rw [LexTable.cell_eq] at stepped nonzero
      obtain ⟨t', cell, positive, next, row, followers⟩ := rows.sound j vector here k inside nonzero
      have rowBelow : t' - 1 < seen.length := (List.getElem?_eq_some_iff.1 row).1
      obtain rfl : t' = t := by
        have value := Option.some.inj stepped
        have bound : npos.toNat < 2 ^ 32 := npos.isLt
        rw [cell, BitVec.toNat_ofNat, Nat.mod_eq_of_lt (by omega)] at value
        exact value
      refine ⟨t' - 1, next, by omega, row, fun q => ?_⟩
      rw [followers q, built.followers ready here same]

theorem Built.step_some (few : seen.length + 1 < npos.toNat) {j : Nat} {vector : List Nat} (here : seen[j]? = some vector)
    {b : UInt8} (greedy : heap.Eager ∨ endOf heap vector = none)
    (nonempty : ∃ q, ∃ p ∈ vector, LeafReads map heap.kinds b p ∧ root.expr.Follows p q) :
    ∃ t, table.step (j + 1) b = some t := by
  have below := (List.getElem?_eq_some_iff.1 here).1
  unfold LexTable.step
  rcases built.column ready b with ⟨-, none_⟩ | ⟨k, column, inside, same⟩
  · obtain ⟨q, p, -, read, -⟩ := nonempty
    exact absurd read (none_ p)
  · obtain ⟨eolSet, rows⟩ := built.rows
    obtain ⟨q, follows⟩ := nonempty
    obtain ⟨t, cell, positive, next, row, -⟩ := rows.complete j vector here k inside below greedy
      ⟨q, (built.followers ready here same q).2 follows⟩
    have rowBelow : t - 1 < seen.length := (List.getElem?_eq_some_iff.1 row).1
    have nonzero : cellAt table.alphabet table.dfa (j + 1) (k + transitionsIndex) ≠ 0 := by
      intro zero
      have value := congrArg BitVec.toNat (cell.symm.trans zero)
      have bound : npos.toNat < 2 ^ 32 := npos.isLt
      rw [BitVec.toNat_ofNat, Nat.mod_eq_of_lt (by omega)] at value
      exact absurd value (by show t ≠ 0; omega)
    rw [column, LexTable.cell_eq, if_neg nonzero]
    exact ⟨_, rfl⟩

/-- **The row that a run reaches is the set of the leaves that the word leads to.** -/
theorem Built.run_reach (few : seen.length + 1 < npos.toNat) {word : CStr} : ∀ {row : Nat}, run table.step 1 word = some row →
    ∃ j vector, row = j + 1 ∧ seen[j]? = some vector ∧
      ∀ q, q ∈ vector ↔ root.expr.Reach (LeafReads map heap.kinds) word q := by
  induction word using List.reverseRecOn with
  | nil =>
      intro row ran
      obtain ⟨vector, here, same⟩ := built.start
      exact ⟨0, vector, (Option.some.inj ran).symm, here, fun q => (same q).trans Expr.reach_nil.symm⟩
  | append_singleton word b ih =>
      intro row ran
      rw [run_append] at ran
      obtain ⟨before, ran, stepped⟩ := Option.bind_eq_some_iff.1 ran
      obtain ⟨j, vector, rfl, here, same⟩ := ih ran
      have stepped : table.step (j + 1) b = some row := by
        rw [run] at stepped
        obtain ⟨next, stepped, done⟩ := Option.bind_eq_some_iff.1 stepped
        rwa [← Option.some.inj done]
      obtain ⟨i, next, rfl, there, followers⟩ := built.step_row ready few here stepped
      refine ⟨i, next, rfl, there, fun q => ?_⟩
      rw [followers, Expr.reach_snoc]
      simp only [same]

/-- If no leaf is lazy, a word that leads anywhere has a row. -/
theorem Built.run_some (few : seen.length + 1 < npos.toNat) (eager : heap.Eager) {word : CStr} :
    (∃ q, root.expr.Reach (LeafReads map heap.kinds) word q) → ∃ row, run table.step 1 word = some row := by
  induction word using List.reverseRecOn with
  | nil => exact fun _ => ⟨1, rfl⟩
  | append_singleton word b ih =>
      rintro ⟨q, reach⟩
      obtain ⟨p, before, read, follows⟩ := Expr.reach_snoc.1 reach
      obtain ⟨row, ran⟩ := ih ⟨p, before⟩
      obtain ⟨j, vector, rfl, here, same⟩ := built.run_reach ready few ran
      obtain ⟨t, stepped⟩ := built.step_some ready few here (Or.inl eager) ⟨q, p, (same p).2 before, read, follows⟩
      refine ⟨t, ?_⟩
      rw [run_append, ran]
      show (table.step (j + 1) b).bind _ = _
      rw [stepped]
      rfl

end Runs

/-! ## End rows -/

theorem endNode?_iff {heap : Heap} {p : Nat} {end_ : EndState} :
    heap[p]?.bind endNode? = some end_ ↔ heap.kinds[p]? = some (Sum.inr end_) := by
  rw [Heap.kinds, List.getElem?_map]
  cases heap[p]? with
  | none => simp
  | some cell => cases cell <;> simp [endNode?, Cell.kind]

theorem endOf_eq_none {heap : Heap} {vector : List Nat} :
    endOf heap vector = none ↔ ∀ p ∈ vector, ∀ end_, heap.kinds[p]? ≠ some (Sum.inr end_) := by
  unfold endOf
  rw [List.findSome?_eq_none_iff]
  refine forall_congr' fun p => imp_congr_right fun _ => ?_
  rw [Option.eq_none_iff_forall_ne_some]
  exact forall_congr' fun end_ => not_congr endNode?_iff

/-- The first end node of a row in the order of the ranks has the least rank. -/
theorem endOf_first {heap : Heap} {vector : List Nat} {rank : Nat → Nat}
    (order : vector.Pairwise fun a b => rank a ≤ rank b) {end_ : EndState} (found : endOf heap vector = some end_) :
    ∃ p ∈ vector, heap.kinds[p]? = some (Sum.inr end_) ∧
      ∀ q ∈ vector, ∀ other, heap.kinds[q]? = some (Sum.inr other) → rank p ≤ rank q := by
  obtain ⟨before, p, after, rfl, here, none_⟩ := List.findSome?_eq_some_iff.1 found
  refine ⟨p, by simp, endNode?_iff.1 here, fun q member other kind => ?_⟩
  rcases List.mem_append.1 member with member | member
  · have known := none_ q member
    rw [endNode?_iff.2 kind] at known
    cases known
  · rcases List.mem_cons.1 member with rfl | later
    · exact Nat.le_refl _
    · exact List.rel_of_pairwise_cons (List.pairwise_append.1 order).2.1 later

section Ends

variable {seen : List (List Nat)} {table : LexTable} (built : Built map heap root rank seen table.dfa table)

include built

theorem Built.low_column {j : Nat} {vector : List Nat} (here : seen[j]? = some vector) {c : Nat}
    (low : c < transitionsIndex) (notEol : c ≠ eolIndex) : table.cell (j + 1) c = endCell (endOf heap vector) c := by
  obtain ⟨eolSet, rows⟩ := built.rows
  rw [LexTable.cell_eq]
  exact rows.ends j vector here c low notEol

theorem Built.isEnd_iff {j : Nat} {vector : List Nat} (here : seen[j]? = some vector) :
    table.isEnd (j + 1) ↔ ∃ end_, endOf heap vector = some end_ := by
  unfold LexTable.isEnd
  rw [built.low_column here (by decide) (by decide)]
  cases endOf heap vector with
  | none => simp [endCell]
  | some end_ =>
      refine iff_of_true ?_ ⟨end_, rfl⟩
      show (if end_.popDfa then endStateBit ||| popDfaBit else endStateBit) ≠ 0
      split <;> decide

/-- The table is shaped like the tables that `reassemble` takes. -/
theorem Built.shaped (ready : Ready map heap root rank) (few : seen.length + 1 < 65535)
    (alphabet : table.alphabet = (partitionCharsets map).length + transitionsIndex)
    (classes : (partitionCharsets map).length ≤ 255) :
    Shaped table (seen.length + 1) (partitionCharsets map).length := by
  obtain ⟨eolSet, rows⟩ := built.rows
  obtain ⟨first, there, -⟩ := built.start
  have nonempty := (List.getElem?_eq_some_iff.1 there).1
  refine ⟨by rw [alphabet]; exact Nat.add_comm .., classes, ?_, by omega, few, fun b => ?_, fun r below c high column => ?_,
    fun r positive below => ?_⟩
  · have length := rows.length
    rw [alphabet, Nat.add_comm _ transitionsIndex] at length
    exact length
  · rcases built.column ready b with ⟨dead, -⟩ | ⟨k, column, inside, -⟩
    · rw [dead]
      unfold deadStateIndex
      omega
    · rw [column]
      unfold transitionsIndex at *
      omega
  · rw [LexTable.cell_eq]
    have inside : c < table.alphabet := by
      rw [alphabet]
      unfold transitionsIndex
      omega
    rcases r with _ | j
    · rw [rows.jam c inside (by omega)]
      exact Nat.succ_pos _
    · have below : j < seen.length := Nat.lt_of_succ_lt_succ below
      by_cases dead : c = deadStateIndex
      · rw [dead, ← LexTable.cell_eq, built.dead_column below]
        exact Nat.succ_pos _
      · obtain ⟨k, rfl⟩ : ∃ k, c = k + transitionsIndex :=
          ⟨c - transitionsIndex, by unfold deadStateIndex at dead; unfold transitionsIndex; omega⟩
        by_cases nonzero : cellAt table.alphabet table.dfa (j + 1) (k + transitionsIndex) = 0
        · rw [nonzero]
          exact Nat.succ_pos _
        · obtain ⟨t, cell, positive, next, row, -⟩ := rows.sound j _ (List.getElem?_eq_getElem below) k inside nonzero
          have rowBelow : t - 1 < seen.length := (List.getElem?_eq_some_iff.1 row).1
          show (cellAt table.alphabet table.dfa (j + 1) (k + transitionsIndex)).toNat < _
          rw [cell, BitVec.toNat_ofNat, Nat.mod_eq_of_lt (by omega)]
          omega
  · obtain ⟨j, rfl⟩ : ∃ j, r = j + 1 := ⟨r - 1, by omega⟩
    have below : j < seen.length := Nat.lt_of_succ_lt_succ below
    rw [built.low_column (List.getElem?_eq_getElem below) (by decide) (by decide)]
    cases endOf heap seen[j] with
    | none => decide
    | some end_ =>
        show (if end_.popDfa then endStateBit ||| popDfaBit else endStateBit).toNat < 4
        split <;> decide

end Ends

end Ready

end Orchid
