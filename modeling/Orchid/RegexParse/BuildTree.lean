/-
# RegexParse.BuildTree -- the tree of a rule

`parse` accepts the rules of the documented grammar in which no quantifier stands behind
another one and which do not match the empty text, and no others (`parse_complete`,
`parse_sound`).  It leaves the tree of the rule's expression in front of the rule's end
node (`RuleTree`); the words that lead to that node are the texts of the expression
(`RuleTree.reach`).
-/
import Orchid.RegexParse.ParserSound
import Orchid.RegexParse.TableRuns
import Orchid.Theory.Alternatives

namespace Orchid

open Orchid.Theory

set_option autoImplicit false

/-! ## The tree of one rule -/

/-- An expression with the end node of its rule behind it. -/
structure RuleEnd (map : CharsetMap) (kinds : Kinds) (end_ : EndState) (r : Regex) (e : Expr Nat) (z : Nat) : Prop where
  spelt : Spells map r (e.map fun p => kinds[p]?)
  ends : kinds[z]? = some (Sum.inr end_)

/-- There may be a `^` in front, to be left out. -/
def RuleTree (map : CharsetMap) (kinds : Kinds) (end_ : EndState) (seenBol : Bool) (r : Regex) (root : Expr Nat) : Prop :=
  ∃ e z, RuleEnd map kinds end_ r e z ∧
    (root = e.ended z ∨ seenBol = true ∧ ∃ b, kinds[b]? = some (Sum.inl .bol) ∧ root = .seq (.alt (.pos b) .null) (e.ended z))

section RuleTree

variable {map : CharsetMap} {kinds : Kinds} {end_ : EndState} {seenBol : Bool} {r : Regex}
  {root e : Expr Nat} {z : Nat}

theorem RuleEnd.leaf (rule : RuleEnd map kinds end_ r e z) : ∀ p ∈ e.positions, LeafOf map r kinds[p]? := by
  intro p member
  apply rule.spelt.leaf
  rw [Expr.positions_map]
  exact List.mem_map_of_mem member

theorem LeafOf.inside {p : Nat} (leaf : LeafOf map r kinds[p]?) : p < kinds.length := by
  by_contra outside
  rw [List.getElem?_eq_none (Nat.le_of_not_lt outside)] at leaf
  cases leaf

section Mono

variable {map' : CharsetMap} {kinds' : Kinds} (grown : ∀ entry ∈ map, entry ∈ map') (more : kinds <+: kinds')

include grown more

theorem RuleEnd.mono (rule : RuleEnd map kinds end_ r e z) : RuleEnd map' kinds' end_ r e z where
  spelt := by
    have same : e.map (fun p => kinds'[p]?) = e.map fun p => kinds[p]? :=
      Expr.map_congr fun p member => Node.getElem?_extended more (rule.leaf p member).inside
    rw [same]
    exact rule.spelt.mono grown
  ends := by
    rw [Node.getElem?_extended more (List.getElem?_eq_some_iff.1 rule.ends).1]
    exact rule.ends

theorem RuleTree.mono (tree : RuleTree map kinds end_ seenBol r root) : RuleTree map' kinds' end_ seenBol r root := by
  obtain ⟨e, z, rule, same⟩ := tree
  refine ⟨e, z, rule.mono grown more, same.imp_right fun ⟨seen, b, bol, same⟩ => ⟨seen, b, ?_, same⟩⟩
  rw [Node.getElem?_extended more (List.getElem?_eq_some_iff.1 bol).1]
  exact bol

end Mono

theorem RuleTree.leaf (tree : RuleTree map kinds end_ seenBol r root) : ∀ p ∈ root.positions,
    LeafOf map r kinds[p]? ∨ kinds[p]? = some (Sum.inl .bol) ∧ seenBol = true ∨ kinds[p]? = some (Sum.inr end_) := by
  obtain ⟨e, z, rule, rfl | ⟨seen, b, bol, rfl⟩⟩ := tree
  · intro p member
    rcases List.mem_append.1 member with member | member
    · exact Or.inl (rule.leaf p member)
    · rw [List.mem_singleton.1 member]
      exact Or.inr (Or.inr rule.ends)
  · intro p member
    rcases List.mem_append.1 member with member | member
    · obtain rfl : p = b := by simpa [Expr.positions] using member
      exact Or.inr (Or.inl ⟨bol, seen⟩)
    · rcases List.mem_append.1 member with member | member
      · exact Or.inl (rule.leaf p member)
      · rw [List.mem_singleton.1 member]
        exact Or.inr (Or.inr rule.ends)

theorem RuleTree.exists_end (tree : RuleTree map kinds end_ seenBol r root) :
    ∃ z ∈ root.positions, kinds[z]? = some (Sum.inr end_) := by
  obtain ⟨e, z, rule, rfl | ⟨seen, b, bol, rfl⟩⟩ := tree
  · exact ⟨z, by simp [Expr.ended, Expr.positions], rule.ends⟩
  · exact ⟨z, by simp [Expr.ended, Expr.positions], rule.ends⟩

theorem first_ended (e : Expr Nat) (z : Nat) : (e.ended z).first ≠ [] := by
  unfold Expr.ended
  rcases Expr.nullable_or_path e with empty | ⟨_ | ⟨i, w⟩, path⟩
  · simp [Expr.first, empty]
  · cases path
  · exact List.ne_nil_of_mem (List.mem_append_left _ path.1)

theorem RuleTree.first (tree : RuleTree map kinds end_ seenBol r root) : root.first ≠ [] := by
  obtain ⟨e, z, rule, rfl | ⟨seen, b, bol, rfl⟩⟩ := tree
  · exact first_ended e z
  · simp [Expr.first]

theorem lang_spelt (spelt : Spells map r (e.map fun p => kinds[p]?)) (numbered : Numbered map) (fine : r.Fine) :
    e.lang (LeafReads map kinds) = r.lang := by
  rw [← spelt.lang numbered fine, Expr.lang_map]
  rfl

theorem RuleEnd.reach (rule : RuleEnd map kinds end_ r e z) (numbered : Numbered map) (fine : r.Fine)
    (once : (e.ended z).positions.Nodup) {w : CStr} : (e.ended z).Reach (LeafReads map kinds) w z ↔ w ∈ r.lang := by
  rw [Expr.reach_ended once, lang_spelt rule.spelt numbered fine]

/-- Only the mark of the expression is an end node. -/
theorem RuleEnd.eq_of_end (rule : RuleEnd map kinds end_ r e z) {p : Nat} (member : p ∈ (e.ended z).positions)
    {other : EndState} (kind : kinds[p]? = some (Sum.inr other)) : p = z := by
  rcases List.mem_append.1 member with member | member
  · have leaf := rule.leaf p member
    rw [kind] at leaf
    cases leaf
  · exact List.mem_singleton.1 member

/-- **The words that lead to the end of a rule's tree are those of the rule.** -/
theorem RuleTree.reach (tree : RuleTree map kinds end_ seenBol r root) (numbered : Numbered map) (fine : r.Fine)
    (once : root.positions.Nodup) {p : Nat} (member : p ∈ root.positions) {other : EndState}
    (kind : kinds[p]? = some (Sum.inr other)) : other = end_ ∧ ∀ w, root.Reach (LeafReads map kinds) w p ↔ w ∈ r.lang := by
  obtain ⟨e, z, rule, rfl | ⟨seen, b, bol, rfl⟩⟩ := tree
  · obtain rfl := rule.eq_of_end member kind
    exact ⟨Sum.inr.inj (Option.some.inj (kind.symm.trans rule.ends)), fun w => rule.reach numbered fine once⟩
  · have apart : b ∉ (e.ended z).positions := by
      have nodup : (b :: (e.ended z).positions).Nodup := once
      exact (List.nodup_cons.1 nodup).1
    have once : (e.ended z).positions.Nodup := (List.nodup_append.1 once).2.1
    have dead : ∀ c, ¬ LeafReads map kinds c b := by
      rintro c ⟨entry, -, same, -⟩
      rw [bol] at same
      cases same
    have notBol : p ≠ b := by
      rintro rfl
      rw [bol] at kind
      cases kind
    have inside : p ∈ (e.ended z).positions := by
      rcases List.mem_append.1 member with here | here
      · exact absurd (by simpa [Expr.positions] using here) notBol
      · exact here
    obtain rfl := rule.eq_of_end inside kind
    refine ⟨Sum.inr.inj (Option.some.inj (kind.symm.trans rule.ends)), fun w => ?_⟩
    rw [Expr.reach_optional dead apart, or_iff_right (fun both => notBol both.2), rule.reach numbered fine once]

/-- Without `^` and `$` whatever has been read is the start of a text of the rule. -/
theorem RuleTree.completion (tree : RuleTree map kinds end_ seenBol r root) (numbered : Numbered map) (fine : r.Fine)
    (once : root.positions.Nodup) (noBol : ¬ r.Uses .bol) (noEol : ¬ r.Uses .eol) {p : Nat} {w : CStr}
    (reach : root.Reach (LeafReads map kinds) w p) : w = [] ∨ ∃ more, w ++ more ∈ r.lang := by
  obtain ⟨e, z, rule, expr⟩ := tree
  have readable : ∀ q ∈ e.positions, ∃ c, LeafReads map kinds c q := by
    intro q member
    have leaf := rule.leaf q member
    unfold LeafReads
    generalize kinds[q]? = found at leaf ⊢
    cases leaf with
    | charset entry _ =>
        obtain ⟨c, inside⟩ := numbered.nonempty _ entry
        exact ⟨c, _, entry, rfl, inside⟩
    | bol uses => exact absurd uses noBol
    | eol uses => exact absurd uses noEol
  have complete : (e.ended z).positions.Nodup → (e.ended z).Reach (LeafReads map kinds) w p → ∃ more, w ++ more ∈ r.lang := by
    intro once reach
    rw [← lang_spelt rule.spelt numbered fine]
    exact Expr.exists_completion once readable reach
  rcases expr with rfl | ⟨-, b, bol, rfl⟩
  · exact Or.inr (complete once reach)
  · have nodup : (b :: (e.ended z).positions).Nodup := once
    have dead : ∀ c, ¬ LeafReads map kinds c b := by
      rintro c ⟨entry, -, same, -⟩
      rw [bol] at same
      cases same
    rw [Expr.reach_optional dead (List.nodup_cons.1 nodup).1] at reach
    exact reach.imp And.left (complete (List.nodup_cons.1 nodup).2)

end RuleTree

/-! ## The end of a rule -/

theorem isEnd_iff {heap : Heap} {p : Nat} : isEnd heap p = true ↔ ∃ end_, heap.kinds[p]? = some (Sum.inr end_) := by
  unfold isEnd
  rw [Heap.kinds, List.getElem?_map]
  cases heap[p]? with
  | none => simp
  | some cell => cases cell <;> simp [Cell.kind]

/-- A rule is refused if it matches the empty text and the flag is not set. -/
theorem checkZeroLen_iff {seenBol : Bool} {map : CharsetMap} {heap : Heap} {end_ : EndState} {r : Regex} {root : Node}
    (tree : RuleTree map heap.kinds end_ seenBol r root.expr) (numbered : Numbered map) (fine : r.Fine)
    (once : root.expr.positions.Nodup) (id : Uint) (flags : Nat) :
    checkZeroLen id flags root heap = .ok () ↔ ¬ (flags &&& matchZeroLen = 0 ∧ [] ∈ r.lang) := by
  have empty : root.firstpos.any (isEnd heap) = true ↔ [] ∈ r.lang := by
    rw [List.any_eq_true, root.firstpos_eq]
    simp only [isEnd_iff]
    constructor
    · rintro ⟨p, starts, other, kind⟩
      have reach := (tree.reach numbered fine once (Expr.first_subset _ p starts) kind).2 []
      exact reach.1 (Expr.reach_nil.2 starts)
    · intro inside
      obtain ⟨z, member, kind⟩ := tree.exists_end
      exact ⟨z, Expr.reach_nil.1 (((tree.reach numbered fine once member kind).2 []).2 inside), end_, kind⟩
  unfold checkZeroLen
  rw [← empty]
  split
  · next refused => simp [refused]
  · next fine_ => simp only [fine_, not_false_eq_true]

theorem Heap.Eager.push {heap : Heap} (eager : heap.Eager) {cell : Cell} (greedy : cell.greedy = true) :
    Heap.Eager (heap ++ [cell]) := by
  intro p
  by_cases old : p < heap.length
  · rw [Heap.greedy, List.getElem?_append_left old]
    exact eager p
  · rw [Heap.greedy, List.getElem?_append_right (Nat.le_of_not_lt old)]
    cases p - heap.length with
    | zero => exact greedy
    | succ k => rfl

section Finish

variable {eager : Prop} {others : List Node} {heap : Heap} {lhs : Node} {shape : Shape} {map : CharsetMap} {r : Regex}

/-- The tree of a rule with its end node, before `^` is taken care of. -/
theorem sequence_endNode (stacked : Stacked eager others heap [lhs] [shape]) (spelt : Spells map r shape) (end_ : EndState) :
    ∃ root heap', sequenceNode lhs (endNode end_ heap).1 (endNode end_ heap).2 = .ok (root, heap') ∧
      heap.kinds <+: heap'.kinds ∧ (eager → heap'.Eager) ∧ Linked heap' (root :: others) ∧
      ∃ e z, RuleEnd map heap'.kinds end_ r e z ∧ root.expr = e.ended z := by
  have grown : (endNode end_ heap).2.kinds = heap.kinds ++ [Sum.inr end_] := List.map_append
  have leafy : lhs.Leafy (endNode end_ heap).2.kinds :=
    (stacked.leafy lhs (by simp)).mono (by rw [grown]; exact List.prefix_append ..)
  have linked : Linked (endNode end_ heap).2 (.endLeaf heap.length :: lhs :: others) := stacked.linked.cons_pos rfl rfl
  obtain ⟨heap', done, kinds, greedy, linked'⟩ := linked.sequenceNode leafy
  have more : heap.kinds <+: heap'.kinds := by
    rw [kinds, grown]
    exact List.prefix_append ..
  refine ⟨_, heap', done, more, fun told => greedy ((stacked.greedy told).1.push rfl), linked', lhs.expr, heap.length, ⟨?_, ?_⟩, rfl⟩
  · have same : lhs.shape heap'.kinds = shape := by
      simpa using stacked.shapes_mono more
    rw [← same] at spelt
    exact spelt
  · rw [kinds, grown, ← heap.length_kinds, List.getElem?_append_right (Nat.le_refl _), Nat.sub_self]
    rfl

theorem fixupBol_tree {end_ : EndState} {root : Node} (linked : Linked heap (root :: others)) (greedy : eager → heap.Eager)
    {e : Expr Nat} {z : Nat} (rule : RuleEnd map heap.kinds end_ r e z) (expr : root.expr = e.ended z) (seenBol : Bool) :
    ∃ root' heap', fixupBol seenBol root heap = .ok (root', heap') ∧ heap.kinds <+: heap'.kinds ∧ (eager → heap'.Eager) ∧
      Linked heap' (root' :: others) ∧ RuleTree map heap'.kinds end_ seenBol r root'.expr := by
  unfold fixupBol
  split
  · exact ⟨root, heap, rfl, List.prefix_rfl, greedy, linked, e, z, rule, Or.inl expr⟩
  · next seen =>
    have linked2 := (linked.leafNode .bol true).leafNode .null true
    have bol := getElem?_kinds_leafNode .bol true heap
    have kinds2 := kinds_leafNode .null true (leafNode .bol true heap).2
    have leafyB := (leafy_leafNode .bol true heap).mono (List.prefix_append _ [Sum.inl .null])
    rw [← kinds2] at leafyB
    have leafyN := leafy_leafNode .null true (leafNode .bol true heap).2
    have linked3 := linked2.selectionNode.of_perm (List.Perm.swap ..)
    obtain ⟨heap', done, kinds, eager', linked'⟩ := linked3.sequenceNode ⟨leafyB, leafyN⟩
    have more : heap.kinds <+: heap'.kinds := by
      rw [kinds, kinds2, kinds_leafNode, List.append_assoc]
      exact List.prefix_append ..
    refine ⟨_, heap', done, more, fun told => eager' (((greedy told).leafNode .bol).leafNode .null), linked', e, z, ?_, Or.inr
      ⟨by simpa using fun none_ => seen (Or.inl none_), heap.length, ?_, ?_⟩⟩
    · exact rule.mono (fun _ member => member) more
    · rw [kinds, kinds2, List.getElem?_append_left (by rw [kinds_leafNode]; simp [heap.length_kinds])]
      exact bol
    · show Expr.seq (.alt (.pos heap.length) .null) root.expr = _
      rw [expr]

/-- What `finish` leaves, if the rule is not refused. -/
theorem finish_tree (stacked : Stacked eager others heap [lhs] [shape]) (spelt : Spells map r shape) (end_ : EndState)
    (flags : Nat) (seenBol : Bool) : ∃ root heap',
      finish end_ flags seenBol lhs heap = (checkZeroLen end_.id flags root heap' >>= fun _ => .ok (root, heap')) ∧
      heap.kinds <+: heap'.kinds ∧ (eager → heap'.Eager) ∧ Linked heap' (root :: others) ∧
      RuleTree map heap'.kinds end_ seenBol r root.expr := by
  obtain ⟨root1, heap1, done1, more1, greedy1, linked1, e, z, rule, expr⟩ := sequence_endNode stacked spelt end_
  obtain ⟨root2, heap2, done2, more2, greedy2, linked2, tree⟩ := fixupBol_tree linked1 greedy1 rule expr seenBol
  refine ⟨root2, heap2, ?_, more1.trans more2, greedy2, linked2, tree⟩
  unfold finish
  simp only [bind_of_ok done1, bind_of_ok done2]
  rfl

end Finish

/-! ## One rule -/

/-- What a rule leaves behind. -/
structure HasTree (setting : Setting) (end_ : EndState) (seenBol : Bool) (r : Regex) (root : Node) (heap : Heap) (map : CharsetMap)
    (nlId : Option Nat) : Prop where
  numbered : Numbered map
  grown : setting.Grown map
  more : setting.kinds <+: heap.kinds
  greedy : setting.eager → heap.Eager
  newline : setting.noEol → nlId = none
  linked : Linked heap (root :: setting.others)
  tree : RuleTree map heap.kinds end_ seenBol r root.expr

/-- What is there before a rule is parsed. -/
structure Before (setting : Setting) (heap : Heap) (map : CharsetMap) (nlId : Option Nat) : Prop where
  numbered : Numbered map
  map : setting.map = map
  kinds : setting.kinds = heap.kinds
  greedy : setting.eager → heap.Eager
  newline : setting.noEol → nlId = none
  linked : Linked heap setting.others

section Parse

variable {setting : Setting} {body : List ReToken} {first last : ReToken} {end_ : EndState} {flags : Nat} {seenBol : Bool}
  {heap : Heap} {map : CharsetMap} {nlId : Option Nat} {r : Regex}

theorem Before.tracks (before : Before setting heap map nlId) (first : ReToken) :
    Tracks setting (opened first ⟨[], heap⟩ map nlId) [] where
  numbered := before.numbered
  grown := ⟨fun _ member => before.map ▸ member, fun _ member => Or.inl (before.map ▸ member)⟩
  spelt := ⟨[], ⟨before.kinds ▸ List.prefix_rfl, Stacked.nil before.linked before.greedy⟩, List.Forall₂.nil⟩
  newline := before.newline

/-- A rule that is not refused: whether it matches the empty text decides. -/
def NotEmpty (flags : Nat) (r : Regex) : Prop := ¬ (flags &&& matchZeroLen = 0 ∧ [] ∈ r.lang)

/-- What is done with the one tree that the loop leaves. -/
theorem parse_finish {state : RegexParser} (tracks : Tracks setting state [r]) (fine : r.Fine) (end_ : EndState) (flags : Nat)
    (seenBol : Bool) : ∃ lhs root heap', state.trees.treeNodeStack = [lhs] ∧
      finish end_ flags seenBol lhs state.trees.heap = (checkZeroLen end_.id flags root heap' >>= fun _ => .ok (root, heap')) ∧
      (checkZeroLen end_.id flags root heap' = .ok () ↔ NotEmpty flags r) ∧
      HasTree setting end_ seenBol r root heap' state.charsetMap state.nlId := by
  obtain ⟨shapes, holds, spelt⟩ := tracks.spelt
  obtain ⟨shape, rest, here, done, rfl⟩ := List.forall₂_cons_left_iff.1 spelt
  obtain rfl := List.forall₂_nil_left_iff.1 done
  have length := congrArg List.length holds.stacked.shapes
  rw [List.length_map, List.length_singleton] at length
  obtain ⟨lhs, stack⟩ := List.length_eq_one_iff.1 length
  have stacked := holds.stacked
  rw [stack] at stacked
  obtain ⟨root, heap', finished, more, greedy, linked, tree⟩ := finish_tree stacked here end_ flags seenBol
  have once : root.expr.positions.Nodup := (List.nodup_append.1 linked.once).1
  exact ⟨lhs, root, heap', stack, finished, checkZeroLen_iff tree tracks.numbered fine once end_.id flags, tracks.numbered,
    tracks.grown, holds.more.trans more, greedy, tracks.newline, linked, tree⟩

variable (known : Body setting body) (typeF : first.type = .begin_) (typeL : last.type = .end_)
  (before : Before setting heap map nlId)

include known typeF typeL before

theorem parse_of_derives (end_ : EndState) (flags : Nat) (seenBol : Bool) (derives : Derives .regex body r) (single : Single body) :
    ∃ root heap' map' nlId', parse (first :: (body ++ [last])) end_ flags seenBol heap map nlId =
        (checkZeroLen end_.id flags root heap' >>= fun _ => .ok (root, heap', map', nlId')) ∧
      (checkZeroLen end_.id flags root heap' = .ok () ↔ NotEmpty flags r) ∧ HasTree setting end_ seenBol r root heap' map' nlId' := by
  obtain ⟨state, done, tracks⟩ : ∃ state, parseLoop end_.id (8 * (first :: (body ++ [last])).length) (body ++ [last])
      (opened first ⟨[], heap⟩ map nlId) = .ok state ∧ Tracks setting state [r] :=
    parseLoop_complete derives single known.allowed typeF typeL (before.tracks first) (by simp)
  obtain ⟨lhs, root, heap', stack, finished, zero, tree⟩ :=
    parse_finish tracks (derives.fine fun t member => (known.allowed t member).fine) end_ flags seenBol
  refine ⟨root, heap', state.charsetMap, state.nlId, ?_, zero, tree⟩
  unfold parse
  rw [opened] at done
  simp only [bind_of_ok done, stack, finished]
  cases checkZeroLen end_.id flags root heap' <;> rfl

/-- A rule of the grammar has its tree. -/
theorem parse_complete (derives : Derives .regex body r) (single : Single body) (notEmpty : NotEmpty flags r) :
    ∃ root heap' map' nlId', parse (first :: (body ++ [last])) end_ flags seenBol heap map nlId = .ok (root, heap', map', nlId') ∧
      HasTree setting end_ seenBol r root heap' map' nlId' := by
  obtain ⟨root, heap', map', nlId', parsed, zero, tree⟩ :=
    parse_of_derives known typeF typeL before end_ flags seenBol derives single
  refine ⟨root, heap', map', nlId', ?_, tree⟩
  rw [parsed, bind_of_ok (zero.2 notEmpty)]

/-- What has a tree is a rule of the grammar. -/
theorem parse_sound {root : Node} {heap' : Heap} {map' : CharsetMap} {nlId' : Option Nat}
    (done : parse (first :: (body ++ [last])) end_ flags seenBol heap map nlId = .ok (root, heap', map', nlId')) :
    ∃ r, Derives .regex body r ∧ Single body ∧ NotEmpty flags r ∧ HasTree setting end_ seenBol r root heap' map' nlId' := by
  have whole := done
  unfold parse at done
  obtain ⟨state, looped, done⟩ := bind_ok done
  rcases parseLoop_sound known typeF typeL (before.tracks first) looped with ⟨-, tracks⟩ | ⟨r, derives, single, tracks⟩
  · -- nothing between the first and the last token
    obtain ⟨shapes, holds, spelt⟩ := tracks.spelt
    obtain rfl := List.forall₂_nil_left_iff.1 spelt
    have empty : state.trees.treeNodeStack = [] := List.map_eq_nil_iff.1 holds.stacked.shapes
    simp only [empty] at done
    cases done
  · obtain ⟨root2, heap2, map2, nlId2, parsed, zero, tree⟩ := 
      parse_of_derives known typeF typeL before end_ flags seenBol derives single
    rw [parsed] at whole
    obtain ⟨_, checked, same⟩ := bind_ok whole
    obtain ⟨rfl, rfl, rfl, rfl⟩ : root2 = root ∧ heap2 = heap' ∧ map2 = map' ∧ nlId2 = nlId' := by
      simpa using Except.ok.inj same
    exact ⟨r, derives, single, zero.1 checked, tree⟩

end Parse

theorem numbered_nil : Numbered [] where
  nonempty := by simp
  once := by simp
  below := by simp

theorem linked_nil (heap : Heap) : Linked heap [] where
  inside := by simp
  follows := by simp
  once := List.nodup_nil

/-- **The grammar gives a text one meaning.** -/
theorem Derives.lang_unique {body : List ReToken} {r s : Regex} (derives : Derives .regex body r)
    (derives' : Derives .regex body s) (single : Single body) (fine : ∀ t ∈ body, t.Fine) : r.lang = s.lang := by
  let setting : Setting := ⟨False, False, [], [], [], fun _ => True⟩
  have allowed : ∀ t ∈ body, setting.Allows t := fun t member =>
    ⟨fine t member, False.elim, False.elim, fun _ => trivial, fun _ => trivial⟩
  have before : Before setting [] [] none := ⟨numbered_nil, rfl, rfl, False.elim, False.elim, linked_nil _⟩
  have tracks := before.tracks ⟨.begin_, [], .empty⟩
  have looped : ∀ r, Derives .regex body r → ∃ state, parseLoop 0 (8 * (body.length + 2)) (body ++ [⟨.end_, [], .empty⟩])
      (opened ⟨.begin_, [], .empty⟩ ⟨[], []⟩ [] none) = .ok state ∧ Tracks setting state [r] := fun r derives =>
    parseLoop_complete derives single allowed rfl rfl tracks (Nat.le_refl _)
  obtain ⟨state, done, tracks1⟩ := looped r derives
  obtain ⟨state', done', tracks2⟩ := looped s derives'
  obtain rfl := Except.ok.inj (done.symm.trans done')
  obtain ⟨shapes, holds, spelt⟩ := tracks1.spelt
  obtain ⟨shapes', holds', spelt'⟩ := tracks2.spelt
  obtain rfl : shapes = shapes' := holds.stacked.shapes.symm.trans holds'.stacked.shapes
  obtain ⟨shape, rest, here, -, rfl⟩ := List.forall₂_cons_left_iff.1 spelt
  have there := (List.forall₂_cons.1 spelt').1
  rw [← here.lang tracks1.numbered (derives.fine fine), ← there.lang tracks1.numbered (derives'.fine fine)]

end Orchid
