/-
# RegexParse.Errors -- what the tokeniser and the parser stop with

Every reader of the tokeniser ends with a state of the same rule or stops with an error
that names the rule (`Refusal`); a name in braces, which is that of no macro, is named
instead.  The two remaining texts are those of an empty rule and of shortcuts that are
made of shortcuts deeper than the program's own are.

A loop of the model that runs out of rounds has an error of its own.  No reader stops
with it (`Refusal.not_rounds`), and neither does an operation of the parser (`Quiet`).
With a round for every byte or weight that is left the loops do not either
(`tokeniseLoop_ends`, `skipAll_ends`, `charset_ends`, `copy_quiet`, `parseLoop_quiet`): they
end for a reason of the source's.
-/
import Orchid.RegexParse.TokeniserRuns

namespace Orchid

open Orchid.Theory

set_option autoImplicit false

theorem getLast?_sentence (front : String) : (front ++ ".").toList.getLast? = some '.' := by simp

/-! ## What is refused -/

/-- What the tokeniser says of a rule that it refuses. -/
inductive Refusal (id : Uint) : String → Prop where
  | rule (text : String) : Refusal id (text ++ " in rule id " ++ toString id.toNat ++ ".")
  | macro_ (name : String) : Refusal id ("Unknown MACRO name '" ++ name ++ "'.")
  | empty : Refusal id ("Empty regex in rule id " ++ toString id.toNat ++ " is not allowed.")
  | deep : Refusal id "charset: too deep"

/-- A refusal ends like a sentence. -/
theorem Refusal.getLast? {id : Uint} {text : String} (refusal : Refusal id text) :
    text.toList.getLast? = some '.' ∨ text = "charset: too deep" := by
  cases refusal with
  | rule text => exact Or.inl (getLast?_sentence _)
  | macro_ name => exact Or.inl (by simp [List.getLast?_cons])
  | empty => exact Or.inl (by simp [List.getLast?_cons])
  | deep => exact Or.inr rfl

/-- A loop that had too few rounds says so. -/
def OutOfRounds (text : String) : Prop :=
  text = "tokenise: out of rounds" ∨ text = "next: out of rounds" ∨ text = "charset: out of rounds"

theorem Refusal.not_rounds {id : Uint} {text : String} (refusal : Refusal id text) : ¬ OutOfRounds text := by
  rintro (rfl | rfl | rfl)
  all_goals
    rcases refusal.getLast? with last | same
    · exact absurd last (by decide)
    · exact absurd same (by decide)

/-! ## Escapes -/

section Escapes

variable {α : Type} {Q : α → Prop} {unicode : Char → Char → CStr} {id : Uint} {state : ReState}

theorem fail_ends {text : String} (same : state.id = id) : Ends Q (Refusal id) (state.fail text) := by
  rw [← same]
  exact Refusal.rule text

theorem decodeOctal_ends (same : state.id = id) : Ends (fun read => read.2.id = id) (Refusal id) (decodeOctal state) := by
  unfold decodeOctal
  dsimp only
  split
  · exact fail_ends same
  · exact same

theorem decodeControlChar_ends (same : state.id = id) :
    Ends (fun read => read.2.id = id) (Refusal id) (decodeControlChar state) := by
  unfold decodeControlChar
  split
  · exact fail_ends same
  · split
    · exact same
    · split
      · exact same
      · split
        · exact same
        · exact fail_ends same

theorem decodeHex_ends (same : state.id = id) : Ends (fun read => read.2.id = id) (Refusal id) (decodeHex state) := by
  unfold decodeHex
  split
  · exact fail_ends same
  · split
    · exact fail_ends same
    · dsimp only
      split
      · exact fail_ends same
      · exact same

theorem chr_ends (same : state.id = id) (c : UInt8) : Ends (fun read => read.2.id = id) (Refusal id) (chr c state) := by
  unfold chr
  dsimp only
  split
  · exact decodeOctal_ends same
  · repeat' split
    all_goals first
      | exact same
      | exact decodeControlChar_ends same
      | exact decodeHex_ends same

theorem unicodePart_ends {category : Category} (same : state.id = id) :
    Ends (fun read => read.2.id = id) (Refusal id) (unicodePart unicode category state) := by
  unfold unicodePart
  split
  · exact fail_ends same
  · split
    · exact same
    · split
      · exact fail_ends same
      · exact same

theorem unicodeCategory_ends (same : state.id = id) :
    Ends (fun read => read.2.id = id) (Refusal id) (unicodeCategory unicode state) := by
  unfold unicodeCategory
  split
  · exact fail_ends same
  · split
    · exact fail_ends same
    · exact unicodePart_ends same

theorem unicodeEscape_ends (same : state.id = id) :
    Ends (fun read => read.2.id = id) (Refusal id) (unicodeEscape unicode state) := by
  unfold unicodeEscape
  dsimp only
  split
  · exact fail_ends same
  · split
    · exact fail_ends same
    · refine Ends.bind (unicodeCategory_ends same) ?_
      rintro ⟨str, state'⟩ same'
      dsimp only
      split
      · exact same'
      · exact fail_ends same'

theorem charsetShortcut_ends (same : state.id = id) (c : UInt8) :
    Ends (fun read => read.2.id = id) (Refusal id) (charsetShortcut unicode c state) := by
  unfold charsetShortcut
  repeat' split
  all_goals first
    | exact same
    | exact (unicodeEscape_ends same).map

theorem escapeSequence_ends (same : state.id = id) :
    Ends (fun read => read.2.id = id) (Refusal id) (escapeSequence unicode state) := by
  unfold escapeSequence
  split
  · exact fail_ends same
  · next c rest here =>
    refine (charsetShortcut_ends same c).bind ?_
    rintro ⟨str, state'⟩ same'
    dsimp only
    split
    · exact same'
    · exact (chr_ends same' c).bind fun _ same'' => same''

end Escapes

/-! ## Sets -/

section Sets

variable {unicode : Char → Char → CStr} {id : Uint} {P : String → Prop} (refused : ∀ text, Refusal id text → P text)
  {state : ReState}

include refused

theorem fail_ends_of {α : Type} {Q : α → Prop} {text : String} (same : state.id = id) : Ends Q P (state.fail text) :=
  (fail_ends same).imp (fun _ kept => kept) refused

section Sub

variable {sub : ReState → Except String StringToken}
  (subs : ∀ inner : ReState, inner.id = id → Ends (fun _ => True) P (sub inner))

include subs

theorem posixClose_ends {negate : Bool} {str : Option CStr} {token : StringToken} (same : state.id = id) :
    Ends (fun read => read.2.id = id) P (posixClose sub negate str state token) := by
  unfold posixClose
  split
  · exact fail_ends_of refused same
  · dsimp only
    have same' : (if state.rest.head? = some (byte ':') then state.increment else state).id = id := by
      split <;> exact same
    generalize (if state.rest.head? = some (byte ':') then state.increment else state) = behind at same'
    split
    · refine Ends.bind (subs _ same') fun _ _ => ?_
      exact same'
    · exact fail_ends_of refused same'

theorem posix_ends {token : StringToken} (same : state.id = id) :
    Ends (fun read => read.2.id = id) P (posix sub state token) := by
  unfold posix
  dsimp only
  have same' : (if state.rest.head? = some (byte '^') then state.increment else state).id = id := by
    split <;> exact same
  generalize (if state.rest.head? = some (byte '^') then state.increment else state) = begun at same'
  split
  · exact fail_ends_of refused same'
  · split
    · exact fail_ends_of refused same'
    · next rest str found => exact posixClose_ends refused subs same'

end Sub

namespace CharsetReader

variable {reader : CharsetReader} (subs : ∀ inner : ReState, inner.id = id → Ends (fun _ => True) P (reader.sub inner))

theorem rangeEnd_ends {c : UInt8} {rest : CStr} (same : state.id = id) :
    Ends (fun read => read.2.id = id) P (reader.rangeEnd c rest state) := by
  unfold rangeEnd
  split
  · refine Ends.bind (Ends.imp (escapeSequence_ends same) (fun _ kept => kept) refused) ?_
    rintro ⟨found, behind⟩ same'
    dsimp only
    split
    · exact fail_ends_of refused same'
    · exact same'
  · split
    · exact fail_ends_of refused same
    · exact same

theorem range_ends (same : state.id = id) (chset : Bool) (prev : UInt8) (token : StringToken) :
    Ends (fun read => read.1.id = id) P (reader.range chset prev state token) := by
  unfold range
  split
  · exact fail_ends_of refused same
  · dsimp only
    split
    · exact fail_ends_of refused same
    · next c rest here =>
      refine Ends.bind (rangeEnd_ends refused same) ?_
      rintro ⟨curr, behind⟩ same'
      dsimp only
      split
      · exact fail_ends_of refused same'
      · split
        · exact same'
        · exact fail_ends_of refused same'

include subs

theorem start_ends (same : state.id = id) (c : UInt8) (rest : CStr) (prev : UInt8) (token : StringToken) :
    Ends (fun read => read.behind.id = id) P (reader.start c rest prev state token) := by
  unfold start
  split
  · refine Ends.bind (Ends.imp (escapeSequence_ends same) (fun _ kept => kept) refused) ?_
    rintro ⟨found, behind⟩ same'
    dsimp only
    split
    · next str => exact (subs (ReState.ofText str.tail state.id state.flags) same).bind fun _ _ => same'
    · exact same'
  · split
    · refine Ends.bind (posix_ends refused subs same) fun _ same' => ?_
      exact same'
    · exact same

theorem member_ends (same : state.id = id) (c : UInt8) (rest : CStr) (prev : UInt8) (token : StringToken) :
    Ends (fun read => read.1.id = id) P (reader.member c rest prev state token) := by
  unfold member
  refine (start_ends refused subs same c rest prev token).bind ?_
  rintro ⟨chset, prev', behind, token'⟩ same'
  dsimp only
  split
  · exact fail_ends_of refused same'
  · split
    · refine (range_ends refused same' chset prev' token').bind fun _ same'' => ?_
      exact same''
    · exact same'

/-- With a round for every byte that is left, no round is missing. -/
theorem members_ends {rounds : Nat} : ∀ {state : ReState}, state.id = id → state.rest.length ≤ rounds → ∀ (prev : UInt8)
    (token : StringToken), Ends (fun read => read.1.id = id) P (reader.members rounds prev state token) := by
  induction rounds with
  | zero =>
      intro state same enough prev token
      have empty : state.rest = [] := List.length_eq_zero_iff.1 (Nat.le_zero.1 enough)
      unfold members
      simp only [empty]
      exact fail_ends_of refused same
  | succ rounds ih =>
      intro state same enough prev token
      unfold members
      split
      · exact fail_ends_of refused same
      · next c rest here =>
        rw [here, List.length_cons] at enough
        split
        · exact same
        · refine (member_ends refused subs same c rest prev token).bind_ok ?_
          rintro ⟨state', prev', token'⟩ read same'
          have less : state'.rest.length ≤ rest.length := (member_moves read).length_le
          exact ih same' (Nat.le_trans less (Nat.le_of_succ_le_succ enough)) _ _

theorem read_ends (same : state.id = id) : Ends (fun read => read.2.id = id) P (reader.read state) := by
  unfold read
  split
  · exact fail_ends_of refused same
  · next c rest here =>
    dsimp only
    have same' : (if c = byte '^' then state.increment else state).id = id := by
      split <;> exact same
    generalize (if c = byte '^' then state.increment else state) = begun at same'
    split
    · exact fail_ends_of refused same'
    · refine (members_ends refused subs same' (Nat.le_refl _) 0 .empty).bind ?_
      rintro ⟨state2, token2⟩ same''
      dsimp only
      generalize (if c = byte '^' then token2.negate else token2) = set
      split
      · exact fail_ends_of refused same''
      · exact same''

end CharsetReader

end Sets

theorem charset_ends {unicode : Char → Char → CStr} {id : Uint} (depth : Nat) : ∀ {state : ReState}, state.id = id →
    Ends (fun read => read.2.id = id) (Refusal id) (charset unicode depth state) := by
  induction depth with
  | zero => exact fun _ => Refusal.deep
  | succ depth ih =>
      intro state same
      refine CharsetReader.read_ends (fun _ refusal => refusal) (fun inner same' => ?_) same
      exact Ends.map ((ih same').imp (fun _ _ => trivial) fun _ refusal => refusal)

/-! ## What is skipped -/

section Skip

variable {id : Uint} {state : ReState}

theorem comment_ends (same : state.id = id) : Ends (fun read => read.2.id = id) (Refusal id) state.comment := by
  unfold ReState.comment
  split
  · split
    · exact fail_ends same
    · exact same
  · exact same

theorem skipLoop_ends (rounds : Nat) : ∀ {state : ReState}, state.id = id →
    Ends (fun read => read.2.id = id) (Refusal id) (ReState.skipLoop rounds state) := by
  induction rounds with
  | zero => exact fun same => same
  | succ rounds ih =>
      intro state same
      unfold ReState.skipLoop
      split
      · exact same
      · next c rest here =>
        split
        · split
          · exact fail_ends same
          · next later found => exact Ends.bind (ih same) fun _ same' => same'
        · split
          · exact Ends.bind (ih same) fun _ same' => same'
          · exact same

theorem skip_ends (same : state.id = id) : Ends (fun read => read.2.id = id) (Refusal id) state.skip := by
  unfold ReState.skip
  split
  · exact skipLoop_ends _ same
  · exact same

/-- With a round for every byte that is left, no round is missing. -/
theorem skipAll_ends {rounds : Nat} : ∀ {state : ReState}, state.id = id → state.rest.length ≤ rounds →
    Ends (fun state' => state'.id = id) (Refusal id) (ReState.skipAll rounds state) := by
  induction rounds with
  | zero =>
      intro state same enough
      unfold ReState.skipAll
      refine Ends.bind_ok (comment_ends same) ?_
      rintro ⟨commented, state2⟩ comment same2
      refine (skip_ends same2).bind_ok ?_
      rintro ⟨skipped, state3⟩ skip same3
      dsimp only
      split
      · next more => exact absurd (skipAll_shorter comment skip more) (by omega)
      · exact same3
  | succ rounds ih =>
      intro state same enough
      unfold ReState.skipAll
      refine Ends.bind_ok (comment_ends same) ?_
      rintro ⟨commented, state2⟩ comment same2
      refine (skip_ends same2).bind_ok ?_
      rintro ⟨skipped, state3⟩ skip same3
      dsimp only
      split
      · next more =>
        have less := skipAll_shorter comment skip more
        exact ih same3 (by omega)
      · exact same3

end Skip

/-! ## Tokens -/

section Token

variable {unicode : Char → Char → CStr} {id : Uint} {state : ReState}

end Token

/-! ## The parser -/

/-- What the two loops of the parser say that had too few rounds. -/
def parserRounds : List String := ["parse: out of rounds", "copy: out of rounds"]

/-- The run does not stop for want of rounds. -/
def Quiet {α : Type} (x : Except String α) : Prop := Ends (fun _ => True) (· ∉ parserRounds) x

section Quiet

variable {α β : Type}

theorem quiet_ok (value : α) : Quiet (.ok value) := trivial

theorem quiet_error {text : String} (other : text ∉ parserRounds) : Quiet (.error text : Except String α) := other

theorem Quiet.bind {x : Except String α} {f : α → Except String β} (first : Quiet x) (next : ∀ a, Quiet (f a)) :
    Quiet (x >>= f) :=
  Ends.bind first fun a _ => next a

theorem Quiet.foldlM {f : β → α → Except String β} (each : ∀ b a, Quiet (f b a)) (xs : List α) : ∀ b, Quiet (xs.foldlM f b) := by
  induction xs with
  | nil => exact fun b => quiet_ok b
  | cons a xs ih => exact fun b => (each b a).bind ih

end Quiet

/-! ### Trees -/

section Tree

variable {heap : Heap}

theorem appendFollowpos_quiet (followpos : List Nat) (cell : Cell) : Quiet (cell.appendFollowpos followpos) := by
  cases cell with
  | leafNode _ _ _ _ => exact quiet_ok _
  | endNode _ => exact quiet_error (by decide)

theorem setGreedy_quiet (greedy : Bool) (cell : Cell) : Quiet (cell.setGreedy greedy) := by
  cases cell with
  | leafNode _ greedy' _ _ => cases greedy' <;> exact quiet_ok _
  | endNode _ => exact quiet_error (by decide)

theorem updateAll_quiet {f : Cell → Except String Cell} (each : ∀ cell, Quiet (f cell)) (ps : List Nat) :
    Quiet (heap.updateAll f ps) := by
  refine Quiet.foldlM (fun heap p => ?_) ps heap
  unfold Heap.update
  split
  · exact quiet_error (by decide)
  · next cell here => exact Ends.map (each cell)

theorem sequenceNode_quiet (left right : Node) : Quiet (sequenceNode left right heap) :=
  (updateAll_quiet (appendFollowpos_quiet _) _).bind fun _ => quiet_ok _

theorem iterationNode_quiet (next : Node) (greedy : Bool) : Quiet (iterationNode next greedy heap) :=
  (updateAll_quiet (appendFollowpos_quiet _) _).bind fun _ =>
    (updateAll_quiet (setGreedy_quiet greedy) _).bind fun _ => quiet_ok _

/-! ### copy

The walk ends in the rounds that the tree has, whatever the heap holds: each node is gone
down into once and come up from once, and a flag costs one round more. -/

namespace Node

/-- The walk ends from a node it goes down into, if it does from what is left. -/
def Walks (node : Node) : Prop :=
  ∀ (more : Nat) (stack : List Node) (ops : List Bool) (new : List Node) (heap : Heap),
    (∀ new' heap', Quiet (copyLoop more ⟨false, stack, ops, new', heap'⟩)) →
      Quiet (copyLoop (node.rounds + more) ⟨true, node :: stack, ops, new, heap⟩)

theorem copyOp_ends {build : Node → Node → Heap → Except String (Node × Heap)}
    (each : ∀ left right heap, Quiet (build left right heap)) (stack : List Node) (ops : List Bool) (new : List Node)
    (heap : Heap) : Ends (fun state => ∃ new' heap', state = ⟨false, stack, ops, new', heap'⟩) (· ∉ parserRounds)
      (copyOp build ⟨false, stack, true :: ops, new, heap⟩) := by
  unfold copyOp
  dsimp only
  split
  · exact Ends.bind (each _ _ _) fun built _ => ⟨_, _, rfl⟩
  · show "empty stack" ∉ parserRounds
    decide

/-- Coming up, a node takes its flag and leaves the rest of the stacks as it is. -/
theorem copyNode_ends (node : Node) (stack : List Node) (ops : List Bool) (new : List Node) (heap : Heap) :
    Ends (fun state => ∃ new' heap', state = ⟨false, node :: stack, ops, new', heap'⟩) (· ∉ parserRounds)
      (node.copyNode ⟨false, node :: stack, if node.isOp then true :: ops else ops, new, heap⟩) := by
  cases node with
  | leaf p nullable =>
      unfold copyNode
      dsimp only
      split
      · exact ⟨_, _, rfl⟩
      · show "dangling node" ∉ parserRounds
        decide
  | endLeaf p => exact ⟨_, _, rfl⟩
  | sequence left right => exact copyOp_ends (fun left right heap => sequenceNode_quiet left right) _ _ _ _
  | selection left right => exact copyOp_ends (fun left right heap => quiet_ok _) _ _ _ _
  | iteration next greedy =>
      unfold copyNode
      dsimp only [isOp]
      simp only [if_true]
      split
      · exact Ends.bind (iterationNode_quiet _ _) fun built _ => ⟨_, _, rfl⟩
      · show "empty stack" ∉ parserRounds
        decide

section Walk

variable {more : Nat} {stack : List Node} {ops : List Bool}
  (rest : ∀ new' heap', Quiet (copyLoop more ⟨false, stack, ops, new', heap'⟩))

include rest

theorem walks_up (node : Node) (new : List Node) (heap : Heap) :
    Quiet (copyLoop (more + 1) ⟨false, node :: stack, if node.isOp then true :: ops else ops, new, heap⟩) := by
  rw [copyLoop_succ, copyStep, if_neg Bool.false_ne_true]
  refine Ends.bind (Q := fun state => ∃ new' heap', state = ⟨false, stack, ops, new', heap'⟩) ?_ ?_
  · refine Ends.bind (copyNode_ends node stack ops new heap) ?_
    rintro state ⟨new', heap', rfl⟩
    exact ⟨new', heap', rfl⟩
  · rintro state ⟨new', heap', rfl⟩
    exact rest new' heap'

/-- The walk comes up to the right part of a node, as in `copies_right`. -/
theorem walks_right {right : Node} (walks : Walks right) (new : List Node) (heap : Heap) :
    Quiet (copyLoop ((if right.isOp then right.rounds + 1 else 1) + more)
      ⟨false, right :: stack, if right.isOp then false :: ops else ops, new, heap⟩) := by
  by_cases op : right.isOp = true
  · rw [if_pos op, if_pos op, Nat.add_right_comm, copyLoop_succ, copyStep_flag op]
    exact walks more stack ops new heap rest
  · have up := walks_up rest right new heap
    rw [if_neg op] at up
    rw [if_neg op, if_neg op, Nat.add_comm]
    exact up

end Walk

theorem walks_binary {node left right : Node} (op : node.isOp = true)
    (rounds : node.rounds = left.rounds + (if right.isOp then right.rounds + 1 else 1) + 2)
    (down : ∀ state, node.traverse state = { state with
      down := true, nodeStack := left :: right :: state.nodeStack,
      performOpStack := if right.isOp then false :: true :: state.performOpStack else true :: state.performOpStack })
    (ihl : Walks left) (ihr : Walks right) : Walks node := by
  intro more stack ops new heap rest
  have order : node.rounds + more = left.rounds + ((if right.isOp then right.rounds + 1 else 1) + (more + 1)) + 1 := by
    rw [rounds]
    omega
  rw [order, copyLoop_succ, copyStep, if_pos rfl, down]
  refine ihl _ _ _ _ _ fun new' heap' => ?_
  refine walks_right (fun new' heap' => ?_) ihr new' heap'
  have up := walks_up rest node new' heap'
  rwa [if_pos op] at up

theorem walks (node : Node) : Walks node := by
  induction node with
  | leaf p nullable =>
      intro more stack ops new heap rest
      rw [show (leaf p nullable).rounds + more = more + 1 + 1 from Nat.add_comm .., copyLoop_succ]
      exact walks_up rest (leaf p nullable) new heap
  | endLeaf p =>
      intro more stack ops new heap rest
      rw [show (endLeaf p).rounds + more = more + 1 + 1 from Nat.add_comm .., copyLoop_succ]
      exact walks_up rest (endLeaf p) new heap
  | sequence left right ihl ihr => exact walks_binary rfl rfl (fun _ => rfl) ihl ihr
  | selection left right ihl ihr => exact walks_binary rfl rfl (fun _ => rfl) ihl ihr
  | iteration next greedy ih =>
      intro more stack ops new heap rest
      have order : (iteration next greedy).rounds + more = next.rounds + (more + 1) + 1 := by
        rw [rounds]
        omega
      rw [order, copyLoop_succ]
      exact ih _ _ _ _ _ fun new' heap' => walks_up rest (iteration next greedy) new' heap'

end Node

theorem copy_quiet (node : Node) : Quiet (node.copy heap) := by
  refine (Node.walks node 0 [] [] [] heap fun _ _ => quiet_ok _).bind fun state => ?_
  split
  · exact quiet_ok _
  · exact quiet_error (by decide)

end Tree

namespace Trees

variable (trees : Trees)

theorem sequence_quiet : Quiet trees.sequence := by
  unfold sequence
  split
  · exact (sequenceNode_quiet _ _).bind fun _ => quiet_ok _
  · exact quiet_error (by decide)

theorem performOr_quiet : Quiet trees.performOr := by
  unfold performOr
  split
  · exact quiet_ok _
  · exact quiet_error (by decide)

theorem optional_quiet (greedy : Bool) : Quiet (trees.optional greedy) := by
  unfold optional
  split
  · exact (updateAll_quiet (setGreedy_quiet greedy) _).bind fun _ => quiet_ok _
  · exact quiet_error (by decide)

theorem zeroOrMore_quiet (greedy : Bool) : Quiet (trees.zeroOrMore greedy) := by
  unfold zeroOrMore
  split
  · exact (iterationNode_quiet _ _).bind fun _ => quiet_ok _
  · exact quiet_error (by decide)

theorem oneOrMore_quiet (greedy : Bool) : Quiet (trees.oneOrMore greedy) := by
  unfold oneOrMore
  split
  · exact (copy_quiet _).bind fun _ => (iterationNode_quiet _ _).bind fun _ => (sequenceNode_quiet _ _).bind fun _ => quiet_ok _
  · exact quiet_error (by decide)

theorem pushPrev_quiet (prev : Node) : Quiet (trees.pushPrev prev) :=
  (copy_quiet prev).bind fun _ => (sequence_quiet _).bind fun _ => quiet_ok _

theorem pushLoop_quiet (count : Nat) : ∀ (prev : Node) (trees : Trees), Quiet (pushLoop count prev trees) := by
  induction count with
  | zero => exact fun _ _ => quiet_ok _
  | succ count ih => exact fun prev trees => (pushPrev_quiet trees prev).bind fun _ => ih _ _

theorem pop_quiet : Quiet trees.pop := by
  unfold pop
  split
  · exact quiet_ok _
  · exact quiet_error (by decide)

theorem top_quiet : Quiet trees.top := by
  unfold top
  split
  · exact quiet_ok _
  · exact quiet_error (by decide)

theorem repeatMin_quiet (range : Repeats) (prev : Node) : Quiet (trees.repeatMin range prev) := by
  unfold repeatMin
  split
  · exact pushPrev_quiet trees prev
  · exact quiet_ok _

theorem repeatMax_quiet (greedy : Bool) (range : Repeats) (prev : Node) : Quiet (trees.repeatMax greedy range prev) := by
  unfold repeatMax
  split
  · exact (optional_quiet _ greedy).bind fun _ => (pop_quiet _).bind fun _ => pushLoop_quiet _ _ _
  · exact (zeroOrMore_quiet _ greedy).bind fun _ => pop_quiet _

theorem repeatComma_quiet (greedy : Bool) (range : Repeats) (prev : Node) : Quiet (trees.repeatComma greedy range prev) := by
  unfold repeatComma
  split
  · exact (repeatMin_quiet trees range prev).bind fun _ => repeatMax_quiet _ greedy range _
  · exact quiet_ok _

theorem repeatn_quiet (greedy : Bool) (extra : CStr) : Quiet (trees.repeatn greedy extra) := by
  unfold repeatn
  dsimp only
  split
  · exact quiet_ok _
  · refine Quiet.bind ?_ fun _ => (top_quiet _).bind fun node => (copy_quiet node).bind fun _ =>
      (pushLoop_quiet _ _ _).bind fun _ => (repeatComma_quiet _ greedy _ _).bind fun _ => sequence_quiet _
    unfold repeatZero
    split
    · exact optional_quiet trees greedy
    · exact quiet_ok _

end Trees

/-! ### Reductions -/

theorem popHandle_quiet (stack : List ReToken) : ∀ handle : List ReToken, Quiet (popHandle stack handle) := by
  induction stack with
  | nil => exact fun _ => quiet_error (by decide)
  | cons rhs stack ih =>
      intro handle
      cases stack with
      | nil => exact quiet_ok _
      | cons lhs stack =>
          unfold popHandle
          dsimp only
          split
          · exact ih _
          · split
            · exact quiet_ok _
            · exact quiet_error (by decide)

namespace RegexParser

variable (state : RegexParser) (handle : List ReToken)

theorem onTrees_quiet {op : Trees → Except String Trees} (each : ∀ trees, Quiet (op trees)) : Quiet (state.onTrees op) :=
  (each _).bind fun _ => quiet_ok _

theorem quantifier_quiet {op : Trees → Except String Trees} (each : ∀ trees, Quiet (op trees)) : Quiet (state.quantifier op) :=
  (onTrees_quiet state each).bind fun _ => quiet_ok _

theorem orexp_quiet : Quiet (state.orexp handle) := by
  unfold orexp
  split
  · exact quiet_ok _
  · split
    · exact quiet_error (by decide)
    · split
      · exact quiet_error (by decide)
      · exact (onTrees_quiet state Trees.performOr_quiet).bind fun _ => quiet_ok _
  · exact quiet_error (by decide)

theorem sub_quiet : Quiet (state.sub handle) := by
  unfold sub
  split
  · exact quiet_ok _
  · split
    · exact quiet_error (by decide)
    · exact (onTrees_quiet state Trees.sequence_quiet).bind fun _ => quiet_ok _
  · exact quiet_error (by decide)

theorem reduce_quiet : Quiet state.reduce := by
  refine (popHandle_quiet _ _).bind fun ⟨handle, stack⟩ => ?_
  dsimp only
  cases handle with
  | nil => exact quiet_error (by decide)
  | cons t handle =>
      dsimp only
      cases t.type with
      | orexp => exact orexp_quiet _ _
      | sub => exact sub_quiet _ _
      | begin_ | regex | sequence | expression => exact quiet_ok _
      | opt | aopt => exact quantifier_quiet _ fun trees => trees.optional_quiet _
      | zeroOrMore | azeroOrMore => exact quantifier_quiet _ fun trees => trees.zeroOrMore_quiet _
      | oneOrMore | aoneOrMore => exact quantifier_quiet _ fun trees => trees.oneOrMore_quiet _
      | repeatn | arepeatn => exact quantifier_quiet _ fun trees => trees.repeatn_quiet _ _
      | repeat_ =>
          dsimp only
          unfold repeat_
          repeat' split
          all_goals first | exact quiet_ok _ | exact quiet_error (by decide)
      | bol =>
          dsimp only
          unfold bol
          split
          · exact quiet_error (by decide)
          · exact quiet_ok _
      | eol =>
          dsimp only
          unfold eol
          split
          · exact quiet_error (by decide)
          · exact quiet_ok _
      | charset =>
          dsimp only
          unfold charset
          split
          · exact quiet_ok _
          · exact quiet_error (by decide)
      | openparen =>
          dsimp only
          unfold openparen
          repeat' split
          all_goals first | exact quiet_ok _ | exact quiet_error (by decide)
      | dup | or_ | macro_ | closeparen | end_ | diff => exact quiet_error (by decide)

end RegexParser

/-- A syntax error ends like a sentence. -/
theorem syntaxError_not_rounds (lhs rhs : TokenType) (id : Uint) : syntaxError lhs rhs id ∉ parserRounds := by
  have others : ∀ text ∈ parserRounds, text.toList.getLast? ≠ some '.' := by decide
  have last : (syntaxError lhs rhs id).toList.getLast? = some '.' := by
    unfold syntaxError
    exact getLast?_sentence _
  exact fun member => others _ member last

theorem parseStep_quiet (id : Uint) (input : List ReToken) (state : RegexParser) : Quiet (parseStep id input state) := by
  unfold parseStep
  split
  · dsimp only
    split
    · exact quiet_ok _
    · split
      · exact state.reduce_quiet.bind fun _ => quiet_ok _
      · exact quiet_error (syntaxError_not_rounds _ _ id)
  · exact quiet_error (by decide)

/-- **No round is missing.** -/
theorem parseLoop_quiet {id : Uint} {rounds : Nat} : ∀ {input : List ReToken} {state : RegexParser}, Ended input →
    roundWeight input state ≤ rounds → Quiet (parseLoop id rounds input state) := by
  induction rounds with
  | zero =>
      intro input state ended few
      unfold parseLoop
      cases top : state.tokenStack with
      | nil => exact quiet_ok _
      | cons lhs stack => exact absurd (roundWeight_pos input top) (Nat.not_lt.2 few)
  | succ rounds ih =>
      intro input state ended few
      unfold parseLoop
      split
      · exact quiet_ok _
      · refine Ends.bind_ok (parseStep_quiet id input state) ?_
        rintro ⟨input', state'⟩ done -
        obtain ⟨ended', lighter⟩ := parseStep_lighter ended done
        exact ih ended' (by omega)

end Orchid
