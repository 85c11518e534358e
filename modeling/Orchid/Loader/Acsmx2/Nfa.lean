/-
# Loader.Acsmx2.Nfa -- failure states and match lists are those of the suffix chain

`Build_NFA` takes the states breadth first.  When it takes a state, every state of
the same depth or less already has its failure state and its match list
(`NfaState.below`), so the failure walk from there ends at the longest suffix that
is a stem (`NfaState.nextValid_spec`) and the list it copies is complete.  A row
settles the children of its state (`NfaState.row`), and the whole loop settles
every state: `buildNFA_spec`.
-/
import Orchid.Loader.Acsmx2.Trie
import Mathlib.Data.Fintype.Card
import Mathlib.Data.List.Nodup

namespace Orchid

open Orchid.Theory

set_option autoImplicit false

/-! ## The alphabet and the forest of states -/

theorem mem_alphabet (c : UInt8) : c ∈ alphabet :=
  List.mem_map.2 ⟨c.toNat, List.mem_range.2 c.toNat_lt, UInt8.ofNat_toNat⟩

theorem alphabet_nodup : alphabet.Nodup := by
  refine List.Nodup.map_on (fun x hx y hy same => ?_) List.nodup_range
  have hx := List.mem_range.1 hx
  have hy := List.mem_range.1 hy
  have := congrArg UInt8.toNat same
  simpa [UInt8.toNat_ofNat', Nat.mod_eq_of_lt hx, Nat.mod_eq_of_lt hy] using this

/-- The trie children of a state, in the order the alphabet loop meets them. -/
def children (acsm : AcsmStruct2) (r : Nat) : List Nat :=
  alphabet.filterMap (lookup (acsm.acsmTransTable r))

theorem mem_children {acsm : AcsmStruct2} {r s : Nat} :
    s ∈ children acsm r ↔ ∃ c, lookup (acsm.acsmTransTable r) c = some s := by
  simp [children, mem_alphabet]

namespace Trie

variable {acsm : AcsmStruct2} {n : Nat} {label : Nat → CStr} {P : CStr → Prop}

theorem child_label (trie : Trie acsm n label P) {r s : Nat} {c : UInt8}
    (edge : lookup (acsm.acsmTransTable r) c = some s) :
    r < n ∧ s < n ∧ label s = label r ++ [c] := by
  have below : r < n := by
    by_contra beyond
    rw [trie.beyond r (Nat.not_lt.1 beyond)] at edge
    simp at edge
  exact ⟨below, (trie.trans below c s).1 edge⟩

theorem label_ne_nil (trie : Trie acsm n label P) {i : Nat} (below : i < n) (nonzero : i ≠ 0) :
    label i ≠ [] := fun empty =>
  nonzero (trie.inj below trie.pos (empty.trans trie.root.symm))

/-- The states other than the root form a forest graded by the word's length. -/
theorem forest (trie : Trie acsm n label P) (closed : LeftClosed P) :
    Forest (children acsm) (fun i => (label i).length) (fun i => i < n ∧ i ≠ 0) where
  child_depth := by
    intro r s child
    obtain ⟨c, edge⟩ := mem_children.1 child
    simp [(trie.child_label edge).2.2]
  child_parent := by
    intro r r' s child child'
    obtain ⟨c, edge⟩ := mem_children.1 child
    obtain ⟨d, edge'⟩ := mem_children.1 child'
    obtain ⟨below, -, spelled⟩ := trie.child_label edge
    obtain ⟨below', -, spelled'⟩ := trie.child_label edge'
    exact trie.inj below below' (List.append_inj' (spelled.symm.trans spelled') rfl).1
  child_nodup := by
    intro r
    refine alphabet_nodup.filterMap fun c d s edge edge' => ?_
    have spelled := (trie.child_label edge).2.2
    have spelled' := (trie.child_label edge').2.2
    exact (List.cons.inj (List.append_inj' (spelled.symm.trans spelled') rfl).2).1
  child_member := by
    intro r s _ child
    obtain ⟨c, edge⟩ := mem_children.1 child
    obtain ⟨below, belowS, -⟩ := trie.child_label edge
    exact ⟨belowS, trie.target_ne_zero below edge⟩
  root_or_child := by
    rintro x ⟨below, nonzero⟩
    obtain ⟨u, c, spelled⟩ := List.eq_nil_or_concat (label x) |>.resolve_left
      (trie.label_ne_nil below nonzero)
    rw [List.concat_eq_append] at spelled
    obtain ⟨r, belowR, rfl⟩ := (trie.stems u).1 (closed.left (spelled ▸ trie.mem below))
    by_cases atRoot : r = 0
    · left
      rw [spelled, atRoot, trie.root]
      rfl
    · exact Or.inr ⟨r, ⟨belowR, atRoot⟩, mem_children.2 ⟨c, (trie.trans belowR c x).2 ⟨below, spelled⟩⟩⟩
  depth_pos := by
    rintro x ⟨below, nonzero⟩
    exact List.length_pos_of_ne_nil (trie.label_ne_nil below nonzero)

/-- The forest's roots are the children of state zero. -/
theorem mem_roots (trie : Trie acsm n label P) (x : Nat) :
    x ∈ children acsm 0 ↔ (x < n ∧ x ≠ 0) ∧ (label x).length = 1 := by
  rw [mem_children]
  constructor
  · rintro ⟨c, edge⟩
    obtain ⟨below, belowX, spelled⟩ := trie.child_label edge
    refine ⟨⟨belowX, trie.target_ne_zero below edge⟩, ?_⟩
    rw [spelled, trie.root]
    rfl
  · rintro ⟨⟨below, -⟩, single⟩
    obtain ⟨c, spelled⟩ := List.length_eq_one_iff.1 single
    exact ⟨c, (trie.trans trie.pos c x).2 ⟨below, by rw [spelled, trie.root]; rfl⟩⟩

theorem roots_nodup (trie : Trie acsm n label P) (closed : LeftClosed P) :
    (children acsm 0).Nodup := (trie.forest closed).child_nodup 0

/-- The left factors of a state's word are that many states more one. -/
theorem depth_lt (trie : Trie acsm n label P) (closed : LeftClosed P) {i : Nat} (below : i < n) :
    (label i).length < n := by
  have factor : ∀ k : Fin ((label i).length + 1), ∃ j : Fin n, label j = (label i).take k := by
    intro k
    have inP : P ((label i).take k ++ (label i).drop k) := by
      rw [List.take_append_drop]; exact trie.mem below
    obtain ⟨j, hj, spelled⟩ := (trie.stems _).1 (closed.left inP)
    exact ⟨⟨j, hj⟩, spelled⟩
  choose state spelled using factor
  have injective : Function.Injective state := by
    intro k k' same
    have taken : (label i).take k = (label i).take k' := by rw [← spelled, ← spelled, same]
    have := congrArg List.length taken
    rw [List.length_take, List.length_take, Nat.min_eq_left (Nat.le_of_lt_succ k.2),
      Nat.min_eq_left (Nat.le_of_lt_succ k'.2)] at this
    exact Fin.ext this
  have := Fintype.card_le_of_injective state injective
  simp only [Fintype.card_fin] at this
  omega

/-- The breadth-first order of the states. -/
theorem visits_states (trie : Trie acsm n label P) (closed : LeftClosed P) :
    ∃ order, visits (children acsm) n (children acsm 0) = some order ∧ order.Nodup ∧
      (∀ x, x ∈ order ↔ x < n ∧ x ≠ 0) ∧
        order.Pairwise fun x y => (label x).length ≤ (label y).length :=
  visits_spec (List.range n) (trie.forest closed) (fun x h => List.mem_range.2 h.1)
    (by simp) (trie.roots_nodup closed) trie.mem_roots

end Trie

/-! ## Settled states -/

section Nfa

variable (acsm₀ : AcsmStruct2) (n : Nat) (label : Nat → CStr) (ps : List AcsmPattern2)

/-- The stems of the pattern texts. -/
abbrev PatternStem (ps : List AcsmPattern2) : CStr → Prop := Stem AcsmPattern2.patrn ps

/-- During the construction: the states in `settled` have their failure state and
their final match list, the others only the patterns that spell their word. -/
structure NfaState (acsm : AcsmStruct2) (settled : Nat → Prop) : Prop where
  trans : acsm.acsmTransTable = acsm₀.acsmTransTable
  states : acsm.acsmNumStates = acsm₀.acsmNumStates
  failure : ∀ {s}, s < n → settled s → acsm.acsmFailState s < n ∧
    label (acsm.acsmFailState s) = fail (PatternStem ps) (label s)
  lists : ∀ {s}, s < n → settled s → acsm.acsmMatchList s = endings AcsmPattern2.patrn ps (label s)
  waiting : ∀ {s}, s < n → ¬ settled s → acsm.acsmMatchList s = own AcsmPattern2.patrn ps (label s)

variable {acsm₀ n label ps}

theorem NfaState.congr {acsm : AcsmStruct2} {settled settled' : Nat → Prop}
    (state : NfaState acsm₀ n label ps acsm settled) (same : ∀ s, settled' s ↔ settled s) :
    NfaState acsm₀ n label ps acsm settled' := by
  have : settled' = settled := funext fun s => propext (same s)
  rwa [this]

/-- The failure walk from a state whose shallower states are settled. -/
theorem NfaState.nextValid_spec {acsm : AcsmStruct2} {settled : Nat → Prop}
    (trie : Trie acsm₀ n label (PatternStem ps)) (state : NfaState acsm₀ n label ps acsm settled)
    {d : Nat} (below : ∀ {x}, x < n → x ≠ 0 → (label x).length ≤ d → settled x) (c : UInt8)
    (rounds : Nat) {fs : Nat} (inRange : fs < n) (shallow : (label fs).length ≤ d)
    (enough : (label fs).length < rounds) :
    ∃ next < n, acsm.nextValid c rounds fs = .ok next ∧
      label next = longest (PatternStem ps) (label fs ++ [c]) := by
  have closed : LeftClosed (PatternStem ps) := stem_leftClosed _ ps
  induction rounds generalizing fs with
  | zero => omega
  | succ rounds ih =>
      rw [AcsmStruct2.nextValid, AcsmStruct2.listGetNextState_eq, state.trans]
      cases edge : lookup (acsm₀.acsmTransTable fs) c with
      | some j =>
          obtain ⟨-, belowJ, spelled⟩ := trie.child_label edge
          refine ⟨j, belowJ, rfl, ?_⟩
          rw [← spelled, longest_of_mem _ (trie.mem belowJ)]
      | none =>
          have outside := (trie.lookup_eq_none inRange).1 edge
          by_cases atRoot : fs = 0
          · subst atRoot
            refine ⟨0, inRange, rfl, ?_⟩
            rw [trie.root, List.nil_append] at outside ⊢
            rw [longest_cons_of_not_mem _ outside, longest_nil]
          · have nonempty := trie.label_ne_nil inRange atRoot
            obtain ⟨inRange', spelled⟩ := state.failure inRange (below inRange atRoot shallow)
            have shorter := length_fail_lt (PatternStem ps) nonempty
            rw [← spelled] at shorter
            obtain ⟨next, h1, h2, h3⟩ := ih inRange' (by omega) (by omega)
            refine ⟨next, h1, by simpa [atRoot] using h2, ?_⟩
            rw [h3, spelled, longest_snoc_of_not_mem closed nonempty outside]

theorem foldl_cons_eq {α : Type} (copied list : List α) :
    copied.foldl (fun list px => px :: list) list = copied.reverse ++ list := by
  induction copied generalizing list with
  | nil => rfl
  | cons px copied ih => simp [ih]

/-- Settling the child `s` of a settled state `r`. -/
theorem NfaState.settle {acsm : AcsmStruct2} {settled : Nat → Prop}
    (trie : Trie acsm₀ n label (PatternStem ps)) (state : NfaState acsm₀ n label ps acsm settled)
    {r s next : Nat} {c : UInt8} (nonzero : r ≠ 0)
    (below : ∀ {x}, x < n → x ≠ 0 → (label x).length ≤ (label r).length → settled x)
    (rootWaits : ¬ settled 0) (edge : lookup (acsm₀.acsmTransTable r) c = some s)
    (unsettled : ¬ settled s) (inRange : next < n)
    (spelled : label next = fail (PatternStem ps) (label s)) :
    NfaState acsm₀ n label ps (acsm.settleState s next) (fun x => settled x ∨ x = s) := by
  have closed : LeftClosed (PatternStem ps) := stem_leftClosed _ ps
  obtain ⟨belowR, belowS, word⟩ := trie.child_label edge
  have nonempty := trie.label_ne_nil belowR nonzero
  have shorter : (label next).length < (label s).length := by
    rw [spelled]
    exact length_fail_lt _ (by rw [word]; simp)
  have distinct : next ≠ s := fun h => by rw [h] at shorter; omega
  have long : 1 < (label s).length := by
    have := List.length_pos_of_ne_nil nonempty
    rw [word, List.length_append, List.length_singleton]
    omega
  have copied : acsm.acsmMatchList next = endings AcsmPattern2.patrn ps (label next) := by
    by_cases atRoot : next = 0
    · subst atRoot
      rw [state.waiting trie.pos rootWaits, endings_of_length_le _ _ (trie.mem trie.pos)]
      rw [trie.root]; simp
    · refine state.lists inRange (below inRange atRoot ?_)
      rw [word, List.length_append, List.length_singleton] at shorter
      omega
  refine ⟨state.trans, state.states, ?_, ?_, ?_⟩
  · rintro x belowX (old | rfl)
    · by_cases here : x = s
      · exact absurd (here ▸ old) unsettled
      · simpa [AcsmStruct2.settleState, here] using state.failure belowX old
    · simpa [AcsmStruct2.settleState] using ⟨inRange, spelled⟩
  · rintro x belowX (old | rfl)
    · by_cases here : x = s
      · exact absurd (here ▸ old) unsettled
      · simpa [AcsmStruct2.settleState, here] using state.lists belowX old
    · have := state.waiting belowX unsettled
      simp only [AcsmStruct2.settleState, Function.update_self, foldl_cons_eq, this, copied, spelled]
      rw [endings_of_lt_length _ _ (trie.mem belowX) long]
  · intro x belowX fresh
    have here : x ≠ s := fun h => fresh (Or.inr h)
    simpa [AcsmStruct2.settleState, here] using state.waiting belowX fun h => fresh (Or.inl h)

/-- The row of `r`: its children enter the queue and are settled. -/
theorem NfaState.row {r : Nat} (trie : Trie acsm₀ n label (PatternStem ps))
    (rounds : acsm₀.acsmNumStates = n) (inRange : r < n) (nonzero : r ≠ 0) (bytes : List UInt8) :
    ∀ (queue : List Nat) {acsm : AcsmStruct2} {settled : Nat → Prop},
      NfaState acsm₀ n label ps acsm settled → ¬ settled 0 →
      (∀ {x}, x < n → x ≠ 0 → (label x).length ≤ (label r).length → settled x) →
      (bytes.filterMap (lookup (acsm₀.acsmTransTable r))).Nodup →
      (∀ s ∈ bytes.filterMap (lookup (acsm₀.acsmTransTable r)), ¬ settled s) →
      ∃ acsm', bytes.foldlM (AcsmStruct2.buildNFAByte r) (queue, acsm) =
          .ok ((bytes.filterMap (lookup (acsm₀.acsmTransTable r))).foldl enqueue queue, acsm') ∧
        NfaState acsm₀ n label ps acsm' fun x =>
          settled x ∨ x ∈ bytes.filterMap (lookup (acsm₀.acsmTransTable r)) := by
  have closed : LeftClosed (PatternStem ps) := stem_leftClosed _ ps
  induction bytes with
  | nil =>
      intro queue acsm settled state _ _ _ _
      exact ⟨acsm, rfl, state.congr (by simp)⟩
  | cons c bytes ih =>
      intro queue acsm settled state rootWaits below distinct fresh
      rw [List.foldlM_cons, AcsmStruct2.buildNFAByte]
      simp only [AcsmStruct2.listGetNextState_eq, state.trans, if_neg nonzero, Option.or_none]
      cases edge : lookup (acsm₀.acsmTransTable r) c with
      | none =>
          rw [List.filterMap_cons_none edge] at distinct fresh ⊢
          exact ih queue state rootWaits below distinct fresh
      | some s =>
          rw [List.filterMap_cons_some edge] at distinct fresh ⊢
          obtain ⟨-, belowS, word⟩ := trie.child_label edge
          have nonempty := trie.label_ne_nil inRange nonzero
          obtain ⟨failRange, failWord⟩ := state.failure inRange (below inRange nonzero le_rfl)
          have shorter := length_fail_lt (PatternStem ps) nonempty
          rw [← failWord] at shorter
          have deep := trie.depth_lt closed failRange
          obtain ⟨next, nextRange, found, nextWord⟩ :=
            state.nextValid_spec trie below c acsm.acsmNumStates failRange shorter.le
              (by rw [state.states, rounds]; exact deep)
          have spelled : label next = fail (PatternStem ps) (label s) := by
            rw [nextWord, failWord, word, fail_append closed nonempty]
          obtain ⟨missing, distinct⟩ := List.nodup_cons.1 distinct
          have unsettled := fresh s (List.mem_cons_self ..)
          have next' := state.settle trie nonzero below rootWaits edge unsettled nextRange spelled
          have rootWaits' : ¬ (settled 0 ∨ 0 = s) := by
            rintro (h | h)
            · exact rootWaits h
            · exact trie.target_ne_zero inRange edge h.symm
          obtain ⟨acsm', ran, final⟩ := ih (enqueue queue s) next' rootWaits'
            (fun h1 h2 h3 => Or.inl (below h1 h2 h3)) distinct (by
              rintro x member (old | rfl)
              · exact fresh x (List.mem_cons_of_mem _ member) old
              · exact missing member)
          refine ⟨acsm', ?_, final.congr fun x => ?_⟩
          · rw [found]
            exact ran
          · rw [List.mem_cons, or_assoc]

/-- What the breadth-first loop has settled after taking `done`. -/
def SettledAfter (acsm₀ : AcsmStruct2) (label : Nat → CStr) (n : Nat) (done : List Nat) (s : Nat) : Prop :=
  s < n ∧ s ≠ 0 ∧ ((label s).length = 1 ∨ ∃ r ∈ done, s ∈ children acsm₀ r)

/-- The loop settles along the breadth-first order. -/
theorem NfaState.loop (trie : Trie acsm₀ n label (PatternStem ps)) (rounds : acsm₀.acsmNumStates = n)
    {order queue : List Nat} (distinct : order.Nodup) (covers : ∀ x, x ∈ order ↔ x < n ∧ x ≠ 0)
    (graded : order.Pairwise fun x y => (label x).length ≤ (label y).length)
    (ran : visits (children acsm₀) n queue = some order) {acsm : AcsmStruct2}
    (start : NfaState acsm₀ n label ps acsm (SettledAfter acsm₀ label n [])) :
    ∃ acsm', AcsmStruct2.buildNFALoop n queue acsm = .ok acsm' ∧
      NfaState acsm₀ n label ps acsm' (SettledAfter acsm₀ label n order) := by
  have forest := trie.forest (stem_leftClosed _ ps)
  refine sweep_spec (fun done acsm => NfaState acsm₀ n label ps acsm (SettledAfter acsm₀ label n done))
    ?_ n [] rfl ran start
  intro done r rest queue acsm split state
  obtain ⟨inRange, nonzero⟩ := (covers r).1 (by rw [split]; simp)
  rw [split] at graded distinct
  have below : ∀ {x}, x < n → x ≠ 0 → (label x).length ≤ (label r).length →
      SettledAfter acsm₀ label n done x := by
    intro x belowX nonzeroX shallow
    refine ⟨belowX, nonzeroX, ?_⟩
    rcases forest.root_or_child ⟨belowX, nonzeroX⟩ with single | ⟨parent, inside, child⟩
    · exact Or.inl single
    · have deeper := forest.child_depth child
      have inOrder := (covers parent).2 inside
      rw [split] at inOrder
      exact Or.inr ⟨parent, mem_of_lt_depth graded inOrder (by omega), child⟩
  have fresh : ∀ s ∈ children acsm₀ r, ¬ SettledAfter acsm₀ label n done s := by
    rintro s child ⟨-, -, single | ⟨parent, taken, child'⟩⟩
    · have := forest.child_depth child
      have := forest.depth_pos ⟨inRange, nonzero⟩
      omega
    · refine (List.nodup_append.1 distinct).2.2 parent taken r (List.mem_cons_self ..) ?_
      exact forest.child_parent child' child
  obtain ⟨acsm', row, next⟩ := NfaState.row trie rounds inRange nonzero alphabet
    queue state (fun h => h.2.1 rfl) below (forest.child_nodup r) fresh
  refine ⟨acsm', row, next.congr fun s => ?_⟩
  constructor
  · rintro ⟨h1, h2, single | ⟨parent, taken, child⟩⟩
    · exact Or.inl ⟨h1, h2, Or.inl single⟩
    · rcases List.mem_append.1 taken with taken | last
      · exact Or.inl ⟨h1, h2, Or.inr ⟨parent, taken, child⟩⟩
      · exact Or.inr (List.mem_singleton.1 last ▸ child)
  · rintro (⟨h1, h2, h3⟩ | child)
    · exact ⟨h1, h2, h3.imp_right fun ⟨p, taken, child⟩ => ⟨p, List.mem_append_left _ taken, child⟩⟩
    · obtain ⟨h1, h2⟩ := forest.child_member ⟨inRange, nonzero⟩ child
      exact ⟨h1, h2, Or.inr ⟨r, by simp, child⟩⟩

/-- The first layer, byte by byte: the children of state zero enter the queue and
fail to it. -/
theorem NfaState.init (trie : Trie acsm₀ n label (PatternStem ps)) (bytes : List UInt8) :
    ∀ (queue : List Nat) {acsm : AcsmStruct2} {settled : Nat → Prop},
      NfaState acsm₀ n label ps acsm settled →
      NfaState acsm₀ n label ps (bytes.foldl AcsmStruct2.buildNFAInitByte (queue, acsm)).2
          (fun x => settled x ∨ x ∈ bytes.filterMap (lookup (acsm₀.acsmTransTable 0))) ∧
        (bytes.foldl AcsmStruct2.buildNFAInitByte (queue, acsm)).1 =
          (bytes.filterMap (lookup (acsm₀.acsmTransTable 0))).foldl enqueue queue := by
  induction bytes with
  | nil => exact fun _ _ _ state => ⟨state.congr (by simp), rfl⟩
  | cons c bytes ih =>
      intro queue acsm settled state
      have target : acsm.listGetNextState2 0 c = (lookup (acsm₀.acsmTransTable 0) c).getD 0 := by
        rw [AcsmStruct2.listGetNextState2_eq, state.trans]
      simp only [List.foldl_cons, AcsmStruct2.buildNFAInitByte, target]
      cases edge : lookup (acsm₀.acsmTransTable 0) c with
      | none =>
          rw [List.filterMap_cons_none edge]
          exact ih queue state
      | some s =>
          rw [List.filterMap_cons_some edge]
          have nonzero := trie.target_ne_zero trie.pos edge
          obtain ⟨-, belowS, spelled⟩ := trie.child_label edge
          have short : (label s).length ≤ 1 := by rw [spelled, trie.root]; simp
          have failed : fail (PatternStem ps) (label s) = [] := by
            rw [spelled, trie.root]; rfl
          have settledS : NfaState acsm₀ n label ps
              { acsm with acsmFailState := Function.update acsm.acsmFailState s 0 }
              (fun x => settled x ∨ x = s) := by
            refine ⟨state.trans, state.states, ?_, ?_, ?_⟩
            · intro x belowX old
              by_cases here : x = s
              · subst here
                simpa [trie.root, failed] using trie.pos
              · simpa [here] using state.failure belowX (old.resolve_right here)
            · intro x belowX old
              by_cases known : settled x
              · exact state.lists belowX known
              · obtain rfl : x = s := old.resolve_left known
                exact (state.waiting belowX known).trans
                  (endings_of_length_le _ _ (trie.mem belowX) short).symm
            · exact fun belowX fresh => state.waiting belowX fun h => fresh (Or.inl h)
          simp only [Option.getD_some, ne_eq, nonzero, not_false_eq_true, if_true]
          obtain ⟨final, order⟩ := ih (enqueue queue s) settledS
          exact ⟨final.congr fun x => by rw [List.mem_cons, or_assoc], order⟩

theorem buildNFAInit_spec (trie : Trie acsm₀ n label (PatternStem ps))
    (lists : ∀ {s}, s < n → acsm₀.acsmMatchList s = own AcsmPattern2.patrn ps (label s)) :
    (acsm₀.buildNFAInit).1 = children acsm₀ 0 ∧
      NfaState acsm₀ n label ps (acsm₀.buildNFAInit).2 (SettledAfter acsm₀ label n []) := by
  have start : NfaState acsm₀ n label ps acsm₀ fun _ => False :=
    ⟨rfl, rfl, fun _ h => h.elim, fun _ h => h.elim, fun belowS _ => lists belowS⟩
  obtain ⟨final, order⟩ := NfaState.init trie alphabet [] start
  have fresh : ([] ++ children acsm₀ 0).Nodup := trie.roots_nodup (stem_leftClosed _ ps)
  refine ⟨order.trans (foldl_enqueue fresh), final.congr fun s => ?_⟩
  have isRoot := trie.mem_roots s
  unfold children at isRoot
  rw [isRoot]
  simp [SettledAfter, and_assoc]

/-- **The failure states and match lists.**  The construction ends; every state
fails to the longest proper suffix of its word that is a stem, and lists what a
suffix automaton records there. -/
theorem buildNFA_spec (trie : Trie acsm₀ n label (PatternStem ps)) (rounds : acsm₀.acsmNumStates = n)
    (lists : ∀ {s}, s < n → acsm₀.acsmMatchList s = own AcsmPattern2.patrn ps (label s)) :
    ∃ acsm, acsm₀.buildNFA = .ok acsm ∧ acsm.acsmTransTable = acsm₀.acsmTransTable ∧
      acsm.acsmNumStates = n ∧
      (∀ s < n, s ≠ 0 → acsm.acsmFailState s < n ∧
        label (acsm.acsmFailState s) = fail (PatternStem ps) (label s)) ∧
      ∀ s < n, acsm.acsmMatchList s = endings AcsmPattern2.patrn ps (label s) := by
  have closed : LeftClosed (PatternStem ps) := stem_leftClosed _ ps
  have forest := trie.forest closed
  obtain ⟨order, ran, distinct, covers, graded⟩ := trie.visits_states closed
  obtain ⟨queue, start⟩ := buildNFAInit_spec trie lists
  obtain ⟨acsm, loop, final⟩ :=
    NfaState.loop trie rounds distinct covers graded ran start
  have all : ∀ s < n, s ≠ 0 → SettledAfter acsm₀ label n order s := by
    intro s below nonzero
    refine ⟨below, nonzero, (forest.root_or_child ⟨below, nonzero⟩).imp_right ?_⟩
    rintro ⟨r, inside, child⟩
    exact ⟨r, (covers r).2 inside, child⟩
  refine ⟨acsm, ?_, final.trans, final.states.trans rounds,
    fun s below nonzero => final.failure below (all s below nonzero), fun s below => ?_⟩
  · have states : (acsm₀.buildNFAInit).2.acsmNumStates = n := start.states.trans rounds
    rw [AcsmStruct2.buildNFA]
    simpa only [queue, states] using loop
  · by_cases atRoot : s = 0
    · subst atRoot
      rw [final.waiting below fun h => h.2.1 rfl, endings_of_length_le _ _ (trie.mem below)]
      rw [trie.root]
      simp
    · exact final.lists below (all s below atRoot)

end Nfa

end Orchid
