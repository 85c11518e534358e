/-
# Theory.ChainMatcher -- many chains matched at once in a bounded number of slots

Every chain `g` has places `0, ..., size g - 1`, and a stream names places.  The
first place of a chain opens a slot that waits for the next one; another place moves
every slot that waits for it.  Reaching a chain's last place completes it, and the
slot stays, waiting for nothing.  The matcher stops once it holds `capacity` slots.

A slot certifies that the places before the one it waits for were seen in order, so
what is completed was seen in full (`chainRun_sound`).  The slot opened first is always
at least as far as any occurrence, so what was seen in full is completed as long as
the matcher still ran (`chainRun_complete`).
-/
import Mathlib.Data.List.Basic
import Mathlib.Data.List.Infix
import Mathlib.Data.List.NodupEquivFin

namespace Orchid.Theory

set_option autoImplicit false

universe u

section ChainMatcher

variable {γ : Type u} [DecidableEq γ] (size : γ → Nat)

/-- The places of a chain before place `j`. -/
def places (g : γ) (j : Nat) : List (γ × Nat) := (List.range j).map fun i => (g, i)

omit [DecidableEq γ] in
theorem places_succ (g : γ) (j : Nat) : places g (j + 1) = places g j ++ [(g, j)] := by
  rw [places, places, List.range_succ, List.map_append]
  rfl

/-- What is waited for after place `j`. -/
def await (g : γ) (j : Nat) : Option (γ × Nat) := if j + 1 = size g then none else some (g, j + 1)

/-- The slots after a place, and the chains it completes. -/
def chainStep (slots : List (Option (γ × Nat))) (place : γ × Nat) : List (Option (γ × Nat)) × List γ :=
  if place.2 = 0 then
    (slots ++ [await size place.1 0], if size place.1 = 1 then [place.1] else [])
  else
    (slots.map fun slot => if slot = some place then await size place.1 place.2 else slot,
      if place.2 + 1 = size place.1 then List.replicate (slots.count (some place)) place.1 else [])

/-- The completions of a run with their positions; `i` is the position of the first
place. -/
def chainRun (capacity : Nat) : Nat → List (Option (γ × Nat)) → List (γ × Nat) → List (Nat × γ)
  | _, _, [] => []
  | i, slots, place :: stream =>
      ((chainStep size slots place).2.map fun g => (i, g)) ++
        if (chainStep size slots place).1.length = capacity then []
        else chainRun capacity (i + 1) (chainStep size slots place).1 stream

/-! ## What is completed was seen -/

/-- Every slot waits for a place of a chain whose earlier places were seen in order. -/
def Certified (seen : List (γ × Nat)) (slots : List (Option (γ × Nat))) : Prop :=
  ∀ g j, some (g, j) ∈ slots → j < size g ∧ List.Sublist (places g j) seen

omit [DecidableEq γ] in
theorem Certified.nil : Certified size [] ([] : List (Option (γ × Nat))) :=
  fun _ _ inside => absurd inside List.not_mem_nil

/-- Every chain of which some places were seen in order has a slot at least as far,
unless it is one of `done`. -/
def Caught (seen : List (γ × Nat)) (slots : List (Option (γ × Nat))) (done : γ → Prop) : Prop :=
  ∀ g j, 0 < j → j ≤ size g → List.Sublist (places g j) seen →
    done g ∨ ∃ m, j ≤ m ∧ m < size g ∧ some (g, m) ∈ slots

variable {size}

omit [DecidableEq γ] in
theorem sublist_snoc {g : γ} {j : Nat} {seen : List (γ × Nat)}
    (before : List.Sublist (places g j) seen) : List.Sublist (places g (j + 1)) (seen ++ [(g, j)]) := by
  rw [places_succ]
  exact before.append (List.Sublist.refl _)

omit [DecidableEq γ] in
theorem mem_await {g g' : γ} {j j' : Nat} (waits : some (g', j') = await size g j) :
    g' = g ∧ j' = j + 1 ∧ j + 1 ≠ size g := by
  unfold await at waits
  by_cases last : j + 1 = size g
  · rw [if_pos last] at waits
    cases waits
  · rw [if_neg last] at waits
    obtain ⟨rfl, rfl⟩ := Prod.mk.inj (Option.some.inj waits)
    exact ⟨rfl, rfl, last⟩

/-- One step keeps the certificates. -/
theorem Certified.step {seen : List (γ × Nat)} {slots : List (Option (γ × Nat))}
    (certified : Certified size seen slots) {place : γ × Nat} (valid : place.2 < size place.1) :
    Certified size (seen ++ [place]) (chainStep size slots place).1 := by
  obtain ⟨g, j⟩ := place
  have inChain : j < size g := valid
  intro g' j' inside
  have kept : some (g', j') ∈ slots → j' < size g' ∧ List.Sublist (places g' j') (seen ++ [(g, j)]) :=
    fun old => ⟨(certified g' j' old).1, (certified g' j' old).2.trans (List.sublist_append_left _ _)⟩
  have moved : List.Sublist (places g j) seen → some (g', j') = await size g j →
      j' < size g' ∧ List.Sublist (places g' j') (seen ++ [(g, j)]) := by
    intro before waits
    obtain ⟨rfl, rfl, more⟩ := mem_await waits
    exact ⟨by omega, sublist_snoc before⟩
  unfold chainStep at inside
  by_cases first : j = 0
  · subst first
    rw [if_pos rfl, List.mem_append, List.mem_singleton] at inside
    rcases inside with old | opened
    · exact kept old
    · exact moved (List.nil_sublist _) opened
  · rw [if_neg first, List.mem_map] at inside
    obtain ⟨slot, old, becomes⟩ := inside
    by_cases hit : slot = some (g, j)
    · subst hit
      rw [if_pos rfl] at becomes
      exact moved (certified g j old).2 becomes.symm
    · rw [if_neg hit] at becomes
      subst becomes
      exact kept old

/-- A completion comes with the last place, after all the others. -/
theorem completed_of_chainStep {seen : List (γ × Nat)} {slots : List (Option (γ × Nat))}
    (certified : Certified size seen slots) {place : γ × Nat} {g : γ}
    (done : g ∈ (chainStep size slots place).2) :
    place = (g, size g - 1) ∧ 0 < size g ∧ List.Sublist (places g (size g - 1)) seen := by
  obtain ⟨h, j⟩ := place
  unfold chainStep at done
  by_cases first : j = 0
  · subst first
    rw [if_pos rfl] at done
    by_cases single : size h = 1
    · rw [if_pos single, List.mem_singleton] at done
      subst done
      rw [single]
      exact ⟨rfl, Nat.one_pos, List.nil_sublist _⟩
    · rw [if_neg single] at done
      exact absurd done List.not_mem_nil
  · rw [if_neg first] at done
    by_cases last : j + 1 = size h
    · rw [if_pos last, List.mem_replicate] at done
      obtain ⟨waiting, rfl⟩ := done
      have before := (certified g j (List.count_pos_iff.1 (Nat.pos_of_ne_zero waiting))).2
      have place : j = size g - 1 := by omega
      subst place
      exact ⟨rfl, by omega, before⟩
    · rw [if_neg last] at done
      exact absurd done List.not_mem_nil

variable (size) in
/-- **What a run completes was seen in full**, the last place at the position of the
completion. -/
theorem chainRun_sound {capacity : Nat} (stream : List (γ × Nat))
    (valid : ∀ place ∈ stream, place.2 < size place.1) :
    ∀ {seen : List (γ × Nat)} {slots : List (Option (γ × Nat))}, Certified size seen slots →
      ∀ {i : Nat} {g : γ}, (i, g) ∈ chainRun size capacity seen.length slots stream →
      0 < size g ∧ (seen ++ stream)[i]? = some (g, size g - 1) ∧
        List.Sublist (places g (size g - 1)) ((seen ++ stream).take i) := by
  induction stream with
  | nil =>
      intro seen slots _ i g done
      exact absurd done List.not_mem_nil
  | cons place stream ih =>
      intro seen slots certified i g done
      rw [chainRun, List.mem_append] at done
      rcases done with now | later
      · obtain ⟨g', completes, same⟩ := List.mem_map.1 now
        obtain ⟨rfl, rfl⟩ := Prod.mk.inj same
        obtain ⟨rfl, positive, before⟩ := completed_of_chainStep certified completes
        refine ⟨positive, by simp, ?_⟩
        rw [List.take_left]
        exact before
      · by_cases full : (chainStep size slots place).1.length = capacity
        · rw [if_pos full] at later
          exact absurd later List.not_mem_nil
        · rw [if_neg full] at later
          have next := certified.step (valid place (List.mem_cons_self ..))
          have position : seen.length + 1 = (seen ++ [place]).length := by simp
          rw [position] at later
          have result := ih (fun p inside => valid p (List.mem_cons_of_mem _ inside)) next later
          rwa [List.append_assoc, List.singleton_append] at result

/-! ## What was seen is completed -/

omit [DecidableEq γ] in
theorem sublist_places_snoc {g : γ} {j : Nat} {seen : List (γ × Nat)} {place : γ × Nat}
    (inOrder : List.Sublist (places g (j + 1)) (seen ++ [place])) :
    List.Sublist (places g (j + 1)) seen ∨ (place = (g, j) ∧ List.Sublist (places g j) seen) := by
  rw [places_succ] at inOrder ⊢
  have reversed := List.reverse_sublist.2 inOrder
  rw [List.reverse_append, List.reverse_append, List.reverse_singleton, List.reverse_singleton,
    List.singleton_append, List.singleton_append, List.cons_sublist_cons'] at reversed
  rcases reversed with old | ⟨same, before⟩
  · left
    rw [← List.reverse_sublist, List.reverse_append]
    exact old
  · exact Or.inr ⟨same.symm, List.reverse_sublist.1 before⟩

/-- One step keeps every chain caught. -/
theorem Caught.step {seen : List (γ × Nat)} {slots : List (Option (γ × Nat))} {done : γ → Prop}
    (caught : Caught size seen slots done) (place : γ × Nat) :
    Caught size (seen ++ [place]) (chainStep size slots place).1
      fun g => done g ∨ g ∈ (chainStep size slots place).2 := by
  obtain ⟨h, x⟩ := place
  -- a slot that waited at `m` is at least at `m` now, or its chain is complete
  have carried : ∀ g m, m < size g → 0 < m → some (g, m) ∈ slots →
      g ∈ (chainStep size slots (h, x)).2 ∨
        ∃ m', m ≤ m' ∧ m' < size g ∧ some (g, m') ∈ (chainStep size slots (h, x)).1 ∧
          ((h, x) = (g, m) → m + 1 ≤ m') := by
    intro g m below positive waiting
    unfold chainStep
    by_cases first : x = 0
    · rw [if_pos first]
      refine Or.inr ⟨m, le_rfl, below, List.mem_append_left _ waiting, fun same => ?_⟩
      obtain ⟨-, rfl⟩ := Prod.mk.inj same
      omega
    · rw [if_neg first]
      by_cases hit : (h, x) = (g, m)
      · obtain ⟨rfl, rfl⟩ := Prod.mk.inj hit
        by_cases last : x + 1 = size h
        · left
          rw [if_pos last, List.mem_replicate]
          exact ⟨(List.count_pos_iff.2 waiting).ne', rfl⟩
        · right
          refine ⟨x + 1, Nat.le_succ x, by omega, List.mem_map.2 ⟨_, waiting, ?_⟩, fun _ => le_rfl⟩
          rw [if_pos rfl, await, if_neg last]
      · right
        refine ⟨m, le_rfl, below, List.mem_map.2 ⟨_, waiting, if_neg ?_⟩, fun same => absurd same hit⟩
        intro same
        exact hit (Option.some.inj same).symm
  intro g j positive within inOrder
  obtain ⟨j, rfl⟩ := Nat.exists_eq_add_of_lt positive
  rw [Nat.zero_add] at inOrder positive within ⊢
  rcases sublist_places_snoc inOrder with old | ⟨same, before⟩
  · rcases caught g (j + 1) positive within old with already | ⟨m, atLeast, below, waiting⟩
    · exact Or.inl (Or.inl already)
    · rcases carried g m below (by omega) waiting with now | ⟨m', further, below', waiting', -⟩
      · exact Or.inl (Or.inr now)
      · exact Or.inr ⟨m', atLeast.trans further, below', waiting'⟩
  · obtain ⟨rfl, rfl⟩ := Prod.mk.inj same
    by_cases first : x = 0
    · -- the place opens a slot
      subst first
      rw [chainStep, if_pos rfl]
      by_cases single : size h = 1
      · exact Or.inl (Or.inr (by simp [single]))
      · refine Or.inr ⟨1, le_rfl, by omega, List.mem_append_right _ ?_⟩
        have more : ¬ 0 + 1 = size h := fun one => single one.symm
        rw [await, if_neg more]
        exact List.mem_singleton_self _
    · rcases caught h x (Nat.pos_of_ne_zero first) (by omega) before with
        already | ⟨m, atLeast, below, waiting⟩
      · exact Or.inl (Or.inl already)
      · rcases carried h m below (by omega) waiting with now | ⟨m', further, below', waiting', moved⟩
        · exact Or.inl (Or.inr now)
        · refine Or.inr ⟨m', ?_, below', waiting'⟩
          by_cases same : x = m
          · subst same
            exact moved rfl
          · omega

variable (size) in
theorem length_chainStep (slots : List (Option (γ × Nat))) (place : γ × Nat) :
    (chainStep size slots place).1.length = slots.length + if place.2 = 0 then 1 else 0 := by
  unfold chainStep
  by_cases first : place.2 = 0
  · rw [if_pos first, if_pos first, List.length_append, List.length_singleton]
  · rw [if_neg first, if_neg first, List.length_map, Nat.add_zero]

/-- A run reaches a position as long as fewer first places than free slots stand before
it, and completes what was seen by then. -/
theorem chainRun_caught {capacity : Nat} (stream : List (γ × Nat)) :
    ∀ {seen : List (γ × Nat)} {slots : List (Option (γ × Nat))} {done : γ → Prop},
      Caught size seen slots done → ∀ {n : Nat}, n < stream.length →
      slots.length + (stream.take n).countP (fun place => place.2 = 0) < capacity →
      ∀ {g : γ}, 0 < size g → List.Sublist (places g (size g)) (seen ++ stream.take (n + 1)) →
      done g ∨ ∃ i ≤ seen.length + n, (i, g) ∈ chainRun size capacity seen.length slots stream := by
  induction stream with
  | nil =>
      intro seen slots done _ n below
      exact absurd below (Nat.not_lt_zero n)
  | cons place stream ih =>
      intro seen slots done caught n below room g positive inOrder
      have next := caught.step place
      rw [chainRun]
      cases n with
      | zero =>
          rcases next g (size g) positive le_rfl (by simpa using inOrder) with
            (already | now) | ⟨m, atLeast, impossible, -⟩
          · exact Or.inl already
          · exact Or.inr ⟨seen.length, Nat.le_add_right _ _,
              List.mem_append_left _ (List.mem_map.2 ⟨g, now, rfl⟩)⟩
          · omega
      | succ n =>
          have opened := length_chainStep size slots place
          rw [List.take_succ_cons, List.countP_cons] at room
          simp only [decide_eq_true_eq] at room
          have open_ : ¬ (chainStep size slots place).1.length = capacity := by omega
          have position : seen.length + 1 = (seen ++ [place]).length := by simp
          rw [if_neg open_, position]
          rcases ih next (n := n) (Nat.lt_of_succ_lt_succ below) (by omega) positive
              (by simpa using inOrder) with (already | now) | ⟨i, early, later⟩
          · exact Or.inl already
          · exact Or.inr ⟨seen.length, Nat.le_add_right _ _,
              List.mem_append_left _ (List.mem_map.2 ⟨g, now, rfl⟩)⟩
          · refine Or.inr ⟨i, ?_, List.mem_append_right _ later⟩
            rw [List.length_append, List.length_singleton] at early
            omega

variable (size) in
/-- **What was seen in full is completed**, as long as fewer first places than
`capacity` stand before the last of its places. -/
theorem chainRun_complete (capacity : Nat) {stream : List (γ × Nat)} {n : Nat} (below : n < stream.length)
    (room : (stream.take n).countP (fun place => place.2 = 0) < capacity) {g : γ}
    (positive : 0 < size g) (inOrder : List.Sublist (places g (size g)) (stream.take (n + 1))) :
    ∃ i ≤ n, (i, g) ∈ chainRun size capacity 0 [] stream := by
  have nothing : Caught size ([] : List (γ × Nat)) [] fun _ => False := by
    intro g j positive _ inOrder
    have length := inOrder.length_le
    simp [places] at length
    omega
  rcases chainRun_caught stream nothing below (by simpa using room) positive (by simpa using inOrder) with
    impossible | ⟨i, early, done⟩
  · exact impossible.elim
  · exact ⟨i, by simpa using early, done⟩

/-! ## Positions -/

/-- The places of `g` below `j` stand at the increasing positions `pos`. -/
structure StandAt (stream : List (γ × Nat)) (g : γ) (j : Nat) (pos : Nat → Nat) : Prop where
  rising : ∀ i, i + 1 < j → pos i < pos (i + 1)
  here : ∀ i < j, stream[pos i]? = some (g, i)

omit [DecidableEq γ] in
theorem StandAt.sublist {stream : List (γ × Nat)} {g : γ} {pos : Nat → Nat} {j : Nat}
    (stands : StandAt stream g (j + 1) pos) :
    List.Sublist (places g (j + 1)) (stream.take (pos j + 1)) := by
  induction j with
  | zero =>
      rw [List.take_add_one, stands.here 0 Nat.one_pos]
      exact sublist_snoc (List.nil_sublist _)
  | succ j ih =>
      have before := ih ⟨fun i below => stands.rising i (by omega), fun i below => stands.here i (by omega)⟩
      rw [List.take_add_one, stands.here (j + 1) (Nat.lt_succ_self _)]
      refine sublist_snoc (before.trans ?_)
      exact (List.take_prefix_take_left (stands.rising j (by omega))).sublist

omit [DecidableEq γ] in
/-- A last place after the others in order, as positions. -/
theorem exists_standAt {stream : List (γ × Nat)} {g : γ} {i j : Nat} (last : stream[i]? = some (g, j))
    (before : List.Sublist (places g j) (stream.take i)) :
    ∃ pos, StandAt stream g (j + 1) pos ∧ pos j = i := by
  obtain ⟨f, same⟩ := List.sublist_iff_exists_orderEmbedding_getElem?_eq.1 before
  have earlier : ∀ m < j, f m < i ∧ stream[f m]? = some (g, m) := by
    intro m below
    have found := same m
    have place : (places g j)[m]? = some (g, m) := by simp [places, below]
    rw [place, List.getElem?_take] at found
    by_cases inside : f m < i
    · rw [if_pos inside] at found
      exact ⟨inside, found.symm⟩
    · rw [if_neg inside] at found
      cases found
  refine ⟨fun m => if m < j then f m else i, ⟨fun m below => ?_, fun m below => ?_⟩, by simp⟩
  · have this_ : m < j := by omega
    simp only [this_, if_true]
    by_cases next : m + 1 < j
    · rw [if_pos next]
      exact f.strictMono (Nat.lt_succ_self m)
    · rw [if_neg next]
      exact (earlier m this_).1
  · by_cases inside : m < j
    · simp only [inside, if_true]
      exact (earlier m inside).2
    · obtain rfl : m = j := by omega
      simpa using last

end ChainMatcher

end Orchid.Theory
