/-
# Theory.Outcome -- sequences that end or stop

A run in `Except` ends with a value or stops with an error.  If a sequence ended, its
parts did (`bind_ok`, `map_ok`), and it stops with no error that they do not stop with
(`bind_ne_error`); a list that is worked off ended with the list of the
values of its members (`mapM_ok_iff`).

`Ends Q P x` says both of a run: what holds of the value it ends with, and what of the
error it stops with.  The rules follow the sequence, as those of a precondition do.

A loop over a list is followed with a property of the members done so far and the state:
`foldlM_ok` for a loop that ended, `foldlM_total` for a loop that has to.
-/
import Mathlib.Data.List.Forall2

namespace Orchid.Theory

set_option autoImplicit false

universe u v w

variable {ε : Type w}

theorem bind_ok {α : Type u} {β : Type u} {x : Except ε α} {f : α → Except ε β} {b : β} (ran : x >>= f = .ok b) :
    ∃ a, x = .ok a ∧ f a = .ok b := by
  cases x with
  | error trap => cases ran
  | ok a => exact ⟨a, rfl, ran⟩

theorem bind_of_ok {α β : Type u} {x : Except ε α} {a : α} (done : x = .ok a) {f : α → Except ε β} :
    x >>= f = f a := by
  rw [done]
  rfl

/-- A sequence does not stop with an error that none of its parts stops with. -/
theorem bind_ne_error {α β : Type u} {x : Except ε α} {f : α → Except ε β} {trap : ε} (first : x ≠ .error trap)
    (next : ∀ a, f a ≠ .error trap) : x >>= f ≠ .error trap := by
  cases x with
  | error trap' => exact fun same => first (congrArg Except.error (Except.error.inj same))
  | ok a => exact next a

theorem bind_congr_ok {α β : Type u} {x : Except ε α} {f g : α → Except ε β} (same : ∀ a, x = .ok a → f a = g a) :
    x >>= f = x >>= g := by
  cases x with
  | error trap => rfl
  | ok a => exact same a rfl

theorem map_ok {α : Type u} {β : Type v} {x : Except ε α} {f : α → β} {b : β} (ran : x.map f = .ok b) :
    ∃ a, x = .ok a ∧ f a = b := by
  cases x with
  | error trap => cases ran
  | ok a => exact ⟨a, rfl, Except.ok.inj ran⟩

theorem map_error_iff {α : Type u} {β : Type v} {x : Except ε α} {f : α → β} {trap : ε} :
    x.map f = .error trap ↔ x = .error trap := by
  cases x <;> simp [Except.map]

/-! ## Values and errors -/

section Ends

variable {α β : Type u} {Q Q' : α → Prop} {R : β → Prop} {P P' : ε → Prop}

/-- `Q` holds of the value of the run, or `P` of its error. -/
def Ends (Q : α → Prop) (P : ε → Prop) : Except ε α → Prop
  | .ok value => Q value
  | .error trap => P trap

theorem Ends.imp {x : Except ε α} (ends : Ends Q P x) (value : ∀ a, Q a → Q' a) (error : ∀ trap, P trap → P' trap) :
    Ends Q' P' x := by
  cases x with
  | error trap => exact error trap ends
  | ok a => exact value a ends

theorem Ends.bind_ok {x : Except ε α} {f : α → Except ε β} (first : Ends Q P x)
    (next : ∀ a, x = .ok a → Q a → Ends R P (f a)) : Ends R P (x >>= f) := by
  cases x with
  | error trap => exact first
  | ok a => exact next a rfl first

theorem Ends.bind {x : Except ε α} {f : α → Except ε β} (first : Ends Q P x) (next : ∀ a, Q a → Ends R P (f a)) :
    Ends R P (x >>= f) :=
  first.bind_ok fun a _ => next a

theorem Ends.map {x : Except ε α} {f : α → β} (ends : Ends (fun a => R (f a)) P x) : Ends R P (x.map f) := by
  cases x with
  | error trap => exact ends
  | ok a => exact ends

theorem Ends.error {x : Except ε α} (ends : Ends Q P x) {trap : ε} (stopped : x = .error trap) : P trap := by
  rw [stopped] at ends
  exact ends

end Ends

/-! ## Lists -/

section List

variable {β : Type u} {γ : Type v} {action : β → Except ε γ} {values : List β} {built : List γ}

/-- Working off a list ends if it does for every member. -/
theorem mapM_ok_iff : values.mapM action = .ok built ↔
    List.Forall₂ (fun value new => action value = .ok new) values built := by
  constructor
  · intro done
    induction values generalizing built with
    | nil =>
        obtain rfl : [] = built := Except.ok.inj done
        exact List.Forall₂.nil
    | cons value values ih =>
        rw [List.mapM_cons] at done
        obtain ⟨new, first, done⟩ := bind_ok done
        obtain ⟨rest, later, done⟩ := bind_ok done
        obtain rfl : new :: rest = built := Except.ok.inj done
        exact List.Forall₂.cons first (ih later)
  · intro each
    induction each with
    | nil => rfl
    | cons first _ ih =>
        rw [List.mapM_cons, first, ih]
        rfl

theorem mapM_total (each : ∀ value ∈ values, ∃ new, action value = .ok new) :
    ∃ built, values.mapM action = .ok built := by
  induction values with
  | nil => exact ⟨[], rfl⟩
  | cons value values ih =>
      obtain ⟨new, first⟩ := each value (List.mem_cons_self ..)
      obtain ⟨rest, later⟩ := ih fun other member => each other (List.mem_cons_of_mem _ member)
      exact ⟨new :: rest, by rw [List.mapM_cons, first, later]; rfl⟩

theorem mapM_length (done : values.mapM action = .ok built) : built.length = values.length :=
  (mapM_ok_iff.1 done).length_eq.symm

theorem mapM_snoc {value : β} {new : γ} (done : values.mapM action = .ok built) (last : action value = .ok new) :
    (values ++ [value]).mapM action = .ok (built ++ [new]) := by
  rw [List.mapM_append, done, List.mapM_cons, last]
  rfl

theorem mapM_snoc_error {value : β} {trap : ε} (done : values.mapM action = .ok built)
    (last : action value = .error trap) : (values ++ [value]).mapM action = .error trap := by
  rw [List.mapM_append, done, List.mapM_cons, last]
  rfl

end List

/-! ## Loops -/

section Loop

variable {σ : Type u} {α : Type v} {action : σ → α → Except ε σ} {P : List α → σ → Prop}

theorem foldlM_ok {xs : List α}
    (step : ∀ x ∈ xs, ∀ done before after, P done before → action before x = .ok after → P (done ++ [x]) after) :
    ∀ {done : List α} {before after : σ}, P done before → xs.foldlM action before = .ok after →
      P (done ++ xs) after := by
  induction xs with
  | nil =>
      intro done before after held ran
      obtain rfl : before = after := Except.ok.inj ran
      simpa using held
  | cons x xs ih =>
      intro done before after held ran
      rw [List.foldlM_cons] at ran
      obtain ⟨next, first, later⟩ := bind_ok ran
      have kept := step x (List.mem_cons_self ..) done before next held first
      simpa using ih (fun y member => step y (List.mem_cons_of_mem _ member)) kept later

theorem foldlM_total {xs : List α}
    (step : ∀ done x rest, xs = done ++ x :: rest → ∀ before, P done before →
      ∃ after, action before x = .ok after ∧ P (done ++ [x]) after)
    {before : σ} (start : P [] before) : ∃ after, xs.foldlM action before = .ok after ∧ P xs after := by
  have walk : ∀ rest done before, xs = done ++ rest → P done before →
      ∃ after, rest.foldlM action before = .ok after ∧ P xs after := by
    intro rest
    induction rest with
    | nil =>
        intro done before whole held
        refine ⟨before, rfl, ?_⟩
        rwa [whole, List.append_nil]
    | cons x rest ih =>
        intro done before whole held
        obtain ⟨next, first, kept⟩ := step done x rest whole before held
        obtain ⟨after, later, final⟩ := ih (done ++ [x]) next (by simp [whole]) kept
        exact ⟨after, by rw [List.foldlM_cons, first]; exact later, final⟩
  exact walk xs [] before rfl start

end Loop

end Orchid.Theory
