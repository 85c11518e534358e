/-
# Theory.Restart -- a partial automaton that starts over

A partial transition function is run in two ways: `run` stops where a transition is
missing, `restartRun` goes back to the start state there and reads on.  The word
that was read since the last restart is `restartWord`; the state of the restarting
run is the state of the plain run on that word (`run_restartWord`).

The letter at which a run starts over is lost, and so is everything before it.  A run
over the left factors of some keywords therefore sees the end of a keyword only where
the word since the last restart is a keyword, and no list of keywords makes that
happen on every text (`exists_missed`).
-/
import Orchid.Theory.Keywords
import Mathlib.Data.List.MinMax

namespace Orchid.Theory

set_option autoImplicit false

universe u v

section Restart

variable {α : Type u} {σ : Type v} (step : σ → α → Option σ)

/-- The state reached, if no transition is missing. -/
def run : σ → List α → Option σ
  | q, [] => some q
  | q, c :: w => (step q c).bind fun next => run next w

/-- The state reached when a missing transition leads back to `first`. -/
def restartRun (first : σ) : σ → List α → σ
  | q, [] => q
  | q, c :: w => restartRun first ((step q c).getD first) w

theorem run_append (q : σ) (u w : List α) : run step q (u ++ w) = (run step q u).bind (run step · w) := by
  induction u generalizing q with
  | nil => rfl
  | cons c u ih =>
      rw [List.cons_append, run, run]
      cases step q c with
      | none => rfl
      | some next => exact ih next

theorem restartRun_append (first q : σ) (u w : List α) :
    restartRun step first q (u ++ w) = restartRun step first (restartRun step first q u) w := by
  induction u generalizing q with
  | nil => rfl
  | cons c u ih => exact ih _

/-- A run is carried along by a map of the states that the steps commute with. -/
theorem run_map {τ : Type v} {step' : τ → α → Option τ} {m : σ → τ} {good : σ → Prop}
    (closed : ∀ q c r, good q → step q c = some r → good r) (commutes : ∀ q c, good q → step' (m q) c = (step q c).map m)
    (w : List α) : ∀ {q : σ}, good q → run step' (m q) w = (run step q w).map m := by
  induction w with
  | nil => exact fun _ => rfl
  | cons c w ih =>
      intro q here
      rw [run, run, commutes q c here]
      cases stepped : step q c with
      | none => rfl
      | some r => exact ih (closed q c r here stepped)

/-- What the steps keep, a run keeps. -/
theorem run_closed {good : σ → Prop} (closed : ∀ q c r, good q → step q c = some r → good r) {w : List α} :
    ∀ {q r : σ}, good q → run step q w = some r → good r := by
  induction w with
  | nil =>
      intro q r here ran
      rwa [← Option.some.inj ran]
  | cons c w ih =>
      intro q r here ran
      rw [run] at ran
      obtain ⟨next, stepped, ran⟩ := Option.bind_eq_some_iff.1 ran
      exact ih (closed q c next here stepped) ran

/-- A run that is not stuck does not start over. -/
theorem restartRun_of_run (first : σ) {q r : σ} {w : List α} (ran : run step q w = some r) :
    restartRun step first q w = r := by
  induction w generalizing q with
  | nil => exact Option.some.inj ran
  | cons c w ih =>
      rw [run] at ran
      rw [restartRun]
      cases steps : step q c with
      | none =>
          rw [steps] at ran
          cases ran
      | some next =>
          rw [steps] at ran
          exact ih ran

/-- A run starts over at the letter where it is stuck. -/
theorem restartRun_of_stuck (first : σ) {q r : σ} {w : List α} {c : α} (ran : run step q w = some r)
    (stuck : run step q (w ++ [c]) = none) : restartRun step first q (w ++ [c]) = first := by
  rw [run_append, ran] at stuck
  rw [restartRun_append, restartRun_of_run step first ran, restartRun, restartRun]
  cases steps : step r c with
  | none => rfl
  | some next =>
      simp only [Option.bind_some, run, steps] at stuck
      cases stuck

variable (stem : List α → Prop) [DecidablePred stem]

/-- The word read since the last restart; `stem` says which words can be read. -/
def restartWord (text : List α) : List α :=
  text.foldl (fun w c => if stem (w ++ [c]) then w ++ [c] else []) []

theorem restartWord_snoc (text : List α) (c : α) :
    restartWord stem (text ++ [c]) =
      if stem (restartWord stem text ++ [c]) then restartWord stem text ++ [c] else [] := by
  rw [restartWord, List.foldl_append]
  rfl

theorem restartWord_suffix (text : List α) : restartWord stem text <:+ text := by
  induction text using List.reverseRecOn with
  | nil => exact List.suffix_refl _
  | append_singleton text c ih =>
      rw [restartWord_snoc]
      by_cases more : stem (restartWord stem text ++ [c])
      · rw [if_pos more]
        obtain ⟨before, split⟩ := ih
        exact ⟨before, by rw [← List.append_assoc, split]⟩
      · rw [if_neg more]
        exact List.nil_suffix

/-- As long as the word can be read there is no restart. -/
theorem restartWord_of_stem (closed : LeftClosed stem) {text : List α} (readable : stem text) :
    restartWord stem text = text := by
  induction text using List.reverseRecOn with
  | nil => rfl
  | append_singleton text c ih =>
      rw [restartWord_snoc, ih (closed.left readable), if_pos readable]

/-- The restarting run is the plain run on the word since the last restart. -/
theorem run_restartWord {first : σ} (defined : ∀ w, stem w ↔ ∃ q, run step first w = some q)
    (text : List α) :
    run step first (restartWord stem text) = some (restartRun step first first text) := by
  induction text using List.reverseRecOn with
  | nil => rfl
  | append_singleton text c ih =>
      rw [restartWord_snoc, restartRun_append, restartRun, restartRun]
      have next : run step first (restartWord stem text ++ [c]) =
          step (restartRun step first first text) c := by
        rw [run_append, ih]
        show (step _ c).bind some = step _ c
        cases step (restartRun step first first text) c <;> rfl
      cases reached : step (restartRun step first first text) c with
      | none =>
          have stuck : ¬ stem (restartWord stem text ++ [c]) := by
            rw [defined, next, reached]
            exact fun ⟨q, impossible⟩ => (nomatch impossible)
          rw [if_neg stuck]
          rfl
      | some q =>
          have readable : stem (restartWord stem text ++ [c]) := by
            rw [defined, next, reached]
            exact ⟨q, rfl⟩
          rw [if_pos readable, next, reached]
          rfl

/-- Where nothing was read since the last restart, the run was stuck at the last letter. -/
theorem exists_restart {first : σ} (defined : ∀ w, stem w ↔ ∃ q, run step first w = some q) {text : List α}
    (nonempty : text ≠ []) (restarted : restartWord stem text = []) :
    ∃ before c, text = before ++ [c] ∧ run step first (restartWord stem before ++ [c]) = none := by
  obtain ⟨before, c, rfl⟩ : ∃ before c, text = before ++ [c] :=
    ⟨_, _, (List.dropLast_append_getLast nonempty).symm⟩
  refine ⟨before, c, rfl, ?_⟩
  cases ran : run step first (restartWord stem before ++ [c]) with
  | none => rfl
  | some q =>
      rw [restartWord_snoc, if_pos ((defined _).2 ⟨q, ran⟩)] at restarted
      exact absurd restarted (by simp)

/-- After a restart the earlier text plays no part. -/
theorem restartWord_append_of_restart {before : List α} (clean : restartWord stem before = [])
    (text : List α) : restartWord stem (before ++ text) = restartWord stem text := by
  rw [restartWord, List.foldl_append]
  show text.foldl _ (restartWord stem before) = _
  rw [clean]
  rfl

/-- Reading up to a map of the letters. -/
theorem restartWord_map {β : Type u} (f : β → α) (text : List β) :
    (restartWord (fun w => stem (w.map f)) text).map f = restartWord stem (text.map f) := by
  induction text using List.reverseRecOn with
  | nil => rfl
  | append_singleton text c ih =>
      have mapped : (restartWord (fun w => stem (w.map f)) text ++ [c]).map f =
          restartWord stem (text.map f) ++ [f c] := by
        rw [List.map_append, ih]
        rfl
      have letters : (text ++ [c]).map f = text.map f ++ [f c] := List.map_append
      rw [letters, restartWord_snoc, restartWord_snoc, ← mapped]
      by_cases more : stem ((restartWord (fun w => stem (w.map f)) text ++ [c]).map f)
      · rw [if_pos more, if_pos more]
      · rw [if_neg more, if_neg more]
        rfl

end Restart

/-! ## Keywords -/

section Keywords

variable {α : Type u} {β : Type v} [DecidableEq α] (text : β → List α) {ps : List β}

omit [DecidableEq α] in
theorem exists_longest (nonempty : ps ≠ []) :
    ∃ long ∈ ps, ∀ p ∈ ps, (text p).length ≤ (text long).length := by
  let size : β → Nat := fun p => (text p).length
  cases found : ps.argmax size with
  | none => exact absurd (List.argmax_eq_none.1 found) nonempty
  | some long =>
      refine ⟨long, List.argmax_mem found, fun p inside => ?_⟩
      exact @List.le_of_mem_argmax _ _ _ size ps p long inside found

omit [DecidableEq α] in
theorem exists_shortest (nonempty : ps ≠ []) :
    ∃ short ∈ ps, ∀ p ∈ ps, (text short).length ≤ (text p).length := by
  let size : β → Nat := fun p => (text p).length
  cases found : ps.argmin size with
  | none => exact absurd (List.argmin_eq_none.1 found) nonempty
  | some short =>
      refine ⟨short, List.argmin_mem found, fun p inside => ?_⟩
      exact @List.le_of_mem_argmin _ _ _ size ps p short inside found

/-- **A restarting run misses a keyword.**  Whatever the keywords, none of them empty,
after one of them the end of another is missed. -/
theorem exists_missed (inhabited : ps ≠ []) (nonempty : ∀ p ∈ ps, text p ≠ []) :
    ∃ p ∈ ps, ∃ q ∈ ps, ∀ r ∈ ps, text r ≠ restartWord (Stem text ps) (text p ++ text q) := by
  obtain ⟨long, inLong, longest⟩ := exists_longest text inhabited
  obtain ⟨short, inShort, shortest⟩ := exists_shortest text inhabited
  obtain ⟨c, tail, spelled⟩ := List.exists_cons_of_ne_nil (nonempty short inShort)
  refine ⟨long, inLong, short, inShort, fun p inside found => ?_⟩
  have whole : restartWord (Stem text ps) (text long) = text long :=
    restartWord_of_stem _ (stem_leftClosed text ps) (stem_text text ps inLong)
  -- no keyword is long enough to go on after the longest one
  have restarts : restartWord (Stem text ps) (text long ++ [c]) = [] := by
    rw [restartWord_snoc, whole, if_neg]
    rintro (impossible | ⟨q, member, pre⟩)
    · exact absurd impossible (by simp)
    · have tooLong := pre.length_le
      have bound := longest q member
      rw [List.length_append, List.length_singleton] at tooLong
      omega
  have split : text long ++ text short = (text long ++ [c]) ++ tail := by rw [spelled]; simp
  rw [split, restartWord_append_of_restart _ restarts] at found
  -- and what is left is shorter than the shortest one
  have small := (restartWord_suffix (Stem text ps) tail).length_le
  have bound := shortest p inside
  rw [spelled, found, List.length_cons] at bound
  omega

end Keywords

end Orchid.Theory
