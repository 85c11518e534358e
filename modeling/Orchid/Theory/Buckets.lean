/-
# Theory.Buckets -- chained buckets filled at the head

Items are filed in the bucket `slot` assigns them, newest first.  The buckets are
then the items filtered by slot (`Filed`), so a search of one bucket is a search of
all items whenever what is searched for can only be filed there
(`find?_filter_slot`), and every item stands in its own bucket and no other
(`Filed.count_eq`).
-/
import Mathlib.Data.List.Basic
import Mathlib.Data.List.Nodup
import Mathlib.Data.List.Range

namespace Orchid.Theory

set_option autoImplicit false

universe u

section Buckets

variable {ι : Type u} {slot : ι → Nat} {size : Nat} {items : List ι} {buckets : List (List ι)}

/-- The items by their slot, in their order. -/
def fileAll (slot : ι → Nat) (size : Nat) (items : List ι) : List (List ι) :=
  (List.range size).map fun b => items.filter fun x => slot x = b

/-- The buckets hold the items, newest first, by their slot. -/
def Filed (slot : ι → Nat) (size : Nat) (items : List ι) (buckets : List (List ι)) : Prop :=
  buckets = fileAll slot size items

theorem Filed.nil (slot : ι → Nat) (size : Nat) : Filed slot size [] (List.replicate size []) := by
  simp [Filed, fileAll]

theorem Filed.getElem? (filed : Filed slot size items buckets) {b : Nat} (below : b < size) :
    buckets[b]? = some (items.filter fun x => slot x = b) := by
  rw [filed, fileAll, List.getElem?_map, List.getElem?_range below]
  rfl

theorem Filed.congr {slot' : ι → Nat} (filed : Filed slot size items buckets)
    (same : ∀ x ∈ items, slot x = slot' x) : Filed slot' size items buckets := by
  rw [Filed, filed, fileAll, fileAll]
  refine List.map_congr_left fun b _ => List.filter_congr fun x inside => ?_
  rw [same x inside]

/-- Inserting at the head of an item's bucket. -/
theorem Filed.insert (filed : Filed slot size items buckets) (x : ι) :
    Filed slot size (x :: items)
      (buckets.set (slot x) (x :: items.filter fun y => slot y = slot x)) := by
  rw [Filed, filed, fileAll, fileAll]
  apply List.ext_getElem?
  intro b
  rw [List.getElem?_set, List.getElem?_map, List.getElem?_map, List.length_map, List.length_range]
  by_cases below : b < size
  · rw [List.getElem?_range below]
    by_cases here : slot x = b
    · subst here
      simp [below]
    · simp [here]
  · have outside : (List.range size)[b]? = none := by simpa using below
    by_cases here : slot x = b
    · subst here
      simp [below]
    · simp [outside, here]

/-- A search of one bucket is a search of all items. -/
theorem find?_filter_slot {b : Nat} {p : ι → Bool} (fixed : ∀ x ∈ items, p x = true → slot x = b) :
    (items.filter fun x => slot x = b).find? p = items.find? p := by
  induction items with
  | nil => rfl
  | cons x items ih =>
      have rest := ih fun y inside => fixed y (List.mem_cons_of_mem _ inside)
      by_cases here : slot x = b
      · rw [List.filter_cons_of_pos (by simpa using here), List.find?_cons, List.find?_cons, rest]
      · have passed : p x = false :=
          Bool.eq_false_iff.2 fun hit => here (fixed x (List.mem_cons_self ..) hit)
        rw [List.filter_cons_of_neg (by simpa using here), List.find?_cons, rest, passed]

/-- Every item stands once in its own bucket and nowhere else. -/
theorem Filed.count_eq [DecidableEq ι] (filed : Filed slot size items buckets) (once : items.Nodup)
    {b : Nat} {bucket : List ι} (here : buckets[b]? = some bucket) (x : ι) :
    bucket.count x = if x ∈ items ∧ slot x = b then 1 else 0 := by
  have below : b < size := by
    have inside := (List.getElem?_eq_some_iff.1 here).1
    rwa [filed, fileAll, List.length_map, List.length_range] at inside
  rw [filed.getElem? below] at here
  obtain rfl := Option.some.inj here
  by_cases member : x ∈ items ∧ slot x = b
  · rw [if_pos member]
    apply List.count_eq_one_of_mem (once.filter _)
    rw [List.mem_filter]
    exact ⟨member.1, by simpa using member.2⟩
  · rw [if_neg member]
    apply List.count_eq_zero_of_not_mem
    rw [List.mem_filter]
    rintro ⟨inside, same⟩
    exact member ⟨inside, by simpa using same⟩

end Buckets

end Orchid.Theory
