/-
# RegexParse.StringToken -- sets of bytes as ranges

lexertl keeps a character set as a vector of ranges.  The ranges are in order, and
between two of them there is at least one byte that is in neither (`Normal`), so a set
has one representation only: equal tokens are equal sets (`StringToken.ext_iff_mem`),
which is what makes a token usable as the key of the parser's map.

`insert` keeps the ranges normal by swallowing every range it meets or touches;
`intersect` and `remove` walk both vectors with two cursors and cut the overlap out.
The cursor loops are written on the ranges from the cursor on.
-/
import Orchid.Machine
import Mathlib.Data.List.Pairwise

namespace Orchid

set_option autoImplicit false

/-- `std::pair<index_type, index_type>` of bytes. -/
structure ByteRange where
  first : Nat
  second : Nat
  ordered : first ≤ second
  bounded : second < 256
  deriving DecidableEq

namespace ByteRange

/-- The range of one byte. -/
def one (b : UInt8) : ByteRange := ⟨b.toNat, b.toNat, Nat.le_refl _, UInt8.toNat_lt b⟩

def has (r : ByteRange) (x : Nat) : Prop := r.first ≤ x ∧ x ≤ r.second

instance (r : ByteRange) (x : Nat) : Decidable (r.has x) := inferInstanceAs (Decidable (_ ∧ _))

/-- Between the two there is a byte that is in neither. -/
def Before (r s : ByteRange) : Prop := r.second + 1 < s.first

instance (r s : ByteRange) : Decidable (r.Before s) := inferInstanceAs (Decidable (_ < _))

theorem Before.trans {r s t : ByteRange} (before : r.Before s) (before' : s.Before t) : r.Before t := by
  have inside := s.ordered
  unfold Before at *
  omega

theorem has_first (r : ByteRange) : r.has r.first := ⟨Nat.le_refl _, r.ordered⟩

/-- How many bytes. -/
def size (r : ByteRange) : Nat := r.second - r.first + 1

end ByteRange

def Normal (ranges : List ByteRange) : Prop := ranges.Pairwise ByteRange.Before

instance (ranges : List ByteRange) : Decidable (Normal ranges) :=
  inferInstanceAs (Decidable (ranges.Pairwise ByteRange.Before))

/-- The bytes of the ranges. -/
def Holds (ranges : List ByteRange) (x : Nat) : Prop := ∃ r ∈ ranges, r.has x

instance (ranges : List ByteRange) (x : Nat) : Decidable (Holds ranges x) :=
  inferInstanceAs (Decidable (∃ r ∈ ranges, r.has x))

@[simp] theorem holds_nil (x : Nat) : ¬ Holds [] x := by simp [Holds]

@[simp] theorem holds_cons (r : ByteRange) (ranges : List ByteRange) (x : Nat) :
    Holds (r :: ranges) x ↔ r.has x ∨ Holds ranges x := by simp [Holds]

@[simp] theorem holds_append (ranges more : List ByteRange) (x : Nat) :
    Holds (ranges ++ more) x ↔ Holds ranges x ∨ Holds more x := by
  simp [Holds, or_and_right, exists_or]

theorem Normal.tail {r : ByteRange} {ranges : List ByteRange} (normal : Normal (r :: ranges)) : Normal ranges :=
  (List.pairwise_cons.1 normal).2

theorem Normal.before {r : ByteRange} {ranges : List ByteRange} (normal : Normal (r :: ranges)) :
    ∀ s ∈ ranges, r.Before s := (List.pairwise_cons.1 normal).1

/-- Behind a range all ranges are farther. -/
theorem Normal.not_holds {r : ByteRange} {ranges : List ByteRange} (normal : Normal (r :: ranges)) {x : Nat}
    (near : x ≤ r.second + 1) : ¬ Holds ranges x := by
  rintro ⟨s, member, low, -⟩
  have far := normal.before s member
  unfold ByteRange.Before at far
  omega

/-! ## Inserting -/

/-- `insert(range)`. -/
def insertRange : ByteRange → List ByteRange → List ByteRange
  | rhs, [] => [rhs]
  | rhs, it :: rest =>
      if follows : it.second < rhs.first then
        if rhs.first = it.second + 1 then
          -- auto normalise
          insertRange
            ⟨it.first, rhs.second, by have := it.ordered; have := rhs.ordered; omega, rhs.bounded⟩ rest
        else it :: insertRange rhs rest
      else if precedes : rhs.second < it.first then
        if rhs.second = it.first - 1 then
          insertRange
            ⟨rhs.first, it.second, by have := it.ordered; have := rhs.ordered; omega, it.bounded⟩ rest
        else rhs :: it :: rest
      else if under : rhs.first < it.first then
        insertRange
          (if rhs.second < it.second then ⟨rhs.first, it.second, by have := it.ordered; omega, it.bounded⟩
            else rhs) rest
      else if beyond : it.second < rhs.second then
        insertRange
          (if it.first < rhs.first then ⟨it.first, rhs.second, by have := it.ordered; omega, rhs.bounded⟩
            else rhs) rest
      else
        -- subset: nothing is inserted
        it :: rest

/-- What lies before everything that is there and before the range stays so. -/
theorem before_insertRange {low : ByteRange} {rhs : ByteRange} {ranges : List ByteRange} (new : low.Before rhs)
    (all : ∀ r ∈ ranges, low.Before r) : ∀ r ∈ insertRange rhs ranges, low.Before r := by
  fun_induction insertRange rhs ranges with
  | case1 rhs => simpa using new
  | case2 rhs it rest follows near ih =>
      simp only [List.forall_mem_cons] at all
      exact ih all.1 all.2
  | case3 rhs it rest follows near ih =>
      simp only [List.forall_mem_cons] at all ⊢
      exact ⟨all.1, ih new all.2⟩
  | case4 rhs it rest follows precedes near ih =>
      simp only [List.forall_mem_cons] at all
      exact ih new all.2
  | case5 rhs it rest follows precedes near =>
      simp only [List.forall_mem_cons] at all ⊢
      exact ⟨new, all⟩
  | case6 rhs it rest follows precedes under ih =>
      simp only [List.forall_mem_cons] at all
      apply ih _ all.2
      split <;> exact new
  | case7 rhs it rest follows precedes under beyond ih =>
      simp only [List.forall_mem_cons] at all
      apply ih _ all.2
      split
      · exact all.1
      · exact new
  | case8 rhs it rest => exact all

theorem insertRange_normal {rhs : ByteRange} {ranges : List ByteRange} (normal : Normal ranges) :
    Normal (insertRange rhs ranges) := by
  fun_induction insertRange rhs ranges with
  | case1 rhs => simp [Normal]
  | case2 rhs it rest follows near ih => exact ih normal.tail
  | case3 rhs it rest follows near ih =>
      have apart : it.Before rhs := by
        unfold ByteRange.Before
        omega
      exact List.pairwise_cons.2 ⟨before_insertRange apart normal.before, ih normal.tail⟩
  | case4 rhs it rest follows precedes near ih => exact ih normal.tail
  | case5 rhs it rest follows precedes near =>
      have apart : rhs.Before it := by
        unfold ByteRange.Before
        omega
      refine List.pairwise_cons.2 ⟨?_, normal⟩
      simp only [List.forall_mem_cons]
      exact ⟨apart, fun r member => apart.trans (normal.before r member)⟩
  | case6 rhs it rest follows precedes under ih => exact ih normal.tail
  | case7 rhs it rest follows precedes under beyond ih => exact ih normal.tail
  | case8 rhs it rest => exact normal

/-- Inserting is union, whatever the ranges are. -/
theorem holds_insertRange {rhs : ByteRange} {ranges : List ByteRange} (x : Nat) :
    Holds (insertRange rhs ranges) x ↔ rhs.has x ∨ Holds ranges x := by
  fun_induction insertRange rhs ranges with
  | case1 rhs => simp
  | case2 rhs it rest follows near ih =>
      have cut : x ≤ it.second ∨ rhs.first ≤ x := by omega
      have inside := it.ordered
      have inside' := rhs.ordered
      rw [ih, holds_cons, ← or_assoc]
      apply or_congr_left
      unfold ByteRange.has
      dsimp only
      omega
  | case3 rhs it rest follows near ih =>
      rw [holds_cons, ih, holds_cons, or_left_comm]
  | case4 rhs it rest follows precedes near ih =>
      have inside := it.ordered
      have inside' := rhs.ordered
      rw [ih, holds_cons, ← or_assoc]
      apply or_congr_left
      unfold ByteRange.has
      dsimp only
      omega
  | case5 rhs it rest follows precedes near => rw [holds_cons]
  | case6 rhs it rest follows precedes under ih =>
      rw [ih, holds_cons, ← or_assoc]
      apply or_congr_left
      unfold ByteRange.has
      split
      · dsimp only
        omega
      · omega
  | case7 rhs it rest follows precedes under beyond ih =>
      rw [ih, holds_cons, ← or_assoc]
      apply or_congr_left
      unfold ByteRange.has
      split
      · dsimp only
        omega
      · omega
  | case8 rhs it rest follows precedes under beyond =>
      rw [holds_cons, ← or_assoc]
      apply or_congr_left
      unfold ByteRange.has
      omega

/-! ## Negating -/

/-- The loop of `negate` from the range at the iterator on; the last byte is 255. -/
def negateLoop : Fin 256 → List ByteRange → List ByteRange → List ByteRange
  | next, [], temp => insertRange ⟨next, 255, by omega, by omega⟩ temp
  | next, it :: rest, temp =>
      let temp :=
        if below : next.val < it.first then
          insertRange ⟨next, it.first - 1, by omega, by have := it.ordered; have := it.bounded; omega⟩ temp
        else temp
      if more : it.second < 255 then negateLoop ⟨it.second + 1, by omega⟩ rest temp else temp

theorem negateLoop_normal {ranges : List ByteRange} : ∀ {next : Fin 256} {temp : List ByteRange}, Normal temp →
    Normal (negateLoop next ranges temp) := by
  induction ranges with
  | nil => exact insertRange_normal
  | cons it rest ih =>
      intro next temp normal
      have grown : ∀ r, Normal (insertRange r temp) := fun r => insertRange_normal normal
      unfold negateLoop
      by_cases below : next.val < it.first <;> by_cases more : it.second < 255 <;> simp [below, more, ih, grown, normal]

/-- From `next` on the bytes that are in no range are added. -/
theorem holds_negateLoop {ranges : List ByteRange} : ∀ {next : Fin 256} {temp : List ByteRange}, Normal ranges →
    (∀ r ∈ ranges, next.val ≤ r.first) → ∀ x < 256,
      (Holds (negateLoop next ranges temp) x ↔ Holds temp x ∨ next.val ≤ x ∧ ¬ Holds ranges x) := by
  induction ranges with
  | nil =>
      intro next temp _ _ x byte
      have bound : x ≤ 255 := by omega
      simp [negateLoop, holds_insertRange, ByteRange.has, bound, or_comm]
  | cons it rest ih =>
      intro next temp normal low x byte
      have inside := it.ordered
      have first : next.val ≤ it.first := low it (List.mem_cons_self ..)
      have behind : x ≤ it.second → ¬ Holds rest x := fun near => normal.not_holds (by omega)
      -- what has been added in front of the range
      have front : Holds (if below : next.val < it.first then
          insertRange ⟨next, it.first - 1, by omega, by have := it.bounded; omega⟩ temp else temp) x ↔
            Holds temp x ∨ next.val ≤ x ∧ x < it.first := by
        split
        · rw [holds_insertRange, or_comm]
          unfold ByteRange.has
          apply or_congr_right
          dsimp only
          omega
        · have empty : ¬ (next.val ≤ x ∧ x < it.first) := by omega
          simp [empty]
      unfold negateLoop
      dsimp only
      rw [holds_cons]
      by_cases more : it.second < 255
      · have far : ∀ r ∈ rest, it.second + 1 ≤ r.first := fun r member => Nat.le_of_lt (normal.before r member)
        rw [dif_pos more, ih normal.tail far x byte, front]
        unfold ByteRange.has
        have place : x < it.first ∨ (it.first ≤ x ∧ x ≤ it.second) ∨ it.second + 1 ≤ x := by omega
        rcases place with before | within | after
        · have out : ¬ it.second + 1 ≤ x := by omega
          have out' : ¬ it.first ≤ x := by omega
          simp [before, out, out', behind (by omega)]
        · have out : ¬ it.second + 1 ≤ x := by omega
          have out' : ¬ x < it.first := by omega
          simp [within, out, out']
        · have out : ¬ x ≤ it.second := by omega
          have out' : ¬ x < it.first := by omega
          have reached : next.val ≤ x := by omega
          simp [after, out, out', reached]
      · rw [dif_neg more, front]
        have last : x ≤ it.second := by omega
        unfold ByteRange.has
        simp only [behind last, last, and_true, or_false, Nat.not_le]

/-! ## Cutting out -/

/-- `adjust`: takes the overlap out of the range at the cursor.  The result is what the
cursor has passed, and the ranges from the new cursor on: a range that is cut in two is
passed up to its first part, since `insert` puts the second part right behind it. -/
def adjust (range it : ByteRange) (rest : List ByteRange) : List ByteRange × List ByteRange :=
  if above : it.first < range.first then
    let cut : ByteRange :=
      ⟨it.first, range.first - 1, by omega, by have := range.ordered; have := range.bounded; omega⟩
    if more : range.second < it.second then ([cut], ⟨range.second + 1, it.second, by omega, it.bounded⟩ :: rest)
    else ([], cut :: rest)
  else if more : range.second < it.second then
    ([], ⟨range.second + 1, it.second, by omega, it.bounded⟩ :: rest)
  else ([], rest)

def weight : List ByteRange → Nat
  | [] => 0
  | r :: ranges => r.size + weight ranges

@[simp] theorem weight_cons (r : ByteRange) (ranges : List ByteRange) : weight (r :: ranges) = r.size + weight ranges := rfl

/-- The range lies in both ranges. -/
structure ByteRange.Within (range it : ByteRange) : Prop where
  first : it.first ≤ range.first
  second : range.second ≤ it.second

theorem weight_adjust {range it : ByteRange} (within : range.Within it) (rest : List ByteRange) :
    weight (adjust range it rest).2 < weight (it :: rest) := by
  have inside := range.ordered
  obtain ⟨low, high⟩ := within
  unfold adjust
  split <;> split <;> simp [ByteRange.size] <;> omega

/-- A range between the others goes in where it belongs. -/
theorem insertRange_behind {new : ByteRange} {passed rest : List ByteRange}
    (front : ∀ r ∈ passed, r.Before new) (behind : ∀ r ∈ rest, new.Before r) :
    insertRange new (passed ++ rest) = passed ++ new :: rest := by
  induction passed with
  | nil =>
      cases rest with
      | nil => rfl
      | cons r rest =>
          have apart := behind r (List.mem_cons_self ..)
          have inside := new.ordered
          unfold ByteRange.Before at apart
          have notFollows : ¬ r.second < new.first := by have := r.ordered; omega
          have precedes : new.second < r.first := by omega
          have notNear : new.second ≠ r.first - 1 := by omega
          simp [insertRange, notFollows, precedes, notNear]
  | cons r passed ih =>
      have apart := front r (List.mem_cons_self ..)
      unfold ByteRange.Before at apart
      have follows : r.second < new.first := by omega
      have notNear : new.first ≠ r.second + 1 := by omega
      simp [insertRange, follows, notNear, ih fun s member => front s (List.mem_cons_of_mem _ member)]

/-- **A range that is cut in two**: the second part stands where the source's `insert` puts it. -/
theorem adjust_eq_insertRange {range it : ByteRange} {passed rest : List ByteRange} (normal : Normal (passed ++ it :: rest))
    (above : it.first < range.first) (more : range.second < it.second) :
    passed ++ (adjust range it rest).1 ++ (adjust range it rest).2 =
      insertRange ⟨range.second + 1, it.second, more, it.bounded⟩
        (passed ++ ⟨it.first, range.first - 1, Nat.le_sub_one_of_lt above,
          Nat.lt_of_le_of_lt (Nat.sub_le ..) (Nat.lt_of_le_of_lt range.ordered range.bounded)⟩ :: rest) := by
  have inside := range.ordered
  obtain ⟨-, later, apart⟩ := List.pairwise_append.1 normal
  rw [List.append_cons]
  refine Eq.trans ?_ (insertRange_behind (fun r member => ?_) fun r member => ?_).symm
  · simp [adjust, above, more]
  · rcases List.mem_append.1 member with front | cut
    · have before := apart r front it List.mem_cons_self
      unfold ByteRange.Before at *
      dsimp only
      omega
    · rw [List.mem_singleton.1 cut]
      unfold ByteRange.Before
      dsimp only
      omega
  · exact (List.pairwise_cons.1 later).1 r member

/-- What `adjust` leaves of normal ranges. -/
structure Adjusted (range it : ByteRange) (rest passed later : List ByteRange) : Prop where
  normal : Normal (passed ++ later)
  lower : ∀ low : ByteRange, (∀ s ∈ it :: rest, low.Before s) → ∀ s ∈ passed ++ later, low.Before s
  holds : ∀ x, Holds (passed ++ later) x ↔ Holds (it :: rest) x ∧ ¬ range.has x
  passed : ∀ x, Holds passed x → it.first < range.first ∧ x < range.first

theorem adjust_spec {range it : ByteRange} {rest : List ByteRange} (within : range.Within it)
    (normal : Normal (it :: rest)) : Adjusted range it rest (adjust range it rest).1 (adjust range it rest).2 := by
  have inside := range.ordered
  obtain ⟨first, second⟩ := within
  have apart := normal.before
  have farther : ∀ x, x ≤ it.second → ¬ Holds rest x := fun x near => normal.not_holds (by omega)
  have shrunk : ∀ r : ByteRange, r.second ≤ it.second → Normal (r :: rest) := fun r short =>
    List.pairwise_cons.2 ⟨fun s member => Nat.lt_of_le_of_lt (Nat.succ_le_succ short) (apart s member), normal.tail⟩
  have raised : ∀ {low r : ByteRange}, it.first ≤ r.first → (∀ s ∈ it :: rest, low.Before s) →
      ∀ s ∈ r :: rest, low.Before s := by
    intro low r high all
    simp only [List.forall_mem_cons] at all ⊢
    exact ⟨Nat.lt_of_lt_of_le all.1 high, all.2⟩
  have outside : ∀ x, Holds rest x → ¬ range.has x := fun x held inRange =>
    farther x (Nat.le_trans inRange.2 second) held
  unfold adjust
  by_cases above : it.first < range.first
  · rw [dif_pos above]
    by_cases more : range.second < it.second
    · rw [dif_pos more]
      refine ⟨List.pairwise_cons.2 ⟨?_, shrunk _ (Nat.le_refl _)⟩, fun low all => ?_, fun x => ?_, fun x held => ?_⟩
      · intro s member
        rcases List.mem_cons.1 member with rfl | member
        · show range.first - 1 + 1 < range.second + 1
          omega
        · have far := apart s member
          unfold ByteRange.Before at far ⊢
          dsimp only
          omega
      · simp only [List.cons_append, List.nil_append, List.forall_mem_cons] at all ⊢
        refine ⟨all.1, ?_, all.2⟩
        have far := all.1
        unfold ByteRange.Before at far ⊢
        dsimp only
        omega
      · simp only [List.cons_append, List.nil_append, holds_cons]
        have away := outside x
        by_cases held : Holds rest x
        · simp [held, away held]
        · simp only [held, or_false]
          unfold ByteRange.has
          dsimp only
          omega
      · simp only [holds_cons, holds_nil, or_false] at held
        have := held.2
        dsimp only at this
        omega
    · rw [dif_neg more]
      refine ⟨shrunk _ (by dsimp only; omega), fun low => raised (Nat.le_refl _), fun x => ?_, fun x held => ?_⟩
      · simp only [List.nil_append, holds_cons]
        have away := outside x
        by_cases held : Holds rest x
        · simp [held, away held]
        · simp only [held, or_false]
          unfold ByteRange.has
          dsimp only
          omega
      · exact absurd held (holds_nil x)
  · rw [dif_neg above]
    by_cases more : range.second < it.second
    · rw [dif_pos more]
      refine ⟨shrunk _ (Nat.le_refl _), fun low => raised (by dsimp only; omega), fun x => ?_, fun x held => ?_⟩
      · simp only [List.nil_append, holds_cons]
        have away := outside x
        by_cases held : Holds rest x
        · simp [held, away held]
        · simp only [held, or_false]
          unfold ByteRange.has
          dsimp only
          omega
      · exact absurd held (holds_nil x)
    · rw [dif_neg more]
      refine ⟨normal.tail, fun low all s member => all s (List.mem_cons_of_mem _ member), fun x => ?_, fun x held => ?_⟩
      · simp only [List.nil_append, holds_cons]
        have away := outside x
        by_cases held : Holds rest x
        · simp [held, away held]
        · simp only [held, or_false, false_iff]
          unfold ByteRange.has
          omega
      · exact absurd held (holds_nil x)

/-- The overlap of two ranges that meet. -/
def ByteRange.overlap (l r : ByteRange) (notAfter : ¬ l.second < r.first) (notBefore : ¬ r.second < l.first) :
    ByteRange where
  first := if l.first < r.first then r.first else l.first
  second := if r.second < l.second then r.second else l.second
  ordered := by
    have := l.ordered
    have := r.ordered
    split <;> split <;> omega
  bounded := by
    have := l.bounded
    have := r.bounded
    split <;> omega

section Overlap

variable {l r : ByteRange} (notAfter : ¬ l.second < r.first) (notBefore : ¬ r.second < l.first)

theorem ByteRange.overlap_within_left : (l.overlap r notAfter notBefore).Within l where
  first := by
    unfold ByteRange.overlap
    dsimp only
    split <;> omega
  second := by
    unfold ByteRange.overlap
    dsimp only
    split <;> omega

theorem ByteRange.overlap_within_right : (l.overlap r notAfter notBefore).Within r where
  first := by
    unfold ByteRange.overlap
    dsimp only
    split <;> omega
  second := by
    unfold ByteRange.overlap
    dsimp only
    split <;> omega

theorem ByteRange.overlap_first :
    (l.overlap r notAfter notBefore).first = r.first ∨ (l.overlap r notAfter notBefore).first = l.first := by
  unfold ByteRange.overlap
  dsimp only
  split
  · exact Or.inl rfl
  · exact Or.inr rfl

end Overlap

/-- `intersect`: the ranges that stay on both sides, and the overlap. -/
def intersectLoop (lhs rhs overlap : List ByteRange) : List ByteRange × List ByteRange × List ByteRange :=
  match lhs, rhs with
  | l :: ls, r :: rs =>
      if notAfter : l.second < r.first then
        let (lhs, rhs, overlap) := intersectLoop ls (r :: rs) overlap
        (l :: lhs, rhs, overlap)
      else if notBefore : r.second < l.first then
        let (lhs, rhs, overlap) := intersectLoop (l :: ls) rs overlap
        (lhs, r :: rhs, overlap)
      else
        let range := l.overlap r notAfter notBefore
        let left := adjust range l ls
        let right := adjust range r rs
        let (lhs, rhs, overlap) := intersectLoop left.2 right.2 (insertRange range overlap)
        (left.1 ++ lhs, right.1 ++ rhs, overlap)
  | lhs, rhs => (lhs, rhs, overlap)
termination_by weight lhs + weight rhs
decreasing_by
  · simp [ByteRange.size]
  · simp [ByteRange.size]
  · have left := weight_adjust (ByteRange.overlap_within_left notAfter notBefore) ls
    have right := weight_adjust (ByteRange.overlap_within_right notAfter notBefore) rs
    omega

/-- `remove`: what stays of the left side. -/
def removeLoop (lhs rhs : List ByteRange) : List ByteRange :=
  match lhs, rhs with
  | l :: ls, r :: rs =>
      if notAfter : l.second < r.first then l :: removeLoop ls (r :: rs)
      else if notBefore : r.second < l.first then removeLoop (l :: ls) rs
      else
        let left := adjust (l.overlap r notAfter notBefore) l ls
        left.1 ++ removeLoop left.2 (r :: rs)
  | lhs, _ => lhs
termination_by weight lhs + weight rhs
decreasing_by
  · simp [ByteRange.size]
  · simp [ByteRange.size]
  · have left := weight_adjust (ByteRange.overlap_within_left notAfter notBefore) ls
    omega

/-- Ranges that stay behind a bound when some of them are taken out. -/
def Cut (ranges before : List ByteRange) (gone : Nat → Prop) : Prop :=
  Normal ranges ∧ (∀ low : ByteRange, (∀ s ∈ before, low.Before s) → ∀ s ∈ ranges, low.Before s) ∧
    ∀ x, Holds ranges x ↔ Holds before x ∧ ¬ gone x

theorem Cut.refl {ranges : List ByteRange} {gone : Nat → Prop} (normal : Normal ranges)
    (none_ : ∀ x, Holds ranges x → ¬ gone x) : Cut ranges ranges gone :=
  ⟨normal, fun _ all => all, fun x => ⟨fun held => ⟨held, none_ x held⟩, And.left⟩⟩

/-- A range the cursor passes as it is. -/
theorem Cut.cons {l : ByteRange} {later before : List ByteRange} {gone : Nat → Prop}
    (normal : Normal (l :: before)) (kept : ∀ x, l.has x → ¬ gone x) (cut : Cut later before gone) :
    Cut (l :: later) (l :: before) gone := by
  obtain ⟨ordered, lower, holds⟩ := cut
  refine ⟨List.pairwise_cons.2 ⟨lower l normal.before, ordered⟩, fun low all => ?_, fun x => ?_⟩
  · simp only [List.forall_mem_cons] at all ⊢
    exact ⟨all.1, lower low all.2⟩
  · have stays := kept x
    rw [holds_cons, holds_cons, holds]
    tauto

/-- One round that takes an overlap out. -/
theorem Cut.adjusted {range it : ByteRange} {rest passed from_ later : List ByteRange} {gone goneLater : Nat → Prop}
    (round : Adjusted range it rest passed from_) (cut : Cut later from_ goneLater)
    (now : ∀ x, range.has x → gone x) (kept : ∀ x, Holds passed x → ¬ gone x)
    (same : ∀ x, Holds from_ x → (goneLater x ↔ gone x)) : Cut (passed ++ later) (it :: rest) gone := by
  obtain ⟨ordered, lower, holds⟩ := cut
  have parts := List.pairwise_append.1 round.normal
  refine ⟨List.pairwise_append.2 ⟨parts.1, ordered, fun p inside s member =>
    lower p (fun t behind => parts.2.2 p inside t behind) s member⟩, fun low all s member => ?_, fun x => ?_⟩
  · have after := round.lower low all
    rcases List.mem_append.1 member with inside | inside
    · exact after s (List.mem_append_left _ inside)
    · exact lower low (fun t behind => after t (List.mem_append_right _ behind)) s inside
  · have split_ := round.holds x
    have taken := now x
    have stays := kept x
    have agree := same x
    rw [holds_append] at split_ ⊢
    rw [holds]
    tauto

theorem Normal.below {r : ByteRange} {ranges : List ByteRange} (normal : Normal (r :: ranges)) {x : Nat}
    (less : x < r.first) : ¬ Holds (r :: ranges) x := by
  have inside := r.ordered
  have behind := normal.not_holds (show x ≤ r.second + 1 by omega)
  rw [holds_cons]
  unfold ByteRange.has
  rintro (⟨low, -⟩ | held)
  · omega
  · exact behind held

/-- What stays on a side after a round is on the other side now if it was before. -/
theorem stays_iff {passed later passed' later' left right range : Prop} (split_ : passed ∨ later ↔ left ∧ ¬ range)
    (split' : passed' ∨ later' ↔ right ∧ ¬ range) (never : passed' → ¬ left) (stays : later) : later' ↔ right := by
  tauto

theorem overlap_iff {passed later passed' later' left right range overlap : Prop}
    (split_ : passed ∨ later ↔ left ∧ ¬ range) (split' : passed' ∨ later' ↔ right ∧ ¬ range)
    (never : passed → ¬ right) (never' : passed' → ¬ left) (inLeft : range → left) (inRight : range → right) :
    (range ∨ overlap) ∨ later ∧ later' ↔ overlap ∨ left ∧ right := by
  by_cases range <;> tauto

theorem intersectLoop_spec {lhs rhs overlap : List ByteRange} (left : Normal lhs) (right : Normal rhs) :
    Cut (intersectLoop lhs rhs overlap).1 lhs (Holds rhs) ∧ Cut (intersectLoop lhs rhs overlap).2.1 rhs (Holds lhs) ∧
      (Normal overlap → Normal (intersectLoop lhs rhs overlap).2.2) ∧
      ∀ x, Holds (intersectLoop lhs rhs overlap).2.2 x ↔ Holds overlap x ∨ Holds lhs x ∧ Holds rhs x := by
  fun_induction intersectLoop lhs rhs overlap with
  | case1 overlap l ls r rs after lhs' rhs' overlap' ran ih =>
      have apart : ∀ x, l.has x → ¬ Holds (r :: rs) x := fun x inside => right.below (by have := inside.2; omega)
      obtain ⟨first, second, order, common⟩ := ih left.tail right
      rw [ran] at first second order common
      refine ⟨first.cons left apart, ⟨second.1, second.2.1, fun x => ?_⟩, order, fun x => ?_⟩
      · show Holds rhs' x ↔ _
        rw [second.2.2, holds_cons l ls, not_or]
        exact and_congr_right fun held => (and_iff_right fun inside => apart x inside held).symm
      · show Holds overlap' x ↔ _
        rw [common, holds_cons l ls]
        exact or_congr_right (and_congr_left fun held => (or_iff_right fun inside => apart x inside held).symm)
  | case2 overlap l ls r rs notAfter before lhs' rhs' overlap' ran ih =>
      have apart : ∀ x, r.has x → ¬ Holds (l :: ls) x := fun x inside => left.below (by have := inside.2; omega)
      obtain ⟨first, second, order, common⟩ := ih left right.tail
      rw [ran] at first second order common
      refine ⟨⟨first.1, first.2.1, fun x => ?_⟩, second.cons right apart, order, fun x => ?_⟩
      · show Holds lhs' x ↔ _
        rw [first.2.2, holds_cons r rs, not_or]
        exact and_congr_right fun held => (and_iff_right fun inside => apart x inside held).symm
      · show Holds overlap' x ↔ _
        rw [common, holds_cons r rs]
        exact or_congr_right (and_congr_right fun held => (or_iff_right fun inside => apart x inside held).symm)
  | case3 overlap l ls r rs notAfter notBefore range toLeft toRight lhs' rhs' overlap' ran ih =>
      have roundL := adjust_spec (ByteRange.overlap_within_left notAfter notBefore) left
      have roundR := adjust_spec (ByteRange.overlap_within_right notAfter notBefore) right
      obtain ⟨first, second, order, common⟩ := ih (List.pairwise_append.1 roundL.normal).2.1
        (List.pairwise_append.1 roundR.normal).2.1
      rw [ran] at first second order common
      -- what a side has passed lies in front of the other side
      have passedL : ∀ x, Holds toLeft.1 x → ¬ Holds (r :: rs) x := by
        intro x held
        obtain ⟨above, less⟩ := roundL.passed x held
        have place := ByteRange.overlap_first notAfter notBefore
        exact right.below (by omega)
      have passedR : ∀ x, Holds toRight.1 x → ¬ Holds (l :: ls) x := by
        intro x held
        obtain ⟨above, less⟩ := roundR.passed x held
        have place := ByteRange.overlap_first notAfter notBefore
        exact left.below (by omega)
      have inL : ∀ x, range.has x → Holds (l :: ls) x := fun x inside => (holds_cons ..).2 <| Or.inl
        ⟨Nat.le_trans (ByteRange.overlap_within_left notAfter notBefore).first inside.1,
          Nat.le_trans inside.2 (ByteRange.overlap_within_left notAfter notBefore).second⟩
      have inR : ∀ x, range.has x → Holds (r :: rs) x := fun x inside => (holds_cons ..).2 <| Or.inl
        ⟨Nat.le_trans (ByteRange.overlap_within_right notAfter notBefore).first inside.1,
          Nat.le_trans inside.2 (ByteRange.overlap_within_right notAfter notBefore).second⟩
      have splitL : ∀ x, Holds toLeft.1 x ∨ Holds toLeft.2 x ↔ Holds (l :: ls) x ∧ ¬ range.has x := fun x => by
        rw [← holds_append]
        exact roundL.holds x
      have splitR : ∀ x, Holds toRight.1 x ∨ Holds toRight.2 x ↔ Holds (r :: rs) x ∧ ¬ range.has x := fun x => by
        rw [← holds_append]
        exact roundR.holds x
      refine ⟨first.adjusted roundL inR passedL fun x held => ?_, second.adjusted roundR inL passedR fun x held => ?_,
        fun normal => order (insertRange_normal normal), fun x => ?_⟩
      · exact stays_iff (splitL x) (splitR x) (passedR x) held
      · exact stays_iff (splitR x) (splitL x) (passedL x) held
      · show Holds overlap' x ↔ _
        rw [common, holds_insertRange]
        exact overlap_iff (splitL x) (splitR x) (passedL x) (passedR x) (inL x) (inR x)
  | case4 overlap lhs rhs done =>
      have ended : lhs = [] ∨ rhs = [] := by
        cases lhs with
        | nil => exact Or.inl rfl
        | cons l ls =>
            cases rhs with
            | nil => exact Or.inr rfl
            | cons r rs => exact absurd rfl (done l ls r rs rfl)
      have apart : ∀ x, ¬ (Holds lhs x ∧ Holds rhs x) := by
        rintro x ⟨held, held'⟩
        rcases ended with rfl | rfl
        · exact holds_nil x held
        · exact holds_nil x held'
      exact ⟨Cut.refl left fun x held held' => apart x ⟨held, held'⟩,
        Cut.refl right fun x held held' => apart x ⟨held', held⟩, id, fun x => (or_iff_left (apart x)).symm⟩

theorem removeLoop_spec {lhs rhs : List ByteRange} (left : Normal lhs) (right : Normal rhs) :
    Cut (removeLoop lhs rhs) lhs (Holds rhs) := by
  fun_induction removeLoop lhs rhs with
  | case1 l ls r rs after ih =>
      exact (ih left.tail right).cons left fun x inside => right.below (by have := inside.2; omega)
  | case2 l ls r rs notAfter before ih =>
      obtain ⟨normal, lower, holds⟩ := ih left right.tail
      have apart : ∀ x, r.has x → ¬ Holds (l :: ls) x := fun x inside => left.below (by have := inside.2; omega)
      refine ⟨normal, lower, fun x => ?_⟩
      rw [holds, holds_cons r rs, not_or]
      exact and_congr_right fun held => (and_iff_right fun inside => apart x inside held).symm
  | case3 l ls r rs notAfter notBefore toLeft ih =>
      have round := adjust_spec (ByteRange.overlap_within_left notAfter notBefore) left
      have cut := ih (List.pairwise_append.1 round.normal).2.1 right
      refine cut.adjusted round (fun x inside => ?_) (fun x held => ?_) fun x held => Iff.rfl
      · exact (holds_cons ..).2 (Or.inl
          ⟨Nat.le_trans (ByteRange.overlap_within_right notAfter notBefore).first inside.1,
            Nat.le_trans inside.2 (ByteRange.overlap_within_right notAfter notBefore).second⟩)
      · obtain ⟨above, less⟩ := round.passed x held
        have place := ByteRange.overlap_first notAfter notBefore
        exact right.below (by omega)
  | case4 lhs rhs done =>
      refine Cut.refl left fun x held held' => ?_
      cases lhs with
      | nil => exact holds_nil x held
      | cons l ls =>
          cases rhs with
          | nil => exact holds_nil x held'
          | cons r rs => exact done l ls r rs rfl rfl

/-! ## Tokens -/

/-- `basic_string_token<char>`. -/
structure StringToken where
  ranges : List ByteRange
  normal : Normal ranges
  deriving DecidableEq

namespace StringToken

def empty : StringToken := ⟨[], List.Pairwise.nil⟩

def isEmpty (token : StringToken) : Bool := token.ranges.isEmpty

instance : Membership UInt8 StringToken := ⟨fun token b => Holds token.ranges b.toNat⟩

instance (b : UInt8) (token : StringToken) : Decidable (b ∈ token) :=
  inferInstanceAs (Decidable (Holds token.ranges b.toNat))

theorem mem_def {token : StringToken} {b : UInt8} : b ∈ token ↔ Holds token.ranges b.toNat := Iff.rfl

def insert (token : StringToken) (range : ByteRange) : StringToken :=
  ⟨insertRange range token.ranges, insertRange_normal token.normal⟩

def insertToken (token rhs : StringToken) : StringToken := rhs.ranges.foldl insert token

def negate (token : StringToken) : StringToken :=
  ⟨negateLoop 0 token.ranges [], negateLoop_normal List.Pairwise.nil⟩

/-- What stays of both tokens, and the overlap. -/
def intersect (token rhs : StringToken) : StringToken × StringToken × StringToken :=
  have cut := @intersectLoop_spec token.ranges rhs.ranges [] token.normal rhs.normal
  (⟨(intersectLoop token.ranges rhs.ranges []).1, cut.1.1⟩,
    ⟨(intersectLoop token.ranges rhs.ranges []).2.1, cut.2.1.1⟩,
    ⟨(intersectLoop token.ranges rhs.ranges []).2.2, cut.2.2.1 List.Pairwise.nil⟩)

def remove (token rhs : StringToken) : StringToken :=
  ⟨removeLoop token.ranges rhs.ranges, (removeLoop_spec token.normal rhs.normal).1⟩

/-- `operator <` of the vectors of pairs. -/
def lessRanges : List ByteRange → List ByteRange → Bool
  | _, [] => false
  | [], _ :: _ => true
  | l :: ls, r :: rs =>
      if l.first < r.first then true
      else if r.first < l.first then false
      else if l.second < r.second then true
      else if r.second < l.second then false
      else lessRanges ls rs

def less (token rhs : StringToken) : Bool := lessRanges token.ranges rhs.ranges

theorem eq_of_lessRanges : ∀ {ranges other : List ByteRange}, lessRanges ranges other = false →
    lessRanges other ranges = false → ranges = other := by
  intro ranges
  induction ranges with
  | nil =>
      intro other notLess _
      cases other with
      | nil => rfl
      | cons r rs => cases notLess
  | cons l ls ih =>
      intro other notLess notMore
      cases other with
      | nil => cases notMore
      | cons r rs =>
          unfold lessRanges at notLess notMore
          have first : l.first = r.first := by
            by_contra different
            rcases Nat.lt_or_gt_of_ne different with less | more
            · simp [less] at notLess
            · simp [more] at notMore
          have second : l.second = r.second := by
            by_contra different
            rcases Nat.lt_or_gt_of_ne different with less | more
            · simp [first, less] at notLess
            · simp [first, more] at notMore
          simp only [first, second, Nat.lt_irrefl, if_false] at notLess notMore
          rw [ih notLess notMore]
          cases l
          cases r
          cases first
          cases second
          rfl

/-- Tokens of which none comes before the other are the same. -/
theorem eq_of_less {token rhs : StringToken} (notLess : token.less rhs = false) (notMore : rhs.less token = false) :
    token = rhs := by
  have same := eq_of_lessRanges notLess notMore
  cases token
  cases rhs
  cases same
  rfl

@[simp] theorem not_mem_empty (b : UInt8) : b ∉ empty := holds_nil _

@[simp] theorem mem_insert {token : StringToken} {range : ByteRange} {b : UInt8} :
    b ∈ token.insert range ↔ range.has b.toNat ∨ b ∈ token := holds_insertRange _

@[simp] theorem mem_insertToken {token rhs : StringToken} {b : UInt8} :
    b ∈ token.insertToken rhs ↔ b ∈ rhs ∨ b ∈ token := by
  have fold : ∀ (ranges : List ByteRange) (token : StringToken),
      b ∈ ranges.foldl insert token ↔ Holds ranges b.toNat ∨ b ∈ token := by
    intro ranges
    induction ranges with
    | nil => intro token; simp
    | cons r ranges ih =>
        intro token
        rw [List.foldl_cons, ih, mem_insert, holds_cons]
        tauto
  exact fold rhs.ranges token

@[simp] theorem mem_negate {token : StringToken} {b : UInt8} : b ∈ token.negate ↔ b ∉ token := by
  have spec := @holds_negateLoop token.ranges 0 [] token.normal (fun r _ => Nat.zero_le _) b.toNat (UInt8.toNat_lt b)
  show Holds (negateLoop 0 token.ranges []) b.toNat ↔ ¬ Holds token.ranges b.toNat
  simpa using spec

theorem mem_intersect_left {token rhs : StringToken} {b : UInt8} :
    b ∈ (token.intersect rhs).1 ↔ b ∈ token ∧ b ∉ rhs :=
  (@intersectLoop_spec _ _ [] token.normal rhs.normal).1.2.2 b.toNat

theorem mem_intersect_right {token rhs : StringToken} {b : UInt8} :
    b ∈ (token.intersect rhs).2.1 ↔ b ∈ rhs ∧ b ∉ token :=
  (@intersectLoop_spec _ _ [] token.normal rhs.normal).2.1.2.2 b.toNat

theorem mem_intersect_overlap {token rhs : StringToken} {b : UInt8} :
    b ∈ (token.intersect rhs).2.2 ↔ b ∈ token ∧ b ∈ rhs := by
  have spec := (@intersectLoop_spec _ _ [] token.normal rhs.normal).2.2.2 b.toNat
  exact spec.trans (or_iff_right (holds_nil _))

@[simp] theorem mem_remove {token rhs : StringToken} {b : UInt8} : b ∈ token.remove rhs ↔ b ∈ token ∧ b ∉ rhs :=
  (removeLoop_spec token.normal rhs.normal).2.2 b.toNat

@[simp] theorem mem_one {b c : UInt8} : c ∈ empty.insert (ByteRange.one b) ↔ c = b := by
  rw [mem_insert, or_iff_left (not_mem_empty c), ← UInt8.toNat_inj]
  unfold ByteRange.has ByteRange.one
  dsimp only
  omega

end StringToken

/-- Normal ranges with the same bytes are the same ranges. -/
theorem Normal.unique {ranges : List ByteRange} : ∀ {other : List ByteRange}, Normal ranges → Normal other →
    (∀ x, Holds ranges x ↔ Holds other x) → ranges = other := by
  induction ranges with
  | nil =>
      intro other _ _ same
      cases other with
      | nil => rfl
      | cons r other => exact absurd ((same r.first).2 ((holds_cons ..).2 (Or.inl r.has_first))) (holds_nil _)
  | cons r ranges ih =>
      intro other normal normal' same
      cases other with
      | nil => exact absurd ((same r.first).1 ((holds_cons ..).2 (Or.inl r.has_first))) (holds_nil _)
      | cons s other =>
          have first : r.first = s.first := by
            have here := (same r.first).1 ((holds_cons ..).2 (Or.inl r.has_first))
            have there := (same s.first).2 ((holds_cons ..).2 (Or.inl s.has_first))
            rcases Nat.lt_trichotomy r.first s.first with less | equal | greater
            · exact absurd here (normal'.below less)
            · exact equal
            · exact absurd there (normal.below greater)
          have second : r.second = s.second := by
            have inside := r.ordered
            have inside' := s.ordered
            rcases Nat.lt_trichotomy r.second s.second with less | equal | greater
            · have held := (same (r.second + 1)).2 ((holds_cons ..).2 (Or.inl ⟨by omega, by omega⟩))
              rcases (holds_cons ..).1 held with ⟨-, short⟩ | far
              · omega
              · exact absurd far (normal.not_holds (Nat.le_refl _))
            · exact equal
            · have held := (same (s.second + 1)).1 ((holds_cons ..).2 (Or.inl ⟨by omega, by omega⟩))
              rcases (holds_cons ..).1 held with ⟨-, short⟩ | far
              · omega
              · exact absurd far (normal'.not_holds (Nat.le_refl _))
          obtain rfl : r = s := by
            cases r
            cases s
            cases first
            cases second
            rfl
          have rest := ih normal.tail normal'.tail fun x => by
            have whole := same x
            rw [holds_cons, holds_cons] at whole
            have out : r.has x → ¬ Holds ranges x := fun here => normal.not_holds (Nat.le_succ_of_le here.2)
            have out' : r.has x → ¬ Holds other x := fun here => normal'.not_holds (Nat.le_succ_of_le here.2)
            tauto
          rw [rest]

/-- **Equal tokens are equal sets.** -/
theorem StringToken.ext_iff_mem {token rhs : StringToken} : token = rhs ↔ ∀ b : UInt8, b ∈ token ↔ b ∈ rhs := by
  refine ⟨fun same b => by rw [same], fun same => ?_⟩
  have bytes : ∀ {other : StringToken} {x : Nat}, Holds other.ranges x → x < 256 := by
    rintro other x ⟨r, -, -, high⟩
    have := r.bounded
    omega
  have ranges : token.ranges = rhs.ranges := token.normal.unique rhs.normal fun x => by
    by_cases byte : x < 256
    · have at_ := same (UInt8.ofNat x)
      have value : (UInt8.ofNat x).toNat = x := UInt8.toNat_ofNat_of_lt' byte
      rwa [StringToken.mem_def, StringToken.mem_def, value] at at_
    · exact iff_of_false (fun held => byte (bytes held)) fun held => byte (bytes held)
  cases token
  cases rhs
  cases ranges
  rfl

theorem StringToken.isEmpty_iff {token : StringToken} : token.isEmpty = true ↔ ∀ b : UInt8, b ∉ token := by
  constructor
  · intro none_ b held
    rw [mem_def, List.isEmpty_iff.1 none_] at held
    exact holds_nil _ held
  · intro none_
    obtain rfl : token = empty := ext_iff_mem.2 fun b => iff_of_false (none_ b) (not_mem_empty b)
    rfl

/-- **The operations on ranges are the operations on sets.**  A set has one list of ranges, so equations between sets hold
of the lists. -/
theorem StringToken.set_operations (token rhs : StringToken) :
    (token = rhs ↔ ∀ b : UInt8, b ∈ token ↔ b ∈ rhs) ∧
      token.negate.negate = token ∧ token.insertToken rhs = rhs.insertToken token ∧
      (token.insertToken rhs).negate = token.negate.remove rhs ∧
      token.intersect rhs = (token.remove rhs, rhs.remove token, token.remove rhs.negate) ∧
      ((token.intersect rhs).2.2.isEmpty = true ↔ token.remove rhs = token) ∧
      ∀ b : UInt8, (∀ range : ByteRange, b ∈ token.insert range ↔ range.has b.toNat ∨ b ∈ token) ∧
        (b ∈ token.insertToken rhs ↔ b ∈ rhs ∨ b ∈ token) ∧ (b ∈ token.negate ↔ b ∉ token) ∧
        (b ∈ token.remove rhs ↔ b ∈ token ∧ b ∉ rhs) ∧ (b ∈ (token.intersect rhs).1 ↔ b ∈ token ∧ b ∉ rhs) ∧
        (b ∈ (token.intersect rhs).2.1 ↔ b ∈ rhs ∧ b ∉ token) ∧ (b ∈ (token.intersect rhs).2.2 ↔ b ∈ token ∧ b ∈ rhs) := by
  have swap : ∀ b, b ∈ token.insertToken rhs ↔ b ∈ rhs.insertToken token := fun b => by
    rw [mem_insertToken, mem_insertToken, or_comm]
  refine ⟨ext_iff_mem, ext_iff_mem.2 fun b => ?_, ext_iff_mem.2 swap, ext_iff_mem.2 fun b => ?_, ?_, ?_, fun b =>
    ⟨fun _ => mem_insert, mem_insertToken, mem_negate, mem_remove, mem_intersect_left, mem_intersect_right, mem_intersect_overlap⟩⟩
  · rw [mem_negate, mem_negate, not_not]
  · rw [mem_negate, mem_insertToken, mem_remove, mem_negate]
    tauto
  · refine Prod.ext (ext_iff_mem.2 fun b => ?_) (Prod.ext (ext_iff_mem.2 fun b => ?_) (ext_iff_mem.2 fun b => ?_))
    · rw [mem_intersect_left, mem_remove]
    · rw [mem_intersect_right, mem_remove]
    · rw [mem_intersect_overlap, mem_remove, mem_negate, not_not]
  · rw [isEmpty_iff, ext_iff_mem]
    refine forall_congr' fun b => ?_
    rw [mem_intersect_overlap, mem_remove]
    tauto

end Orchid
