/-
# Loader.KeyPair -- looking up the pairs of a block

A block's pairs are kept in the order of the file, and every lookup takes the first
pair with the key.  A missing number, protocol or match type reads as zero, a missing
string as a null pointer.

Numbers are read by `strtol` with base zero into a 32-bit `long`, and then stored in
an unsigned field.  `Numeral` is how a number is written: `strtol` reads it back
(`strtol_numeral`).
-/
import Orchid.Loader.Application
import Mathlib.Data.Nat.Digits.Defs

namespace Orchid

set_option autoImplicit false

structure KeyPairS where
  key : CStr
  value : CStr
  deriving DecidableEq, Repr

/-! ## strtol -/

/-- `isspace` in the C locale. -/
def isSpace (c : UInt8) : Bool := c = 32 ∨ (9 ≤ c ∧ c ≤ 13)

/-- The value of a digit in some base up to 16. -/
def digitValue (c : UInt8) : Option Nat :=
  if 48 ≤ c ∧ c ≤ 57 then some (c.toNat - 48)
  else if 97 ≤ c ∧ c ≤ 102 then some (c.toNat - 87)
  else if 65 ≤ c ∧ c ≤ 70 then some (c.toNat - 55)
  else none

/-- A digit of the base. -/
def isDigit (base : Nat) (c : UInt8) : Bool := (digitValue c).any (· < base)

/-- The digits in front, read after `value`. -/
def digits (base : Nat) : Nat → CStr → Nat
  | value, [] => value
  | value, c :: text =>
      match digitValue c with
      | none => value
      | some d => if d < base then digits base (value * base + d) text else value

/-- The number without its sign: the prefix says which base it has. -/
def strtolMagnitude : CStr → Nat
  | 48 :: x :: c :: text =>
      if (x = 120 ∨ x = 88) ∧ isDigit 16 c then digits 16 0 (c :: text) else digits 8 0 (48 :: x :: c :: text)
  | 48 :: text => digits 8 0 (48 :: text)
  | text => digits 10 0 text

def LONG_MAX : Int := 2147483647
def LONG_MIN : Int := -2147483648

/-- `strtol(s, NULL, 0)` with a 32-bit `long`. -/
def strtol (s : CStr) : Int :=
  let value : Int :=
    match s.dropWhile isSpace with
    | 45 :: text => -(strtolMagnitude text : Int)
    | 43 :: text => strtolMagnitude text
    | text => strtolMagnitude text
  max LONG_MIN (min LONG_MAX value)

/-! ## Lookups -/

/-- The value of the first pair with the key. -/
def valueFromKey (head : List KeyPairS) (key : CStr) : Option CStr :=
  (head.find? fun pair => pair.key = key).map KeyPairS.value

def getIntValueFromKey (head : List KeyPairS) (key : CStr) : Uint :=
  match valueFromKey head key with
  | none => 0
  | some value => BitVec.ofInt 32 (strtol value)

/-- `none` is the null pointer. -/
def getStrValueFromKey (head : List KeyPairS) (key : CStr) : Option CStr := valueFromKey head key

def protoToValue (proto : CStr) : Uint :=
  if proto = cstr "UDP" then PROTOCOL_UDP
  else if proto = cstr "TCP" then PROTOCOL_TCP
  else if proto = cstr "HTTP" then PROTOCOL_HTTP
  else 0

def getSigProtoValue (head : List KeyPairS) : Uint :=
  match valueFromKey head (cstr "sig_proto") with
  | none => 0
  | some value => protoToValue value

def matchTypeToValue (type : CStr) : Uint :=
  if type = cstr "AC_SINGLE" then SIG_SINGLE
  else if type = cstr "AC_MULTI" then SIG_MULTI
  else if type = cstr "REGEX" then SIG_REGEX
  else 0

def getMatchTypeValue (head : List KeyPairS) : Uint :=
  match valueFromKey head (cstr "sig_type") with
  | none => 0
  | some value => matchTypeToValue value

/-- In a list of pairs with different keys the order does not matter. -/
theorem valueFromKey_eq {head : List KeyPairS} (keys : (head.map KeyPairS.key).Nodup) {key value : CStr}
    (inside : (⟨key, value⟩ : KeyPairS) ∈ head) : valueFromKey head key = some value := by
  induction head with
  | nil => cases inside
  | cons pair head ih =>
      rw [List.map_cons, List.nodup_cons] at keys
      unfold valueFromKey
      rcases List.mem_cons.1 inside with rfl | later
      · rw [List.find?_cons_of_pos (by simp)]
        rfl
      · have differs : pair.key ≠ key := by
          intro same
          exact keys.1 (List.mem_map.2 ⟨_, later, same.symm⟩)
        rw [List.find?_cons_of_neg (by simpa using differs)]
        exact ih keys.2 later

/-! ## Numerals -/

/-- The digits of a numeral. -/
def IsDigits (base : Nat) (text : CStr) (n : Nat) : Prop :=
  ∃ ds : List Nat, text.map digitValue = ds.map some ∧ (∀ d ∈ ds, d < base) ∧ n = Nat.ofDigits base ds.reverse

/-- How a number is written: in decimal without a leading zero, in octal with one, in
hexadecimal behind `0x`. -/
inductive Numeral : CStr → Nat → Prop where
  | decimal {c text n} : IsDigits 10 (c :: text) n → c ≠ 48 → Numeral (c :: text) n
  | octal {text n} : IsDigits 8 text n → Numeral (48 :: text) n
  | hex {x text n} : (x = 120 ∨ x = 88) → text ≠ [] → IsDigits 16 text n → Numeral (48 :: x :: text) n

theorem digits_eq {base : Nat} {text : CStr} {n : Nat} (written : IsDigits base text n) :
    digits base 0 text = n := by
  obtain ⟨ds, same, small, rfl⟩ := written
  have all : ∀ (ds : List Nat) (text : CStr) (value : Nat), text.map digitValue = ds.map some →
      (∀ d ∈ ds, d < base) → digits base value text = value * base ^ ds.length + Nat.ofDigits base ds.reverse := by
    intro ds
    induction ds with
    | nil =>
        intro text value same _
        obtain rfl := List.map_eq_nil_iff.1 same
        simp [digits]
    | cons d ds ih =>
        intro text value same small
        cases text with
        | nil => cases same
        | cons c text =>
            rw [List.map_cons, List.map_cons, List.cons.injEq] at same
            rw [digits, same.1]
            dsimp only
            rw [if_pos (small d (List.mem_cons_self ..)),
              ih text _ same.2 fun e inside => small e (List.mem_cons_of_mem _ inside),
              List.reverse_cons, Nat.ofDigits_append, List.length_reverse, Nat.ofDigits_singleton,
              List.length_cons, pow_succ, Nat.add_mul]
            ring
  simpa using all ds text 0 same small

theorem IsDigits.head {base : Nat} {c : UInt8} {text : CStr} {n : Nat}
    (written : IsDigits base (c :: text) n) : isDigit base c = true := by
  obtain ⟨ds, same, small, -⟩ := written
  cases ds with
  | nil => cases same
  | cons d ds =>
      rw [List.map_cons, List.map_cons, List.cons.injEq] at same
      rw [isDigit, same.1]
      exact decide_eq_true (small d (List.mem_cons_self ..))

theorem digitValue_range {c : UInt8} (digit : digitValue c ≠ none) :
    (48 ≤ c.toNat ∧ c.toNat ≤ 57) ∨ (97 ≤ c.toNat ∧ c.toNat ≤ 102) ∨ (65 ≤ c.toNat ∧ c.toNat ≤ 70) := by
  unfold digitValue at digit
  split at digit
  · rename_i both
    exact Or.inl ⟨UInt8.le_iff_toNat_le.1 both.1, UInt8.le_iff_toNat_le.1 both.2⟩
  · split at digit
    · rename_i both
      exact Or.inr (Or.inl ⟨UInt8.le_iff_toNat_le.1 both.1, UInt8.le_iff_toNat_le.1 both.2⟩)
    · split at digit
      · rename_i both
        exact Or.inr (Or.inr ⟨UInt8.le_iff_toNat_le.1 both.1, UInt8.le_iff_toNat_le.1 both.2⟩)
      · exact absurd rfl digit

/-- A digit is neither a blank nor a sign nor the mark of a hexadecimal number. -/
theorem digit_cases {base : Nat} {c : UInt8} (digit : isDigit base c = true) :
    isSpace c = false ∧ c ≠ 45 ∧ c ≠ 43 ∧ c ≠ 120 ∧ c ≠ 88 := by
  have range := digitValue_range (c := c) fun none_ => by
    rw [isDigit, none_] at digit
    cases digit
  have differs : ∀ b : UInt8, b.toNat < 48 ∨ (57 < b.toNat ∧ b.toNat < 65) ∨
      (70 < b.toNat ∧ b.toNat < 97) ∨ 102 < b.toNat → c ≠ b := by
    rintro b outside rfl
    omega
  refine ⟨?_, differs 45 (by decide), differs 43 (by decide), differs 120 (by decide), differs 88 (by decide)⟩
  refine decide_eq_false ?_
  rintro (space | ⟨low, high⟩)
  · exact differs 32 (by decide) space
  · have bound : c.toNat ≤ 13 := UInt8.le_iff_toNat_le.1 high
    omega

theorem strtol_eq {c : UInt8} {text : CStr} {n : Nat} (start : isSpace c = false ∧ c ≠ 45 ∧ c ≠ 43)
    (magnitude : strtolMagnitude (c :: text) = n) (small : n < 2 ^ 31) : strtol (c :: text) = n := by
  obtain ⟨notSpace, notMinus, notPlus⟩ := start
  have skipped : (c :: text).dropWhile isSpace = c :: text :=
    List.dropWhile_cons_of_neg (by rw [notSpace]; decide)
  unfold strtol
  rw [skipped]
  have value : (match c :: text with
      | 45 :: text => -(strtolMagnitude text : Int)
      | 43 :: text => (strtolMagnitude text : Int)
      | text => (strtolMagnitude text : Int)) = (n : Int) := by
    split
    · rename_i text' same
      exact absurd (List.cons.inj same).1 notMinus
    · rename_i text' same
      exact absurd (List.cons.inj same).1 notPlus
    · rw [magnitude]
  simp only [value]
  unfold LONG_MAX LONG_MIN
  omega

/-- **A numeral is read back.** -/
theorem strtol_numeral {text : CStr} {n : Nat} (written : Numeral text n) (small : n < 2 ^ 31) :
    strtol text = n := by
  cases written with
  | @decimal c text n written notZero =>
      obtain ⟨space, minus, plus, -, -⟩ := digit_cases written.head
      refine strtol_eq ⟨space, minus, plus⟩ ?_ small
      unfold strtolMagnitude
      split
      · rename_i same
        exact absurd (List.cons.inj same).1 notZero
      · rename_i same
        exact absurd (List.cons.inj same).1 notZero
      · exact digits_eq written
  | @octal text n written =>
      refine strtol_eq (by decide) ?_ small
      have zero : digits 8 0 (48 :: text) = digits 8 0 text := rfl
      have whole : digits 8 0 (48 :: text) = n := zero.trans (digits_eq written)
      unfold strtolMagnitude
      split
      · rename_i x c rest same
        obtain ⟨-, rfl⟩ := List.cons.inj same
        obtain ⟨-, -, -, lower, upper⟩ := digit_cases written.head
        rw [if_neg fun both => both.1.elim lower upper]
        exact whole
      · rename_i rest same
        obtain ⟨-, rfl⟩ := List.cons.inj same
        exact whole
      · rename_i other
        exact absurd rfl (other text)
  | @hex x text n mark nonempty written =>
      obtain ⟨c, text, rfl⟩ := List.exists_cons_of_ne_nil nonempty
      refine strtol_eq (by decide) ?_ small
      show (if (x = 120 ∨ x = 88) ∧ isDigit 16 c then digits 16 0 (c :: text)
        else digits 8 0 (48 :: x :: c :: text)) = n
      rw [if_pos ⟨mark, written.head⟩]
      exact digits_eq written

end Orchid
