/-
# RegexParse.Grammar -- the documented grammar and what its words mean

`Derives` is the grammar from the comment on top of the parser, with the regular
expression a derivation stands for; `Regex.lang` is the meaning of that expression.  In
this grammar a quantifier may stand behind another one; the parser takes only words
without that (`Single`).

`Spells` says which shape the parser builds for an expression, given its map of sets.
Read through the map, the shape has the expression's meaning (`Spells.lang`).
-/
import Orchid.RegexParse.Parser

namespace Orchid

open Orchid.Theory Computability

set_option autoImplicit false

/-! ## Expressions -/

inductive Regex where
  | charset (str : StringToken)
  | bol
  | eol
  | sequence (left right : Regex)
  | or_ (left right : Regex)
  | dup (regex : Regex) (op : ReToken)

namespace TokenType

def isDup : TokenType → Bool
  | opt | aopt | zeroOrMore | azeroOrMore | oneOrMore | aoneOrMore | repeatn | arepeatn => true
  | _ => false

/-- The quantifiers with a `?` behind them. -/
def isLazy : TokenType → Bool
  | aopt | azeroOrMore | aoneOrMore | arepeatn => true
  | _ => false

end TokenType

/-- How often a quantifier lets an expression stand. -/
def ReToken.Allows (op : ReToken) (i : Nat) : Prop :=
  match op.type with
  | .opt | .aopt => i ≤ 1
  | .zeroOrMore | .azeroOrMore => True
  | .oneOrMore | .aoneOrMore => 1 ≤ i
  | .repeatn | .arepeatn => (readRepeats op.extra).Allows i
  | _ => False

namespace Regex

/-- The texts that an expression matches inside a line. -/
def lang : Regex → Language UInt8
  | charset str => {w | ∃ b ∈ str, w = [b]}
  | bol => 0
  | eol => 0
  | sequence left right => left.lang * right.lang
  | or_ left right => left.lang + right.lang
  | dup regex op => {w | ∃ i, op.Allows i ∧ w ∈ regex.lang ^ i}

end Regex

/-! ## The grammar -/

inductive Derives : TokenType → List ReToken → Regex → Prop where
  | regex {u : List ReToken} {r : Regex} (orexp : Derives .orexp u r) : Derives .regex u r
  | orexp {u : List ReToken} {r : Regex} (sequence : Derives .sequence u r) : Derives .orexp u r
  | or_ {u v : List ReToken} {r s : Regex} {t : ReToken} (orexp : Derives .orexp u r) (type : t.type = .or_)
      (sequence : Derives .sequence v s) : Derives .orexp (u ++ t :: v) (.or_ r s)
  | sequence {u : List ReToken} {r : Regex} (sub : Derives .sub u r) : Derives .sequence u r
  | sub {u : List ReToken} {r : Regex} (expression : Derives .expression u r) : Derives .sub u r
  | join {u v : List ReToken} {r s : Regex} (sub : Derives .sub u r) (expression : Derives .expression v s) :
      Derives .sub (u ++ v) (.sequence r s)
  | expression {u : List ReToken} {r : Regex} (repeat_ : Derives .repeat_ u r) : Derives .expression u r
  | charset {t : ReToken} (type : t.type = .charset) : Derives .repeat_ [t] (.charset t.str)
  | bol {t : ReToken} (type : t.type = .bol) : Derives .repeat_ [t] .bol
  | eol {t : ReToken} (type : t.type = .eol) : Derives .repeat_ [t] .eol
  | paren {u : List ReToken} {r : Regex} {o c : ReToken} (open_ : o.type = .openparen) (regex : Derives .regex u r)
      (close : c.type = .closeparen) : Derives .repeat_ (o :: u ++ [c]) r
  | dup {u : List ReToken} {r : Regex} {t : ReToken} (repeat_ : Derives .repeat_ u r) (type : t.type.isDup = true) :
      Derives .repeat_ (u ++ [t]) (.dup r t)

/-- No quantifier stands behind another one. -/
def Single (tokens : List ReToken) : Prop :=
  tokens.IsChain fun a b => ¬ (a.type.isDup = true ∧ b.type.isDup = true)

/-! ## Shapes -/

def dupShape (op : ReToken) (shape : Shape) : Shape :=
  match op.type with
  | .opt | .aopt => .alt shape .null
  | .zeroOrMore | .azeroOrMore => .star shape
  | .oneOrMore | .aoneOrMore => .seq shape (.star shape)
  | .repeatn | .arepeatn => Trees.repeatShape (readRepeats op.extra) shape
  | _ => shape

/-- The shape of the tree of an expression. -/
def Spells (map : CharsetMap) : Regex → Shape → Prop
  | .charset str, shape => ∃ id, (str, id) ∈ map ∧ shape = tokenShape (.charset id)
  | .bol, shape => shape = tokenShape .bol
  | .eol, shape => shape = tokenShape .eol
  | .sequence left right, shape => ∃ shapeL shapeR, Spells map left shapeL ∧ Spells map right shapeR ∧ shape = .seq shapeL shapeR
  | .or_ left right, shape => ∃ shapeL shapeR, Spells map left shapeL ∧ Spells map right shapeR ∧ shape = .alt shapeL shapeR
  | .dup regex op, shape => ∃ inner, Spells map regex inner ∧ shape = dupShape op inner

theorem Spells.mono {map map' : CharsetMap} (more : ∀ entry ∈ map, entry ∈ map') : ∀ {r : Regex} {shape : Shape},
    Spells map r shape → Spells map' r shape := by
  intro r
  induction r with
  | charset str => exact fun ⟨id, member, same⟩ => ⟨id, more _ member, same⟩
  | bol => exact id
  | eol => exact id
  | sequence left right ihl ihr => exact fun ⟨shapeL, shapeR, here, there, same⟩ => ⟨shapeL, shapeR, ihl here, ihr there, same⟩
  | or_ left right ihl ihr => exact fun ⟨shapeL, shapeR, here, there, same⟩ => ⟨shapeL, shapeR, ihl here, ihr there, same⟩
  | dup regex op ih => exact fun ⟨inner, here, same⟩ => ⟨inner, ih here, same⟩

theorem positions_dupShape (op : ReToken) (shape : Shape) : ∀ leaf ∈ (dupShape op shape).positions, leaf ∈ shape.positions := by
  unfold dupShape
  split
  case h_7 | h_8 => exact Trees.positions_repeatShape _ _
  all_goals simp [Expr.positions]

/-- The set or the anchor is in the expression. -/
def Regex.Uses : Regex → Regex → Prop
  | charset str, atom => atom = charset str
  | bol, atom => atom = bol
  | eol, atom => atom = eol
  | sequence left right, atom => left.Uses atom ∨ right.Uses atom
  | or_ left right, atom => left.Uses atom ∨ right.Uses atom
  | dup regex _, atom => regex.Uses atom

/-- The set or the anchor that a token is. -/
def ReToken.atom (t : ReToken) : Option Regex :=
  match t.type with
  | .charset => some (.charset t.str)
  | .bol => some .bol
  | .eol => some .eol
  | _ => none

theorem ReToken.atom_bol {t : ReToken} (same : t.atom = some .bol) : t.type = .bol := by
  unfold ReToken.atom at same
  split at same <;> simp_all

theorem ReToken.atom_eol {t : ReToken} (same : t.atom = some .eol) : t.type = .eol := by
  unfold ReToken.atom at same
  split at same <;> simp_all

theorem ReToken.atom_charset {t : ReToken} {str : StringToken} (same : t.atom = some (.charset str)) :
    t.type = .charset ∧ t.str = str := by
  unfold ReToken.atom at same
  split at same <;> simp_all

/-- What an expression uses is in its text. -/
theorem Derives.uses {A : TokenType} {u : List ReToken} {r atom : Regex} (derives : Derives A u r) :
    r.Uses atom → ∃ t ∈ u, t.atom = some atom := by
  induction derives with
  | regex orexp ih => exact ih
  | orexp sequence ih => exact ih
  | or_ orexp type sequence ihl ihr =>
      rintro (uses | uses)
      · obtain ⟨t, member, same⟩ := ihl uses
        exact ⟨t, by simp [member], same⟩
      · obtain ⟨t, member, same⟩ := ihr uses
        exact ⟨t, by simp [member], same⟩
  | sequence sub ih => exact ih
  | sub expression ih => exact ih
  | join sub expression ihl ihr =>
      rintro (uses | uses)
      · obtain ⟨t, member, same⟩ := ihl uses
        exact ⟨t, by simp [member], same⟩
      · obtain ⟨t, member, same⟩ := ihr uses
        exact ⟨t, by simp [member], same⟩
  | expression repeat_ ih => exact ih
  | charset type_ =>
      rintro rfl
      exact ⟨_, List.mem_singleton.2 rfl, by rw [ReToken.atom, type_]⟩
  | bol type_ =>
      rintro rfl
      exact ⟨_, List.mem_singleton.2 rfl, by rw [ReToken.atom, type_]⟩
  | eol type_ =>
      rintro rfl
      exact ⟨_, List.mem_singleton.2 rfl, by rw [ReToken.atom, type_]⟩
  | paren open_ regex close ih =>
      intro uses
      obtain ⟨t, member, same⟩ := ih uses
      exact ⟨t, by simp [member], same⟩
  | dup repeat_ type_ ih =>
      intro uses
      obtain ⟨t, member, same⟩ := ih uses
      exact ⟨t, by simp [member], same⟩

/-- The leaves of an expression's tree: sets of the map, `^` and `$`. -/
inductive LeafOf (map : CharsetMap) (r : Regex) : Option (LeafToken ⊕ EndState) → Prop where
  | charset {str : StringToken} {id : Nat} (member : (str, id) ∈ map) (uses : r.Uses (.charset str)) :
      LeafOf map r (some (Sum.inl (.charset id)))
  | bol (uses : r.Uses .bol) : LeafOf map r (some (Sum.inl .bol))
  | eol (uses : r.Uses .eol) : LeafOf map r (some (Sum.inl .eol))

theorem LeafOf.mono {map : CharsetMap} {r s : Regex} (uses : ∀ atom, r.Uses atom → s.Uses atom)
    {leaf : Option (LeafToken ⊕ EndState)} (of_ : LeafOf map r leaf) : LeafOf map s leaf := by
  cases of_ with
  | charset member used => exact .charset member (uses _ used)
  | bol used => exact .bol (uses _ used)
  | eol used => exact .eol (uses _ used)

theorem Spells.leaf {map : CharsetMap} : ∀ {r : Regex} {shape : Shape}, Spells map r shape →
    ∀ leaf ∈ shape.positions, LeafOf map r leaf := by
  intro r
  induction r with
  | charset str =>
      rintro _ ⟨id, member, rfl⟩ leaf inside
      rw [List.mem_singleton.1 inside]
      exact .charset member rfl
  | bol =>
      rintro _ rfl leaf inside
      rw [List.mem_singleton.1 inside]
      exact .bol rfl
  | eol =>
      rintro _ rfl leaf inside
      rw [List.mem_singleton.1 inside]
      exact .eol rfl
  | sequence left right ihl ihr =>
      rintro _ ⟨shapeL, shapeR, here, there, rfl⟩ leaf inside
      rcases List.mem_append.1 inside with inside | inside
      · exact (ihl here leaf inside).mono fun _ => Or.inl
      · exact (ihr there leaf inside).mono fun _ => Or.inr
  | or_ left right ihl ihr =>
      rintro _ ⟨shapeL, shapeR, here, there, rfl⟩ leaf inside
      rcases List.mem_append.1 inside with inside | inside
      · exact (ihl here leaf inside).mono fun _ => Or.inl
      · exact (ihr there leaf inside).mono fun _ => Or.inr
  | dup regex op ih =>
      rintro _ ⟨inner, here, rfl⟩ leaf inside
      exact (ih here leaf (positions_dupShape op inner leaf inside)).mono (r := regex) (s := .dup regex op) fun _ used => used

/-- What a leaf of a shape reads. -/
def ShapeReads (map : CharsetMap) (b : UInt8) (leaf : Option (LeafToken ⊕ EndState)) : Prop :=
  ∃ entry ∈ map, leaf = some (Sum.inl (.charset entry.2)) ∧ b ∈ entry.1

/-- A token as the tokeniser makes it. -/
structure ReToken.Fine (t : ReToken) : Prop where
  nonempty : t.type = .charset → ∃ b, b ∈ t.str
  valid : t.type = .repeatn ∨ t.type = .arepeatn → (readRepeats t.extra).Valid

/-- The tokens of an expression are fine. -/
def Regex.Fine : Regex → Prop
  | charset str => ∃ b, b ∈ str
  | bol => True
  | eol => True
  | sequence left right => left.Fine ∧ right.Fine
  | or_ left right => left.Fine ∧ right.Fine
  | dup regex op => regex.Fine ∧ op.Fine ∧ op.type.isDup = true

theorem Derives.fine {A : TokenType} {u : List ReToken} {r : Regex} (derives : Derives A u r) :
    (∀ t ∈ u, t.Fine) → r.Fine := by
  induction derives with
  | regex orexp ih => exact ih
  | orexp sequence ih => exact ih
  | or_ orexp type sequence ihl ihr =>
      exact fun each => ⟨ihl fun t member => each t (by simp [member]), ihr fun t member => each t (by simp [member])⟩
  | sequence sub ih => exact ih
  | sub expression ih => exact ih
  | join sub expression ihl ihr =>
      exact fun each => ⟨ihl fun t member => each t (by simp [member]), ihr fun t member => each t (by simp [member])⟩
  | expression repeat_ ih => exact ih
  | charset type => exact fun each => (each _ (by simp)).nonempty type
  | bol type => exact fun _ => trivial
  | eol type => exact fun _ => trivial
  | paren open_ regex close ih => exact fun each => ih fun t member => each t (by simp [member])
  | dup repeat_ type ih =>
      exact fun each => ⟨ih fun t member => each t (by simp [member]), each _ (by simp), type⟩

section Lang

variable {map : CharsetMap} {shape : Shape}

/-- The shape of a quantifier has the quantifier's meaning. -/
theorem mem_lang_dupShape {op : ReToken} (fine : op.Fine) (dup : op.type.isDup = true)
    (readBy : UInt8 → Option (LeafToken ⊕ EndState) → Prop) {w : CStr} :
    w ∈ (dupShape op shape).lang readBy ↔ ∃ i, op.Allows i ∧ w ∈ shape.lang readBy ^ i := by
  have repeat_ := fun here => mem_lang_repeatShape readBy shape (fine.valid here) (w := w)
  unfold dupShape ReToken.Allows
  cases type : op.type with
  | opt | aopt =>
      have once := Expr.mem_add_one_pow (L := shape.lang readBy) (n := 1) (w := w)
      rwa [pow_one, ← lang_alt_null] at once
  | zeroOrMore | azeroOrMore =>
      have many := Expr.mem_pow_mul_kstar (L := shape.lang readBy) (m := 0) (w := w)
      rw [pow_zero, one_mul, ← Expr.lang_star] at many
      simpa using many
  | oneOrMore | aoneOrMore =>
      have nonempty := Expr.mem_pow_mul_kstar (L := shape.lang readBy) (m := 1) (w := w)
      rwa [pow_one, ← Expr.lang_star, ← Expr.lang_seq] at nonempty
  | repeatn => exact repeat_ (Or.inl type)
  | arepeatn => exact repeat_ (Or.inr type)
  | _ =>
      rw [type] at dup
      cases dup

theorem lang_dead {leaf : Option (LeafToken ⊕ EndState)} (dead : ∀ b, ¬ ShapeReads map b leaf) :
    (Expr.pos leaf).lang (ShapeReads map) = 0 := by
  ext w
  rw [Expr.mem_lang_pos]
  exact iff_of_false (fun ⟨b, _, read⟩ => dead b read) (Set.notMem_empty w)

/-- **The tree of an expression has its meaning.** -/
theorem Spells.lang (numbered : Numbered map) : ∀ {r : Regex} {shape : Shape}, Spells map r shape → r.Fine →
    shape.lang (ShapeReads map) = r.lang := by
  intro r
  induction r with
  | charset str =>
      rintro _ ⟨id, member, rfl⟩ -
      ext w
      show w ∈ (Expr.pos (some (Sum.inl (LeafToken.charset id)))).lang _ ↔ ∃ b ∈ str, w = [b]
      rw [Expr.mem_lang_pos]
      constructor
      · rintro ⟨b, rfl, entry, inside, same, read⟩
        have number : entry.2 = id := by simpa using same.symm
        rw [numbered.once entry inside _ member number] at read
        exact ⟨b, read, rfl⟩
      · rintro ⟨b, read, rfl⟩
        exact ⟨b, rfl, (str, id), member, rfl, read⟩
  | bol =>
      rintro _ rfl -
      exact lang_dead fun b ⟨entry, _, same, _⟩ => by cases same
  | eol =>
      rintro _ rfl -
      exact lang_dead fun b ⟨entry, _, same, _⟩ => by cases same
  | sequence left right ihl ihr =>
      rintro _ ⟨shapeL, shapeR, here, there, rfl⟩ fine
      rw [Expr.lang_seq, ihl here fine.1, ihr there fine.2]
      rfl
  | or_ left right ihl ihr =>
      rintro _ ⟨shapeL, shapeR, here, there, rfl⟩ fine
      rw [Expr.lang_alt, ihl here fine.1, ihr there fine.2]
      rfl
  | dup regex op ih =>
      rintro _ ⟨inner, here, rfl⟩ ⟨fineR, fineOp, type⟩
      ext w
      rw [mem_lang_dupShape fineOp type, ih here fineR]
      rfl

end Lang

end Orchid
