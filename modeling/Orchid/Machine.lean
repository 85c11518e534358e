/-
# Machine -- the C types and the ways a run stops

The program is built for a 32-bit little-endian target: `uint`, `int` used as an
id word, and a pointer value cast to `u_int` are 32-bit words, `ushort` is a
16-bit word, and a C string is the list of its bytes without the terminator.

`Trap` lists the ways a run ends before its last statement: an assertion of the
source fails, or memory is used in a way the language gives no meaning to.  The
model stops there; what the hardware would do next is not described.
-/
import Mathlib.Data.List.Basic

namespace Orchid

set_option autoImplicit false

abbrev Uint := BitVec 32
abbrev Ushort := BitVec 16
abbrev Uchar := BitVec 8

/-- The bytes of a C string, without the terminating zero. -/
abbrev CStr := List UInt8

def cstr (s : String) : CStr := s.toList.map fun c => c.toNat.toUInt8

inductive Trap where
  /-- an `assert` of the source fails -/
  | assertion
  /-- `strlen` or `strcpy` of a null pointer -/
  | nullString
  /-- a null element handed to a list insertion -/
  | nullInsert
  /-- a list read through a null pointer to its head -/
  | nullList
  /-- an index into the per-category arrays at or above their length -/
  | cateRange
  | appRange
  | sigRange
  | eleRange
  | expRange
  /-- a store behind the last cell of `pattern` -/
  | patternRange
  /-- a byte read through a pointer that is not inside the searched text -/
  | textRange
  | tableRange
  /-- a flow or session pointer that points to no session -/
  | dangling
  /-- a loop of the model ran out of rounds; no loop of the program does -/
  | fuel
  deriving DecidableEq, Repr

/-- `STAILQ_INSERT_TAIL`, which dereferences the element it is given. -/
def stailqInsertTail {α : Type} (list : List α) : Option α → Except Trap (List α)
  | none => .error .nullInsert
  | some elm => .ok (list ++ [elm])

end Orchid
