/-
# RegexParse.Reassemble -- from lexertl's table to the graph

lexertl hands over a table of `R` rows of `alphabet` columns with the jam row in
front, and a lookup from bytes to columns.  `reassemble` copies it into the 16-bit
table of `dfa_graph_t`: it leaves out the jam row, counts rows from zero, rebases
the lookup, and stores the 32-bit id over the columns of the id and the user id,
deciding by `i % alphabet` what the cell at `i` is.

`Shaped` is what lexertl's tables look like, `Simulates` what the graph then is: row
`r - 1` stands for row `r`, a missing transition leads to the start row, and every
value the search reads is the table's value (`Shaped.simulates`).
-/
import Orchid.Searcher.HeaderLine
import Orchid.Theory.Restart

namespace Orchid

open Orchid.Theory

set_option autoImplicit false

/-! ## lexertl's table -/

def endStateIndex : Nat := 0
def idIndex : Nat := 1
def userIdIndex : Nat := 2
def pushDfaIndex : Nat := 3
def deadStateIndex : Nat := 6
def transitionsIndex : Nat := 7

/-- `npos()`: the user id and the pushed state of a rule that has none. -/
def npos : Uint := 0xFFFFFFFF

/-- The internals of a state machine with one lexer state. -/
structure LexTable where
  alphabet : Nat
  lookup : UInt8 → Uint
  dfa : List Uint

/-- The value at a row and a column. -/
def LexTable.cell (table : LexTable) (r c : Nat) : Uint := table.dfa[table.alphabet * r + c]?.getD 0

/-- The row a byte leads to; zero is the missing transition. -/
def LexTable.step (table : LexTable) (r : Nat) (b : UInt8) : Option Nat :=
  if table.cell r (table.lookup b).toNat = 0 then none
  else some (table.cell r (table.lookup b).toNat).toNat

def LexTable.isEnd (table : LexTable) (r : Nat) : Prop := table.cell r endStateIndex ≠ 0

instance (table : LexTable) (r : Nat) : Decidable (table.isEnd r) :=
  inferInstanceAs (Decidable (_ ≠ _))

def LexTable.id (table : LexTable) (r : Nat) : Uint := table.cell r idIndex

/-- What lexertl builds for `R` rows over `C` character classes: the jam row and the
start row, flags in two bits, classes from column seven on, targets among the rows. -/
structure Shaped (table : LexTable) (R C : Nat) : Prop where
  alphabet : table.alphabet = 7 + C
  classes : C ≤ 255
  rows : table.dfa.length = (7 + C) * R
  start : 2 ≤ R
  few : R < 65535
  lookup : ∀ b, 6 ≤ (table.lookup b).toNat ∧ (table.lookup b).toNat < 7 + C
  targets : ∀ r < R, ∀ c, 6 ≤ c → c < 7 + C → (table.cell r c).toNat < R
  flags : ∀ r, 1 ≤ r → r < R → (table.cell r endStateIndex).toNat < 4

/-! ## reassemble -/

/-- A little-endian 32-bit store into a table of 16-bit cells. -/
def storeUint (state : List Ushort) (i : Nat) (value : Uint) : List Ushort :=
  (state.set i (value.setWidth 16)).set (i + 1) ((value >>> 16).setWidth 16)

/-- One round of the copying loop: the cell at `i` of the table without its jam row. -/
def reassembleCell (alphabet i : Nat) (value : Uint) (state : List Ushort) : List Ushort :=
  if i % alphabet ≥ deadStateIndex ∧ value > 0 then state.set i ((value - 1).setWidth 16)
  else if i % alphabet = 1 then storeUint state i value
  else if i % alphabet ≠ 2 then state.set i (value.setWidth 16)
  else state

def reassembleLoop (alphabet : Nat) : Nat → List Uint → List Ushort → List Ushort
  | _, [], state => state
  | i, value :: dfa, state => reassembleLoop alphabet (i + 1) dfa (reassembleCell alphabet i value state)

/-- `reassemble`; `old` is what the allocated table held, the error is the text of the
exception. -/
def reassemble (old : Nat → Ushort) (table : LexTable) : Except String DfaGraphT :=
  let totalSize := table.dfa.length
  let stateSize := totalSize / table.alphabet
  if stateSize < 65535 then
    .ok { stateNum := BitVec.ofNat 16 (stateSize - 1)
          alphabetSize := BitVec.ofNat 16 table.alphabet
          startOffset := BitVec.ofNat 16 deadStateIndex
          alphabetTable := fun a => (table.lookup a - BitVec.ofNat 32 deadStateIndex).toNat.toUInt8
          nextTable := reassembleLoop table.alphabet 0 (table.dfa.drop table.alphabet)
            ((List.range totalSize).map old) }
  else .error "DFA state too large!"

/-! ## The copying loop -/

/-- The final value of cell `i`, for the values `dfa` of the table without its jam row. -/
def finalCell (alphabet : Nat) (dfa : List Uint) (i : Nat) : Ushort :=
  let value := dfa[i]?.getD 0
  if i % alphabet = 2 then (dfa[i - 1]?.getD 0 >>> 16).setWidth 16
  else if i % alphabet ≥ deadStateIndex ∧ value > 0 then (value - 1).setWidth 16
  else value.setWidth 16

/-- The cells before `i` are final, and the second half of an id is as well. -/
structure Copied (alphabet total : Nat) (dfa : List Uint) (i : Nat) (state : List Ushort) : Prop where
  length : state.length = total
  cells : ∀ k < i, state[k]? = some (finalCell alphabet dfa k)
  half : i % alphabet = 2 → i < total → state[i]? = some (finalCell alphabet dfa i)

theorem succ_mod {a i r : Nat} (at_ : i % a = r) (below : r + 1 < a) : (i + 1) % a = r + 1 := by
  rw [Nat.add_mod, at_, Nat.mod_eq_of_lt (show 1 < a by omega), Nat.mod_eq_of_lt below]

/-- Column two follows column one. -/
theorem mod_of_succ_mod {a i : Nat} (wide : 3 ≤ a) (next : (i + 1) % a = 2) : i % a = 1 := by
  have bound := Nat.mod_lt i (show 0 < a by omega)
  by_cases wraps : i % a + 1 < a
  · have := succ_mod rfl wraps
    omega
  · have full : i % a + 1 = a := by omega
    rw [Nat.add_mod, Nat.mod_eq_of_lt (show 1 < a by omega), full, Nat.mod_self] at next
    cases next

theorem Copied.next {alphabet total : Nat} {dfa : List Uint} {i : Nat} {state : List Ushort}
    (copied : Copied alphabet total dfa i state) (wide : 3 ≤ alphabet) (room : i < total)
    {value : Uint} (here : dfa[i]? = some value) :
    Copied alphabet total dfa (i + 1) (reassembleCell alphabet i value state) := by
  have read : dfa[i]?.getD 0 = value := by rw [here]; rfl
  have before : ∀ (v : Ushort) (k : Nat), k < i → (state.set i v)[k]? = some (finalCell alphabet dfa k) := by
    intro v k below
    rw [List.getElem?_set_ne (by omega)]
    exact copied.cells k below
  have written : ∀ v : Ushort, (state.set i v)[i]? = some v := by
    intro v
    rw [List.getElem?_set_self (by rw [copied.length]; exact room)]
  -- a store of one cell
  have single : ∀ v : Ushort, finalCell alphabet dfa i = v → i % alphabet ≠ 1 →
      Copied alphabet total dfa (i + 1) (state.set i v) := by
    intro v final notId
    refine ⟨by rw [List.length_set, copied.length], fun k below => ?_, fun second _ => ?_⟩
    · by_cases last : k = i
      · subst last
        rw [written, final]
      · exact before v k (by omega)
    · exact absurd (mod_of_succ_mod wide second) notId
  unfold reassembleCell
  by_cases target : i % alphabet ≥ deadStateIndex ∧ value > 0
  · rw [if_pos target]
    have high : 6 ≤ i % alphabet := target.1
    refine single _ ?_ (by omega)
    simp only [finalCell, read]
    rw [if_neg (by omega), if_pos target]
  · rw [if_neg target]
    by_cases isId : i % alphabet = 1
    · rw [if_pos isId]
      have second : (i + 1) % alphabet = 2 := succ_mod isId (by omega)
      refine ⟨by simp [storeUint, copied.length], fun k below => ?_, fun _ inside => ?_⟩
      · rw [storeUint, List.getElem?_set_ne (by omega)]
        by_cases last : k = i
        · subst last
          rw [written]
          simp only [finalCell, read]
          rw [if_neg (by omega), if_neg target]
        · exact before _ k (by omega)
      · rw [storeUint, List.getElem?_set_self (by simpa [copied.length] using inside)]
        simp only [finalCell, if_pos second, Nat.add_sub_cancel, read]
    · rw [if_neg isId]
      by_cases isUser : i % alphabet = 2
      · rw [if_neg (by simpa using isUser)]
        refine ⟨copied.length, fun k below => ?_, fun second _ => ?_⟩
        · by_cases last : k = i
          · subst last
            exact copied.half isUser room
          · exact copied.cells k (by omega)
        · exact absurd (mod_of_succ_mod wide second) isId
      · rw [if_pos isUser]
        refine single _ ?_ isId
        simp only [finalCell, read]
        rw [if_neg isUser, if_neg target]

/-- The whole loop. -/
theorem Copied.loop {alphabet total : Nat} {dfa : List Uint} (wide : 3 ≤ alphabet)
    (room : dfa.length ≤ total) (rest : List Uint) : ∀ {i : Nat} {state : List Ushort},
      dfa.drop i = rest → Copied alphabet total dfa i state →
      Copied alphabet total dfa (i + rest.length) (reassembleLoop alphabet i rest state) := by
  induction rest with
  | nil => exact fun _ copied => copied
  | cons value rest ih =>
      intro i state remaining copied
      have here : dfa[i]? = some value := by
        rw [← Nat.add_zero i, ← List.getElem?_drop, remaining]
        rfl
      have remaining' : dfa.drop (i + 1) = rest := by
        rw [← List.drop_drop, remaining]
        rfl
      have inside := (List.getElem?_eq_some_iff.1 here).1
      rw [List.length_cons, Nat.add_comm rest.length, ← Nat.add_assoc]
      exact ih remaining' (copied.next wide (by omega) here)

/-! ## The graph -/

/-- The graph a table turns into. -/
structure Simulates (table : LexTable) (R C : Nat) (graph : DfaGraphT) : Prop where
  header : graph.stateNum.toNat = R - 1 ∧ graph.alphabetSize.toNat = 7 + C ∧ graph.startOffset.toNat = 6
  /-- no entry of the alphabet table is cut -/
  alphabet : ∀ b, (graph.alphabetTable b).toNat + 6 = (table.lookup b).toNat
  /-- the cells the search reads at a row lie inside the rows -/
  inside : ∀ r, 1 ≤ r → r < R → (7 + C) * (r - 1) + 2 < (7 + C) * (R - 1) ∧
    ∀ b, (7 + C) * (r - 1) + graph.startOffset.toNat + (graph.alphabetTable b).toNat < (7 + C) * (R - 1)
  /-- the end flags are not cut -/
  flags : ∀ r, 1 ≤ r → r < R → ∃ flag, graph.cell ((7 + C) * (r - 1)) = .ok flag ∧
    flag.toNat = (table.cell r endStateIndex).toNat
  /-- the two cells of the id are the id -/
  ids : ∀ r, 1 ≤ r → r < R → ∃ lo hi, graph.cell ((7 + C) * (r - 1) + 1) = .ok lo ∧
    graph.cell ((7 + C) * (r - 1) + 2) = .ok hi ∧ hi ++ lo = table.id r
  /-- no target is cut: it counts rows from zero -/
  targets : ∀ r, 1 ≤ r → r < R → ∀ c, 6 ≤ c → c < 7 + C → ∃ next,
    graph.cell ((7 + C) * (r - 1) + c) = .ok next ∧ next.toNat = (table.cell r c).toNat - 1
  /-- the columns nothing reads are copied as far as 16 bits go -/
  others : ∀ r, 1 ≤ r → r < R → ∀ c, 3 ≤ c → c < 6 →
    graph.cell ((7 + C) * (r - 1) + c) = .ok ((table.cell r c).setWidth 16)

theorem cell_eq_ok {graph : DfaGraphT} {k : Nat} {v : Ushort} (here : graph.nextTable[k]? = some v) :
    graph.cell k = .ok v := by
  rw [DfaGraphT.cell, here]

section Shaped

variable {table : LexTable} {R C : Nat}

/-- The loop's index of a cell. -/
theorem Shaped.index (shaped : Shaped table R C) {r c : Nat} (positive : 1 ≤ r) (below : r < R)
    (column : c < 7 + C) :
    (7 + C) * (r - 1) + c < (7 + C) * (R - 1) ∧ ((7 + C) * (r - 1) + c) % (7 + C) = c ∧
      (table.dfa.drop table.alphabet)[(7 + C) * (r - 1) + c]?.getD 0 = table.cell r c := by
  obtain ⟨s, rfl⟩ : ∃ s, r = s + 1 := ⟨r - 1, by omega⟩
  obtain ⟨n, rfl⟩ : ∃ n, R = s + 1 + n + 1 := ⟨R - (s + 1) - 1, by omega⟩
  have start := shaped.start
  simp only [Nat.add_sub_cancel]
  refine ⟨?_, ?_, ?_⟩
  · have more : (7 + C) * (s + 1 + n) = (7 + C) * s + (7 + C) + (7 + C) * n := by
      rw [Nat.mul_add, Nat.mul_succ]
    omega
  · rw [Nat.mul_add_mod, Nat.mod_eq_of_lt column]
  · rw [List.getElem?_drop, LexTable.cell, shaped.alphabet, Nat.mul_succ]
    congr 2
    omega

/-- The tables meet the condition under which `reassemble` does not throw. -/
theorem Shaped.reassembled (shaped : Shaped table R C) (old : Nat → Ushort) :
    ∃ graph, reassemble old table = .ok graph ∧ graph.stateNum = BitVec.ofNat 16 (R - 1) ∧
      graph.alphabetSize = BitVec.ofNat 16 (7 + C) ∧ graph.startOffset = 6 ∧
      (∀ b, graph.alphabetTable b = (table.lookup b - 6).toNat.toUInt8) ∧
      ∀ r, 1 ≤ r → r < R → ∀ c < 7 + C, graph.nextTable[(7 + C) * (r - 1) + c]? =
        some (finalCell (7 + C) (table.dfa.drop table.alphabet) ((7 + C) * (r - 1) + c)) := by
  have size : table.dfa.length / table.alphabet = R := by
    rw [shaped.rows, shaped.alphabet, Nat.mul_div_cancel_left _ (by omega)]
  have few := shaped.few
  unfold reassemble
  simp only [size, if_pos few]
  refine ⟨_, rfl, rfl, by rw [shaped.alphabet], rfl, fun b => rfl, fun r positive below c column => ?_⟩
  have count : (table.dfa.drop table.alphabet).length = (7 + C) * (R - 1) := by
    rw [List.length_drop, shaped.rows, shaped.alphabet, Nat.mul_sub, Nat.mul_one]
  have begin_ : Copied (7 + C) table.dfa.length (table.dfa.drop table.alphabet) 0
      ((List.range table.dfa.length).map old) :=
    ⟨by rw [List.length_map, List.length_range], fun k impossible => absurd impossible (Nat.not_lt_zero k),
      fun impossible _ => absurd impossible (by rw [Nat.zero_mod]; decide)⟩
  have done := Copied.loop (by omega) (by rw [List.length_drop]; omega) _ List.drop_zero begin_
  rw [Nat.zero_add, count] at done
  show (reassembleLoop table.alphabet 0 _ _)[_]? = _
  rw [shaped.alphabet] at done ⊢
  exact done.cells _ (shaped.index positive below column).1

/-- A value of at most 16 bits survives the narrow cell. -/
theorem toNat_setWidth_of_lt {v : Uint} (small : v.toNat < 65536) :
    (v.setWidth 16).toNat = v.toNat := by
  rw [BitVec.toNat_setWidth, Nat.mod_eq_of_lt small]

theorem finalCell_target {alphabet : Nat} {dfa : List Uint} {i : Nat} (high : 6 ≤ i % alphabet)
    (small : (dfa[i]?.getD 0).toNat < 65536) :
    (finalCell alphabet dfa i).toNat = (dfa[i]?.getD 0).toNat - 1 := by
  have notUser : ¬ i % alphabet = 2 := by omega
  simp only [finalCell, if_neg notUser]
  generalize dfa[i]?.getD 0 = value at small ⊢
  by_cases positive : value > 0
  · have nonzero : 0 < value.toNat := positive
    have less : (value - 1).toNat = value.toNat - 1 := by
      rw [BitVec.toNat_sub]
      show (2 ^ 32 - 1 + value.toNat) % 2 ^ 32 = value.toNat - 1
      omega
    rw [if_pos ⟨high, positive⟩, toNat_setWidth_of_lt (by omega), less]
  · have zero : value.toNat = 0 := Nat.eq_zero_of_not_pos positive
    rw [if_neg (fun both => positive both.2), toNat_setWidth_of_lt small, zero]

theorem finalCell_low {alphabet : Nat} {dfa : List Uint} {i : Nat} (low : i % alphabet < 6)
    (notUser : i % alphabet ≠ 2) :
    finalCell alphabet dfa i = (dfa[i]?.getD 0).setWidth 16 := by
  have notTarget : ¬ (i % alphabet ≥ deadStateIndex ∧ dfa[i]?.getD 0 > 0) := by
    intro both
    have := both.1
    unfold deadStateIndex at this
    omega
  simp only [finalCell, if_neg notUser, if_neg notTarget]

theorem halves_append (v : Uint) : (v >>> 16).setWidth 16 ++ v.setWidth 16 = v := by
  apply BitVec.eq_of_getLsbD_eq
  intro i below
  rw [BitVec.getLsbD_append]
  by_cases low : i < 16
  · simp [low]
  · have inside : i - 16 < 16 := by omega
    have back : 16 + (i - 16) = i := by omega
    simp [low, inside, back]

/-- **What `reassemble` leaves is the table.** -/
theorem Shaped.simulates (shaped : Shaped table R C) {old : Nat → Ushort} {graph : DfaGraphT}
    (built : reassemble old table = .ok graph) : Simulates table R C graph := by
  obtain ⟨graph', built', stateNum, alphabetSize, startOffset, alphabet, cells⟩ := shaped.reassembled old
  obtain rfl : graph' = graph := Except.ok.inj (built'.symm.trans built)
  have classes := shaped.classes
  have few := shaped.few
  have rebased : ∀ b, (graph'.alphabetTable b).toNat + 6 = (table.lookup b).toNat := by
    intro b
    obtain ⟨low, high⟩ := shaped.lookup b
    have less : (table.lookup b - 6).toNat = (table.lookup b).toNat - 6 := by
      rw [BitVec.toNat_sub]
      show (2 ^ 32 - 6 + (table.lookup b).toNat) % 2 ^ 32 = (table.lookup b).toNat - 6
      omega
    rw [alphabet, less]
    show ((table.lookup b).toNat - 6) % 256 + 6 = (table.lookup b).toNat
    omega
  have offset : graph'.startOffset.toNat = 6 := by rw [startOffset]; rfl
  have read : ∀ {r : Nat}, 1 ≤ r → r < R → ∀ c < 7 + C, graph'.cell ((7 + C) * (r - 1) + c) =
      .ok (finalCell (7 + C) (table.dfa.drop table.alphabet) ((7 + C) * (r - 1) + c)) :=
    fun positive below c column => cell_eq_ok (cells _ positive below c column)
  refine ⟨⟨?_, ?_, offset⟩, rebased, fun r positive below => ⟨?_, fun b => ?_⟩,
    fun r positive below => ?_, fun r positive below => ?_, fun r positive below c high column => ?_,
    fun r positive below c low high => ?_⟩
  · rw [stateNum, BitVec.toNat_ofNat, Nat.mod_eq_of_lt (by omega)]
  · rw [alphabetSize, BitVec.toNat_ofNat, Nat.mod_eq_of_lt (by omega)]
  · exact (shaped.index positive below (by omega)).1
  · obtain ⟨low, high⟩ := shaped.lookup b
    have column := rebased b
    rw [Nat.add_assoc, offset, Nat.add_comm 6, column]
    exact (shaped.index positive below high).1
  · obtain ⟨-, column, value⟩ := shaped.index (c := 0) positive below (by omega)
    have small := shaped.flags r positive below
    refine ⟨_, read positive below 0 (by omega), ?_⟩
    rw [finalCell_low (by omega) (by omega), value]
    exact toNat_setWidth_of_lt (by unfold endStateIndex at small; omega)
  · obtain ⟨-, column, value⟩ := shaped.index (c := 1) positive below (by omega)
    obtain ⟨-, column', -⟩ := shaped.index (c := 2) positive below (by omega)
    refine ⟨_, _, read positive below 1 (by omega), read positive below 2 (by omega), ?_⟩
    have high : finalCell (7 + C) (table.dfa.drop table.alphabet) ((7 + C) * (r - 1) + 2) =
        (table.cell r 1 >>> 16).setWidth 16 := by
      rw [← value, finalCell]
      simp only [if_pos column']
      rfl
    rw [high, finalCell_low (by omega) (by omega), value]
    exact halves_append _
  · obtain ⟨-, place, value⟩ := shaped.index positive below column
    have small := shaped.targets r below c high column
    refine ⟨_, read positive below c column, ?_⟩
    rw [finalCell_target (by omega) (by rw [value]; omega), value]
  · obtain ⟨-, column, value⟩ := shaped.index (c := c) positive below (by omega)
    rw [read positive below c (by omega), finalCell_low (by omega) (by omega), value]

end Shaped

/-! ## Running the graph -/

/-- The row after a text, with missing transitions leading to the start row. -/
def LexTable.rowAfter (table : LexTable) (text : CStr) : Nat := restartRun table.step 1 1 text

section Run

variable {table : LexTable} {R C : Nat} {graph : DfaGraphT}

theorem Shaped.step_range (shaped : Shaped table R C) {r : Nat} (below : r < R) {b : UInt8} {next : Nat}
    (steps : table.step r b = some next) : 1 ≤ next ∧ next < R := by
  obtain ⟨low, high⟩ := shaped.lookup b
  unfold LexTable.step at steps
  by_cases missing : table.cell r (table.lookup b).toNat = 0
  · rw [if_pos missing] at steps
    cases steps
  · rw [if_neg missing] at steps
    obtain rfl := Option.some.inj steps
    refine ⟨Nat.pos_of_ne_zero fun zero => missing ?_, shaped.targets r below _ low high⟩
    exact BitVec.eq_of_toNat_eq zero

/-- One step of the search. -/
theorem Simulates.nextRow (simulates : Simulates table R C graph) (shaped : Shaped table R C) {r : Nat}
    (positive : 1 ≤ r) (below : r < R) (b : UInt8) :
    graph.nextRow ((7 + C) * (r - 1)) b = .ok ((7 + C) * ((table.step r b).getD 1 - 1)) := by
  obtain ⟨low, high⟩ := shaped.lookup b
  have column : graph.startOffset.toNat + (graph.alphabetTable b).toNat = (table.lookup b).toNat := by
    rw [← simulates.alphabet, simulates.header.2.2, Nat.add_comm]
  obtain ⟨next, read, value⟩ := simulates.targets r positive below _ low high
  unfold DfaGraphT.nextRow
  rw [Nat.add_assoc, column, read]
  simp only [bind, Except.bind, pure, Except.pure, simulates.header.2.1, value]
  unfold LexTable.step
  by_cases missing : table.cell r (table.lookup b).toNat = 0
  · rw [if_pos missing, missing]
    rfl
  · rw [if_neg missing]
    rfl

/-- What the search finds at a row. -/
theorem Simulates.endId (simulates : Simulates table R C graph) {r : Nat} (positive : 1 ≤ r) (below : r < R) :
    graph.endId ((7 + C) * (r - 1)) = .ok (if table.isEnd r then some (table.id r) else none) := by
  obtain ⟨flag, read, value⟩ := simulates.flags r positive below
  obtain ⟨lo, hi, readLo, readHi, id⟩ := simulates.ids r positive below
  unfold DfaGraphT.endId
  simp only [read, bind, Except.bind]
  have same : flag = 0 ↔ table.cell r endStateIndex = 0 := by
    rw [← BitVec.toNat_inj, ← BitVec.toNat_inj, value]
    exact Iff.rfl
  by_cases isEnd : table.isEnd r
  · rw [if_pos fun zero => isEnd (same.1 zero), if_pos isEnd]
    simp only [readLo, readHi, id, pure, Except.pure]
  · rw [if_neg fun nonzero => isEnd fun zero => nonzero (same.2 zero), if_neg isEnd]
    rfl

theorem Shaped.restart_range (shaped : Shaped table R C) (text : CStr) :
    ∀ {r : Nat}, 1 ≤ r → r < R → 1 ≤ restartRun table.step 1 r text ∧ restartRun table.step 1 r text < R := by
  have start := shaped.start
  induction text with
  | nil => exact fun positive below => ⟨positive, below⟩
  | cons b text ih =>
      intro r positive below
      rw [restartRun]
      cases steps : table.step r b with
      | none => exact ih (Nat.le_refl 1) start
      | some next =>
          obtain ⟨positive', below'⟩ := shaped.step_range below steps
          exact ih positive' below'

/-- The rows of the search, over any text. -/
theorem Simulates.rowAfter_from (simulates : Simulates table R C graph) (shaped : Shaped table R C)
    (text : CStr) : ∀ {r : Nat}, 1 ≤ r → r < R → graph.rowAfter ((7 + C) * (r - 1)) text =
      .ok ((7 + C) * (restartRun table.step 1 r text - 1)) := by
  have start := shaped.start
  induction text with
  | nil => exact fun _ _ => rfl
  | cons b text ih =>
      intro r positive below
      rw [DfaGraphT.rowAfter, simulates.nextRow shaped positive below, restartRun]
      cases steps : table.step r b with
      | none => exact ih (Nat.le_refl 1) start
      | some next =>
          obtain ⟨positive', below'⟩ := shaped.step_range below steps
          exact ih positive' below'

theorem Simulates.rowAfter (simulates : Simulates table R C graph) (shaped : Shaped table R C) (text : CStr) :
    graph.rowAfter 0 text = .ok ((7 + C) * (table.rowAfter text - 1)) := by
  have start := shaped.start
  exact simulates.rowAfter_from shaped text (Nat.le_refl 1) (by omega)

theorem Simulates.idAfter (simulates : Simulates table R C graph) (shaped : Shaped table R C) (text : CStr) :
    graph.idAfter 0 text =
      if table.isEnd (table.rowAfter text) then some (table.id (table.rowAfter text)) else none := by
  have start := shaped.start
  obtain ⟨positive, below⟩ := shaped.restart_range text (Nat.le_refl 1) (by omega)
  have found := simulates.endId positive below
  unfold DfaGraphT.idAfter LexTable.rowAfter
  simp only [simulates.rowAfter shaped, LexTable.rowAfter]
  rw [found]

end Run

end Orchid
