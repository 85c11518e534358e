/-
# Loader.Items -- the element splitter as a function of the items

The loop of `parse_http_sig_` never makes a text that is too long, as long as the whole
is not (`parseHttpSig_eq`).  So its outcome is a
function of the items: it stops at the first item without a text and at the second
item of a single signature, whichever comes first (`splitElements_error_iff`).

Items that are joined with `&` are the items of the joined text (`items_join`).
-/
import Orchid.Loader.Split
import Mathlib.Data.List.TakeWhile

namespace Orchid

set_option autoImplicit false

/-! ## The loop -/

theorem getKeyFromSig_length {item key : CStr} (found : getKeyFromSig item = some key) :
    key.length < item.length := by
  induction item using getKeyFromSig.induct with
  | case1 => cases found
  | case2 => cases found
  | case3 c rest =>
      rw [getKeyFromSig, if_pos rfl] at found
      obtain rfl := Option.some.inj found
      simp only [List.length_cons]
      omega
  | case4 b c rest differs ih =>
      rw [getKeyFromSig, if_neg differs] at found
      have bound := ih found
      simp only [List.length_cons] at bound ⊢
      omega

theorem items_length {text item : CStr} (member : item ∈ items text) : item.length ≤ text.length := by
  have all : ∀ (n : Nat) (s : CStr), item ∈ tokensFrom n (strtok delims s) → item.length ≤ s.length := by
    intro n
    induction n with
    | zero =>
        intro s member
        cases found : strtok delims s <;> rw [found] at member <;> cases member
    | succ n ih =>
        intro s member
        cases found : strtok delims s with
        | none =>
            rw [found] at member
            cases member
        | some pair =>
            obtain ⟨result, saved⟩ := pair
            obtain ⟨bound, less⟩ := strtok_some found
            rw [found, tokensFrom] at member
            rcases List.mem_cons.1 member with rfl | later
            · exact bound
            · have := ih saved later
              omega
  exact all _ _ member

/-- What `parse_http_sig_` makes of the items, one after another. -/
def splitElements (type : Uint) : List CStr → Except Trap (List ElementS)
  | [] => .ok []
  | item :: rest =>
      match getKeyFromSig item with
      | none => .error .nullString
      | some key =>
          if type = SIG_SINGLE ∧ rest ≠ [] then .error .assertion
          else (splitElements type rest).map (⟨getElementIdFromSig item, key⟩ :: ·)

/-- A short item that has a text makes an element. -/
theorem pushElement_eq {item : CStr} (short : item.length < MAX_SIG_LENGTH) (list : List ElementS) :
    pushElement list item = match getKeyFromSig item with
      | none => .error .nullString
      | some key => .ok (list ++ [⟨getElementIdFromSig item, key⟩]) := by
  unfold pushElement
  cases key : getKeyFromSig item with
  | none => rfl
  | some text =>
      have fits : ¬ text.length ≥ MAX_SIG_LENGTH := by
        have := getKeyFromSig_length key
        omega
      rw [newSigElement, if_neg fits]
      rfl

theorem itemLoop_pushElement (type : Uint) {texts : List CStr} (list : List ElementS)
    (short : ∀ item ∈ texts, item.length < MAX_SIG_LENGTH) :
    itemLoop type pushElement texts list = (splitElements type texts).map (list ++ ·) := by
  induction texts generalizing list with
  | nil =>
      show Except.ok list = Except.ok (list ++ [])
      rw [List.append_nil]
  | cons item rest ih =>
      have first := pushElement_eq (short item (List.mem_cons_self ..)) list
      rw [splitElements]
      cases key : getKeyFromSig item with
      | none =>
          rw [key] at first
          rw [itemLoop, first]
          rfl
      | some text =>
          rw [key] at first
          rw [itemLoop_cons first]
          by_cases second : type = SIG_SINGLE ∧ rest ≠ []
          · simp only [if_pos second]
            rfl
          · simp only [if_neg second]
            rw [ih _ fun item inside => short item (List.mem_cons_of_mem _ inside)]
            cases splitElements type rest with
            | error trap => rfl
            | ok es => simp [Except.map]

/-- **The splitter.** -/
theorem parseHttpSig_eq {text : CStr} (short : text.length < MAX_SIG_LENGTH) (type : Uint) :
    parseHttpSig_ text type = splitElements type (items text) := by
  rw [parseHttpSig_items_, itemLoop_pushElement type [] fun item inside => (items_length inside).trans_lt short]
  cases splitElements type (items text) <;> rfl

/-- **Where the splitter stops.** -/
theorem splitElements_error_iff {type : Uint} {texts : List CStr} {trap : Trap} :
    splitElements type texts = .error trap ↔
      (trap = .nullString ∧ ∃ k item, texts[k]? = some item ∧ getKeyFromSig item = none ∧
        (k = 0 ∨ type ≠ SIG_SINGLE)) ∨
      (trap = .assertion ∧ type = SIG_SINGLE ∧ 2 ≤ texts.length ∧
        ∃ item ∈ texts.head?, getKeyFromSig item ≠ none) := by
  induction texts with
  | nil => simp [splitElements]
  | cons first rest ih =>
      rw [splitElements]
      cases key : getKeyFromSig first with
      | none =>
          constructor
          · intro stopped
            cases stopped
            exact Or.inl ⟨rfl, 0, first, rfl, key, Or.inl rfl⟩
          · rintro (⟨rfl, -⟩ | ⟨-, -, -, item, head, found⟩)
            · rfl
            · obtain rfl : first = item := Option.some.inj head
              exact absurd key found
      | some text =>
          by_cases single : type = SIG_SINGLE
          · by_cases more : rest = []
            · subst more
              simp only [single, ne_eq, not_true, and_false, if_false, splitElements]
              refine iff_of_false (fun impossible => nomatch impossible) ?_
              rintro (⟨-, k, item, here, missing, front⟩ | ⟨-, -, two, -⟩)
              · rcases front with rfl | other
                · obtain rfl : first = item := Option.some.inj here
                  rw [key] at missing
                  cases missing
                · exact other
              · exact absurd two (by simp)
            · simp only [single, ne_eq, more, not_false_iff, and_self, if_true]
              constructor
              · intro stopped
                cases stopped
                refine Or.inr ⟨rfl, trivial, ?_, first, rfl, by rw [key]; simp⟩
                have := List.length_pos_iff.2 more
                rw [List.length_cons]
                omega
              · rintro (⟨-, k, item, here, missing, rfl | other⟩ | ⟨rfl, -⟩)
                · obtain rfl : first = item := Option.some.inj here
                  rw [key] at missing
                  cases missing
                · exact absurd trivial other
                · rfl
          · have stops : ((splitElements type rest).map (⟨getElementIdFromSig first, text⟩ :: ·) = .error trap) ↔
                splitElements type rest = .error trap := by
              cases splitElements type rest <;> simp [Except.map]
            simp only [single, false_and, if_false, stops, ih, and_false, or_false, ne_eq, not_false_iff, or_true,
              and_true]
            refine and_congr_right fun _ => ⟨?_, ?_⟩
            · rintro ⟨k, item, here, missing⟩
              exact ⟨k + 1, item, here, missing⟩
            · rintro ⟨k, item, here, missing⟩
              cases k with
              | zero =>
                  obtain rfl : first = item := Option.some.inj here
                  rw [key] at missing
                  cases missing
              | succ k => exact ⟨k, item, here, missing⟩

/-- The texts of the elements are shorter than the text they were split from. -/
theorem parseHttpSig_texts {text : CStr} {type : Uint} {es : List ElementS}
    (split : parseHttpSig_ text type = .ok es) {e : ElementS} (member : e ∈ es) :
    e.matchStr.length < text.length := by
  obtain ⟨item, inside, -, key⟩ := forall₂_right (parseHttpSig_ok_ split) member
  have short := getKeyFromSig_length key
  have bound := items_length inside
  omega

/-! ## Joined items -/

/-- One item in front of a `&`, or at the end. -/
theorem strtok_item {item : CStr} (nonempty : item ≠ []) (free : delims ∉ item) (rest : CStr) :
    strtok delims (item ++ delims :: rest) = some (item, rest) ∧ strtok delims item = some (item, []) := by
  obtain ⟨c, item, rfl⟩ := List.exists_cons_of_ne_nil nonempty
  have others : ∀ b ∈ c :: item, (b != delims) = true := by
    intro b inside
    rw [bne_iff_ne]
    rintro rfl
    exact free inside
  have first : ¬ (c == delims) = true := by
    have := others c (List.mem_cons_self ..)
    simpa using this
  have skipped : ∀ text : CStr, (c :: text).dropWhile (· == delims) = c :: text :=
    fun text => List.dropWhile_cons_of_neg first
  constructor
  · unfold strtok
    rw [List.cons_append, skipped]
    show some ((c :: (item ++ delims :: rest)).takeWhile (· != delims),
      ((c :: (item ++ delims :: rest)).dropWhile (· != delims)).drop 1) = _
    rw [← List.cons_append, List.takeWhile_append_of_pos others, List.dropWhile_append_of_pos others]
    simp
  · unfold strtok
    rw [skipped]
    show some ((c :: item).takeWhile (· != delims), ((c :: item).dropWhile (· != delims)).drop 1) = _
    rw [List.takeWhile_eq_self_iff.2 others, List.dropWhile_eq_nil_iff.2 others]
    rfl

/-- **The items of joined items.** -/
theorem items_join {texts : List CStr} (nonempty : ∀ item ∈ texts, item ≠ [])
    (free : ∀ item ∈ texts, delims ∉ item) : items (List.intercalate [delims] texts) = texts := by
  have all : ∀ (texts : List CStr) (n : Nat), (∀ item ∈ texts, item ≠ []) → (∀ item ∈ texts, delims ∉ item) →
      (List.intercalate [delims] texts).length < n →
      tokensFrom n (strtok delims (List.intercalate [delims] texts)) = texts := by
    intro texts
    induction texts with
    | nil =>
        intro n _ _ rounds
        cases n <;> rfl
    | cons item texts ih =>
        intro n nonempty free rounds
        obtain ⟨m, rfl⟩ : ∃ m, n = m + 1 := ⟨n - 1, by omega⟩
        have itemNonempty := nonempty item (List.mem_cons_self ..)
        have itemFree := free item (List.mem_cons_self ..)
        cases texts with
        | nil =>
            have alone : List.intercalate [delims] [item] = item := by simp
            rw [alone, (strtok_item itemNonempty itemFree []).2, tokensFrom]
            cases m <;> rfl
        | cons next texts =>
            have split : List.intercalate [delims] (item :: next :: texts) =
                item ++ delims :: List.intercalate [delims] (next :: texts) := by
              simp [List.intercalate, List.intersperse]
            rw [split] at rounds
            rw [split, (strtok_item itemNonempty itemFree _).1, tokensFrom, ih m]
            · exact fun other inside => nonempty other (List.mem_cons_of_mem _ inside)
            · exact fun other inside => free other (List.mem_cons_of_mem _ inside)
            · rw [List.length_append, List.length_cons] at rounds
              omega
  exact all texts _ nonempty free (Nat.lt_succ_self _)

end Orchid
