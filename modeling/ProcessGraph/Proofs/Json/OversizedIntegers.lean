import Mathlib.Data.List.TakeDrop
import ProcessGraph.Json.Reader

/-!
# Integers with too many digits

Reading a JSON document goes from left to right, and what is read next is always the rest of the
text (`ReadsWithin`). One case for each kind of value shows this together with why an integer may be
refused: main statement, a document is refused for an integer only if there are more digits in a row
than an integer may have (`read_oversized`).
-/

set_option autoImplicit false

namespace ProcessGraph.Json

/-- There are more digits in a row than an integer may have. -/
def HasLongNumeral (cs : List Char) : Prop :=
  ∃ digits, digits <:+: cs ∧ (∀ d ∈ digits, Text.isAsciiDigit d) ∧
    Text.maxIntegerDigits < digits.length

/-- What has been read is a beginning of the text. If it is an integer with too many digits, these
are in the text. -/
def ReadsWithin {α : Type} (cs : List Char) : Except ReadError (α × List Char) → Prop
  | .ok (_, rest) => rest <:+ cs
  | .error .malformed => True
  | .error .oversizedInteger => HasLongNumeral cs

section
variable {α β : Type} {cs rest : List Char}

theorem HasLongNumeral.of_suffix (h : HasLongNumeral rest) (hs : rest <:+ cs) :
    HasLongNumeral cs := by
  obtain ⟨digits, within, all, long⟩ := h
  exact ⟨digits, within.trans hs.isInfix, all, long⟩

theorem ReadsWithin.of_suffix {r : Except ReadError (α × List Char)} (h : ReadsWithin rest r)
    (hs : rest <:+ cs) : ReadsWithin cs r := by
  match r, h with
  | .ok (_, _), h => exact h.trans hs
  | .error .malformed, _ => trivial
  | .error .oversizedInteger, h => exact HasLongNumeral.of_suffix h hs

/-- What is read after something else is read from the rest. -/
theorem ReadsWithin.bind {r : Except ReadError (α × List Char)}
    {f : α × List Char → Except ReadError (β × List Char)} (h : ReadsWithin cs r)
    (hf : ∀ a rest, ReadsWithin rest (f (a, rest))) : ReadsWithin cs (r >>= f) := by
  match r, h with
  | .ok (a, rest), h => exact (hf a rest).of_suffix h
  | .error .malformed, _ => trivial
  | .error .oversizedInteger, h => exact h

theorem skipBlanks_suffix (cs : List Char) : skipBlanks cs <:+ cs := List.dropWhile_suffix _

theorem suffix_of_skipBlanks_eq_cons {c : Char} (h : skipBlanks cs = c :: rest) : rest <:+ cs :=
  (List.suffix_cons c rest).trans (h ▸ skipBlanks_suffix cs)

end

/-! ## Strings -/

theorem codeUnit?_suffix {cs rest : List Char} {n : Nat} (h : codeUnit? cs = some (n, rest)) :
    rest <:+ cs := by
  unfold codeUnit? at h
  split at h
  · obtain ⟨_, -, h⟩ := Option.map_eq_some_iff.1 h
    cases h
    exact List.drop_suffix 4 cs
  · cases h

theorem readsWithin_unicodeEscape (cs : List Char) : ReadsWithin cs (unicodeEscape cs) := by
  unfold unicodeEscape
  split
  · trivial
  · rename_i n rest unit
    have first := codeUnit?_suffix unit
    split
    · split
      · rename_i more
        have marked : more <:+ cs :=
          ((List.suffix_cons _ _).trans (List.suffix_cons _ _)).trans first
        split
        · rename_i unit'
          split
          · exact (codeUnit?_suffix unit').trans marked
          · exact first
        · exact first
      · exact first
    · exact first

theorem readsWithin_stringTail (fuel : Nat) (seen cs : List Char) :
    ReadsWithin cs (stringTail fuel seen cs) := by
  induction fuel generalizing seen cs with
  | zero => trivial
  | succ fuel ih =>
    unfold stringTail
    split
    · trivial
    · exact List.suffix_cons _ _
    · rename_i rest
      exact ((readsWithin_unicodeEscape rest).bind fun c rest => ih _ _).of_suffix
        ((List.suffix_cons _ _).trans (List.suffix_cons _ _))
    · split
      · exact (ih _ _).of_suffix ((List.suffix_cons _ _).trans (List.suffix_cons _ _))
      · trivial
    · split
      · trivial
      · exact (ih _ _).of_suffix (List.suffix_cons _ _)

theorem readsWithin_string (cs : List Char) : ReadsWithin cs (string cs) :=
  readsWithin_stringTail _ _ cs

/-! ## Words and numbers -/

theorem fractionPart_suffix (cs : List Char) : (fractionPart cs).2 <:+ cs := by
  unfold fractionPart
  split
  · split
    · exact List.suffix_rfl
    · exact (List.dropWhile_suffix _).trans (List.suffix_cons _ _)
  · exact List.suffix_rfl

theorem exponentPart_suffix (cs : List Char) : (exponentPart cs).2 <:+ cs := by
  unfold exponentPart
  split
  · rename_i e rest
    have behind {tail : List Char} (ht : tail <:+ rest) (n : Option Int) :
        (if (tail.takeWhile Text.isAsciiDigit).isEmpty then (none, e :: rest)
          else (n, tail.dropWhile Text.isAsciiDigit)).2 <:+ e :: rest := by
      split
      · exact List.suffix_rfl
      · exact ((List.dropWhile_suffix _).trans ht).trans (List.suffix_cons e rest)
    split
    · dsimp only
      split
      · exact behind (List.suffix_cons _ _) _
      · exact behind (List.suffix_cons _ _) _
      · exact behind List.suffix_rfl _
    · exact List.suffix_rfl
  · exact List.suffix_rfl

/-- The digits of a number stand in the text, which goes on behind them. -/
theorem numberParts?_within {cs rest : List Char} {p : Parts}
    (h : numberParts? cs = some (p, rest)) :
    rest <:+ cs ∧ p.whole <:+: cs ∧ ∀ d ∈ p.whole, Text.isAsciiDigit d := by
  unfold numberParts? at h
  split at h
  rename_i negative unsigned sign
  have behind : unsigned <:+ cs := by
    split at sign
    · cases sign
      exact List.suffix_cons _ _
    · cases sign
      exact List.suffix_rfl
  have after (n : Nat) : (exponentPart (fractionPart (unsigned.drop n)).2).2 <:+ cs :=
    ((exponentPart_suffix _).trans (fractionPart_suffix _)).trans
      ((List.drop_suffix n unsigned).trans behind)
  dsimp only at h
  split at h
  · -- A leading zero stands alone.
    cases h
    exact ⟨after 1, (List.prefix_append ['0'] _).isInfix.trans behind.isInfix,
      List.forall_mem_singleton.2 (by decide)⟩
  · split at h
    · cases h
    · cases h
      exact ⟨after _, (List.takeWhile_prefix _).isInfix.trans behind.isInfix,
        List.all_eq_true.1 List.all_takeWhile⟩

theorem word?_suffix {cs rest : List Char} {v : Value} (h : word? cs = some (v, rest)) :
    rest <:+ cs := by
  obtain ⟨word, -, h⟩ := Option.map_eq_some_iff.1 h
  cases h
  exact List.drop_suffix _ cs

theorem Parts.value_oversized {p : Parts} (h : p.value = .error .oversizedInteger) :
    Text.maxIntegerDigits < p.whole.length := by
  unfold Parts.value at h
  split at h
  · cases h
  · split at h
    · assumption
    · cases h

theorem readsWithin_atom (cs : List Char) : ReadsWithin cs (atom cs) := by
  unfold atom
  split
  · rename_i r word
    exact word?_suffix word
  · split
    · rename_i p rest number
      obtain ⟨behind, whole, digits⟩ := numberParts?_within number
      match value : p.value with
      | .ok v => exact behind
      | .error .malformed => trivial
      | .error .oversizedInteger => exact ⟨p.whole, whole, digits, p.value_oversized value⟩
    · trivial

/-! ## Documents -/

mutual

theorem readsWithin_value : (fuel : Nat) → (cs : List Char) → ReadsWithin cs (value fuel cs)
  | 0, _ => trivial
  | fuel + 1, cs => by
    unfold value
    split
    · rename_i rest
      refine ((readsWithin_string rest).bind fun s rest => ?_).of_suffix (List.suffix_cons _ _)
      exact List.suffix_rfl
    · rename_i rest
      refine ReadsWithin.of_suffix ?_ (List.suffix_cons '[' rest)
      split
      · rename_i closed
        exact suffix_of_skipBlanks_eq_cons closed
      · exact (readsWithin_items fuel [] _).of_suffix (skipBlanks_suffix rest)
    · rename_i c rest _ _
      split
      · refine ReadsWithin.of_suffix ?_ (List.suffix_cons c rest)
        split
        · rename_i closed
          exact suffix_of_skipBlanks_eq_cons closed
        · exact (readsWithin_entries fuel [] _).of_suffix (skipBlanks_suffix rest)
      · exact readsWithin_atom _
    · trivial

theorem readsWithin_items : (fuel : Nat) → (seen : List Value) → (cs : List Char) →
    ReadsWithin cs (items fuel seen cs)
  | 0, _, _ => trivial
  | fuel + 1, seen, cs => by
    unfold items
    refine (readsWithin_value fuel cs).bind fun v rest => ?_
    dsimp only
    split
    · rename_i next
      exact (readsWithin_items fuel _ _).of_suffix
        ((skipBlanks_suffix _).trans (suffix_of_skipBlanks_eq_cons next))
    · rename_i closed
      exact suffix_of_skipBlanks_eq_cons closed
    · trivial

theorem readsWithin_entries : (fuel : Nat) → (seen : List (Scalar × Value)) → (cs : List Char) →
    ReadsWithin cs (entries fuel seen cs)
  | 0, _, _ => trivial
  | fuel + 1, seen, cs => by
    unfold entries
    split
    · rename_i rest
      refine ((readsWithin_string rest).bind fun k rest => ?_).of_suffix (List.suffix_cons _ _)
      dsimp only
      split
      · rename_i colon
        refine ReadsWithin.of_suffix ?_ (suffix_of_skipBlanks_eq_cons colon)
        refine ((readsWithin_value fuel _).bind fun v rest => ?_).of_suffix (skipBlanks_suffix _)
        dsimp only
        split
        · rename_i next
          exact (readsWithin_entries fuel _ _).of_suffix
            ((skipBlanks_suffix _).trans (suffix_of_skipBlanks_eq_cons next))
        · rename_i closed
          exact suffix_of_skipBlanks_eq_cons closed
        · trivial
      · trivial
    · trivial

end

/-- A document is refused for an integer only if its text has too many digits in a row. -/
theorem read_oversized {text : String} (h : read text = .error .oversizedInteger) :
    HasLongNumeral text.toList := by
  have within := readsWithin_value (2 * text.toList.length + 2) (skipBlanks text.toList)
  unfold read at h
  dsimp only at h
  match value (2 * text.toList.length + 2) (skipBlanks text.toList), within, h with
  | .ok (v, rest), _, h =>
    change (if (skipBlanks rest).isEmpty then Except.ok v else .error ReadError.malformed) = _ at h
    split at h <;> cases h
  | .error .malformed, _, h => cases h
  | .error .oversizedInteger, within, _ =>
    exact HasLongNumeral.of_suffix within (skipBlanks_suffix _)

end ProcessGraph.Json
