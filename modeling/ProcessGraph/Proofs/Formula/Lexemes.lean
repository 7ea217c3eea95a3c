import Mathlib.Data.List.TakeDrop
import Mathlib.Data.List.TakeWhile
import ProcessGraph.Formula.Lexer

/-!
# Classes of tokens

`kind.Matches cs`: the text is one of a class of tokens. The classes are described without the
lexer, and no text is in two of them: their first characters differ (`TokenKind.Starts`).

What the lexer finds at the start of a text belongs to its class (`scan_matches`), and nothing
longer at the start of the text belongs to any class (`scan_longest`). Conversely, it finds a text
of a class wherever none of the characters behind it could be a part of it (`scan_append`).
-/

set_option autoImplicit false

namespace ProcessGraph.Formula

/-! ## Classes -/

def AllDigits (cs : List Char) : Prop := ∀ c ∈ cs, isDigit c

/-- Digits, perhaps with a dot behind them and more digits, or a dot and digits. -/
inductive IsMantissa : List Char → Prop
  | whole {ds} : AllDigits ds → ds ≠ [] → IsMantissa ds
  | pointed {ds fs} : AllDigits ds → AllDigits fs → ds ≠ [] ∨ fs ≠ [] →
      IsMantissa (ds ++ '.' :: fs)

/-- The letter `e` and digits, perhaps with a sign in between; or nothing. -/
inductive IsExponent : List Char → Prop
  | none : IsExponent []
  | some {e s ds} : e = 'e' ∨ e = 'E' → s = [] ∨ s = ['+'] ∨ s = ['-'] → AllDigits ds → ds ≠ [] →
      IsExponent (e :: (s ++ ds))

/-- A run of dollars, a letter, an underscore or a hash. -/
inductive IsIdentifierHead : List Char → Prop
  | dollars (n : Nat) : IsIdentifierHead (List.replicate (n + 1) '$')
  | single {c} : isLetter c ∨ c = '_' ∨ c = '#' → IsIdentifierHead [c]

/-- The texts of a class of tokens. -/
def TokenKind.Matches : TokenKind → List Char → Prop
  | number, cs => ∃ m x, IsMantissa m ∧ IsExponent x ∧ cs = m ++ x
  | operator, cs => ∃ c ∈ operators, cs = [c]
  | identifier, cs => ∃ h name, IsIdentifierHead h ∧ (∀ c ∈ name, isIdentifierPart c) ∧
      cs = h ++ name

/-! ## Characters -/

theorem isDigit_iff {c : Char} : isDigit c ↔ '0' ≤ c ∧ c ≤ '9' := by
  simp [isDigit, Text.isAsciiDigit]

/-- The characters that the texts of a class start with. -/
def TokenKind.Starts : TokenKind → Char → Prop
  | number, c => isDigit c ∨ c = '.'
  | operator, c => isOperator c
  | identifier, c => isIdentifierStart c

theorem not_isDigit_of_mem_operators {c : Char} (h : c ∈ operators) :
    ¬ (isDigit c ∨ c = '.') := by
  have all : operators.all fun c => !(isDigit c || c = '.') := by decide
  simpa using List.all_eq_true.1 all c h

theorem not_isIdentifierStart_of_mem_operators {c : Char} (h : c ∈ operators) :
    ¬ isIdentifierStart c := by
  have all : operators.all fun c => !isIdentifierStart c := by decide
  simpa using List.all_eq_true.1 all c h

/-- Digits come before all letters, and the dot before the digits. -/
theorem not_isIdentifierStart_of_isDigit {c : Char} (h : isDigit c ∨ c = '.') :
    ¬ isIdentifierStart c := by
  rcases h with h | rfl
  · intro hs
    have nine : c.val.toNat ≤ 57 := UInt32.le_iff_toNat_le.1 (Char.le_def.1 (isDigit_iff.1 h).2)
    simp only [isIdentifierStart, isLetter, Bool.or_eq_true, Bool.and_eq_true, decide_eq_true_eq,
      Char.le_def, UInt32.le_iff_toNat_le] at hs
    rcases hs with ((rfl | rfl) | rfl) | ⟨hs, -⟩ | ⟨hs, -⟩
    · revert nine; decide
    · revert h; decide
    · revert h; decide
    · exact absurd (Nat.le_trans hs nine) (by decide)
    · exact absurd (Nat.le_trans hs nine) (by decide)
  · decide

/-- A character starts texts of one class only. -/
theorem TokenKind.Starts.unique {k k' : TokenKind} {c : Char} (h : k.Starts c)
    (h' : k'.Starts c) : k = k' := by
  have operator {c : Char} (h : isOperator c) : c ∈ operators := List.contains_iff_mem.1 h
  cases k with
  | number =>
    cases k' with
    | number => rfl
    | operator => exact absurd h (not_isDigit_of_mem_operators (operator h'))
    | identifier => exact absurd h' (not_isIdentifierStart_of_isDigit h)
  | operator =>
    cases k' with
    | number => exact absurd h' (not_isDigit_of_mem_operators (operator h))
    | operator => rfl
    | identifier => exact absurd h' (not_isIdentifierStart_of_mem_operators (operator h))
  | identifier =>
    cases k' with
    | number => exact absurd h (not_isIdentifierStart_of_isDigit h')
    | operator => exact absurd h (not_isIdentifierStart_of_mem_operators (operator h'))
    | identifier => rfl

/-- The text of a token starts with a character of its class. -/
theorem TokenKind.Matches.exists_cons {k : TokenKind} {cs : List Char} (h : k.Matches cs) :
    ∃ c rest, cs = c :: rest ∧ k.Starts c := by
  have digits_start {ds : List Char} (h : AllDigits ds) (h₀ : ds ≠ []) (more : List Char) :
      ∃ c rest, ds ++ more = c :: rest ∧ TokenKind.number.Starts c := by
    obtain ⟨d, ds, rfl⟩ := List.exists_cons_of_ne_nil h₀
    exact ⟨d, ds ++ more, rfl, .inl (h d List.mem_cons_self)⟩
  cases k with
  | number =>
    obtain ⟨m, x, hm, -, rfl⟩ := h
    cases hm with
    | whole h h₀ => exact digits_start h h₀ x
    | @pointed ds fs hd _ _ =>
      rw [List.append_assoc]
      by_cases h₀ : ds = []
      · exact ⟨'.', fs ++ x, by rw [h₀]; rfl, .inr rfl⟩
      · exact digits_start hd h₀ _
  | operator =>
    obtain ⟨c, hc, rfl⟩ := h
    exact ⟨c, [], rfl, List.contains_iff_mem.2 hc⟩
  | identifier =>
    obtain ⟨h, name, hh, -, rfl⟩ := h
    cases hh with
    | dollars n => exact ⟨'$', List.replicate n '$' ++ name, rfl, rfl⟩
    | @single c hc =>
      refine ⟨c, name, rfl, ?_⟩
      rcases hc with hc | rfl | rfl
      · simp [TokenKind.Starts, isIdentifierStart, hc]
      · rfl
      · rfl

/-! ## Runs of characters -/

section
variable {p : Char → Bool} {w cs : List Char}

/-- A run of characters is split off. -/
theorem exists_span (p : Char → Bool) (cs : List Char) :
    ∃ w rest, cs.span p = (w, rest) ∧ cs = w ++ rest ∧ ∀ c ∈ w, p c := by
  refine ⟨cs.takeWhile p, cs.dropWhile p, List.span_eq_takeWhile_dropWhile .., ?_, fun c h => ?_⟩
  · exact List.takeWhile_append_dropWhile.symm
  · exact List.mem_takeWhile_imp h

theorem span_append_of_forall (h : ∀ c ∈ w, p c) (cs : List Char) :
    (w ++ cs).span p = (w ++ (cs.span p).1, (cs.span p).2) := by
  simp only [List.span_eq_takeWhile_dropWhile, List.takeWhile_append_of_pos h,
    List.dropWhile_append_of_pos h]

theorem span_of_head (h : ∀ c ∈ cs.head?, ¬ p c) : cs.span p = ([], cs) := by
  rw [List.span_eq_takeWhile_dropWhile]
  cases cs with
  | nil => rfl
  | cons c cs => simp [h c rfl]

/-- A run ends where the next character is not of its kind. -/
theorem span_append_of_head (h : ∀ c ∈ w, p c) (hc : ∀ c ∈ cs.head?, ¬ p c) :
    (w ++ cs).span p = (w, cs) := by
  rw [span_append_of_forall h, span_of_head hc, List.append_nil]

end

/-! ## Numbers -/

section
variable {ds fs m cs : List Char}

theorem digits_pointed (h : AllDigits ds) (cs : List Char) :
    digits (ds ++ '.' :: cs) = (ds, '.' :: cs) :=
  span_append_of_head h fun c hc => by
    obtain rfl : '.' = c := by simpa using hc
    decide

theorem mantissa_pointed (h : AllDigits ds) (cs : List Char) :
    mantissa (ds ++ '.' :: cs) = (ds ++ '.' :: (digits cs).1, (digits cs).2) := by
  simp [mantissa, digits_pointed h]

theorem mantissa_of_no_point (h : ∀ cs', (digits cs).2 ≠ '.' :: cs') : mantissa cs = digits cs := by
  unfold mantissa
  split
  · rename_i rest e
    exact absurd (by rw [e]) (h rest)
  · rfl

/-- The mantissa is split off, and it is one unless it has no digit. -/
theorem exists_mantissa (cs : List Char) : ∃ m rest, mantissa cs = (m, rest) ∧ cs = m ++ rest ∧
    (m = [] ∨ m = ['.'] ∨ IsMantissa m) := by
  obtain ⟨ds, rest, hds, rfl, all⟩ := exists_span isDigit cs
  by_cases h : ∃ cs', rest = '.' :: cs'
  · obtain ⟨cs', rfl⟩ := h
    obtain ⟨fs, after, hfs, rfl, all'⟩ := exists_span isDigit cs'
    refine ⟨ds ++ '.' :: fs, after, ?_, by simp, ?_⟩
    · rw [mantissa_pointed all, digits, hfs]
    · by_cases h₀ : ds ≠ [] ∨ fs ≠ []
      · exact .inr (.inr (.pointed all all' h₀))
      · simp only [not_or, not_not] at h₀
        exact .inr (.inl (by rw [h₀.1, h₀.2]; rfl))
  · refine ⟨ds, rest, ?_, rfl, ?_⟩
    · rw [mantissa_of_no_point fun cs' e => h ⟨cs', ?_⟩, digits, hds]
      rwa [digits, hds] at e
    · by_cases h₀ : ds = []
      · exact .inl h₀
      · exact .inr (.inr (.whole all h₀))

/-- A dot alone is no mantissa. -/
theorem IsMantissa.ne_dot (h : IsMantissa m) : m ≠ ['.'] := by
  cases h with
  | whole hd _ =>
    rintro rfl
    exact absurd (hd '.' List.mem_cons_self) (by decide)
  | @pointed ds fs _ _ h₀ =>
    intro e
    have length := congrArg List.length e
    simp only [List.length_append, List.length_cons, List.length_nil] at length
    rcases h₀ with h₀ | h₀ <;> have := List.length_pos_iff.2 h₀ <;> omega

/-- No mantissa at the start of a text is longer than the one that is found. -/
theorem IsMantissa.isPrefix (h : IsMantissa m) (cs : List Char) : m <+: (mantissa (m ++ cs)).1 := by
  cases h with
  | whole all _ =>
    obtain ⟨ds, rest, hds, rfl, all'⟩ := exists_span isDigit cs
    have whole : digits (m ++ (ds ++ rest)) = (m ++ ds, rest) := by
      rw [digits, span_append_of_forall all, hds]
    by_cases h : ∃ cs', rest = '.' :: cs'
    · obtain ⟨cs', rfl⟩ := h
      rw [← List.append_assoc, mantissa_pointed, List.append_assoc]
      · exact List.prefix_append ..
      · exact fun c hc => (List.mem_append.1 hc).elim (all c) (all' c)
    · rw [mantissa_of_no_point fun cs' e => h ⟨cs', by rwa [whole] at e⟩, whole]
      exact List.prefix_append ..
  | @pointed ds fs all all' _ =>
    rw [List.append_assoc, List.cons_append, mantissa_pointed all, digits,
      span_append_of_forall all', List.prefix_append_right_inj, List.cons_prefix_cons]
    exact ⟨rfl, List.prefix_append ..⟩

/-- A mantissa ends where no digit and no dot follows. -/
theorem IsMantissa.mantissa_append (h : IsMantissa m)
    (hc : ∀ c ∈ cs.head?, ¬ (isDigit c ∨ c = '.')) : mantissa (m ++ cs) = (m, cs) := by
  have stop : ∀ c ∈ cs.head?, ¬ isDigit c := fun c hm hd => hc c hm (.inl hd)
  cases h with
  | whole all _ =>
    have whole : digits (m ++ cs) = (m, cs) := span_append_of_head all stop
    rw [mantissa_of_no_point fun cs' e => ?_, whole]
    rw [whole] at e
    exact hc '.' (by rw [show cs = '.' :: cs' from e]; rfl) (.inr rfl)
  | @pointed ds fs all all' _ =>
    rw [List.append_assoc, List.cons_append, mantissa_pointed all, digits,
      span_append_of_head all' stop]

/-- A text that starts with a digit or a dot has a mantissa, if only the dot. -/
theorem mantissa_ne_nil {c : Char} (h : isDigit c ∨ c = '.') : (mantissa (c :: cs)).1 ≠ [] := by
  rcases h with h | rfl
  · have digit : IsMantissa [c] := .whole (fun d hd => List.mem_singleton.1 hd ▸ h) nofun
    exact List.ne_nil_of_mem ((digit.isPrefix cs).subset List.mem_cons_self)
  · have none : AllDigits [] := fun _ h => absurd h List.not_mem_nil
    rw [← List.nil_append ('.' :: cs), mantissa_pointed none]
    exact List.cons_ne_nil _ _

theorem exists_sign (cs : List Char) : ∃ s rest, sign cs = (s, rest) ∧ cs = s ++ rest ∧
    (s = [] ∨ s = ['+'] ∨ s = ['-']) := by
  unfold sign
  split
  · exact ⟨_, _, rfl, rfl, .inr (.inl rfl)⟩
  · exact ⟨_, _, rfl, rfl, .inr (.inr rfl)⟩
  · exact ⟨_, _, rfl, rfl, .inl rfl⟩

/-- A sign before digits is found, also if there is none. -/
theorem sign_append {s : List Char} (hs : s = [] ∨ s = ['+'] ∨ s = ['-']) (hd : AllDigits ds)
    (h₀ : ds ≠ []) (cs : List Char) : sign (s ++ (ds ++ cs)) = (s, ds ++ cs) := by
  rcases hs with rfl | rfl | rfl
  · obtain ⟨d, ds, rfl⟩ := List.exists_cons_of_ne_nil h₀
    have digit := hd d List.mem_cons_self
    have plus : d ≠ '+' := by rintro rfl; revert digit; decide
    have minus : d ≠ '-' := by rintro rfl; revert digit; decide
    simp [sign, plus, minus]
  · rfl
  · rfl

/-- An exponent behind a mantissa is read with all digits that follow. -/
theorem scanNumber_exponent {e : Char} {s : List Char} (hm : IsMantissa m) (he : e = 'e' ∨ e = 'E')
    (hs : s = [] ∨ s = ['+'] ∨ s = ['-']) (hd : AllDigits ds) (h₀ : ds ≠ []) (cs : List Char) :
    scanNumber (m ++ e :: (s ++ (ds ++ cs))) =
      .lexeme .number (m ++ e :: (s ++ (ds ++ (digits cs).1))) (digits cs).2 := by
  have found : mantissa (m ++ e :: (s ++ (ds ++ cs))) = (m, e :: (s ++ (ds ++ cs))) := by
    refine hm.mantissa_append fun c hc => ?_
    obtain rfl : e = c := by simpa using hc
    rcases he with rfl | rfl <;> decide
  have ds_read : digits (ds ++ cs) = (ds ++ (digits cs).1, (digits cs).2) :=
    span_append_of_forall hd cs
  simp [scanNumber, found, hm.ne_dot, he, sign_append hs hd h₀, ds_read, h₀]

/-- What is read as a number is one, and begins with the mantissa that is found. -/
theorem scanNumber_matches {k : TokenKind} {text rest : List Char}
    (h : scanNumber cs = .lexeme k text rest) (h₀ : (mantissa cs).1 ≠ []) :
    k = .number ∧ cs = text ++ rest ∧ TokenKind.number.Matches text ∧
      (mantissa cs).1 <+: text := by
  obtain ⟨m, after, hm, rfl, found⟩ := exists_mantissa cs
  simp only [scanNumber, hm] at h h₀ ⊢
  split at h
  · cases h
  rename_i dot
  have number : IsMantissa m := (found.resolve_left h₀).resolve_left dot
  have plain : TokenKind.number.Matches m := ⟨m, [], number, .none, (List.append_nil m).symm⟩
  split at h
  · cases h
    exact ⟨rfl, rfl, plain, List.prefix_rfl⟩
  rename_i e more
  split at h
  · rename_i he
    obtain ⟨s, afterSign, hs, rfl, signed⟩ := exists_sign more
    obtain ⟨ds, afterDigits, hds, rfl, all⟩ := exists_span isDigit afterSign
    simp only [hs, digits, hds] at h
    split at h
    · split at h <;> cases h
    · rename_i h₁
      cases h
      exact ⟨rfl, by simp, ⟨m, e :: (s ++ ds), number, .some he signed all h₁, by simp⟩, by simp⟩
  · cases h
    exact ⟨rfl, rfl, plain, List.prefix_rfl⟩

/-- Nothing longer is a number. -/
theorem scanNumber_longest {k : TokenKind} {v text rest : List Char}
    (hv : TokenKind.number.Matches v) (h : scanNumber (v ++ cs) = .lexeme k text rest)
    (h₀ : (mantissa (v ++ cs)).1 ≠ []) : v <+: text := by
  obtain ⟨m, x, hm, hx, rfl⟩ := hv
  cases hx with
  | none =>
    rw [List.append_nil] at h h₀ ⊢
    exact (hm.isPrefix cs).trans (scanNumber_matches h h₀).2.2.2
  | @some e s ds he hs hd hds =>
    have found := scanNumber_exponent hm he hs hd hds cs
    simp only [List.append_assoc, List.cons_append] at h
    rw [found] at h
    cases h
    simp

/-- A number is read as a whole where no character follows that may continue one. -/
theorem scanNumber_append {v : List Char} (hv : TokenKind.number.Matches v)
    (hc : ∀ c ∈ cs.head?, ¬ (isDigit c ∨ c = '.') ∧ ¬ (c = 'e' ∨ c = 'E')) :
    scanNumber (v ++ cs) = .lexeme .number v cs := by
  obtain ⟨m, x, hm, hx, rfl⟩ := hv
  cases hx with
  | none =>
    have found := hm.mantissa_append fun c h => (hc c h).1
    rw [List.append_nil, scanNumber, found]
    cases cs with
    | nil => simp [hm.ne_dot]
    | cons c cs => simp [hm.ne_dot, (hc c rfl).2]
  | @some e s ds he hs hd hds =>
    have stop : digits cs = ([], cs) := span_of_head fun c h hd => (hc c h).1 (.inl hd)
    have found := scanNumber_exponent hm he hs hd hds cs
    rw [stop, List.append_nil] at found
    simpa using found

end

/-! ## Identifiers -/

section
variable {c : Char} {cs : List Char}

/-- What is read as an identifier is one. -/
theorem scanIdentifier_matches {k : TokenKind} {text rest : List Char}
    (h : scanIdentifier c cs = .lexeme k text rest) (hc : isIdentifierStart c) :
    k = .identifier ∧ c :: cs = text ++ rest ∧ TokenKind.identifier.Matches text := by
  unfold scanIdentifier at h
  by_cases hd : c = '$'
  · subst hd
    obtain ⟨ds, after, hds, rfl, dollars⟩ := exists_span (· = '$') cs
    obtain ⟨name, last, hname, rfl, part⟩ := exists_span isIdentifierPart after
    simp only [if_true, hds, hname] at h
    cases h
    have run : '$' :: ds = List.replicate (ds.length + 1) '$' :=
      congrArg ('$' :: ·) (List.eq_replicate_of_mem fun d hd => by simpa using dollars d hd)
    exact ⟨rfl, by simp, '$' :: ds, name, run ▸ .dollars ds.length, part, rfl⟩
  · obtain ⟨name, last, hname, rfl, part⟩ := exists_span isIdentifierPart cs
    simp only [hd, if_false, hname] at h
    cases h
    refine ⟨rfl, rfl, [c], name, .single ?_, part, rfl⟩
    simp only [isIdentifierStart, hd, Bool.or_eq_true, decide_eq_true_eq] at hc
    tauto

/-- The dollars and the name of an identifier are read with everything that continues them. -/
theorem scanIdentifier_dollars {n : Nat} {name : List Char} (hn : ∀ d ∈ name, isIdentifierPart d)
    (h : name ≠ [] ∨ ∀ d ∈ cs.head?, d ≠ '$') :
    scanIdentifier '$' (List.replicate n '$' ++ (name ++ cs)) =
      .lexeme .identifier ('$' :: List.replicate n '$' ++ (name ++ (cs.span isIdentifierPart).1))
        (cs.span isIdentifierPart).2 := by
  have dollars : ∀ d ∈ List.replicate n '$', decide (d = '$') := fun d hd =>
    decide_eq_true (List.eq_of_mem_replicate hd)
  have stop : ∀ d ∈ (name ++ cs).head?, ¬ decide (d = '$') := by
    cases name with
    | nil => simpa using h
    | cons d name =>
      intro d' hd' e
      obtain rfl : d = d' := by simpa using hd'
      obtain rfl : d = '$' := by simpa using e
      exact absurd (hn '$' List.mem_cons_self) (by decide)
  simp only [scanIdentifier, if_true, span_append_of_head dollars stop, span_append_of_forall hn]

/-- A character that is no dollar is read with the name behind it. -/
theorem scanIdentifier_single {name : List Char} (hc : c ≠ '$')
    (hn : ∀ d ∈ name, isIdentifierPart d) :
    scanIdentifier c (name ++ cs) = .lexeme .identifier
      (c :: (name ++ (cs.span isIdentifierPart).1)) (cs.span isIdentifierPart).2 := by
  simp only [scanIdentifier, hc, if_false, span_append_of_forall hn]
  rfl

/-- The single characters at the start of an identifier are no dollars. -/
theorem ne_dollar (h : isLetter c ∨ c = '_' ∨ c = '#') : c ≠ '$' := by
  rintro rfl
  revert h
  decide

/-- Nothing longer is an identifier. -/
theorem scanIdentifier_longest {k : TokenKind} {v more text rest : List Char}
    (hv : TokenKind.identifier.Matches v) (hm : c :: cs = v ++ more)
    (h : scanIdentifier c cs = .lexeme k text rest) : v <+: text := by
  obtain ⟨head, name, hh, hn, rfl⟩ := hv
  cases hh with
  | dollars n =>
    simp only [List.replicate_succ, List.cons_append, List.append_assoc, List.cons.injEq] at hm
    obtain ⟨rfl, rfl⟩ := hm
    cases name with
    | nil =>
      -- more dollars may follow
      have dollars : ∀ d ∈ List.replicate n '$', decide (d = '$') := fun d hd =>
        decide_eq_true (List.eq_of_mem_replicate hd)
      simp only [scanIdentifier, if_true, List.nil_append, span_append_of_forall dollars,
        Scan.lexeme.injEq] at h
      rw [← h.2.1, List.append_nil, List.replicate_succ, ← List.cons_append, List.append_assoc]
      exact List.prefix_append ..
    | cons d name =>
      rw [scanIdentifier_dollars hn (.inl (List.cons_ne_nil d name)), Scan.lexeme.injEq] at h
      rw [← h.2.1, ← List.append_assoc, List.replicate_succ]
      exact List.prefix_append ..
  | @single d hd =>
    simp only [List.cons_append, List.nil_append, List.cons.injEq] at hm
    obtain ⟨rfl, rfl⟩ := hm
    rw [scanIdentifier_single (ne_dollar hd) hn, Scan.lexeme.injEq] at h
    rw [← h.2.1, ← List.cons_append]
    exact List.prefix_append ..

/-- An identifier is read as a whole where no character follows that may continue one. -/
theorem scanIdentifier_append {v : List Char} (hv : TokenKind.identifier.Matches (c :: v))
    (hc : ∀ d ∈ cs.head?, ¬ isIdentifierPart d ∧ d ≠ '$') :
    scanIdentifier c (v ++ cs) = .lexeme .identifier (c :: v) cs := by
  have stop : cs.span isIdentifierPart = ([], cs) := span_of_head fun d hd => (hc d hd).1
  obtain ⟨head, name, hh, hn, hv⟩ := hv
  cases hh with
  | dollars n =>
    simp only [List.replicate_succ, List.cons_append, List.cons.injEq] at hv
    obtain ⟨rfl, rfl⟩ := hv
    rw [List.append_assoc, scanIdentifier_dollars hn (.inr fun d hd => (hc d hd).2), stop,
      List.append_nil, List.cons_append]
  | @single d hd =>
    simp only [List.cons_append, List.nil_append, List.cons.injEq] at hv
    obtain ⟨rfl, rfl⟩ := hv
    rw [scanIdentifier_single (ne_dollar hd) hn, stop, List.append_nil]

end

/-! ## Lexemes -/

section
variable {k : TokenKind} {c : Char} {cs text rest : List Char}

/-- Each class has its scanner. -/
def TokenKind.scanner : TokenKind → Char → List Char → Scan
  | number, c, cs => scanNumber (c :: cs)
  | operator, c, cs => .lexeme .operator [c] cs
  | identifier, c, cs => scanIdentifier c cs

theorem scan_of_starts (h : k.Starts c) (cs : List Char) : scan c cs = k.scanner c cs := by
  cases k with
  | number => exact if_pos h
  | operator =>
    have number := not_isDigit_of_mem_operators (List.contains_iff_mem.1 h)
    exact (if_neg number).trans (if_pos h)
  | identifier =>
    have number : ¬ (isDigit c ∨ c = '.') := fun h' => not_isIdentifierStart_of_isDigit h' h
    have operator : ¬ isOperator c := fun h' =>
      not_isIdentifierStart_of_mem_operators (List.contains_iff_mem.1 h') h
    exact (if_neg number).trans ((if_neg operator).trans (if_pos h))

/-- What is scanned starts as its class does. -/
theorem exists_starts (h : scan c cs = .lexeme k text rest) : ∃ k' : TokenKind, k'.Starts c := by
  unfold scan at h
  split at h
  · exact ⟨.number, ‹_›⟩
  split at h
  · exact ⟨.operator, ‹_›⟩
  split at h
  · exact ⟨.identifier, ‹_›⟩
  · cases h

/-- What is scanned is the start of the text, and belongs to its class. -/
theorem scan_matches (h : scan c cs = .lexeme k text rest) :
    c :: cs = text ++ rest ∧ k.Matches text := by
  obtain ⟨k', hk⟩ := exists_starts h
  rw [scan_of_starts hk] at h
  cases k' with
  | number =>
    obtain ⟨rfl, split, hm, -⟩ := scanNumber_matches h (mantissa_ne_nil hk)
    exact ⟨split, hm⟩
  | operator =>
    cases h
    exact ⟨rfl, c, List.contains_iff_mem.1 hk, rfl⟩
  | identifier =>
    obtain ⟨rfl, split, hm⟩ := scanIdentifier_matches h hk
    exact ⟨split, hm⟩

/-- Nothing longer at the start of the text belongs to any class. -/
theorem scan_longest {k' : TokenKind} {v : List Char} (h : scan c cs = .lexeme k text rest)
    (hv : k'.Matches v) (hp : v <+: c :: cs) : v <+: text := by
  obtain ⟨more, hp⟩ := hp
  obtain ⟨c', v', rfl, starts⟩ := hv.exists_cons
  obtain ⟨rfl, -⟩ := List.cons.inj hp
  rw [scan_of_starts starts] at h
  cases k' with
  | number =>
    rw [TokenKind.scanner, ← hp] at h
    exact scanNumber_longest hv h (by rw [hp]; exact mantissa_ne_nil starts)
  | operator =>
    obtain ⟨c'', -, e⟩ := hv
    cases e
    cases h
    exact List.prefix_rfl
  | identifier => exact scanIdentifier_longest hv hp.symm h

/-- Where a text of a class ends for certain: blanks and operators continue nothing. -/
def Separates (c : Char) : Prop := isBlank c ∨ isOperator c

theorem Separates.not_continues {c : Char} (h : Separates c) :
    (¬ (isDigit c ∨ c = '.') ∧ ¬ (c = 'e' ∨ c = 'E')) ∧ ¬ isIdentifierPart c ∧ c ≠ '$' := by
  have all : (operators ++ ['\t', ' ', '\u00a0']).all fun c =>
      (!(isDigit c || c = '.') && !(c = 'e' || c = 'E')) && !isIdentifierPart c && c ≠ '$' := by
    decide
  have mem : c ∈ operators ++ ['\t', ' ', '\u00a0'] := by
    refine List.mem_append.2 (h.symm.imp List.contains_iff_mem.1 fun h => ?_)
    simpa [isBlank, or_assoc] using h
  simpa [and_assoc] using List.all_eq_true.1 all c mem

/-- A text of a class is scanned as a whole if a blank, an operator or nothing follows it. What
follows an operator does not matter. -/
theorem scan_append {v : List Char} (hv : k.Matches (c :: v))
    (hc : k = .operator ∨ ∀ d ∈ cs.head?, Separates d) :
    scan c (v ++ cs) = .lexeme k (c :: v) cs := by
  obtain ⟨c', v', e, starts⟩ := hv.exists_cons
  cases e
  rw [scan_of_starts starts]
  cases k with
  | number =>
    have hc := hc.resolve_left nofun
    exact scanNumber_append hv fun d hd => (hc d hd).not_continues.1
  | operator =>
    obtain ⟨c', -, e⟩ := hv
    cases e
    rfl
  | identifier =>
    have hc := hc.resolve_left nofun
    exact scanIdentifier_append hv fun d hd => (hc d hd).not_continues.2

/-- Texts of a class start with no blank. -/
theorem TokenKind.Starts.not_isBlank (h : k.Starts c) : ¬ isBlank c := by
  intro hb
  have all : ['\t', ' ', '\u00a0'].all fun c =>
      !(isDigit c || c = '.') && !isOperator c && !isIdentifierStart c := by decide
  have none : ¬ (isDigit c ∨ c = '.') ∧ ¬ isOperator c ∧ ¬ isIdentifierStart c := by
    simpa [and_assoc] using List.all_eq_true.1 all c (by simpa [isBlank, or_assoc] using hb)
  cases k with
  | number => exact none.1 h
  | operator => exact none.2.1 h
  | identifier => exact none.2.2 h

end

end ProcessGraph.Formula
