import Mathlib.Data.Nat.Find
import ProcessGraph.Proofs.Formula.Tokenization

/-!
# Where the lexer fails

The places of a text are described without the lexer. Tokenization takes off a blank or the longest
token (`Takes`) and comes to the place behind it (`Reaches`). A place is faulty if the text there
starts with a character that starts no token, with a lone dot, or with a number whose exponent
breaks off (`FaultAt`).

* `exists_scan_fault_iff`: the scanner fails where the text is faulty, with the same fault.
* `readToken_eq_fault`, `readToken_of_faultAt`: so does the reading of one token, behind blanks.
* `firstFault_append`: what is taken off moves the first faulty place.
* `readTokens_fault_iff`: the loop stops at the first faulty place, and nowhere else.
-/

set_option autoImplicit false

namespace ProcessGraph.Formula

/-! ## Faulty texts -/

/-- A sign, or none: then no sign follows. -/
def IsSignBefore (s rest : List Char) : Prop :=
  s = ['+'] ∨ s = ['-'] ∨ s = [] ∧ ∀ c ∈ rest.head?, c ≠ '+' ∧ c ≠ '-'

/-- The start of a text is no token: the fault, and its offset in the text. The text of an exponent
that is not finished has no offending character. -/
inductive FaultAt : List Char → SyntaxFault → Option Nat → Prop
  | unknownCharacter {c rest} : ¬ isBlank c →
      (∀ (kind : TokenKind) (w : List Char), kind.Matches w → w.head? ≠ some c) →
      FaultAt (c :: rest) (.unknownCharacter c) (some 0)
  | loneDot {rest} : (∀ c ∈ rest.head?, ¬ isDigit c) → FaultAt ('.' :: rest) .loneDot (some 0)
  | badExponent {m e s c rest} : IsMantissa m → e = 'e' ∨ e = 'E' → IsSignBefore s (c :: rest) →
      ¬ isDigit c →
      FaultAt (m ++ e :: (s ++ c :: rest)) (.badExponent c) (some (m.length + 1 + s.length))
  | unfinishedExponent {m e s} : IsMantissa m → e = 'e' ∨ e = 'E' → IsSignBefore s [] →
      FaultAt (m ++ e :: s) .unfinishedExponent none

theorem FaultAt.not_nil {f : SyntaxFault} {o : Option Nat} : ¬ FaultAt [] f o := by
  intro h
  generalize hcs : ([] : List Char) = cs at h
  cases h <;> simp at hcs

/-! ## The scanner -/

/-- A run of characters ends at a character that is not of its kind. -/
theorem not_of_span {p : Char → Bool} {cs w rest : List Char} {c : Char}
    (h : cs.span p = (w, c :: rest)) : ¬ p c := by
  rw [List.span_eq_takeWhile_dropWhile, Prod.mk.injEq] at h
  have := List.head?_dropWhile_not p cs
  simpa [h.2] using this

section
variable {c : Char} {cs : List Char} {f : SyntaxFault} {o : Option Nat}

/-- Each character that may start a token starts one. -/
theorem TokenKind.Starts.exists_matches {kind : TokenKind} (h : kind.Starts c) :
    ∃ w, kind.Matches w ∧ w.head? = some c := by
  cases kind with
  | number =>
    rcases h with h | rfl
    · exact ⟨[c], ⟨[c], [], .whole (by simpa [AllDigits] using h) (by simp), .none, rfl⟩, rfl⟩
    · exact ⟨['.', '0'], ⟨['.', '0'], [],
        @IsMantissa.pointed [] ['0'] (by simp [AllDigits]) (by simp [AllDigits]; decide)
          (by simp), .none, rfl⟩, rfl⟩
  | operator => exact ⟨[c], ⟨c, List.contains_iff_mem.1 h, rfl⟩, rfl⟩
  | identifier =>
    refine ⟨[c], ⟨[c], [], ?_, by simp, rfl⟩, rfl⟩
    by_cases hc : c = '$'
    · exact hc ▸ .dollars 0
    · refine .single ?_
      simp only [TokenKind.Starts, isIdentifierStart, hc, Bool.or_eq_true, decide_eq_true_eq] at h
      tauto

theorem sign_eq_iff {s rest : List Char} :
    sign cs = (s, rest) ↔ cs = s ++ rest ∧ IsSignBefore s rest := by
  constructor
  · intro h
    unfold sign at h
    split at h
    · cases h
      exact ⟨rfl, .inl rfl⟩
    · cases h
      exact ⟨rfl, .inr (.inl rfl)⟩
    · rename_i plus minus
      cases h
      refine ⟨rfl, .inr (.inr ⟨rfl, fun c hc => ?_⟩)⟩
      obtain ⟨rest', rfl⟩ := List.head?_eq_some_iff.1 hc
      exact ⟨fun e => plus rest' (by rw [e]), fun e => minus rest' (by rw [e])⟩
  · rintro ⟨rfl, rfl | rfl | ⟨rfl, h⟩⟩
    · rfl
    · rfl
    · unfold sign
      split
      · exact absurd rfl (h '+' (by simp_all)).1
      · exact absurd rfl (h '-' (by simp_all)).2
      · rfl

/-- A number on which the scanner fails is faulty. -/
theorem faultAt_of_scanNumber {seen : Nat} (h : scanNumber cs = .fault f o seen)
    (h₀ : (mantissa cs).1 ≠ []) : FaultAt cs f o := by
  obtain ⟨m, after, hm, rfl, found⟩ := exists_mantissa cs
  simp only [scanNumber, hm] at h h₀
  split at h
  · rename_i dot
    subst dot
    cases h
    refine .loneDot fun d hd digit => ?_
    -- with a digit behind it the dot would start a longer mantissa
    obtain ⟨more, rfl⟩ := List.head?_eq_some_iff.1 hd
    have longer : IsMantissa ['.', d] :=
      @IsMantissa.pointed [] [d] (by simp [AllDigits]) (by simpa [AllDigits] using digit)
        (by simp)
    have := (longer.isPrefix more).length_le
    simp only [List.cons_append, List.nil_append] at this hm
    simp [hm] at this
  rename_i dot
  have number : IsMantissa m := (found.resolve_left h₀).resolve_left dot
  split at h
  · cases h
  split at h
  · rename_i e more he
    obtain ⟨s, afterSign, hs⟩ : ∃ s afterSign, sign more = (s, afterSign) := ⟨_, _, rfl⟩
    obtain ⟨rfl, signed⟩ := sign_eq_iff.1 hs
    obtain ⟨ds, afterDigits, hds, rfl, all⟩ := exists_span isDigit afterSign
    simp only [hs, digits, hds] at h
    split at h
    · rename_i none
      subst none
      split at h
      · rename_i ended
        cases h
        rw [ended, List.append_nil]
        exact .unfinishedExponent number he (ended ▸ signed)
      · rename_i c rest next
        cases h
        obtain rfl : afterDigits = c :: rest := next
        exact .badExponent number he signed (not_of_span hds)
    · cases h
  · cases h

/-- The scanner fails on a lone dot. -/
theorem scanNumber_dot (h : ∀ d ∈ cs.head?, ¬ isDigit d) :
    scanNumber ('.' :: cs) = .fault .loneDot (some 0) 1 := by
  have found : mantissa ('.' :: cs) = (['.'], cs) := by
    have noDigits : AllDigits [] := by simp [AllDigits]
    have := mantissa_pointed noDigits cs
    rwa [digits, span_of_head h] at this
  simp [scanNumber, found]

/-- The scanner fails behind the sign of an exponent without digits. -/
theorem scanNumber_broken {m s : List Char} {e : Char} (hm : IsMantissa m)
    (he : e = 'e' ∨ e = 'E') (hs : IsSignBefore s cs) (h : ∀ d ∈ cs.head?, ¬ isDigit d) :
    scanNumber (m ++ e :: (s ++ cs)) =
      match cs with
      | [] => .fault .unfinishedExponent none (m.length + 1 + s.length)
      | c :: _ =>
        .fault (.badExponent c) (some (m.length + 1 + s.length)) (m.length + 1 + s.length) := by
  have found : mantissa (m ++ e :: (s ++ cs)) = (m, e :: (s ++ cs)) := by
    refine hm.mantissa_append fun c hc => ?_
    obtain rfl : e = c := by simpa using hc
    rcases he with rfl | rfl <;> decide
  have none : digits cs = ([], cs) := span_of_head h
  simp only [scanNumber, found, hm.ne_dot, if_false, he, if_true, sign_eq_iff.2 ⟨rfl, hs⟩, none]
  cases cs <;> rfl

/-- The scanner fails on a character that starts no token. -/
theorem scan_of_not_starts (h : ∀ kind : TokenKind, ¬ kind.Starts c) :
    scan c cs = .fault (.unknownCharacter c) (some 0) 0 := by
  have number : ¬ (isDigit c ∨ c = '.') := h .number
  have operator : ¬ isOperator c := h .operator
  have identifier : ¬ isIdentifierStart c := h .identifier
  rw [scan, if_neg number, if_neg operator, if_neg identifier]

/-- A character on which the scanner fails starts a faulty text. -/
theorem faultAt_of_scan {seen : Nat} (hc : ¬ isBlank c) (h : scan c cs = .fault f o seen) :
    FaultAt (c :: cs) f o := by
  by_cases starts : ∃ kind : TokenKind, kind.Starts c
  · obtain ⟨kind, starts⟩ := starts
    rw [scan_of_starts starts] at h
    cases kind with
    | number => exact faultAt_of_scanNumber h (mantissa_ne_nil starts)
    | operator => cases h
    | identifier => simp [TokenKind.scanner, scanIdentifier] at h
  · rw [scan_of_not_starts fun kind hk => starts ⟨kind, hk⟩] at h
    cases h
    refine .unknownCharacter hc fun kind w hw hd => starts ⟨kind, ?_⟩
    obtain ⟨c', rest, rfl, hk⟩ := hw.exists_cons
    cases hd
    exact hk

/-- A mantissa starts as numbers do. -/
theorem IsMantissa.starts {m rest : List Char} (hm : IsMantissa m) (h : c :: cs = m ++ rest) :
    TokenKind.number.Starts c := by
  obtain ⟨c', m', rfl, hk⟩ := TokenKind.Matches.exists_cons (k := .number)
    ⟨m, [], hm, .none, (List.append_nil m).symm⟩
  cases h
  exact hk

/-- The scanner fails where the text is faulty, with the same fault. -/
theorem FaultAt.scan_eq (h : FaultAt (c :: cs) f o) : ∃ seen, scan c cs = .fault f o seen := by
  generalize htext : c :: cs = text at h
  have number (hk : TokenKind.number.Starts c) : scan c cs = scanNumber text := by
    rw [scan_of_starts hk, TokenKind.scanner, htext]
  cases h with
  | unknownCharacter _ none =>
    cases htext
    refine ⟨0, scan_of_not_starts fun kind hk => ?_⟩
    obtain ⟨w, hw, hd⟩ := hk.exists_matches
    exact none kind w hw hd
  | loneDot next =>
    cases htext
    exact ⟨1, (number (.inr rfl)).trans (scanNumber_dot next)⟩
  | badExponent hm he hs next =>
    have broken := scanNumber_broken hm he hs (by simpa using next)
    exact ⟨_, (number (hm.starts htext)).trans broken⟩
  | unfinishedExponent hm he hs =>
    have broken := scanNumber_broken hm he hs (by simp)
    rw [List.append_nil] at broken
    exact ⟨_, (number (hm.starts htext)).trans broken⟩

theorem FaultAt.not_isBlank (h : FaultAt (c :: cs) f o) : ¬ isBlank c := by
  generalize htext : c :: cs = text at h
  cases h with
  | unknownCharacter hc _ =>
    cases htext
    exact hc
  | loneDot _ =>
    cases htext
    decide
  | badExponent hm _ _ _ => exact (hm.starts htext).not_isBlank
  | unfinishedExponent hm _ _ => exact (hm.starts htext).not_isBlank

/-- A text has one fault only. -/
theorem FaultAt.unique {f' : SyntaxFault} {o' : Option Nat} (h : FaultAt cs f o)
    (h' : FaultAt cs f' o') : f' = f ∧ o' = o := by
  cases cs with
  | nil => exact absurd h FaultAt.not_nil
  | cons c cs =>
    obtain ⟨seen, hscan⟩ := h.scan_eq
    obtain ⟨seen', hscan'⟩ := h'.scan_eq
    rw [hscan] at hscan'
    cases hscan'
    exact ⟨rfl, rfl⟩

end

/-! ## One token -/

section
variable {i stop : Nat} {cs rest blanks : List Char} {f : SyntaxFault} {o : Option Nat}

/-- Where the reading of a token fails, there are blanks and then a faulty text. -/
theorem readToken_eq_fault {e : LexicalFault} (h : readToken i cs = .fault e stop) :
    ∃ blanks rest f o, cs = blanks ++ rest ∧ (∀ c ∈ blanks, isBlank c) ∧ FaultAt rest f o ∧
      e = ⟨f, o.map (i + blanks.length + ·)⟩ := by
  obtain ⟨blanks, after, hb, rfl, all⟩ := exists_span isBlank cs
  simp only [readToken, hb] at h
  split at h
  · cases h
  · rename_i c more
    split at h
    · cases h
    · rename_i f o seen hscan
      cases h
      exact ⟨blanks, c :: more, f, o, rfl, all, faultAt_of_scan (not_of_span hb) hscan, rfl⟩

/-- Blanks in front of a faulty text are skipped, and then the reading fails. -/
theorem readToken_of_faultAt (hb : ∀ c ∈ blanks, isBlank c) (h : FaultAt rest f o) :
    ∃ stop, readToken i (blanks ++ rest) = .fault ⟨f, o.map (i + blanks.length + ·)⟩ stop := by
  cases rest with
  | nil => exact absurd h FaultAt.not_nil
  | cons c more =>
    have skip : (blanks ++ c :: more).span isBlank = (blanks, c :: more) :=
      span_append_of_head hb (by simpa using h.not_isBlank)
    obtain ⟨seen, hscan⟩ := h.scan_eq
    simp only [readToken, skip, hscan, Reading.fault.injEq, true_and, exists_eq']

end

/-! ## Places -/

/-- The text starts with the token `w`, and with none that is longer. -/
structure IsLongest (w cs : List Char) : Prop where
  isToken : ∃ kind : TokenKind, kind.Matches w
  isStart : w <+: cs
  longest : ∀ (kind : TokenKind) (v : List Char), kind.Matches v → v <+: cs → v.length ≤ w.length

/-- What tokenization takes off a text: a blank, or else the longest token. -/
inductive Takes : List Char → List Char → Prop
  | blank {c cs} : isBlank c → Takes [c] (c :: cs)
  | token {w cs} : IsLongest w cs → Takes w cs

/-- Tokenization of a text comes to the place `k`, where `rest` is left. -/
inductive ComesTo : List Char → Nat → List Char → Prop
  | start {cs} : ComesTo cs 0 cs
  | step {w cs k rest} : Takes w (w ++ cs) → ComesTo cs k rest →
      ComesTo (w ++ cs) (w.length + k) rest

/-- The first faulty place that tokenization comes to. -/
structure FirstFault (cs : List Char) (k : Nat) (f : SyntaxFault) (o : Option Nat) : Prop where
  faulty : ∃ rest, ComesTo cs k rest ∧ FaultAt rest f o
  first : ∀ k' rest f' o', ComesTo cs k' rest → FaultAt rest f' o' → k ≤ k'

section
variable {w w' cs rest blanks : List Char} {k : Nat} {f : SyntaxFault} {o : Option Nat}

theorem Takes.ne_nil (h : Takes w cs) : w ≠ [] := by
  cases h with
  | blank => simp
  | token h =>
    obtain ⟨kind, hw⟩ := h.isToken
    obtain ⟨c, more, rfl, -⟩ := hw.exists_cons
    simp

theorem IsLongest.not_isBlank {c : Char} (h : IsLongest w (c :: cs)) : ¬ isBlank c := by
  obtain ⟨kind, hw⟩ := h.isToken
  obtain ⟨c', more, rfl, starts⟩ := hw.exists_cons
  obtain ⟨rfl, -⟩ := List.cons_prefix_cons.1 h.isStart
  exact starts.not_isBlank

/-- There is one way only to go on from a place. -/
theorem Takes.unique (h : Takes w cs) (h' : Takes w' cs) : w = w' := by
  cases h with
  | blank hc =>
    cases h' with
    | blank => rfl
    | token h' => exact absurd hc h'.not_isBlank
  | token h =>
    cases h' with
    | blank hc => exact absurd hc h.not_isBlank
    | token h' =>
      obtain ⟨kind, hw⟩ := h.isToken
      obtain ⟨kind', hw'⟩ := h'.isToken
      have same : w.length = w'.length :=
        Nat.le_antisymm (h'.longest kind w hw h.isStart) (h.longest kind' w' hw' h'.isStart)
      rw [List.prefix_iff_eq_take.1 h.isStart, List.prefix_iff_eq_take.1 h'.isStart, same]

theorem comesTo_nil (h : ComesTo [] k rest) : rest = [] := by
  generalize hcs : ([] : List Char) = cs at h
  cases h with
  | start => rfl
  | step taken _ => exact absurd (List.append_eq_nil_iff.1 hcs.symm).1 taken.ne_nil

/-- Behind the start, the places of a text are those of what is left of it. -/
theorem comesTo_append_iff (taken : Takes w (w ++ cs)) : ComesTo (w ++ cs) k rest ↔
    k = 0 ∧ rest = w ++ cs ∨ ∃ k', k = w.length + k' ∧ ComesTo cs k' rest := by
  constructor
  · intro h
    generalize htext : w ++ cs = text at h
    cases h with
    | start => exact .inl ⟨rfl, rfl⟩
    | @step w' cs' k' _ taken' h =>
      rw [htext] at taken
      obtain rfl := taken.unique taken'
      obtain rfl := List.append_cancel_left htext
      exact .inr ⟨k', rfl, h⟩
  · rintro (⟨rfl, rfl⟩ | ⟨k', rfl, h⟩)
    · exact .start
    · exact .step taken h

theorem not_firstFault_nil : ¬ FirstFault [] k f o := by
  rintro ⟨⟨rest, h, faulty⟩, -⟩
  obtain rfl := comesTo_nil h
  exact FaultAt.not_nil faulty

theorem comesTo_zero (h : ComesTo cs 0 rest) : rest = cs := by
  generalize hk : 0 = k at h
  cases h with
  | start => rfl
  | step taken _ =>
    have := List.length_pos_iff.2 taken.ne_nil
    omega

/-- Where the text itself is faulty, its start is the first faulty place. -/
theorem firstFault_of_faultAt {f' : SyntaxFault} {o' : Option Nat} (h : FaultAt cs f o) :
    FirstFault cs k f' o' ↔ k = 0 ∧ f' = f ∧ o' = o := by
  constructor
  · intro hf
    obtain rfl : k = 0 := Nat.le_zero.1 (hf.first 0 cs f o .start h)
    obtain ⟨rest, come, faulty⟩ := hf.faulty
    obtain rfl := comesTo_zero come
    exact ⟨rfl, h.unique faulty⟩
  · rintro ⟨rfl, rfl, rfl⟩
    exact ⟨⟨cs, .start, h⟩, fun _ _ _ _ _ _ => Nat.zero_le _⟩

/-- What is taken off moves the first faulty place. -/
theorem firstFault_append (taken : Takes w (w ++ cs)) (sound : ∀ f o, ¬ FaultAt (w ++ cs) f o) :
    FirstFault (w ++ cs) k f o ↔ ∃ k', k = w.length + k' ∧ FirstFault cs k' f o := by
  constructor
  · rintro ⟨⟨rest, come, faulty⟩, first⟩
    rcases (comesTo_append_iff taken).1 come with ⟨rfl, rfl⟩ | ⟨k', rfl, later⟩
    · exact absurd faulty (sound f o)
    · refine ⟨k', rfl, ⟨rest, later, faulty⟩, fun k₁ rest₁ f₁ o₁ come₁ faulty₁ => ?_⟩
      have := first (w.length + k₁) rest₁ f₁ o₁ (.step taken come₁) faulty₁
      omega
  · rintro ⟨k', rfl, ⟨rest, come, faulty⟩, first⟩
    refine ⟨⟨rest, .step taken come, faulty⟩, fun k₁ rest₁ f₁ o₁ come₁ faulty₁ => ?_⟩
    rcases (comesTo_append_iff taken).1 come₁ with ⟨rfl, rfl⟩ | ⟨k₂, rfl, later⟩
    · exact absurd faulty₁ (sound f₁ o₁)
    · have := first k₂ rest₁ f₁ o₁ later faulty₁
      omega

theorem firstFault_blanks (hb : ∀ c ∈ blanks, isBlank c) :
    FirstFault (blanks ++ cs) k f o ↔ ∃ k', k = blanks.length + k' ∧ FirstFault cs k' f o := by
  induction blanks generalizing k with
  | nil => simp
  | cons b blanks ih =>
    obtain ⟨blank, hb⟩ := List.forall_mem_cons.1 hb
    have step : FirstFault ([b] ++ (blanks ++ cs)) k f o ↔ _ := firstFault_append
      (.blank blank) fun f o faulty => faulty.not_isBlank blank
    simp only [List.cons_append, List.nil_append, List.length_singleton] at step
    rw [List.cons_append, step]
    simp only [ih hb, List.length_cons]
    constructor
    · rintro ⟨-, rfl, k', rfl, h⟩
      exact ⟨k', by omega, h⟩
    · rintro ⟨k', rfl, h⟩
      exact ⟨blanks.length + k', by omega, k', rfl, h⟩

theorem not_firstFault_of_blanks (hb : ∀ c ∈ blanks, isBlank c) : ¬ FirstFault blanks k f o := by
  rw [← List.append_nil blanks, firstFault_blanks hb]
  rintro ⟨k', -, h⟩
  exact not_firstFault_nil h

/-- If there is a faulty place, there is a first one. -/
theorem exists_firstFault (come : ComesTo cs k rest) (faulty : FaultAt rest f o) :
    ∃ k f o, FirstFault cs k f o := by
  classical
  have places : ∃ k rest f o, ComesTo cs k rest ∧ FaultAt rest f o :=
    ⟨k, rest, f, o, come, faulty⟩
  obtain ⟨rest, f, o, come, faulty⟩ := Nat.find_spec places
  exact ⟨_, f, o, ⟨rest, come, faulty⟩, fun k' rest' f' o' come' faulty' =>
    Nat.find_min' places ⟨rest', f', o', come', faulty'⟩⟩

end

/-! ## All tokens -/

/-- The loop fails at the first faulty place, and only if there is one. -/
theorem readTokens_fault_iff {fuel i : Nat} {cs : List Char} {e : LexicalFault}
    (hf : cs.length < fuel) : (readTokens fuel i cs).2.1 = some e ↔
      ∃ k f o, FirstFault cs k f o ∧ e = ⟨f, o.map (i + k + ·)⟩ := by
  induction fuel generalizing i cs with
  | zero => omega
  | succ fuel ih =>
    cases hread : readToken i cs with
    | finished stop =>
      have none {k f o} := not_firstFault_of_blanks (k := k) (f := f) (o := o)
        (readToken_eq_finished hread).1
      simp [readTokens, hread, none]
    | fault e' stop =>
      obtain ⟨blanks, rest, f, o, rfl, hb, faulty, rfl⟩ := readToken_eq_fault hread
      simp only [readTokens, hread, firstFault_blanks hb, firstFault_of_faultAt faulty]
      constructor
      · intro h
        cases h
        exact ⟨_, f, o, ⟨0, rfl, rfl, rfl, rfl⟩, rfl⟩
      · rintro ⟨-, -, -, ⟨-, rfl, rfl, rfl, rfl⟩, rfl⟩
        rfl
    | token t stop rest =>
      obtain ⟨blanks, w, rfl, hb, -, first, last, rfl, hw, kind, longest⟩ :=
        readToken_eq_token hread
      have taken : Takes w (w ++ rest) := .token ⟨⟨_, kind⟩, List.prefix_append .., fun k v hv hp =>
        (longest k v hv hp).length_le⟩
      have sound (f : SyntaxFault) (o : Option Nat) : ¬ FaultAt (w ++ rest) f o := by
        intro faulty
        obtain ⟨stop, failed⟩ := readToken_of_faultAt (i := i) hb faulty
        rw [hread] at failed
        cases failed
      have shorter : rest.length < fuel := by
        have := List.length_pos_iff.2 hw
        simp only [List.length_append] at hf
        omega
      simp only [readTokens, hread, ih shorter, firstFault_blanks hb, firstFault_append taken sound,
        last, first]
      constructor
      · rintro ⟨k, f, o, h, rfl⟩
        exact ⟨_, f, o, ⟨_, rfl, k, rfl, h⟩, by simp only [Nat.add_assoc]⟩
      · rintro ⟨-, f, o, ⟨-, rfl, k, rfl, h⟩, rfl⟩
        exact ⟨k, f, o, h, by simp only [Nat.add_assoc]⟩

/-- To tokenize fails where the loop stops at a fault. -/
theorem Lexer.tokenize_eq_error {l : Lexer} {e : SyntaxError} :
    l.tokenize.1 = .error e ↔ ∃ x,
      (readTokens (l.rest.length + 1) l.consumed l.rest).2.1 = some x ∧ e = x.toError l.text := by
  unfold tokenize
  split
  · rename_i stopped
    simp [stopped]
  · rename_i stopped
    simp [stopped, eq_comm]

/-- Tokenizing fails if and only if longest-match tokenization comes to a faulty place. It fails at
the first one, with the fault that the text has there. -/
theorem tokenize_fails_first (text : String) :
    ((∃ e, (Lexer.ofText text).tokenize.1 = .error e) ↔
      ∃ k rest f o, ComesTo text.toList k rest ∧ FaultAt rest f o) ∧
    ∀ e, (Lexer.ofText text).tokenize.1 = .error e ↔
      ∃ k f o, FirstFault text.toList k f o ∧ e = ⟨f, o.map (k + ·), text, []⟩ := by
  have exact (e : SyntaxError) : (Lexer.ofText text).tokenize.1 = .error e ↔
      ∃ k f o, FirstFault text.toList k f o ∧ e = ⟨f, o.map (k + ·), text, []⟩ := by
    simp only [Lexer.tokenize_eq_error, readTokens_fault_iff (Nat.lt_succ_self _)]
    constructor
    · rintro ⟨-, ⟨k, f, o, h, rfl⟩, rfl⟩
      exact ⟨k, f, o, h, by simp [LexicalFault.toError, Lexer.ofText]⟩
    · rintro ⟨k, f, o, h, rfl⟩
      exact ⟨_, ⟨k, f, o, h, rfl⟩, by simp [LexicalFault.toError, Lexer.ofText]⟩
  refine ⟨?_, exact⟩
  constructor
  · rintro ⟨e, failed⟩
    obtain ⟨k, f, o, h, -⟩ := (exact e).1 failed
    obtain ⟨rest, come, faulty⟩ := h.faulty
    exact ⟨k, rest, f, o, come, faulty⟩
  · rintro ⟨k, rest, f, o, come, faulty⟩
    obtain ⟨k, f, o, h⟩ := exists_firstFault come faulty
    exact ⟨_, (exact _).2 ⟨k, f, o, h, rfl⟩⟩

/-- Behind the blank and `a` the number is the faulty place, and `x` is the offending character. -/
example : (Lexer.ofText " a.5e+x").tokenize.1 =
    .error ⟨.badExponent 'x', some 6, " a.5e+x", []⟩ := by rfl

end ProcessGraph.Formula
