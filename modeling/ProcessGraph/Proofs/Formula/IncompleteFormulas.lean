import ProcessGraph.Proofs.Formula.LexicalFaults
import ProcessGraph.Proofs.Formula.Suggestions

/-!
# Incomplete formulas

A text is incomplete if a formula may begin with its tokens but they are none (`Incomplete`). Either
an operand is missing at its end or closing parentheses are, and the last token tells which of the
two (`feedAll_endsOperand`). As many parentheses are missing as are open on the stack of the parser,
which are those of the text that have not been closed (`openParentheses_feedAll`). They can be
appended to the text, as the lexer reads the text as before and the parentheses behind it
(`tokens_closed`).

Main statement: `parse_incomplete`.
-/

set_option autoImplicit false

namespace ProcessGraph.Formula

open ParserState

/-! ## Parentheses behind a text -/

/-- A run of characters ends before a parenthesis that is not one of them. -/
theorem span_append_closing {p : Char → Bool} (hp : ¬ p ')') (cs : List Char) :
    (cs ++ [')']).span p = ((cs.span p).1, (cs.span p).2 ++ [')']) := by
  simp only [List.span_eq_takeWhile_dropWhile]
  induction cs with
  | nil => simp [hp]
  | cons c cs ih =>
    obtain ⟨taken, left⟩ := Prod.mk.inj ih
    cases hc : p c <;> simp [hc, taken, left]

theorem digits_append_closing (cs : List Char) :
    digits (cs ++ [')']) = ((digits cs).1, (digits cs).2 ++ [')']) :=
  span_append_closing (by decide) cs

theorem mantissa_append_closing (cs : List Char) :
    mantissa (cs ++ [')']) = ((mantissa cs).1, (mantissa cs).2 ++ [')']) := by
  unfold mantissa
  rw [digits_append_closing]
  rcases digits cs with ⟨ds, rest⟩
  rcases rest with _ | ⟨c, rest⟩
  · simp
  · by_cases hc : c = '.'
    · subst hc
      simp [digits_append_closing]
    · simp [hc]

theorem sign_append_closing (cs : List Char) :
    sign (cs ++ [')']) = ((sign cs).1, (sign cs).2 ++ [')']) := by
  rcases cs with _ | ⟨c, cs⟩
  · rfl
  · by_cases plus : c = '+'
    · subst plus
      rfl
    by_cases minus : c = '-'
    · subst minus
      rfl
    simp [sign, plus, minus]

section
variable {kind : TokenKind} {c : Char} {cs text rest : List Char}

theorem scanNumber_append_closing (h : scanNumber cs = .lexeme kind text rest) :
    scanNumber (cs ++ [')']) = .lexeme kind text (rest ++ [')']) := by
  unfold scanNumber at h ⊢
  rw [mantissa_append_closing]
  generalize mantissa cs = found at h ⊢
  obtain ⟨m, after⟩ := found
  by_cases dot : m = ['.']
  · simp [dot] at h
  simp only [dot, if_false] at h ⊢
  rcases after with _ | ⟨e, more⟩
  · cases h
    rfl
  by_cases he : e = 'e' ∨ e = 'E'
  · simp only [he, if_true, List.cons_append, sign_append_closing, digits_append_closing] at h ⊢
    split at h
    · split at h <;> cases h
    · rename_i some
      cases h
      rw [if_neg some]
  · simp only [he, if_false] at h ⊢
    cases h
    simp [he]

theorem scanIdentifier_append_closing (h : scanIdentifier c cs = .lexeme kind text rest) :
    scanIdentifier c (cs ++ [')']) = .lexeme kind text (rest ++ [')']) := by
  unfold scanIdentifier at h ⊢
  by_cases hc : c = '$'
  · simp only [hc, if_true] at h ⊢
    rw [span_append_closing (by decide)]
    dsimp only
    rw [span_append_closing (by decide)]
    cases h
    rfl
  · simp only [hc, if_false] at h ⊢
    rw [span_append_closing (by decide)]
    cases h
    rfl

/-- A parenthesis behind a text does not change the lexeme at its start. -/
theorem scan_append_closing (h : scan c cs = .lexeme kind text rest) :
    scan c (cs ++ [')']) = .lexeme kind text (rest ++ [')']) := by
  unfold scan at h ⊢
  split at h
  · rename_i number
    rw [if_pos number]
    exact scanNumber_append_closing h
  rename_i number
  rw [if_neg number]
  split at h
  · rename_i operator
    rw [if_pos operator]
    cases h
    rfl
  rename_i operator
  rw [if_neg operator]
  split at h
  · rename_i identifier
    rw [if_pos identifier]
    exact scanIdentifier_append_closing h
  · cases h

end

theorem readToken_append_closing {i stop : Nat} {cs rest : List Char} {k : Token}
    (h : readToken i cs = .token k stop rest) :
    readToken i (cs ++ [')']) = .token k stop (rest ++ [')']) := by
  unfold readToken at h ⊢
  rw [span_append_closing (by decide)]
  generalize cs.span isBlank = found at h ⊢
  obtain ⟨blanks, _ | ⟨c, more⟩⟩ := found
  · cases h
  · dsimp only [List.cons_append] at h ⊢
    split at h
    · rename_i kind text rest' found
      cases h
      rw [scan_append_closing found]
    · cases h

/-- A parenthesis behind blanks. -/
theorem readToken_closing {i : Nat} {blanks : List Char} (hb : ∀ c ∈ blanks, isBlank c) :
    readToken i (blanks ++ [')']) =
      .token ⟨.operator, ")", i + blanks.length, i + blanks.length⟩ (i + blanks.length + 1) [] := by
  show readToken i (blanks ++ (")".toList ++ [])) = _
  exact readToken_append hb ⟨')', by decide, rfl⟩ (.inl rfl)

/-- The loop reads a text as before, and the parenthesis behind it. -/
theorem readTokens_append_closing {fuel i stop : Nat} {cs : List Char} {ts : List Token}
    (h : readTokens fuel i cs = (ts, none, stop)) (hf : cs.length < fuel) :
    ∃ k stop', readTokens (fuel + 1) i (cs ++ [')']) = (ts ++ [k], none, stop') ∧
      k.terminal = .closing := by
  induction fuel generalizing i cs ts with
  | zero => exact absurd hf (Nat.not_lt_zero _)
  | succ fuel ih =>
    rw [readTokens] at h
    split at h
    · rename_i last finished
      cases h
      obtain ⟨blank, rfl⟩ := readToken_eq_finished finished
      have behind : readToken (i + cs.length + 1) [] = .finished (i + cs.length + 1) :=
        readToken_blanks (List.forall_mem_nil _)
      refine ⟨⟨.operator, ")", i + cs.length, i + cs.length⟩, i + cs.length + 1, ?_, rfl⟩
      simp only [readTokens, readToken_closing blank, behind]
      rfl
    · cases h
    · rename_i k last rest found
      obtain ⟨blanks, w, split, -, -, -, -, -, width, -⟩ := readToken_eq_token found
      have shorter : rest.length < fuel := by
        have := List.length_pos_iff.2 width
        simp only [split, List.length_append] at hf
        omega
      rcases read : readTokens fuel last rest with ⟨ts', e, stop'⟩
      rw [read] at h
      cases h
      obtain ⟨k', stop', read, closing⟩ := ih read shorter
      refine ⟨k', stop', ?_, closing⟩
      rw [readTokens, readToken_append_closing found]
      simp only [read, List.cons_append]

theorem tokens_append_closing {text : String} {ts : List Token} (h : tokens text = (ts, none)) :
    ∃ k, tokens (text ++ ")") = (ts ++ [k], none) ∧ k.terminal = .closing := by
  obtain ⟨read, fine⟩ := Prod.mk.inj h
  obtain ⟨k, stop, read, closing⟩ := readTokens_append_closing
    (Prod.ext read (Prod.ext fine rfl)) (Nat.lt_succ_self text.toList.length)
  refine ⟨k, ?_, closing⟩
  have chars : (text ++ ")").toList = text.toList ++ [')'] := by simp
  simp only [tokens, chars, List.length_append, List.length_singleton, read]

/-- A text with closing parentheses behind it. -/
def closed (text : String) (n : Nat) : String := text ++ String.ofList (List.replicate n ')')

/-- The lexer reads a text as before, and the parentheses behind it. -/
theorem tokens_closed {text : String} {ts : List Token} (h : tokens text = (ts, none)) (n : Nat) :
    ∃ ks, tokens (closed text n) = (ts ++ ks, none) ∧ ks.length = n ∧
      ∀ k ∈ ks, k.terminal = .closing := by
  induction n with
  | zero => exact ⟨[], by simpa [closed] using h, rfl, List.forall_mem_nil _⟩
  | succ n ih =>
    obtain ⟨ks, read, length, closing⟩ := ih
    obtain ⟨k, read', hk⟩ := tokens_append_closing read
    have split : closed text (n + 1) = closed text n ++ ")" := by
      simp only [closed, List.replicate_succ', String.ofList_append, ← String.append_assoc]
    refine ⟨ks ++ [k], by rw [split, read', List.append_assoc], by simp [length], ?_⟩
    exact List.forall_mem_append.2 ⟨closing, List.forall_mem_singleton.2 hk⟩

/-! ## The last token -/

/-- The terminals that an operand ends with. -/
def Terminal.endsOperand (t : Terminal) : Bool :=
  t = number || t = identifier || t = superscript || t = closing

/-- The last token is the end of an operand. -/
def EndsWithOperand (ts : List Token) : Prop := ∃ k, ts.getLast? = some k ∧ k.terminal.endsOperand

section
variable {context : String} {state next : ParserState} {k : Token}

/-- The parser holds an operand after a token that an operand ends with. -/
theorem feed_endsOperand (h : state.feed k = .ok next) :
    (∃ stack t, next = operator stack t) ↔ k.terminal.endsOperand := by
  cases state with
  | operand stack =>
    simp only [feed, feedOperand] at h
    split at h <;> cases h <;> simp_all [Terminal.endsOperand]
  | operator stack u =>
    cases hk : k.terminal with
    | closing | comma =>
      rcases unwind_cases stack u with ⟨v, hu⟩ | ⟨outer, v, hu⟩ | ⟨name, ts, outer, v, hu⟩ <;>
        simp only [feed, feedOperator, hk, hu] at h <;> cases h <;> simp [Terminal.endsOperand]
    | opening =>
      cases u <;> simp only [feed, feedOperator, hk] at h <;> cases h
      simp [Terminal.endsOperand]
    | _ =>
      simp only [feed, feedOperator, hk] at h
      cases h <;> simp [Terminal.endsOperand]

/-- After some tokens, the last one tells whether the parser holds an operand. -/
theorem feedAll_endsOperand {ts : List Token} (h : feedAll context start ts = .ok state) :
    (∃ stack t, state = operator stack t) ↔ EndsWithOperand ts := by
  rcases List.eq_nil_or_concat ts with rfl | ⟨init, k, rfl⟩
  · cases h
    simp [start, EndsWithOperand]
  · obtain ⟨before, -, last⟩ := exists_of_feedAll_append (List.concat_eq_append ▸ h)
    simp only [feedAll] at last
    split at last
    · rename_i next fed
      cases last
      simp [feed_endsOperand fed, EndsWithOperand]
    · cases last

end

/-! ## Parentheses that are not closed -/

/-- The opening parentheses without the closing ones. -/
def unclosed (ts : List Token) : Nat :=
  ts.countP (·.terminal = .opening) - ts.countP (·.terminal = .closing)

def ParserState.stack : ParserState → List Frame
  | operand stack => stack
  | operator stack _ => stack

section
variable {context : String} {state next : ParserState} {k : Token}

/-- A parenthesis is on the stack from its token to the one that closes it. -/
theorem openParentheses_feed (h : state.feed k = .ok next) :
    openParentheses next.stack + [k].countP (·.terminal = .closing) =
      openParentheses state.stack + [k].countP (·.terminal = .opening) := by
  cases state with
  | operand stack =>
    simp only [feed, feedOperand] at h
    split at h <;> cases h <;>
      simp_all [ParserState.stack, openParentheses, Frame.tightness]
  | operator stack u =>
    have unwound (n : Nat) (hn : 1 ≤ n) := openParentheses_unwind hn stack u
    cases hk : k.terminal with
    | closing | comma =>
      have one := unwound 1 (by decide)
      rcases unwind_cases stack u with ⟨v, hu⟩ | ⟨outer, v, hu⟩ | ⟨name, ts, outer, v, hu⟩ <;>
        simp only [feed, feedOperator, hk, hu] at h <;> cases h <;>
        simp_all [ParserState.stack, openParentheses, Frame.tightness]
    | opening =>
      cases u <;> simp only [feed, feedOperator, hk] at h <;> cases h
      simp_all [ParserState.stack, openParentheses, Frame.tightness]
    | _ =>
      simp only [feed, feedOperator, hk] at h
      cases h <;> simp_all [ParserState.stack, openParentheses, Frame.tightness]

theorem openParentheses_feedAll {ts : List Token} (h : feedAll context state ts = .ok next) :
    openParentheses next.stack + ts.countP (·.terminal = .closing) =
      openParentheses state.stack + ts.countP (·.terminal = .opening) := by
  induction ts generalizing state with
  | nil => cases h; rfl
  | cons k ts ih =>
    simp only [feedAll] at h
    split at h
    · rename_i between fed
      have first := openParentheses_feed fed
      have rest := ih h
      rw [← List.singleton_append, List.countP_append, List.countP_append]
      omega
    · cases h

/-- As many parentheses are open as the tokens have not closed. -/
theorem openParentheses_eq_unclosed {ts : List Token} (h : feedAll context start ts = .ok state) :
    openParentheses state.stack = unclosed ts := by
  have count := openParentheses_feedAll h
  have none : openParentheses start.stack = 0 := rfl
  unfold unclosed
  omega

end

/-! ## Incomplete texts -/

/-- A formula may begin with the tokens of the text, but they are none. -/
structure Incomplete (text : String) (ts : List Token) : Prop where
  read : tokens text = (ts, none)
  begins : BeginsFormula ts
  unfinished : ¬ ∃ t, Derives .sum ts t

/-- What is reported where an operand is missing. -/
theorem endFault_operand (stack : List Frame) :
    endFault (operandTerminals stack) = .missingOperand := by
  have operand : (operandTerminals stack).any Terminal.onlyStartsOperand :=
    List.any_eq_true.2 ⟨.number, by simp [mem_operandTerminals, startsOperand,
      Terminal.onlyStartsOperand], rfl⟩
  simp [endFault, operand]

/-- After an operand, a text that ends too early lacks a parenthesis. -/
theorem endFault_operator {stack : List Frame} {u : Tree} {expected : List Terminal}
    (h : (operator stack u).finish = .error expected) : endFault expected = .missingClosing := by
  rcases unwind_cases stack u with ⟨v, hu⟩ | ⟨outer, v, hu⟩ | ⟨name, ts, outer, v, hu⟩ <;>
    simp only [finish, hu] at h <;> cases h <;> rfl

/-- The message for an end where nothing is missing is that of no other fault. -/
theorem message_ne_unexpectedEnd {f : SyntaxFault} (h : f ≠ .unexpectedEnd) :
    f.message ≠ "Unexpected end of formula" := by
  -- the messages with a parameter differ from it before the parameter
  have before {s r : String} (hs : ¬ s.toList <+: "Unexpected end of formula".toList) :
      s ++ r ≠ "Unexpected end of formula" := fun same =>
    hs ⟨r.toList, by rw [← String.toList_append, same]⟩
  cases f with
  | badExponent c =>
    have split : (SyntaxFault.badExponent c).message =
        "Unexpected character " ++ (String.singleton c ++ " after the exponent sign") :=
      String.append_assoc ..
    exact split ▸ before (by simp)
  | unknownCharacter c =>
    change "Unknown token from character " ++ String.singleton c ≠ _
    exact before (by simp)
  | unexpectedToken text =>
    change "Unexpected token " ++ text ≠ _
    exact before (by simp)
  | loneDot | unfinishedExponent | missingOperand | missingClosing => decide
  | unexpectedEnd => exact absurd rfl h

/-- The end of a text is never reported without saying what is missing. -/
theorem message_ne_of_parse {text : String} {e : SyntaxError}
    (h : parse text = .error (.malformed e)) : e.fault.message ≠ "Unexpected end of formula" := by
  refine message_ne_unexpectedEnd ?_
  cases rejection_of_parse h with
  | token => nofun
  | @ending state expected _ _ finished =>
    cases state with
    | operand stack =>
      obtain rfl := Except.error.inj finished
      simp [endFault_operand]
    | operator stack u => simp [endFault_operator finished]
  | @lexical fault _ faulty _ =>
    obtain ⟨k, f, o, first, rfl⟩ := (readTokens_fault_iff (Nat.lt_succ_self _)).1 faulty
    obtain ⟨rest, -, found⟩ := first.faulty
    cases found <;> nofun

/-- The last token of an incomplete text tells what it is reported for. -/
theorem fault_of_incomplete {text : String} {ts : List Token} (h : Incomplete text ts) :
    ∃ e, parse text = .error (.malformed e) ∧ (EndsWithOperand ts → e.fault = .missingClosing) ∧
      (¬ EndsWithOperand ts → e.fault = .missingOperand) := by
  have hlex : ∀ k ∈ ts, k.IsLexical := by simpa [h.read] using tokens_isLexical text
  obtain ⟨state, read⟩ := (beginsFormula_iff text hlex).1 h.begins
  have refused {expected : List Terminal} (finished : state.finish = .error expected) :
      parse text =
        .error (.malformed ⟨endFault expected, some text.length, text, expected⟩) := by
    simp [parse, parseSyntax, h.read, parseTokens, read, finished, bind, Except.bind]
  rw [← feedAll_endsOperand read]
  cases state with
  | operand stack => exact ⟨_, refused rfl, by simp, fun _ => endFault_operand stack⟩
  | operator stack u =>
    cases finished : (operator stack u).finish with
    | ok t => exact absurd ((derives_iff_finish hlex read).2 ⟨t, finished⟩) h.unfinished
    | error expected =>
      exact ⟨_, refused finished, fun _ => endFault_operator finished, by simp⟩

/-- Closing what is open after an operand gives a formula. -/
theorem derives_closed {text : String} {ts : List Token} (h : Incomplete text ts)
    (operand : EndsWithOperand ts) : ∃ ks t,
      tokens (closed text (unclosed ts)) = (ts ++ ks, none) ∧ ks.length = unclosed ts ∧
      (∀ k ∈ ks, k.terminal = .closing) ∧ Derives .sum (ts ++ ks) t := by
  have hlex : ∀ k ∈ ts, k.IsLexical := by simpa [h.read] using tokens_isLexical text
  obtain ⟨state, read⟩ := (beginsFormula_iff text hlex).1 h.begins
  obtain ⟨stack, u, rfl⟩ := (feedAll_endsOperand read).2 operand
  obtain ⟨ks, lexed, length, closing⟩ := tokens_closed h.read (unclosed ts)
  have all : ks.length = openParentheses stack :=
    length.trans (openParentheses_eq_unclosed read).symm
  obtain ⟨last, e, closed, finished⟩ := feedAll_closings text closing stack u all
  have hlex' : ∀ k ∈ ts ++ ks, k.IsLexical := by
    simpa [lexed] using tokens_isLexical (ProcessGraph.Formula.closed text (unclosed ts))
  obtain ⟨t, derives⟩ := (derives_iff_finish hlex' ((feedAll_append read ks).trans closed)).2
    ⟨e, finished⟩
  exact ⟨ks, t, lexed, length, closing, derives⟩

/-- An incomplete text that ends with an operand lacks closing parentheses: that is its error, and
with as many of them as it has not closed it is a formula. In any other incomplete text an operand
is missing, and that is its error. No error is about an end where nothing is missing. -/
theorem parse_incomplete (text : String) :
    (∀ ts, Incomplete text ts → ∃ e, parse text = .error (.malformed e) ∧
      (e.fault.message = "Expecting )" ↔ EndsWithOperand ts) ∧
      (e.fault.message = "Unexpected termination of expression" ↔ ¬ EndsWithOperand ts) ∧
      (EndsWithOperand ts → ∃ ts' t, tokens (closed text (unclosed ts)) = (ts', none) ∧
        Derives .sum ts' t ∧
        ((∀ k ∈ ts, ¬ k.IsOversized) → parse (closed text (unclosed ts)) = .ok (.group t)))) ∧
    ∀ e, parse text = .error (.malformed e) → e.fault.message ≠ "Unexpected end of formula" := by
  refine ⟨fun ts h => ?_, fun e => message_ne_of_parse⟩
  obtain ⟨⟨fault, position, context, expected⟩, refused, closing, missing⟩ := fault_of_incomplete h
  have differ : SyntaxFault.missingOperand.message ≠ SyntaxFault.missingClosing.message := by decide
  refine ⟨_, refused, ?_, ?_, fun operand => ?_⟩
  · by_cases operand : EndsWithOperand ts
    · obtain rfl := closing operand
      exact iff_of_true rfl operand
    · obtain rfl := missing operand
      exact iff_of_false differ operand
  · by_cases operand : EndsWithOperand ts
    · obtain rfl := closing operand
      exact iff_of_false differ.symm (not_not.2 operand)
    · obtain rfl := missing operand
      exact iff_of_true rfl operand
  · obtain ⟨ks, t, lexed, -, closing, derives⟩ := derives_closed h operand
    refine ⟨_, t, lexed, derives, fun fine => ?_⟩
    refine parse_ok_iff.2 ⟨parseSyntax_ok_iff.2 ⟨_, t, lexed, derives, rfl⟩, fun k hk => ?_⟩
    rw [lexed] at hk
    rcases List.mem_append.1 hk with hk | hk
    · exact fine k hk
    · rintro ⟨number, -⟩
      have terminal : k.terminal = .number := by simp [Token.terminal, number]
      exact absurd (terminal.symm.trans (closing k hk)) (by decide)

/-- In `f(1,(2` the parentheses of the call and of the group are missing. -/
theorem parse_incomplete_call :
    let ts : List Token := [⟨.identifier, "f", 0, 0⟩, ⟨.operator, "(", 1, 1⟩, ⟨.number, "1", 2, 2⟩,
      ⟨.operator, ",", 3, 3⟩, ⟨.operator, "(", 4, 4⟩, ⟨.number, "2", 5, 5⟩]
    Incomplete "f(1,(2" ts ∧
      (∃ e, parse "f(1,(2" = .error (.malformed e) ∧ e.fault.message = "Expecting )") ∧
      ∃ t, parse "f(1,(2))" = .ok (.group t) := by
  intro ts
  have read : tokens "f(1,(2" = (ts, none) := by decide
  have hlex : ∀ k ∈ ts, k.IsLexical := by simpa [read] using tokens_isLexical "f(1,(2"
  have fed : feedAll "f(1,(2" start ts = .ok (operator
      [.group, .call "f" [.number (Numeral.value "1")]] (.number (Numeral.value "2"))) := rfl
  have incomplete : Incomplete "f(1,(2" ts := by
    refine ⟨read, (beginsFormula_iff _ hlex).2 ⟨_, fed⟩, fun derives => ?_⟩
    obtain ⟨e, finished⟩ := (derives_iff_finish hlex fed).1 derives
    cases finished
  have operand : EndsWithOperand ts := ⟨⟨.number, "2", 5, 5⟩, rfl, rfl⟩
  obtain ⟨e, refused, closing, -, complete⟩ := (parse_incomplete "f(1,(2").1 ts incomplete
  obtain ⟨-, t, -, -, accepted⟩ := complete operand
  have small : ∀ k ∈ ts, ¬ k.IsOversized := by
    rintro k hk ⟨-, -, long⟩
    have short : ∀ k ∈ ts, k.text.length ≤ 4300 := by decide
    exact absurd (short k hk) (Nat.not_le.2 long)
  have text : closed "f(1,(2" (unclosed ts) = "f(1,(2))" := by decide
  exact ⟨incomplete, ⟨e, refused, closing.2 operand⟩, t, text ▸ accepted small⟩

end ProcessGraph.Formula
