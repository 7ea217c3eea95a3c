import ProcessGraph.Proofs.Formula.Parsing

/-!
# Where syntax errors are reported

`parse_error_leftmost`: a malformed formula is reported where the longest run of its tokens ends
that a formula may begin with (`LongestBeginning`): at the next token, at the fault of the lexer
behind the run, or at the end of the text.

Every run of tokens that the parser reads can be completed (`ParserState.exists_completion`): an
operand for the one that is missing, and then a closing parenthesis for every frame of a parenthesis
or a call. A run that it does not read cannot, by completeness of the parser.
-/

set_option autoImplicit false

namespace ProcessGraph.Formula

open ParserState

/-! ## Completing a formula -/

/-- A token that closes a parenthesis or a call. -/
def closingToken : Token := ⟨.operator, ")", 0, 0⟩

/-- A token that is an operand. -/
def operandToken : Token := ⟨.number, "1", 0, 0⟩

theorem isLexical_closingToken : closingToken.IsLexical := fun _ => ⟨')', by decide, rfl⟩

theorem isLexical_operandToken : operandToken.IsLexical := nofun

/-- The parentheses, of groups and of calls, that are open on a stack. -/
def openParentheses (stack : List Frame) : Nat := stack.countP (·.tightness = 0)

/-- Operators and signs that are closed are no parentheses. -/
theorem openParentheses_unwind {n : Nat} (hn : 1 ≤ n) (stack : List Frame) (t : Tree) :
    openParentheses (unwind n stack t).1 = openParentheses stack := by
  induction stack generalizing t with
  | nil => rfl
  | cons f stack ih =>
    unfold unwind
    split
    · rename_i tight
      have operator : ¬ f.tightness = 0 := by omega
      simpa [openParentheses, operator] using ih (f.close t)
    · rfl

/-- What is on top when all frames up to the innermost parenthesis are closed. -/
theorem unwind_cases (stack : List Frame) (t : Tree) :
    (∃ u, unwind 1 stack t = ([], u)) ∨ (∃ outer u, unwind 1 stack t = (.group :: outer, u)) ∨
      ∃ name ts outer u, unwind 1 stack t = (.call name ts :: outer, u) := by
  rcases hu : unwind 1 stack t with ⟨rest, u⟩
  have loose : LooserThan 1 rest := by
    have h := looserThan_unwind 1 stack t
    rwa [hu] at h
  cases rest with
  | nil => exact .inl ⟨u, rfl⟩
  | cons f outer =>
    have hf : f.tightness < 1 := loose f rfl
    cases f with
    | group => exact .inr (.inl ⟨outer, u, rfl⟩)
    | call name ts => exact .inr (.inr ⟨name, ts, outer, u, rfl⟩)
    | sum | product | power | sign => simp [Frame.tightness] at hf

/-- After an operand, closing all open parentheses completes the formula. -/
theorem ParserState.feedAll_closings (context : String) {ks : List Token}
    (closing : ∀ k ∈ ks, k.terminal = .closing) (stack : List Frame) (t : Tree)
    (all : ks.length = openParentheses stack) :
    ∃ state e, feedAll context (operator stack t) ks = .ok state ∧ state.finish = .ok e := by
  induction ks generalizing stack t with
  | nil =>
    rw [List.length_nil, ← openParentheses_unwind (Nat.le_refl 1) stack t] at all
    rcases unwind_cases stack t with ⟨u, hu⟩ | ⟨outer, u, hu⟩ | ⟨name, ts, outer, u, hu⟩
    · exact ⟨operator stack t, u, rfl, by simp [finish, hu]⟩
    · simp [hu, openParentheses, Frame.tightness] at all
    · simp [hu, openParentheses, Frame.tightness] at all
  | cons k ks ih =>
    obtain ⟨hk, closing⟩ := List.forall_mem_cons.1 closing
    rw [List.length_cons, ← openParentheses_unwind (Nat.le_refl 1) stack t] at all
    -- Parentheses of groups and of calls are closed in the same way.
    have feed : ∃ outer v, (operator stack t).feed k = .ok (operator outer v) ∧
        ks.length = openParentheses outer := by
      rcases unwind_cases stack t with ⟨u, hu⟩ | ⟨outer, u, hu⟩ | ⟨name, ts, outer, u, hu⟩
      · simp [hu, openParentheses] at all
      · refine ⟨outer, .group u, by simp [feed, feedOperator, hk, hu], ?_⟩
        simpa [hu, openParentheses, Frame.tightness] using all
      · refine ⟨outer, .call name (ts ++ [u]), by simp [feed, feedOperator, hk, hu], ?_⟩
        simpa [hu, openParentheses, Frame.tightness] using all
    obtain ⟨outer, v, hv, rest⟩ := feed
    obtain ⟨state, e, read, finished⟩ := ih closing outer v rest
    exact ⟨state, e, by rw [feedAll_cons hv, read], finished⟩

/-- Whatever the parser has read, there are tokens that complete the formula. -/
theorem ParserState.exists_completion (context : String) (state : ParserState) :
    ∃ more state' e, (∀ k ∈ more, k.IsLexical) ∧ feedAll context state more = .ok state' ∧
      state'.finish = .ok e := by
  have closings (stack : List Frame) (t : Tree) : ∃ more state' e, (∀ k ∈ more, k.IsLexical) ∧
      feedAll context (operator stack t) more = .ok state' ∧ state'.finish = .ok e := by
    have terminal : ∀ k ∈ List.replicate (openParentheses stack) closingToken,
        k.terminal = .closing := fun k hk => List.eq_of_mem_replicate hk ▸ rfl
    obtain ⟨state', e, read⟩ := feedAll_closings context terminal stack t List.length_replicate
    exact ⟨_, state', e, fun k hk => List.eq_of_mem_replicate hk ▸ isLexical_closingToken, read⟩
  cases state with
  | operator stack t => exact closings stack t
  | operand stack =>
    have feed : (operand stack).feed operandToken =
        .ok (operator stack (.number (Numeral.value "1"))) := rfl
    obtain ⟨more, state', e, lexical, read, finished⟩ := closings stack _
    exact ⟨operandToken :: more, state', e,
      List.forall_mem_cons.2 ⟨isLexical_operandToken, lexical⟩,
      (feedAll_cons feed _).trans read, finished⟩

/-! ## Beginnings of formulas -/

/-- The tokens can be continued to those of a formula. -/
def BeginsFormula (us : List Token) : Prop :=
  ∃ more e, (∀ k ∈ more, k.IsLexical) ∧ Derives .sum (us ++ more) e

/-- Tokens that are read are read one part after the other. -/
theorem exists_of_feedAll_append {context : String} {us vs : List Token}
    {state last : ParserState} (h : feedAll context state (us ++ vs) = .ok last) :
    ∃ next, feedAll context state us = .ok next ∧ feedAll context next vs = .ok last := by
  induction us generalizing state with
  | nil => exact ⟨state, rfl, h⟩
  | cons k us ih =>
    simp only [List.cons_append, feedAll] at h ⊢
    cases hk : state.feed k with
    | ok next => rw [hk] at h; exact ih h
    | error expected => rw [hk] at h; cases h

/-- The parser reads exactly the beginnings of formulas. -/
theorem beginsFormula_iff (context : String) {us : List Token} (hlex : ∀ k ∈ us, k.IsLexical) :
    BeginsFormula us ↔ ∃ state, feedAll context .start us = .ok state := by
  constructor
  · rintro ⟨more, e, -, he⟩
    have parsed := parseTokens_of_derives context he
    unfold parseTokens at parsed
    cases read : feedAll context .start (us ++ more) with
    | error fault => rw [read] at parsed; cases parsed
    | ok last =>
      obtain ⟨state, first, -⟩ := exists_of_feedAll_append read
      exact ⟨state, first⟩
  · rintro ⟨state, read⟩
    obtain ⟨more, state', e, hmore, read', finished⟩ := state.exists_completion context
    have holds : state'.Holds (us ++ more) := by
      have h := (ParserState.Holds.operand .nil).feedAll
        (List.forall_mem_append.2 ⟨hlex, hmore⟩) ((feedAll_append read more).trans read')
      exact h
    exact ⟨more, e, hmore, holds.finish finished⟩

/-- A formula may begin with the first `n` of the tokens, and with no more of them. -/
structure LongestBeginning (ts : List Token) (n : Nat) : Prop where
  within : n ≤ ts.length
  begins : BeginsFormula (ts.take n)
  longest : ∀ m ≤ ts.length, BeginsFormula (ts.take m) → m ≤ n

/-- A token that does not fit is the first one behind the longest beginning. -/
theorem exists_refused {context : String} {ts : List Token} {state : ParserState} {e : SyntaxError}
    (h : feedAll context state ts = .error e) :
    ∃ us k vs state' expected, ts = us ++ k :: vs ∧ feedAll context state us = .ok state' ∧
      state'.feed k = .error expected ∧
      e = ⟨.unexpectedToken k.text, some k.first, context, expected⟩ := by
  induction ts generalizing state with
  | nil => cases h
  | cons k ts ih =>
    simp only [feedAll] at h
    cases hk : state.feed k with
    | error expected =>
      rw [hk] at h
      cases h
      exact ⟨[], k, ts, state, expected, rfl, rfl, hk, rfl⟩
    | ok next =>
      rw [hk] at h
      obtain ⟨us, k', vs, state', expected, rfl, read, refused, he⟩ := ih h
      exact ⟨k :: us, k', vs, state', expected, rfl, (feedAll_cons hk us).trans read, refused, he⟩

/-- All tokens are read, so that the longest beginning is the whole list. -/
theorem longestBeginning_of_read {context : String} {ts : List Token} {state : ParserState}
    (hlex : ∀ k ∈ ts, k.IsLexical) (h : feedAll context .start ts = .ok state) :
    LongestBeginning ts ts.length where
  within := Nat.le_refl _
  begins := by
    rw [List.take_length]
    exact (beginsFormula_iff context hlex).2 ⟨state, h⟩
  longest _ hm _ := hm

/-- The longest beginning ends before the first token that is refused. -/
theorem longestBeginning_of_refused {context : String} {us vs : List Token} {k : Token}
    {state : ParserState} {expected : List Terminal} (hlex : ∀ k' ∈ us ++ k :: vs, k'.IsLexical)
    (read : feedAll context .start us = .ok state) (refused : state.feed k = .error expected) :
    LongestBeginning (us ++ k :: vs) us.length where
  within := by simp
  begins := by
    rw [List.take_left]
    exact (beginsFormula_iff context fun k' hk => hlex k' (List.mem_append_left _ hk)).2
      ⟨state, read⟩
  longest m hm begins := by
    refine Nat.le_of_not_lt fun longer => ?_
    obtain ⟨d, rfl⟩ := Nat.exists_eq_add_of_lt longer
    have e : (us ++ k :: vs).take (us.length + d + 1) = us ++ k :: vs.take d := by
      rw [List.take_append, List.take_of_length_le (by omega)]
      simp [Nat.add_assoc]
    have hlex' : ∀ k' ∈ us ++ k :: vs.take d, k'.IsLexical := e ▸ fun k' hk =>
      hlex k' (List.mem_of_mem_take hk)
    rw [e] at begins
    obtain ⟨state', read'⟩ := (beginsFormula_iff context hlex').1 begins
    rw [feedAll_append read, feedAll, refused] at read'
    cases read'

/-! ## Malformed formulas -/

/-- How a text is rejected: by a token that does not fit, by the end of the text, or by a fault of
the lexer. -/
inductive Rejection (text : String) : SyntaxError → Prop
  | token {us k vs state expected} : (tokens text).1 = us ++ k :: vs →
      feedAll text start us = .ok state → state.feed k = .error expected →
      Rejection text ⟨.unexpectedToken k.text, some k.first, text, expected⟩
  | ending {state expected} : (tokens text).2 = none →
      feedAll text start (tokens text).1 = .ok state → state.finish = .error expected →
      Rejection text ⟨endFault expected, some text.length, text, expected⟩
  | lexical {fault state} : (tokens text).2 = some fault →
      feedAll text start (tokens text).1 = .ok state → Rejection text (fault.toError text)

/-- A token that does not fit is reported, whatever the lexer finds behind it. -/
theorem rejection_of_parse {text : String} {e : SyntaxError}
    (h : parse text = .error (.malformed e)) : Rejection text e := by
  have syntactic : parseSyntax text = .error e := by
    unfold parse at h
    split at h
    · rename_i e' refused
      cases h
      exact refused
    · split at h <;> cases h
  unfold parseSyntax at syntactic
  cases read : feedAll text .start (tokens text).1 with
  | error e' =>
    have same : e' = e := by
      split at syntactic
      · rename_i ts ht
        rw [ht] at read
        simpa [parseTokens, read, bind, Except.bind] using syntactic
      · rename_i ts fault ht
        rw [ht] at read
        simpa [read, bind, Except.bind] using syntactic
    subst same
    obtain ⟨us, k, vs, state, expected, split, read', refused, rfl⟩ := exists_refused read
    exact .token split read' refused
  | ok state =>
    split at syntactic
    · rename_i ts ht
      rw [ht] at read
      simp only [parseTokens, read, bind, Except.bind] at syntactic
      cases finished : state.finish with
      | ok t => rw [finished] at syntactic; cases syntactic
      | error expected =>
        rw [finished] at syntactic
        cases syntactic
        exact .ending (by rw [ht]) (by rw [ht]; exact read) finished
    · rename_i ts fault ht
      rw [ht] at read
      simp only [read, bind, Except.bind, Except.error.injEq] at syntactic
      subst syntactic
      exact .lexical (by rw [ht]) (by rw [ht]; exact read)

/-- A malformed formula is reported at the place up to which a formula may begin with its tokens:
the token that does not fit there, the fault of the lexer, or the end of the text. -/
theorem parse_error_leftmost {text : String} {e : SyntaxError}
    (h : parse text = .error (.malformed e)) :
    ∃ n, LongestBeginning (tokens text).1 n ∧
      (∀ k, (tokens text).1[n]? = some k → e.fault.message = "Unexpected token " ++ k.text ∧
        e.position = some k.first ∧ e.context = text) ∧
      ((tokens text).1[n]? = none → ∀ fault, (tokens text).2 = some fault →
        e = fault.toError text) ∧
      ((tokens text).1[n]? = none → (tokens text).2 = none →
        e.position = some text.length ∧ e.context = text) := by
  have hlex := tokens_isLexical text
  have none_left : (tokens text).1[(tokens text).1.length]? = none :=
    List.getElem?_eq_none (Nat.le_refl _)
  cases rejection_of_parse h with
  | @token us k vs state expected split read refused =>
    rw [split] at hlex ⊢
    have next : (us ++ k :: vs)[us.length]? = some k := by simp
    refine ⟨us.length, longestBeginning_of_refused hlex read refused, fun k' hk => ?_,
      fun hn => ?_, fun hn => ?_⟩
    · cases next.symm.trans hk
      exact ⟨rfl, rfl, rfl⟩
    · cases next.symm.trans hn
    · cases next.symm.trans hn
  | ending fine read finished =>
    refine ⟨_, longestBeginning_of_read hlex read, fun k hk => ?_, fun _ f hf => ?_,
      fun _ _ => ⟨rfl, rfl⟩⟩
    · cases none_left.symm.trans hk
    · cases fine.symm.trans hf
  | lexical faulty read =>
    refine ⟨_, longestBeginning_of_read hlex read, fun k hk => ?_, fun _ f hf => ?_,
      fun _ hf => ?_⟩
    · cases none_left.symm.trans hk
    · cases faulty.symm.trans hf
      rfl
    · cases faulty.symm.trans hf

/-- In `f(2,)?` the parenthesis is reported, and not the question mark that is no token. -/
theorem parse_error_leftmost_call :
    ∃ e, parse "f(2,)?" = .error (.malformed e) ∧ e.fault.message = "Unexpected token )" ∧
      e.position = some 4 ∧
      ∃ n, LongestBeginning (tokens "f(2,)?").1 n ∧ (tokens "f(2,)?").1[n]? =
        some ⟨.operator, ")", 4, 4⟩ := by
  have read : tokens "f(2,)?" = ([⟨.identifier, "f", 0, 0⟩, ⟨.operator, "(", 1, 1⟩,
      ⟨.number, "2", 2, 2⟩, ⟨.operator, ",", 3, 3⟩, ⟨.operator, ")", 4, 4⟩],
      some ⟨.unknownCharacter '?', some 5⟩) := by decide
  have refused : parse "f(2,)?" = .error (.malformed ⟨.unexpectedToken ")", some 4, "f(2,)?",
      operandTerminals [.call "f" [.number (.int 2)]]⟩) := by rfl
  obtain ⟨n, longest, token, fault, -⟩ := parse_error_leftmost refused
  refine ⟨_, refused, rfl, rfl, n, longest, ?_⟩
  cases next : (tokens "f(2,)?").1[n]? with
  | none => cases fault next _ (by rw [read])
  | some k =>
    have place : k.first = 4 := by simpa using (token k next).2.1.symm
    rw [read] at next
    revert place
    rcases n with _ | _ | _ | _ | _ | n <;> cases next <;> decide

end ProcessGraph.Formula
