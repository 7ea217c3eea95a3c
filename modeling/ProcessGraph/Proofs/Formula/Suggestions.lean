import ProcessGraph.Proofs.Formula.LeftmostErrors

/-!
# What syntax errors suggest

A terminal fits behind some tokens if a formula may begin with these and a token of the terminal,
and the end of the text fits behind a whole formula (`Fits`). The state of the parser says what fits
(`fits_iff_mem_fitting`): where an operand is missing, whatever starts one; after an operand,
whatever continues it, and of the terminals that end a sum those that the innermost parenthesis asks
for.

Main statement: what an error suggests is what fits where an operand is missing. After an operand it
is not: a token that can only start an operand is refused together with all terminals that end some
sum, and at a token that ends a sum the terminals that continue an operand are left out
(`suggestions_fit`).
-/

set_option autoImplicit false

namespace ProcessGraph.Formula

open ParserState

/-- The terminals behind a complete sum. Which of them fits is a matter of the parentheses around
the sum. -/
def Terminal.endsSum (t : Terminal) : Bool := t = ending || t = comma || t = closing

/-- A terminal fits behind tokens. -/
inductive Fits (us : List Token) : Terminal → Prop
  | ending {e} : Derives .sum us e → Fits us .ending
  | token {k : Token} : k.IsLexical → BeginsFormula (us ++ [k]) → Fits us k.terminal

/-! ## Terminals and tokens -/

theorem Token.terminal_ne_ending (k : Token) : k.terminal ≠ .ending := by
  unfold Token.terminal Terminal.ofOperator
  grind

theorem Terminal.exists_token {t : Terminal} (h : t ≠ .ending) :
    ∃ k : Token, k.IsLexical ∧ k.terminal = t := by
  have operator (c : Char) (hc : c ∈ operators)
      (ht : (Token.mk .operator (String.singleton c) 0 0).terminal = t) :
      ∃ k : Token, k.IsLexical ∧ k.terminal = t := ⟨_, fun _ => ⟨c, hc, rfl⟩, ht⟩
  cases t with
  | ending => exact absurd rfl h
  | identifier => exact ⟨⟨.identifier, "x", 0, 0⟩, nofun, rfl⟩
  | number => exact ⟨⟨.number, "1", 0, 0⟩, nofun, rfl⟩
  | superscript => exact operator '²' (by decide) (by decide)
  | caret => exact operator '^' (by decide) (by decide)
  | comma => exact operator ',' (by decide) (by decide)
  | opening => exact operator '(' (by decide) (by decide)
  | minus => exact operator '-' (by decide) (by decide)
  | plus => exact operator '+' (by decide) (by decide)
  | closing => exact operator ')' (by decide) (by decide)
  | slash => exact operator '/' (by decide) (by decide)
  | star => exact operator '*' (by decide) (by decide)

/-! ## What fits -/

/-- What fits in a state of the parser. -/
def ParserState.fitting : ParserState → List Terminal
  | operand stack => operandTerminals stack
  | operator stack t => (operatorTerminals t).filter fun k =>
      !k.endsSum || (closedTerminals (unwind 1 stack t).1).contains k

section
variable {stack : List Frame} {u : Tree} {t : Terminal} {k : Token} {state : ParserState}

@[simp] theorem Terminal.mem_all (t : Terminal) : t ∈ Terminal.all := by
  cases t <;> decide

theorem mem_operandTerminals : t ∈ operandTerminals stack ↔
    startsOperand t ∨ t = .closing ∧ isEmptyCall stack := by
  simp [operandTerminals]

/-- After an operand come the terminals that do not only start one, and a parenthesis behind a
name. -/
theorem mem_operatorTerminals : t ∈ operatorTerminals u ↔
    ¬ t.onlyStartsOperand ∨ t = .opening ∧ ∃ name, u = .identifier name := by
  cases u <;> simp [operatorTerminals]

theorem mem_fitting_operator : t ∈ (operator stack u).fitting ↔
    t ∈ operatorTerminals u ∧ (t.endsSum → t ∈ closedTerminals (unwind 1 stack u).1) := by
  simp only [fitting, List.mem_filter, Bool.or_eq_true, Bool.not_eq_true', List.contains_iff_mem]
  cases t.endsSum <;> simp

/-- A state takes the tokens of the terminals that fit. -/
theorem ParserState.feed_iff_mem_fitting :
    (∃ next, state.feed k = .ok next) ↔ k.terminal ∈ state.fitting := by
  cases state with
  | operand stack =>
    rw [fitting, mem_operandTerminals]
    cases hk : k.terminal with
    | closing =>
      -- only an empty call may be closed
      simp only [feed, feedOperand, hk, isEmptyCall]
      split <;> simp_all [startsOperand, Terminal.onlyStartsOperand]
    | _ => simp [feed, feedOperand, hk, startsOperand, Terminal.onlyStartsOperand]
  | operator stack u =>
    rw [mem_fitting_operator, mem_operatorTerminals]
    cases hk : k.terminal with
    | ending => exact absurd hk k.terminal_ne_ending
    | closing | comma =>
      rcases unwind_cases stack u with ⟨v, hu⟩ | ⟨outer, v, hu⟩ | ⟨name, ts, outer, v, hu⟩ <;>
        simp [feed, feedOperator, hk, hu, closedTerminals, Terminal.onlyStartsOperand,
          Terminal.endsSum]
    | opening =>
      cases u <;> simp [feed, feedOperator, hk, Terminal.onlyStartsOperand, Terminal.endsSum]
    | _ => simp [feed, feedOperator, hk, Terminal.onlyStartsOperand, Terminal.endsSum]

/-- A state is a whole formula if the end of the text fits. -/
theorem ParserState.finish_iff_mem_fitting :
    (∃ e, state.finish = .ok e) ↔ Terminal.ending ∈ state.fitting := by
  cases state with
  | operand stack =>
    rw [fitting, mem_operandTerminals]
    simp [finish, startsOperand, Terminal.onlyStartsOperand]
  | operator stack u =>
    rw [mem_fitting_operator, mem_operatorTerminals]
    rcases unwind_cases stack u with ⟨v, hu⟩ | ⟨outer, v, hu⟩ | ⟨name, ts, outer, v, hu⟩ <;>
      simp [finish, hu, closedTerminals, Terminal.onlyStartsOperand, Terminal.endsSum]

end

/-- Tokens that are read are a formula if the parser may finish. -/
theorem derives_iff_finish {context : String} {us : List Token} {state : ParserState}
    (hlex : ∀ k ∈ us, k.IsLexical) (read : feedAll context start us = .ok state) :
    (∃ e, Derives .sum us e) ↔ ∃ e, state.finish = .ok e := by
  constructor
  · rintro ⟨e, he⟩
    have parsed := parseTokens_of_derives context he
    simp only [parseTokens, read, bind, Except.bind] at parsed
    split at parsed
    · rename_i e' finished
      exact ⟨e', finished⟩
    · cases parsed
  · rintro ⟨e, finished⟩
    have holds : state.Holds ([] ++ us) := (ParserState.Holds.operand .nil).feedAll hlex read
    exact ⟨e, holds.finish finished⟩

/-- What fits behind tokens can be read off the state of the parser. -/
theorem fits_iff_mem_fitting {context : String} {us : List Token} {state : ParserState}
    (hlex : ∀ k ∈ us, k.IsLexical) (read : feedAll context start us = .ok state) {t : Terminal} :
    Fits us t ↔ t ∈ state.fitting := by
  have token {k : Token} (hk : k.IsLexical) :
      BeginsFormula (us ++ [k]) ↔ k.terminal ∈ state.fitting := by
    rw [beginsFormula_iff context (List.forall_mem_append.2 ⟨hlex, List.forall_mem_singleton.2 hk⟩),
      feedAll_append read, ← feed_iff_mem_fitting]
    cases hf : state.feed k <;> simp [feedAll, hf]
  constructor
  · rintro (⟨he⟩ | ⟨hk, begins⟩)
    · exact finish_iff_mem_fitting.1 ((derives_iff_finish hlex read).1 ⟨_, he⟩)
    · exact (token hk).1 begins
  · intro fits
    by_cases ending : t = .ending
    · subst ending
      obtain ⟨e, he⟩ := (derives_iff_finish hlex read).2 (finish_iff_mem_fitting.2 fits)
      exact .ending he
    · obtain ⟨k, hk, rfl⟩ := Terminal.exists_token ending
      exact .token hk ((token hk).2 fits)

/-! ## What is suggested -/

/-- What is suggested behind tokens, at the next token or, if there is none, at the end. -/
structure Suggests (us : List Token) (next : Option Token) (expected : List Terminal) : Prop where
  /-- Where an operand is missing, it is what fits. -/
  missing : Fits us .number → ∀ t, t ∈ expected ↔ Fits us t
  /-- After an operand, what ends a sum is suggested at a token that only starts an operand, whether
  it fits or not, -/
  excess : ¬ Fits us .number → (∃ k ∈ next, k.terminal.onlyStartsOperand) →
    ∀ t, t ∈ expected ↔ Fits us t ∨ t.endsSum
  /-- and nothing but that, a plus and a minus is suggested elsewhere. -/
  lack : ¬ Fits us .number → (∀ k ∈ next, ¬ k.terminal.onlyStartsOperand) →
    ∀ t, t ∈ expected ↔ Fits us t ∧ (t.endsSum ∨ t = .plus ∨ t = .minus)

section
variable {stack : List Frame} {u : Tree} {k : Token} {expected : List Terminal}

/-- What the parser expects after an operand: while no frame is closed at a token that only starts
an operand, and otherwise when all frames up to the innermost parenthesis are closed. -/
theorem expected_of_feedOperator (h : (operator stack u).feed k = .error expected) :
    expected = if k.terminal.onlyStartsOperand then operatorTerminals u
      else closedTerminals (unwind 1 stack u).1 := by
  cases hk : k.terminal with
  | ending => exact absurd hk k.terminal_ne_ending
  | closing | comma =>
    rcases unwind_cases stack u with ⟨v, hu⟩ | ⟨outer, v, hu⟩ | ⟨name, ts, outer, v, hu⟩ <;>
      simp_all [feed, feedOperator, Terminal.onlyStartsOperand]
  | opening => cases u <;> simp_all [feed, feedOperator, Terminal.onlyStartsOperand]
  | number | identifier => simp_all [feed, feedOperator, Terminal.onlyStartsOperand]
  | _ => simp [feed, feedOperator, hk] at h

theorem expected_of_feedOperand (h : (operand stack).feed k = .error expected) :
    expected = operandTerminals stack := by
  simp only [feed, feedOperand] at h
  grind

theorem mem_operatorTerminals_iff_fitting {t : Terminal} :
    t ∈ operatorTerminals u ↔ t ∈ (operator stack u).fitting ∨ t.endsSum := by
  rw [mem_fitting_operator, mem_operatorTerminals]
  cases t <;> simp [Terminal.onlyStartsOperand, Terminal.endsSum]

theorem mem_closedTerminals_iff_fitting {t : Terminal} :
    t ∈ closedTerminals (unwind 1 stack u).1 ↔
      t ∈ (operator stack u).fitting ∧ (t.endsSum ∨ t = .plus ∨ t = .minus) := by
  rw [mem_fitting_operator, mem_operatorTerminals]
  rcases unwind_cases stack u with ⟨v, hu⟩ | ⟨outer, v, hu⟩ | ⟨name, ts, outer, v, hu⟩ <;>
    rw [hu] <;> cases t <;> simp [closedTerminals, Terminal.onlyStartsOperand, Terminal.endsSum]

end

section
variable {context : String} {us : List Token} {state : ParserState} {expected : List Terminal}
  (hlex : ∀ k ∈ us, k.IsLexical) (read : feedAll context start us = .ok state)
include hlex read

/-- An operand is missing where a number fits. -/
theorem fits_number_iff : Fits us .number ↔ ∃ stack, state = operand stack := by
  rw [fits_iff_mem_fitting hlex read]
  cases state with
  | operand stack => simp [fitting, mem_operandTerminals, startsOperand, Terminal.onlyStartsOperand]
  | operator stack u =>
    simp [mem_fitting_operator, mem_operatorTerminals, Terminal.onlyStartsOperand]

/-- What is expected at a token or at the end, in terms of the state. -/
theorem suggests_of_expected {next : Option Token}
    (missing : ∀ stack, state = operand stack → expected = operandTerminals stack)
    (present : ∀ stack u, state = operator stack u →
      expected = if ∃ k ∈ next, k.terminal.onlyStartsOperand then operatorTerminals u
        else closedTerminals (unwind 1 stack u).1) : Suggests us next expected := by
  have fits {t : Terminal} := fits_iff_mem_fitting hlex read (t := t)
  cases state with
  | operand stack =>
    have operand : Fits us .number := (fits_number_iff hlex read).2 ⟨stack, rfl⟩
    refine ⟨fun _ t => ?_, fun h => absurd operand h, fun h => absurd operand h⟩
    rw [missing stack rfl, fits, fitting]
  | operator stack u =>
    have operator : ¬ Fits us .number := fun h => by
      obtain ⟨stack', e⟩ := (fits_number_iff hlex read).1 h
      cases e
    refine ⟨fun h => absurd h operator, fun _ starts t => ?_, fun _ ends t => ?_⟩
    · rw [present stack u rfl, if_pos starts, fits]
      exact mem_operatorTerminals_iff_fitting
    · have none : ¬ ∃ k ∈ next, k.terminal.onlyStartsOperand := by
        rintro ⟨k, hk, h⟩
        exact ends k hk h
      rw [present stack u rfl, if_neg none, fits]
      exact mem_closedTerminals_iff_fitting

end

/-- A malformed formula that is reported with suggestions is reported where the longest run of its
tokens ends that a formula may begin with. The suggestions are exactly what fits behind this run if
an operand is missing. If the run ends with an operand, there are either the terminals that end a
sum among them whether they fit or not, or they lack what fits and is neither a sign nor the end of
a sum. -/
theorem suggestions_fit {text : String} {e : SyntaxError}
    (h : parse text = .error (.malformed e)) (suggested : e.expected ≠ []) :
    ∃ n, LongestBeginning (tokens text).1 n ∧
      e.position = some (((tokens text).1[n]?.map (·.first)).getD text.length) ∧
      Suggests ((tokens text).1.take n) (tokens text).1[n]? e.expected := by
  have hlex := tokens_isLexical text
  cases rejection_of_parse h with
  | @token us k vs state expected split read refused =>
    rw [split] at hlex ⊢
    have next : (us ++ k :: vs)[us.length]? = some k := by simp
    refine ⟨us.length, longestBeginning_of_refused hlex read refused, by rw [next]; rfl, ?_⟩
    rw [next, List.take_left]
    refine suggests_of_expected (fun k' hk => hlex k' (List.mem_append_left _ hk)) read
      (fun stack e => ?_) fun stack u e => ?_
    · subst e
      exact expected_of_feedOperand refused
    · subst e
      simpa using expected_of_feedOperator refused
  | @ending state expected fine read finished =>
    have none_left : (tokens text).1[(tokens text).1.length]? = none :=
      List.getElem?_eq_none (Nat.le_refl _)
    refine ⟨_, longestBeginning_of_read hlex read, by rw [none_left]; rfl, ?_⟩
    rw [none_left, List.take_length]
    refine suggests_of_expected hlex read (fun stack e => ?_) fun stack u e => ?_
    · subst e
      exact (Except.error.inj finished).symm
    · subst e
      rcases unwind_cases stack u with ⟨v, hu⟩ | ⟨outer, v, hu⟩ | ⟨name, ts, outer, v, hu⟩ <;>
        simp_all [finish]
  | lexical => exact absurd rfl suggested

/-- At the second number of `1 2` a closing parenthesis is suggested, but it does not fit. -/
theorem suggestions_fit_numbers : ∃ e, parse "1 2" = .error (.malformed e) ∧
    Terminal.closing ∈ e.expected ∧ ¬ Fits [⟨.number, "1", 0, 0⟩] .closing ∧
    Suggests [⟨.number, "1", 0, 0⟩] (some ⟨.number, "2", 2, 2⟩) e.expected := by
  have read : tokens "1 2" = ([⟨.number, "1", 0, 0⟩, ⟨.number, "2", 2, 2⟩], none) := by decide
  have refused : parse "1 2" = .error (.malformed ⟨.unexpectedToken "2", some 2, "1 2",
      operatorTerminals (.number (.int 1))⟩) := by rfl
  refine ⟨_, refused, by decide, ?_, ?_⟩
  · have fed : feedAll "" start [⟨.number, "1", 0, 0⟩] =
        .ok (operator [] (.number (Numeral.value "1"))) := rfl
    have one : Token.IsLexical ⟨.number, "1", 0, 0⟩ := nofun
    rw [fits_iff_mem_fitting (List.forall_mem_singleton.2 one) fed]
    decide
  · obtain ⟨n, -, place, suggests⟩ := suggestions_fit refused (by decide)
    rw [read] at place suggests
    rcases n with _ | _ | n
    · cases place
    · exact suggests
    · have ended : 2 = "1 2".length := by simpa using place
      exact absurd ended (by decide)

end ProcessGraph.Formula
