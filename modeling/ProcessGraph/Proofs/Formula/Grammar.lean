import ProcessGraph.Formula.Parser

/-!
# The grammar of formulas

`Derives n us t`: the tokens `us` form a phrase of the nonterminal `n` with the tree `t`. There is
one constructor for each production, with the tree that the production builds from the trees of its
parts. All binary operators take their left operand from the level they are on, and their right
operand from the next one, so they group to the left. Terminals are those of `Token.terminal`; which
texts they stand for is `Token.text_of_terminal`, and `Token.IsLexical` holds of everything the
lexer makes (`tokens_isLexical`).
-/

set_option autoImplicit false

namespace ProcessGraph.Formula

/-- The levels of the grammar, from lowest to highest precedence. A formula is a sum. -/
inductive Nonterminal where
  | sum
  | product
  | power
  | signed
  | operand
deriving DecidableEq

mutual

/-- Phrases of a level and their trees. -/
inductive Derives : Nonterminal → List Token → Tree → Prop
  | sumOfProduct {us t} : Derives .product us t → Derives .sum us t
  | add {us k vs l r} : Derives .sum us l → k.terminal = .plus → Derives .product vs r →
      Derives .sum (us ++ k :: vs) (.binary "+" l r)
  | subtract {us k vs l r} : Derives .sum us l → k.terminal = .minus → Derives .product vs r →
      Derives .sum (us ++ k :: vs) (.binary "-" l r)
  | productOfPower {us t} : Derives .power us t → Derives .product us t
  | multiply {us k vs l r} : Derives .product us l → k.terminal = .star → Derives .power vs r →
      Derives .product (us ++ k :: vs) (.binary "*" l r)
  | divide {us k vs l r} : Derives .product us l → k.terminal = .slash → Derives .power vs r →
      Derives .product (us ++ k :: vs) (.binary "/" l r)
  | powerOfSigned {us t} : Derives .signed us t → Derives .power us t
  | raise {us k vs l r} : Derives .power us l → k.terminal = .caret → Derives .signed vs r →
      Derives .power (us ++ k :: vs) (.binary "^" l r)
  /-- A superscript digit is an exponent. -/
  | superscript {us k l c d} : Derives .power us l → k.terminal = .superscript →
      k.text = String.singleton c → superscriptValue? c = some d →
      Derives .power (us ++ [k]) (.binary "^" l (.number (.int d)))
  | signedOfOperand {us t} : Derives .operand us t → Derives .signed us t
  | negative {k us t} : k.terminal = .minus → Derives .signed us t →
      Derives .signed (k :: us) (.unary "-" t)
  | positive {k us t} : k.terminal = .plus → Derives .signed us t →
      Derives .signed (k :: us) (.unary "+" t)
  | number {k} : k.terminal = .number → Derives .operand [k] (.number (Numeral.value k.text))
  | identifier {k} : k.terminal = .identifier → Derives .operand [k] (.identifier k.text)
  | emptyCall {k o c} : k.terminal = .identifier → o.terminal = .opening →
      c.terminal = .closing → Derives .operand [k, o, c] (.call k.text [])
  | call {k o us c ts} : k.terminal = .identifier → o.terminal = .opening →
      DerivesArguments us ts → c.terminal = .closing →
      Derives .operand (k :: o :: us ++ [c]) (.call k.text ts)
  | group {o us c t} : o.terminal = .opening → Derives .sum us t → c.terminal = .closing →
      Derives .operand (o :: us ++ [c]) (.group t)

/-- One or more sums with commas between them. -/
inductive DerivesArguments : List Token → List Tree → Prop
  | one {us t} : Derives .sum us t → DerivesArguments us [t]
  | more {us k vs ts t} : DerivesArguments us ts → k.terminal = .comma → Derives .sum vs t →
      DerivesArguments (us ++ k :: vs) (ts ++ [t])

end

/-! ## Levels -/

/-- The levels as numbers, in the order of `Frame.tightness`. -/
def Nonterminal.level : Nonterminal → Nat
  | sum => 1
  | product => 2
  | power => 3
  | signed => 4
  | operand => 5

/-- A phrase of a level is a phrase of every lower one, with the same tree. -/
theorem Derives.lower {n m : Nonterminal} {us : List Token} {t : Tree} (h : Derives n us t)
    (hm : m.level ≤ n.level) : Derives m us t := by
  have signed : 4 ≤ n.level → Derives .signed us t := by
    intro hn
    cases n with
    | sum | product | power => simp [Nonterminal.level] at hn
    | signed => exact h
    | operand => exact .signedOfOperand h
  have power : 3 ≤ n.level → Derives .power us t := by
    intro hn
    cases n with
    | sum | product => simp [Nonterminal.level] at hn
    | power => exact h
    | signed | operand => exact .powerOfSigned (signed (by decide))
  have product : 2 ≤ n.level → Derives .product us t := by
    intro hn
    cases n with
    | sum => simp [Nonterminal.level] at hn
    | product => exact h
    | power | signed | operand => exact .productOfPower (power (by decide))
  cases m with
  | sum =>
    cases n with
    | sum => exact h
    | product | power | signed | operand => exact .sumOfProduct (product (by decide))
  | product => exact product hm
  | power => exact power hm
  | signed => exact signed hm
  | operand =>
    cases n with
    | sum | product | power | signed => simp [Nonterminal.level] at hm
    | operand => exact h

/-! ## Terminals and texts -/

/-- A token as the lexer makes it: an operator is one of the operator characters. -/
def Token.IsLexical (k : Token) : Prop :=
  k.kind = .operator → ∃ c ∈ operators, k.text = String.singleton c

/-- What the terminals of operators stand for. -/
theorem Token.text_of_terminal {k : Token} :
    (k.terminal = .plus → k.text = "+") ∧ (k.terminal = .minus → k.text = "-") ∧
      (k.terminal = .star → k.text = "*") ∧ (k.terminal = .slash → k.text = "/") := by
  unfold Token.terminal
  cases k.kind with
  | number | identifier => simp
  | operator => refine ⟨?_, ?_, ?_, ?_⟩ <;> grind [Terminal.ofOperator]

/-- A superscript token of the lexer is one of the ten digits. -/
theorem Token.IsLexical.superscript {k : Token} (h : k.IsLexical)
    (hk : k.terminal = .superscript) :
    ∃ c d, k.text = String.singleton c ∧ superscriptValue? c = some d := by
  have hop : k.kind = .operator := by
    unfold Token.terminal at hk
    cases hkind : k.kind <;> simp [hkind] at hk ⊢
  obtain ⟨c, hc, htext⟩ := h hop
  have hs : c ∈ superscripts := by
    rcases List.mem_append.1 hc with hc | hc
    · -- the other operators have terminals of their own
      simp only [Token.terminal, hop, htext, Terminal.ofOperator] at hk
      simp only [List.mem_cons, List.not_mem_nil, or_false] at hc
      rcases hc with rfl | rfl | rfl | rfl | rfl | rfl | rfl | rfl <;> revert hk <;> decide
    · exact hc
  exact ⟨c, superscripts.idxOf c, htext, by simp [superscriptValue?, hs]⟩

/-! ## The lexer -/

theorem scanNumber_kind {cs text rest : List Char} {kind : TokenKind}
    (h : scanNumber cs = .lexeme kind text rest) : kind = .number := by
  unfold scanNumber at h
  grind

/-- The lexeme of an operator is one operator character. -/
theorem scan_operator {c : Char} {cs text rest : List Char}
    (h : scan c cs = .lexeme .operator text rest) : c ∈ operators ∧ text = [c] := by
  unfold scan at h
  split at h
  · cases scanNumber_kind h
  split at h
  · rename_i hc
    simp only [Scan.lexeme.injEq, true_and] at h
    exact ⟨List.contains_iff_mem.1 hc, h.1.symm⟩
  split at h
  · simp [scanIdentifier] at h
  · cases h

theorem readToken_isLexical {index stop : Nat} {cs rest : List Char} {k : Token}
    (h : readToken index cs = .token k stop rest) : k.IsLexical := by
  unfold readToken at h
  simp only at h
  split at h
  · cases h
  split at h
  · rename_i c more _ kind text rest' hscan
    simp only [Reading.token.injEq] at h
    obtain ⟨rfl, -, -⟩ := h
    intro hkind
    subst hkind
    obtain ⟨hc, rfl⟩ := scan_operator hscan
    exact ⟨_, hc, rfl⟩
  · cases h

theorem readTokens_isLexical {fuel index : Nat} {cs : List Char} :
    ∀ k ∈ (readTokens fuel index cs).1, k.IsLexical := by
  induction fuel generalizing index cs with
  | zero => simp [readTokens]
  | succ fuel ih =>
    unfold readTokens
    split
    · simp
    · simp
    · rename_i t stop rest ht
      intro k hk
      rcases List.mem_cons.1 hk with rfl | hk
      · exact readToken_isLexical ht
      · exact ih k hk

theorem tokens_isLexical (text : String) : ∀ k ∈ (tokens text).1, k.IsLexical :=
  readTokens_isLexical

end ProcessGraph.Formula
