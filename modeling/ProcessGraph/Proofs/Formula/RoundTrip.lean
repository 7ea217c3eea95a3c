import ProcessGraph.Proofs.Formula.Printing

/-!
# What is read can be written

`Respelled us ws`: the words `ws` differ from the words `us` of a source in the spelling of numbers
only, and in superscript digits, which are written as powers.

A phrase of the grammar prints its tree (`Prints`): the tree respects precedence, and what writes it
is the phrase, respelled. There is one lemma for each production, and from them it holds of all
phrases (`Derives.prints`). Together with `parse_of_writes`, writing and parsing are inverse to each
other (`parse_inverts_writing`).
-/

set_option autoImplicit false

namespace ProcessGraph.Formula

/-! ## What is read is written -/

/-- What may be written for a word of the source: a number has many numerals, and a superscript
digit is written as a power. -/
inductive Respells : Word → List Word → Prop
  | identifier {name} : Respells ⟨.identifier, name⟩ [⟨.identifier, name⟩]
  | operator {op} : op ∈ plainOperators → Respells ⟨.operator, op⟩ [⟨.operator, op⟩]
  | number {s s'} : Spells s' (Numeral.value s) → Respells ⟨.number, s⟩ [⟨.number, s'⟩]
  | superscript {c d s} : superscriptValue? c = some d → Spells s (.int d) →
      Respells ⟨.operator, String.singleton c⟩ [⟨.operator, "^"⟩, ⟨.number, s⟩]

/-- What may be written for the words of the source, one after the other. -/
inductive Respelled : List Word → List Word → Prop
  | nil : Respelled [] []
  | cons {w ws vs us} : Respells w vs → Respelled ws us → Respelled (w :: ws) (vs ++ us)

section
variable {w : Word} {ws vs us : List Word} {op : String}

theorem respelled_cons_iff :
    Respelled (w :: ws) us ↔ ∃ as bs, Respells w as ∧ Respelled ws bs ∧ us = as ++ bs := by
  constructor
  · intro h
    cases h with
    | cons hw hs => exact ⟨_, _, hw, hs, rfl⟩
  · rintro ⟨as, bs, hw, hs, rfl⟩
    exact .cons hw hs

theorem respelled_singleton_iff : Respelled [w] us ↔ Respells w us := by
  rw [respelled_cons_iff]
  constructor
  · rintro ⟨as, bs, hw, hs, rfl⟩
    cases hs
    rwa [List.append_nil]
  · exact fun h => ⟨us, [], h, .nil, (List.append_nil us).symm⟩

theorem respelled_append_iff :
    Respelled (ws ++ vs) us ↔ ∃ as bs, Respelled ws as ∧ Respelled vs bs ∧ us = as ++ bs := by
  induction ws generalizing us with
  | nil =>
    constructor
    · exact fun h => ⟨[], us, .nil, h, rfl⟩
    · rintro ⟨as, bs, h, hs, rfl⟩
      cases h
      exact hs
  | cons w ws ih =>
    simp only [List.cons_append, respelled_cons_iff, ih]
    constructor
    · rintro ⟨as, _, hw, ⟨bs, cs, hs, hv, rfl⟩, rfl⟩
      exact ⟨as ++ bs, cs, ⟨as, bs, hw, hs, rfl⟩, hv, (List.append_assoc ..).symm⟩
    · rintro ⟨_, cs, ⟨as, bs, hw, hs, rfl⟩, hv, rfl⟩
      exact ⟨as, bs ++ cs, hw, ⟨bs, cs, hs, hv, rfl⟩, List.append_assoc ..⟩

theorem not_mem_plainOperators {c : Char} {d : Nat} (h : superscriptValue? c = some d) :
    String.singleton c ∉ plainOperators := by
  have all : superscripts.all fun c => !plainOperators.contains (String.singleton c) := by decide
  have mem : c ∈ superscripts := by
    by_contra hn
    simp [superscriptValue?, hn] at h
  simpa using List.all_eq_true.1 all c mem

theorem respells_superscript_iff {c : Char} {d : Nat} (h : superscriptValue? c = some d) :
    Respells ⟨.operator, String.singleton c⟩ us ↔
      ∃ s, Spells s (.int d) ∧ us = [⟨.operator, "^"⟩, ⟨.number, s⟩] := by
  constructor
  · generalize hw : Word.mk .operator (String.singleton c) = w
    intro hr
    cases hr with
    | identifier | number => cases hw
    | operator ho =>
      simp only [Word.mk.injEq, true_and] at hw
      exact absurd (hw ▸ ho) (not_mem_plainOperators h)
    | @superscript c' d' s hd hs =>
      obtain rfl : c = c' := by simpa using hw
      obtain rfl : d = d' := by simpa [h] using hd
      exact ⟨s, hs, rfl⟩
  · rintro ⟨s, hs, rfl⟩
    exact .superscript h hs

/-- These operators are written as they are. -/
theorem respells_operator_iff (h : op ∈ plainOperators) :
    Respells ⟨.operator, op⟩ us ↔ us = [⟨.operator, op⟩] := by
  constructor
  · generalize hw : Word.mk .operator op = w
    intro hr
    cases hr with
    | identifier | number => cases hw
    | operator => rfl
    | superscript hd _ =>
      simp only [Word.mk.injEq, true_and] at hw
      exact absurd (hw ▸ h) (not_mem_plainOperators hd)
  · rintro rfl
    exact .operator h

theorem respelled_operator_cons_iff (h : op ∈ plainOperators) :
    Respelled (⟨.operator, op⟩ :: ws) us ↔ ∃ vs, Respelled ws vs ∧ us = ⟨.operator, op⟩ :: vs := by
  rw [respelled_cons_iff]
  constructor
  · rintro ⟨as, bs, hw, hs, rfl⟩
    rw [(respells_operator_iff h).1 hw]
    exact ⟨bs, hs, rfl⟩
  · rintro ⟨vs, hs, rfl⟩
    exact ⟨_, vs, (respells_operator_iff h).2 rfl, hs, rfl⟩

theorem respells_identifier_iff {name : String} :
    Respells ⟨.identifier, name⟩ us ↔ us = [⟨.identifier, name⟩] := by
  constructor
  · intro h
    cases h
    rfl
  · rintro rfl
    exact .identifier

theorem respells_number_iff {s : String} : Respells ⟨.number, s⟩ us ↔
    ∃ s', Spells s' (Numeral.value s) ∧ us = [⟨.number, s'⟩] := by
  constructor
  · intro h
    cases h with
    | number hs => exact ⟨_, hs, rfl⟩
  · rintro ⟨s', hs, rfl⟩
    exact .number hs

end

theorem Token.kind_of_terminal {k : Token} :
    (k.terminal = .number → k.kind = .number) ∧ (k.terminal = .identifier → k.kind = .identifier) ∧
      (k.terminal = .superscript → k.kind = .operator) := by
  unfold Token.terminal
  cases k.kind with
  | number | identifier => simp
  | operator => refine ⟨?_, ?_, ?_⟩ <;> grind [Terminal.ofOperator]

theorem exists_spells_superscript {c : Char} {d : Nat} (h : superscriptValue? c = some d) :
    ∃ s, Spells s (.int d) := by
  have small : d < 10 := by
    unfold superscriptValue? at h
    split at h
    · cases h
      exact List.idxOf_lt_length_of_mem (List.contains_iff_mem.1 ‹_›)
    · cases h
  have digits : ∀ d < 10, isDigit (Nat.digitChar d) ∧
      Numeral.value (String.ofList [Nat.digitChar d]) = .int d := by decide
  obtain ⟨digit, value⟩ := digits d small
  refine ⟨String.ofList [Nat.digitChar d], ?_, value⟩
  rw [String.toList_ofList]
  exact ⟨_, [], .whole (List.forall_mem_singleton.2 digit) (List.cons_ne_nil _ _), .none, rfl⟩

/-- The tree of a phrase binds tightly enough for the level `n` and can be written, and what writes
it is the phrase, respelled. -/
structure Prints (n : Nat) (t : Tree) (us : List Token) : Prop where
  tight : n ≤ t.tightness
  leaves : t.HasLexicalLeaves
  precedence : t.RespectsPrecedence
  writes : ∀ ws, t.Writes ws ↔ Respelled (us.map Token.word) ws

structure PrintsArguments (ts : List Tree) (us : List Token) : Prop where
  ne_nil : ts ≠ []
  leaves : Tree.HaveLexicalLeaves ts
  precedence : Tree.RespectPrecedence ts
  writes : ∀ ws, Tree.WriteArguments ts ws ↔ Respelled (us.map Token.word) ws

section
variable {l r t : Tree} {us vs : List Token} {k o c : Token} {op : String} {n m : Nat}
variable {ts : List Tree}

theorem Prints.mono (h : Prints n t us) (hm : m ≤ n) : Prints m t us :=
  { h with tight := Nat.le_trans hm h.tight }

theorem Prints.binary (hop : operatorTightness? op = some n) (hk : k.word = ⟨.operator, op⟩)
    (hl : Prints n l us) (hr : Prints (n + 1) r vs) :
    Prints n (.binary op l r) (us ++ k :: vs) where
  tight := by simp [Tree.tightness, hop]
  leaves := ⟨hl.leaves, hr.leaves⟩
  precedence := ⟨⟨n, hop, hl.tight, hr.tight⟩, hl.precedence, hr.precedence⟩
  writes ws := by
    simp only [Tree.Writes, hl.writes, hr.writes, List.map_append, List.map_cons, hk,
      respelled_append_iff, respelled_operator_cons_iff (operatorTightness?_mem hop)]
    constructor
    · rintro ⟨us, vs, hu, hv, rfl⟩
      exact ⟨us, _, hu, ⟨vs, hv, rfl⟩, rfl⟩
    · rintro ⟨us, _, hu, ⟨vs, hv, rfl⟩, rfl⟩
      exact ⟨us, vs, hu, hv, rfl⟩

/-- A superscript digit is written as a power with a numeral of the digit. -/
theorem Prints.superscript {c : Char} {d : Nat} (hk : k.terminal = .superscript)
    (text : k.text = String.singleton c) (hd : superscriptValue? c = some d) (hl : Prints 3 l us) :
    Prints 3 (.binary "^" l (.number (.int d))) (us ++ [k]) where
  tight := Nat.le_refl 3
  leaves := ⟨hl.leaves, exists_spells_superscript hd⟩
  precedence := ⟨⟨3, rfl, hl.tight, (by decide : 3 < 5)⟩, hl.precedence, trivial⟩
  writes ws := by
    have hk : k.word = ⟨.operator, String.singleton c⟩ := by
      rw [Token.word, Token.kind_of_terminal.2.2 hk, text]
    simp only [Tree.Writes, hl.writes, List.map_append, List.map_cons, List.map_nil, hk,
      respelled_append_iff, respelled_singleton_iff, respells_superscript_iff hd]
    constructor
    · rintro ⟨us, _, hu, ⟨s, hs, rfl⟩, rfl⟩
      exact ⟨us, _, hu, ⟨s, hs, rfl⟩, rfl⟩
    · rintro ⟨us, _, hu, ⟨s, hs, rfl⟩, rfl⟩
      exact ⟨us, _, hu, ⟨s, hs, rfl⟩, rfl⟩

theorem Prints.sign (hop : op = "+" ∨ op = "-") (hk : k.word = ⟨.operator, op⟩)
    (h : Prints 4 t us) : Prints 4 (.unary op t) (k :: us) where
  tight := Nat.le_refl 4
  leaves := h.leaves
  precedence := ⟨hop, h.tight, h.precedence⟩
  writes ws := by
    have plain : op ∈ plainOperators := by rcases hop with rfl | rfl <;> decide
    simp only [Tree.Writes, h.writes, List.map_cons, hk, respelled_operator_cons_iff plain]

theorem Prints.number (hk : k.terminal = .number) (lexical : k.kind.Matches k.text.toList) :
    Prints 5 (.number (Numeral.value k.text)) [k] where
  tight := Nat.le_refl 5
  leaves := ⟨k.text, Token.kind_of_terminal.1 hk ▸ lexical, rfl⟩
  precedence := trivial
  writes ws := by
    have hk : k.word = ⟨.number, k.text⟩ := by rw [Token.word, Token.kind_of_terminal.1 hk]
    simp only [Tree.Writes, List.map_cons, List.map_nil, hk, respelled_singleton_iff,
      respells_number_iff]

theorem Token.word_of_identifier (hk : k.terminal = .identifier) :
    k.word = ⟨.identifier, k.text⟩ := by
  rw [Token.word, Token.kind_of_terminal.2.1 hk]

theorem Prints.identifier (hk : k.terminal = .identifier) (lexical : k.kind.Matches k.text.toList) :
    Prints 5 (.identifier k.text) [k] where
  tight := Nat.le_refl 5
  leaves := by
    rw [Token.kind_of_terminal.2.1 hk] at lexical
    exact lexical
  precedence := trivial
  writes ws := by
    simp only [Tree.Writes, List.map_cons, List.map_nil, Token.word_of_identifier hk,
      respelled_singleton_iff, respells_identifier_iff]

theorem respelled_parentheses_iff {ws us : List Word} :
    Respelled (⟨.operator, "("⟩ :: (ws ++ [⟨.operator, ")"⟩])) us ↔
      ∃ vs, Respelled ws vs ∧ us = ⟨.operator, "("⟩ :: (vs ++ [⟨.operator, ")"⟩]) := by
  have opening : "(" ∈ plainOperators := by decide
  have closing : ")" ∈ plainOperators := by decide
  simp only [respelled_operator_cons_iff opening, respelled_append_iff, respelled_singleton_iff,
    respells_operator_iff closing]
  constructor
  · rintro ⟨_, ⟨vs, _, hs, rfl, rfl⟩, rfl⟩
    exact ⟨vs, hs, rfl⟩
  · rintro ⟨vs, hs, rfl⟩
    exact ⟨_, ⟨vs, _, hs, rfl, rfl⟩, rfl⟩

theorem Prints.group (ho : o.terminal = .opening) (h : Prints n t us) (hc : c.terminal = .closing) :
    Prints 5 (.group t) (o :: us ++ [c]) where
  tight := Nat.le_refl 5
  leaves := h.leaves
  precedence := h.precedence
  writes ws := by
    have ho : o.word = ⟨.operator, "("⟩ := Token.word_of_terminal (by decide) ho
    have hc : c.word = ⟨.operator, ")"⟩ := Token.word_of_terminal (by decide) hc
    simp only [Tree.Writes, h.writes, List.cons_append, List.map_cons, List.map_append,
      List.map_nil, ho, hc, respelled_parentheses_iff]

/-- A call, also one without arguments. -/
theorem Prints.call (hk : k.terminal = .identifier) (lexical : k.kind.Matches k.text.toList)
    (ho : o.terminal = .opening) (leaves : Tree.HaveLexicalLeaves ts)
    (precedence : Tree.RespectPrecedence ts)
    (writes : ∀ ws, Tree.WriteArguments ts ws ↔ Respelled (us.map Token.word) ws)
    (hc : c.terminal = .closing) : Prints 5 (.call k.text ts) (k :: o :: us ++ [c]) where
  tight := Nat.le_refl 5
  leaves := ⟨Token.kind_of_terminal.2.1 hk ▸ lexical, leaves⟩
  precedence := precedence
  writes ws := by
    have ho : o.word = ⟨.operator, "("⟩ := Token.word_of_terminal (by decide) ho
    have hc : c.word = ⟨.operator, ")"⟩ := Token.word_of_terminal (by decide) hc
    rw [List.cons_append, List.cons_append, List.map_cons, List.map_cons, List.map_append,
      List.map_cons, List.map_nil, Token.word_of_identifier hk, ho, hc, respelled_cons_iff]
    simp only [Tree.Writes, writes, respells_identifier_iff, respelled_parentheses_iff]
    constructor
    · rintro ⟨us, hu, rfl⟩
      exact ⟨_, _, rfl, ⟨us, hu, rfl⟩, rfl⟩
    · rintro ⟨_, _, rfl, ⟨us, hu, rfl⟩, rfl⟩
      exact ⟨us, hu, rfl⟩

theorem writeArguments_nil_iff {ws : List Word} :
    Tree.WriteArguments [] ws ↔ Respelled (List.map Token.word []) ws := by
  constructor
  · rintro rfl
    exact .nil
  · intro h
    cases h
    rfl

theorem Prints.argument (h : Prints n t us) : PrintsArguments [t] us where
  ne_nil := List.cons_ne_nil t []
  leaves := ⟨h.leaves, trivial⟩
  precedence := ⟨h.precedence, trivial⟩
  writes := h.writes

/-- An argument behind the last one is written behind a comma. -/
theorem writeArguments_append (h : ts ≠ []) {ws : List Word} :
    Tree.WriteArguments (ts ++ [t]) ws ↔ ∃ us vs, Tree.WriteArguments ts us ∧ t.Writes vs ∧
      ws = us ++ ⟨.operator, ","⟩ :: vs := by
  induction ts generalizing ws with
  | nil => exact absurd rfl h
  | cons u ts ih =>
    cases ts with
    | nil => exact Iff.rfl
    | cons v ts =>
      have later := @ih (List.cons_ne_nil v ts)
      simp only [List.cons_append] at later ⊢
      simp only [Tree.WriteArguments, later]
      constructor
      · rintro ⟨as, _, ha, ⟨bs, cs, hb, hc, rfl⟩, rfl⟩
        exact ⟨_, cs, ⟨as, bs, ha, hb, rfl⟩, hc, by simp⟩
      · rintro ⟨_, cs, ⟨as, bs, ha, hb, rfl⟩, hc, rfl⟩
        exact ⟨as, _, ha, ⟨bs, cs, hb, hc, rfl⟩, by simp⟩

theorem haveLexicalLeaves_append (hs : Tree.HaveLexicalLeaves ts) (h : t.HasLexicalLeaves) :
    Tree.HaveLexicalLeaves (ts ++ [t]) := by
  induction ts with
  | nil => exact ⟨h, trivial⟩
  | cons u ts ih => exact ⟨hs.1, ih hs.2⟩

theorem respectPrecedence_append (hs : Tree.RespectPrecedence ts) (h : t.RespectsPrecedence) :
    Tree.RespectPrecedence (ts ++ [t]) := by
  induction ts with
  | nil => exact ⟨h, trivial⟩
  | cons u ts ih => exact ⟨hs.1, ih hs.2⟩

theorem PrintsArguments.append (hs : PrintsArguments ts us) (hk : k.terminal = .comma)
    (h : Prints n t vs) : PrintsArguments (ts ++ [t]) (us ++ k :: vs) where
  ne_nil := List.append_ne_nil_of_left_ne_nil hs.ne_nil [t]
  leaves := haveLexicalLeaves_append hs.leaves h.leaves
  precedence := respectPrecedence_append hs.precedence h.precedence
  writes ws := by
    have comma : "," ∈ plainOperators := by decide
    simp only [writeArguments_append hs.ne_nil, hs.writes, h.writes, List.map_append, List.map_cons,
      Token.word_of_terminal comma hk, respelled_append_iff, respelled_operator_cons_iff comma]
    constructor
    · rintro ⟨us, vs, hu, hv, rfl⟩
      exact ⟨us, _, hu, ⟨vs, hv, rfl⟩, rfl⟩
    · rintro ⟨us, _, hu, ⟨vs, hv, rfl⟩, rfl⟩
      exact ⟨us, vs, hu, hv, rfl⟩

end

/-- The tokens are as the lexer makes them. -/
def Lexical (us : List Token) : Prop := ∀ k ∈ us, k.kind.Matches k.text.toList

namespace Lexical

variable {us vs : List Token} {k : Token}

theorem head (h : Lexical (k :: us)) : k.kind.Matches k.text.toList := h k List.mem_cons_self

theorem tail (h : Lexical (k :: us)) : Lexical us := fun v hv => h v (List.mem_cons_of_mem k hv)

theorem left (h : Lexical (us ++ vs)) : Lexical us := fun v hv => h v (List.mem_append_left vs hv)

theorem right (h : Lexical (us ++ k :: vs)) : Lexical vs := fun v hv =>
  h v (List.mem_append_right us (List.mem_cons_of_mem k hv))

end Lexical

mutual

/-- The trees of the grammar are those that can be written. -/
theorem Derives.prints {n : Nonterminal} {us : List Token} {t : Tree} :
    Derives n us t → Lexical us → Prints n.level t us
  | .sumOfProduct h, lex => (h.prints lex).mono (by decide)
  | .add hl hk hr, lex =>
    .binary rfl (Token.word_of_terminal (by decide) hk) (hl.prints lex.left) (hr.prints lex.right)
  | .subtract hl hk hr, lex =>
    .binary rfl (Token.word_of_terminal (by decide) hk) (hl.prints lex.left) (hr.prints lex.right)
  | .productOfPower h, lex => (h.prints lex).mono (by decide)
  | .multiply hl hk hr, lex =>
    .binary rfl (Token.word_of_terminal (by decide) hk) (hl.prints lex.left) (hr.prints lex.right)
  | .divide hl hk hr, lex =>
    .binary rfl (Token.word_of_terminal (by decide) hk) (hl.prints lex.left) (hr.prints lex.right)
  | .powerOfSigned h, lex => (h.prints lex).mono (by decide)
  | .raise hl hk hr, lex =>
    .binary rfl (Token.word_of_terminal (by decide) hk) (hl.prints lex.left) (hr.prints lex.right)
  | .superscript hl hk text hd, lex => .superscript hk text hd (hl.prints lex.left)
  | .signedOfOperand h, lex => (h.prints lex).mono (by decide)
  | .negative hk h, lex =>
    .sign (.inr rfl) (Token.word_of_terminal (by decide) hk) (h.prints lex.tail)
  | .positive hk h, lex =>
    .sign (.inl rfl) (Token.word_of_terminal (by decide) hk) (h.prints lex.tail)
  | .number hk, lex => .number hk lex.head
  | .identifier hk, lex => .identifier hk lex.head
  | .emptyCall hk ho hc, lex =>
    have none : Tree.HaveLexicalLeaves [] ∧ Tree.RespectPrecedence [] := ⟨trivial, trivial⟩
    .call hk lex.head ho none.1 none.2 (fun _ => writeArguments_nil_iff) hc
  | .call hk ho hs hc, lex =>
    have args := hs.prints lex.tail.tail.left
    .call hk lex.head ho args.leaves args.precedence args.writes hc
  | .group ho h hc, lex => .group ho (h.prints lex.tail.left) hc

theorem DerivesArguments.prints {us : List Token} {ts : List Tree} :
    DerivesArguments us ts → Lexical us → PrintsArguments ts us
  | .one h, lex => (h.prints lex).argument
  | .more hs hk h, lex => (hs.prints lex.left).append hk (h.prints lex.right)

end

/-! ## Texts -/

theorem tokens_lexical {text : String} {ts : List Token} (h : tokens text = (ts, none)) :
    Lexical ts :=
  (tokens_eq_none h).covers.kinds

/-- The tree of a parsed text can be written, and what writes it is the text, respelled. -/
theorem prints_of_parse {text : String} {t : Tree} (h : parse text = .ok t) :
    ∃ e, t = .group e ∧ Prints 1 e (tokens text).1 := by
  obtain ⟨ts, e, read, phrase, rfl⟩ := parseSyntax_ok_iff.1 (parse_ok_iff.1 h).1
  exact ⟨e, rfl, read ▸ phrase.prints (tokens_lexical read)⟩

/-- Writing and parsing are inverse to each other. A tree with numerals and identifiers for leaves
that respects precedence can be written, and all texts that write it are parsed to the tree inside
a group, unless one of their integers has too many digits to be read. Every parsed tree is of this
kind, and what writes it are the words of the source, up to the spelling of numbers and with
superscript digits as powers. -/
theorem parse_inverts_writing :
    (∀ t : Tree, t.HasLexicalLeaves → t.RespectsPrecedence → (∃ ws, t.Writes ws) ∧
      ∀ (ws : List Word) (text : String), t.Writes ws → Spaced ws text.toList →
        parse text =
          if ws.any Word.isOversized then .error .oversizedInteger else .ok (.group t)) ∧
    ∀ (text : String) (t : Tree), parse text = .ok t →
      ∃ e, t = .group e ∧ e.HasLexicalLeaves ∧ e.RespectsPrecedence ∧
        ∀ ws, e.Writes ws ↔ Respelled ((tokens text).1.map Token.word) ws := by
  refine ⟨fun t hn hp => ⟨t.exists_writes hn, fun ws text => parse_of_writes hn hp⟩,
    fun text t h => ?_⟩
  obtain ⟨e, rfl, prints⟩ := prints_of_parse h
  exact ⟨e, rfl, prints.leaves, prints.precedence, prints.writes⟩

/-- In `-x²` the sign binds more tightly than the power, and no parentheses are needed. -/
theorem parse_inverts_writing_power :
    let t : Tree := .binary "^" (.unary "-" (.identifier "x")) (.number (.int 2))
    let ws : List Word := [⟨.operator, "-"⟩, ⟨.identifier, "x"⟩, ⟨.operator, "^"⟩, ⟨.number, "2"⟩]
    t.HasLexicalLeaves ∧ t.RespectsPrecedence ∧ t.Writes ws ∧ Spaced ws "-x ^2".toList ∧
      parse "-x ^2" = .ok (.group t) ∧ parse "-x²" = .ok (.group t) ∧
      ∀ ws', t.Writes ws' ↔
        Respelled [⟨.operator, "-"⟩, ⟨.identifier, "x"⟩, ⟨.operator, "²"⟩] ws' := by
  intro t ws
  have two : Spells "2" (.int 2) := by
    refine ⟨⟨['2'], [], .whole ?_ (List.cons_ne_nil _ _), .none, rfl⟩, by decide⟩
    exact List.forall_mem_singleton.2 rfl
  have leaves : t.HasLexicalLeaves :=
    ⟨⟨['x'], [], .single (.inl rfl), nofun, rfl⟩, "2", two⟩
  have precedence : t.RespectsPrecedence :=
    ⟨⟨3, rfl, by decide, by decide⟩, ⟨.inr rfl, by decide, trivial⟩, trivial⟩
  have writes : t.Writes ws := ⟨_, _, ⟨_, rfl, rfl⟩, ⟨"2", two, rfl⟩, rfl⟩
  have spaced : Spaced ws "-x ^2".toList :=
    have blank : ∀ c ∈ [' '], isBlank c := List.forall_mem_singleton.2 rfl
    @Spaced.cons [] _ _ _ nofun (@Spaced.cons [] _ _ _ nofun (@Spaced.cons [' '] _ _ _ blank
      (@Spaced.cons [] _ _ _ nofun (@Spaced.nil [] nofun))))
  have source : parse "-x²" = .ok (.group t) := by rfl
  refine ⟨leaves, precedence, writes, spaced, ?_, source, ?_⟩
  · exact (parse_inverts_writing.1 t leaves precedence).2 ws "-x ^2" writes spaced
  · obtain ⟨e, he, -, -, h⟩ := parse_inverts_writing.2 "-x²" _ source
    cases he
    exact h

end ProcessGraph.Formula
