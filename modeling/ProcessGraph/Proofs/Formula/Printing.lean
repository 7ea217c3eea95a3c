import Mathlib.Data.List.Chain
import ProcessGraph.Proofs.Formula.Parsing
import ProcessGraph.Proofs.Formula.Tokenization

/-!
# Writing formulas

`t.Writes ws`: the words `ws` write the tree `t` from left to right, with parentheses exactly where
the tree has groups. A number is written by any numeral of its value (`Spells`).

Without further parentheses only some trees can be written. A tree respects precedence if no
operand binds less tightly than its operator asks for (`Tree.RespectsPrecedence`). The words of such
a tree are a phrase of the grammar (`Tree.derives_of_writes`), and in a text the lexer tells them
apart even without blanks (`Spaced.tokens`), so a text that writes a tree is parsed to it
(`parse_of_writes`).
-/

set_option autoImplicit false

namespace ProcessGraph.Formula

/-! ## Words -/

/-- A token without its place. -/
structure Word where
  kind : TokenKind
  text : String
deriving DecidableEq, Inhabited, Repr

def Token.word (k : Token) : Word := ⟨k.kind, k.text⟩

/-- Words with blanks before, between and behind them. There may be none. -/
inductive Spaced : List Word → List Char → Prop
  | nil {blanks} : (∀ c ∈ blanks, isBlank c) → Spaced [] blanks
  | cons {blanks w ws cs} : (∀ c ∈ blanks, isBlank c) → Spaced ws cs →
      Spaced (w :: ws) (blanks ++ (w.text.toList ++ cs))

/-- Words that can be told apart without blanks: of two neighbours, one is an operator. -/
structure Legible (ws : List Word) : Prop where
  kinds : ∀ w ∈ ws, w.kind.Matches w.text.toList
  apart : ws.IsChain fun v w => v.kind = .operator ∨ w.kind = .operator

theorem Legible.nil : Legible [] := ⟨nofun, .nil⟩

theorem Legible.singleton {w : Word} (h : w.kind.Matches w.text.toList) : Legible [w] :=
  ⟨List.forall_mem_singleton.2 h, .singleton w⟩

/-- An operator may stand between any words. -/
theorem Legible.operator {us vs : List Word} {op : String} (hu : Legible us) (hv : Legible vs)
    (ho : TokenKind.operator.Matches op.toList) : Legible (us ++ ⟨.operator, op⟩ :: vs) where
  kinds w hw := by
    rcases List.mem_append.1 hw with hw | hw
    · exact hu.kinds w hw
    rcases List.mem_cons.1 hw with rfl | hw
    · exact ho
    · exact hv.kinds w hw
  apart := by
    refine List.isChain_append.2 ⟨hu.apart, List.isChain_cons.2 ⟨fun _ _ => .inl rfl, hv.apart⟩, ?_⟩
    rintro v - w hw
    obtain rfl : Word.mk .operator op = w := by simpa using hw
    exact .inr rfl

/-- What stands in front of an operator, or of the end, is set apart by it. -/
theorem Spaced.separates {ws : List Word} {cs : List Char} (h : Spaced ws cs) (hl : Legible ws)
    (ho : ∀ w ∈ ws.head?, w.kind = .operator) : ∀ c ∈ cs.head?, Separates c := by
  intro c hc
  cases h with
  | nil hb => exact .inl (hb c (List.mem_of_mem_head? hc))
  | @cons blanks w ws cs hb _ =>
    cases blanks with
    | cons b blanks =>
      obtain rfl : b = c := by simpa using hc
      exact .inl (hb b List.mem_cons_self)
    | nil =>
      have hw := hl.kinds w List.mem_cons_self
      rw [ho w rfl] at hw
      obtain ⟨c', hc', e⟩ := hw
      obtain rfl : c' = c := by simpa [e] using hc
      exact .inr (List.contains_iff_mem.2 hc')

/-- The lexer finds the words of a text. -/
theorem Spaced.readTokens {ws : List Word} {cs : List Char} (h : Spaced ws cs) (hl : Legible ws) :
    ∀ fuel i, cs.length < fuel →
      ∃ ts stop, readTokens fuel i cs = (ts, none, stop) ∧ ts.map Token.word = ws := by
  induction h with
  | nil hb =>
    intro fuel i hf
    obtain ⟨fuel, rfl⟩ := Nat.exists_eq_add_one_of_ne_zero (Nat.ne_zero_of_lt hf)
    exact ⟨[], _, by simp only [Formula.readTokens, readToken_blanks hb]; rfl, rfl⟩
  | @cons blanks w ws cs hb h ih =>
    intro fuel i hf
    obtain ⟨fuel, rfl⟩ := Nat.exists_eq_add_one_of_ne_zero (Nat.ne_zero_of_lt hf)
    obtain ⟨next, chain⟩ := List.isChain_cons.1 hl.apart
    have later : Legible ws := ⟨fun v hv => hl.kinds v (List.mem_cons_of_mem w hv), chain⟩
    have here := hl.kinds w List.mem_cons_self
    have stop : w.kind = .operator ∨ ∀ c ∈ cs.head?, Separates c := by
      by_cases hw : w.kind = .operator
      · exact .inl hw
      · exact .inr (h.separates later fun v hv => (next v hv).resolve_left hw)
    have width : 0 < w.text.toList.length := by
      obtain ⟨c, v, e, -⟩ := here.exists_cons
      simp [e]
    simp only [List.length_append] at hf
    obtain ⟨ts, last, read, words⟩ := ih later fuel (i + blanks.length + w.text.length) (by omega)
    let t : Token := ⟨w.kind, w.text, i + blanks.length, i + blanks.length + w.text.length - 1⟩
    refine ⟨t :: ts, last, ?_, congrArg (w :: ·) words⟩
    simp only [Formula.readTokens, readToken_append hb here stop, read, t]

theorem Spaced.tokens {ws : List Word} {text : String} (h : Spaced ws text.toList)
    (hl : Legible ws) : ∃ ts, tokens text = (ts, none) ∧ ts.map Token.word = ws := by
  obtain ⟨ts, stop, read, words⟩ := h.readTokens hl (text.toList.length + 1) 0 (Nat.lt_succ_self _)
  exact ⟨ts, by simp only [Formula.tokens, read], words⟩

/-! ## Trees -/

/-- The numeral writes the number. -/
def Spells (s : String) (v : Scalar) : Prop :=
  TokenKind.number.Matches s.toList ∧ Numeral.value s = v

/-- How tightly a binary operator binds its operands. -/
def operatorTightness? (op : String) : Option Nat :=
  if op = "+" ∨ op = "-" then some 1
  else if op = "*" ∨ op = "/" then some 2
  else if op = "^" then some 3
  else none

namespace Tree

/-- How tightly the outermost construct of a tree binds. -/
def tightness : Tree → Nat
  | binary op _ _ => (operatorTightness? op).getD 0
  | unary .. => 4
  | _ => 5

mutual

/-- Every number has a numeral, and every name is an identifier. -/
def HasLexicalLeaves : Tree → Prop
  | number v => ∃ s, Spells s v
  | identifier name => TokenKind.identifier.Matches name.toList
  | binary _ left right => left.HasLexicalLeaves ∧ right.HasLexicalLeaves
  | unary _ operand => operand.HasLexicalLeaves
  | call name arguments =>
    TokenKind.identifier.Matches name.toList ∧ HaveLexicalLeaves arguments
  | group inner => inner.HasLexicalLeaves

def HaveLexicalLeaves : List Tree → Prop
  | [] => True
  | t :: ts => t.HasLexicalLeaves ∧ HaveLexicalLeaves ts

end

mutual

/-- The left operand of a binary operator binds at least as tightly as the operator, and the right
operand more tightly. Below a sign there is no binary operator. -/
def RespectsPrecedence : Tree → Prop
  | number _ => True
  | identifier _ => True
  | binary op left right =>
    (∃ n, operatorTightness? op = some n ∧ n ≤ left.tightness ∧ n < right.tightness) ∧
      left.RespectsPrecedence ∧ right.RespectsPrecedence
  | unary op operand => (op = "+" ∨ op = "-") ∧ 4 ≤ operand.tightness ∧ operand.RespectsPrecedence
  | call _ arguments => RespectPrecedence arguments
  | group inner => inner.RespectsPrecedence

def RespectPrecedence : List Tree → Prop
  | [] => True
  | t :: ts => t.RespectsPrecedence ∧ RespectPrecedence ts

end

mutual

/-- The words write the tree. -/
def Writes : Tree → List Word → Prop
  | number v, ws => ∃ s, Spells s v ∧ ws = [⟨.number, s⟩]
  | identifier name, ws => ws = [⟨.identifier, name⟩]
  | binary op left right, ws =>
    ∃ us vs, left.Writes us ∧ right.Writes vs ∧ ws = us ++ ⟨.operator, op⟩ :: vs
  | unary op operand, ws => ∃ us, operand.Writes us ∧ ws = ⟨.operator, op⟩ :: us
  | call name arguments, ws => ∃ us, WriteArguments arguments us ∧
    ws = ⟨.identifier, name⟩ :: ⟨.operator, "("⟩ :: (us ++ [⟨.operator, ")"⟩])
  | group inner, ws => ∃ us, inner.Writes us ∧
    ws = ⟨.operator, "("⟩ :: (us ++ [⟨.operator, ")"⟩])

/-- The words write the trees, with commas between them. -/
def WriteArguments : List Tree → List Word → Prop
  | [], ws => ws = []
  | [t], ws => t.Writes ws
  | t :: ts, ws => ∃ us vs, t.Writes us ∧ WriteArguments ts vs ∧ ws = us ++ ⟨.operator, ","⟩ :: vs

end

end Tree

/-! ## Operators -/

section
variable {op : String} {n : Nat}

theorem operatorTightness?_cases (h : operatorTightness? op = some n) :
    (op = "+" ∧ n = 1 ∨ op = "-" ∧ n = 1) ∨ (op = "*" ∧ n = 2 ∨ op = "/" ∧ n = 2) ∨
      op = "^" ∧ n = 3 := by
  unfold operatorTightness? at h
  grind

/-- The operators that are written as they are; the others are the superscripts. -/
def plainOperators : List String := ["+", "-", "*", "/", "^", "(", ")", ","]

theorem matches_operator {op : String} (h : op ∈ plainOperators) :
    TokenKind.operator.Matches op.toList := by
  have all : plainOperators.all fun op => operators.any fun c => op.toList = [c] := by decide
  simpa [TokenKind.Matches] using List.all_eq_true.1 all op h

theorem operatorTightness?_mem (h : operatorTightness? op = some n) : op ∈ plainOperators := by
  rcases operatorTightness?_cases h with
    (⟨rfl, -⟩ | ⟨rfl, -⟩) | (⟨rfl, -⟩ | ⟨rfl, -⟩) | ⟨rfl, -⟩ <;>
    decide

theorem Token.terminal_of_word {k : Token} (h : k.word = ⟨.operator, op⟩) :
    k.terminal = Terminal.ofOperator op := by
  simp only [Token.word, Word.mk.injEq] at h
  simp only [Token.terminal, h]

/-- The terminals of these operators stand for nothing else. -/
theorem Token.word_of_terminal {k : Token} (ho : op ∈ plainOperators)
    (h : k.terminal = Terminal.ofOperator op) : k.word = ⟨.operator, op⟩ := by
  have other : ∀ op ∈ plainOperators, Terminal.ofOperator op ≠ .number ∧
      Terminal.ofOperator op ≠ .identifier ∧ Terminal.ofOperator op ≠ .superscript := by decide
  have injective : ∀ op ∈ plainOperators, ∀ op' ∈ plainOperators,
      Terminal.ofOperator op = Terminal.ofOperator op' → op = op' := by decide
  unfold Token.terminal at h
  cases hk : k.kind with
  | number => exact absurd (by simpa [hk] using h.symm) (other op ho).1
  | identifier => exact absurd (by simpa [hk] using h.symm) (other op ho).2.1
  | operator =>
    have h : Terminal.ofOperator k.text = Terminal.ofOperator op := by simpa [hk] using h
    have plain : k.text ∈ plainOperators := by
      by_contra hn
      simp only [plainOperators, List.mem_cons, List.not_mem_nil, or_false, not_or] at hn
      exact (other op ho).2.2 (h ▸ by simp [Terminal.ofOperator, hn])
    rw [Token.word, hk, injective k.text plain op ho h]

/-- A binary operator of the grammar, between operands that bind tightly enough. -/
theorem derives_binary {l r : Tree} {us vs : List Token} {k : Token}
    (hop : operatorTightness? op = some n) (hk : k.word = ⟨.operator, op⟩)
    (hl : ∀ m : Nonterminal, m.level ≤ n → Derives m us l)
    (hr : ∀ m : Nonterminal, m.level ≤ n + 1 → Derives m vs r) {m : Nonterminal}
    (hm : m.level ≤ n) : Derives m (us ++ k :: vs) (.binary op l r) := by
  have terminal := Token.terminal_of_word hk
  rcases operatorTightness?_cases hop with
    (⟨rfl, rfl⟩ | ⟨rfl, rfl⟩) | (⟨rfl, rfl⟩ | ⟨rfl, rfl⟩) | ⟨rfl, rfl⟩
  · exact (Derives.add (hl .sum (by decide)) terminal (hr .product (by decide))).lower hm
  · exact (Derives.subtract (hl .sum (by decide)) terminal (hr .product (by decide))).lower hm
  · exact (Derives.multiply (hl .product (by decide)) terminal (hr .power (by decide))).lower hm
  · exact (Derives.divide (hl .product (by decide)) terminal (hr .power (by decide))).lower hm
  · exact (Derives.raise (hl .power (by decide)) terminal (hr .signed (by decide))).lower hm

end

/-- Arguments may be added in front, too. -/
theorem DerivesArguments.cons {us vs : List Token} {k : Token} {t : Tree} {ts : List Tree}
    (h : Derives .sum us t) (hk : k.terminal = .comma) :
    DerivesArguments vs ts → DerivesArguments (us ++ k :: vs) (t :: ts)
  | .one h' => .more (.one h) hk h'
  | .more hs hk' h' => by
    have := DerivesArguments.more (DerivesArguments.cons h hk hs) hk' h'
    simpa using this

/-! ## What is written is read -/

namespace Tree

theorem tightness_pos (t : Tree) (h : t.RespectsPrecedence) : 1 ≤ t.tightness := by
  cases t with
  | binary op left right =>
    obtain ⟨⟨n, hop, -⟩, -⟩ := h
    simp only [tightness, hop, Option.getD_some]
    have := operatorTightness?_cases hop
    omega
  | number | identifier | unary | call | group => simp [tightness]

mutual

theorem exists_writes : (t : Tree) → t.HasLexicalLeaves → ∃ ws, t.Writes ws
  | .number _, ⟨s, hs⟩ => ⟨_, s, hs, rfl⟩
  | .identifier _, _ => ⟨_, rfl⟩
  | .binary _ left right, ⟨hl, hr⟩ =>
    have ⟨us, hu⟩ := left.exists_writes hl
    have ⟨vs, hv⟩ := right.exists_writes hr
    ⟨_, us, vs, hu, hv, rfl⟩
  | .unary _ operand, h =>
    have ⟨us, hu⟩ := operand.exists_writes h
    ⟨_, us, hu, rfl⟩
  | .call _ arguments, ⟨_, h⟩ =>
    have ⟨us, hu⟩ := exists_writeArguments arguments h
    ⟨_, us, hu, rfl⟩
  | .group inner, h =>
    have ⟨us, hu⟩ := inner.exists_writes h
    ⟨_, us, hu, rfl⟩

theorem exists_writeArguments :
    (ts : List Tree) → HaveLexicalLeaves ts → ∃ ws, WriteArguments ts ws
  | [], _ => ⟨_, rfl⟩
  | [t], ⟨h, _⟩ => t.exists_writes h
  | t :: u :: ts, ⟨h, hs⟩ =>
    have ⟨us, hu⟩ := t.exists_writes h
    have ⟨vs, hv⟩ := exists_writeArguments (u :: ts) hs
    ⟨_, us, vs, hu, hv, rfl⟩

end

mutual

/-- What writes a tree can be told apart by the lexer. -/
theorem legible_of_writes : (t : Tree) → t.HasLexicalLeaves → t.RespectsPrecedence →
    ∀ {ws}, t.Writes ws → Legible ws
  | .number _, _, _, _, h => by
    obtain ⟨s, hs, rfl⟩ := h
    exact .singleton hs.1
  | .identifier _, hn, _, _, h => by
    obtain rfl := h
    exact .singleton hn
  | .binary _ left right, hn, hp, _, h => by
    obtain ⟨us, vs, hu, hv, rfl⟩ := h
    obtain ⟨⟨n, hop, -⟩, hpl, hpr⟩ := hp
    exact (left.legible_of_writes hn.1 hpl hu).operator (right.legible_of_writes hn.2 hpr hv)
      (matches_operator (operatorTightness?_mem hop))
  | .unary _ operand, hn, hp, _, h => by
    obtain ⟨us, hu, rfl⟩ := h
    obtain ⟨hop, -, hp⟩ := hp
    exact Legible.nil.operator (operand.legible_of_writes hn hp hu)
      (matches_operator (by rcases hop with rfl | rfl <;> decide))
  | .call _ arguments, hn, hp, _, h => by
    obtain ⟨us, hu, rfl⟩ := h
    have inner := legible_of_writeArguments arguments hn.2 hp hu
    exact (Legible.singleton hn.1).operator (inner.operator .nil (matches_operator (by decide)))
      (matches_operator (by decide))
  | .group inner, hn, hp, _, h => by
    obtain ⟨us, hu, rfl⟩ := h
    exact Legible.nil.operator ((inner.legible_of_writes hn hp hu).operator
      .nil (matches_operator (by decide))) (matches_operator (by decide))

theorem legible_of_writeArguments : (ts : List Tree) → HaveLexicalLeaves ts →
    RespectPrecedence ts → ∀ {ws}, WriteArguments ts ws → Legible ws
  | [], _, _, _, h => by
    obtain rfl := h
    exact .nil
  | [t], hn, hp, _, h => t.legible_of_writes hn.1 hp.1 h
  | t :: u :: ts, hn, hp, _, h => by
    obtain ⟨us, vs, hu, hv, rfl⟩ := h
    exact (t.legible_of_writes hn.1 hp.1 hu).operator
      (legible_of_writeArguments (u :: ts) hn.2 hp.2 hv) (matches_operator (by decide))

end

mutual

/-- What writes a tree is a phrase of each level that the tree binds tightly enough for. -/
theorem derives_of_writes : (t : Tree) → t.RespectsPrecedence → ∀ {us : List Token},
    t.Writes (us.map Token.word) → ∀ {n : Nonterminal}, n.level ≤ t.tightness → Derives n us t
  | .number v, _, us, h, n, hn => by
    obtain ⟨s, hs, e⟩ := h
    obtain ⟨k, rfl, hk⟩ := List.map_eq_singleton_iff.1 e
    simp only [Token.word, Word.mk.injEq] at hk
    rw [← hs.2, ← hk.2]
    exact (Derives.number (by simp only [Token.terminal, hk.1])).lower hn
  | .identifier name, _, us, h, n, hn => by
    obtain ⟨k, rfl, hk⟩ := List.map_eq_singleton_iff.1 h
    simp only [Token.word, Word.mk.injEq] at hk
    rw [← hk.2]
    exact (Derives.identifier (by simp only [Token.terminal, hk.1])).lower hn
  | .binary op left right, hp, us, h, n, hn => by
    obtain ⟨_, _, hu, hv, e⟩ := h
    obtain ⟨⟨m, hop, le, lt⟩, hpl, hpr⟩ := hp
    obtain ⟨us, rest, rfl, rfl, e'⟩ := List.map_eq_append_iff.1 e
    obtain ⟨k, vs, rfl, hk, rfl⟩ := List.map_eq_cons_iff.1 e'
    refine derives_binary hop hk (fun m' hm => ?_) (fun m' hm => ?_) ?_
    · exact left.derives_of_writes hpl hu (Nat.le_trans hm le)
    · exact right.derives_of_writes hpr hv (Nat.le_trans hm lt)
    · simpa [tightness, hop] using hn
  | .unary op operand, hp, us, h, n, hn => by
    obtain ⟨_, hu, e⟩ := h
    obtain ⟨hop, le, hp⟩ := hp
    obtain ⟨k, us, rfl, hk, rfl⟩ := List.map_eq_cons_iff.1 e
    have terminal := Token.terminal_of_word hk
    have inner : Derives .signed us operand := operand.derives_of_writes hp hu le
    rcases hop with rfl | rfl
    · exact (Derives.positive terminal inner).lower hn
    · exact (Derives.negative terminal inner).lower hn
  | .call name arguments, hp, us, h, n, hn => by
    obtain ⟨_, hu, e⟩ := h
    obtain ⟨k, rest, rfl, hk, e⟩ := List.map_eq_cons_iff.1 e
    obtain ⟨o, rest, rfl, ho, e⟩ := List.map_eq_cons_iff.1 e
    obtain ⟨us, rest, rfl, rfl, e'⟩ := List.map_eq_append_iff.1 e
    obtain ⟨c, rfl, hc⟩ := List.map_eq_singleton_iff.1 e'
    have ho : o.terminal = .opening := Token.terminal_of_word ho
    have hc : c.terminal = .closing := Token.terminal_of_word hc
    simp only [Token.word, Word.mk.injEq] at hk
    have hk' : k.terminal = .identifier := by simp only [Token.terminal, hk.1]
    rw [← hk.2]
    by_cases empty : arguments = []
    · subst empty
      obtain rfl := List.map_eq_nil_iff.1 hu
      exact (Derives.emptyCall hk' ho hc).lower hn
    · exact (Derives.call hk' ho (derivesArguments_of_writes arguments hp hu empty) hc).lower hn
  | .group inner, hp, us, h, n, hn => by
    obtain ⟨_, hu, e⟩ := h
    obtain ⟨o, rest, rfl, ho, e⟩ := List.map_eq_cons_iff.1 e
    obtain ⟨us, rest, rfl, rfl, e'⟩ := List.map_eq_append_iff.1 e
    obtain ⟨c, rfl, hc⟩ := List.map_eq_singleton_iff.1 e'
    have ho : o.terminal = .opening := Token.terminal_of_word ho
    have hc : c.terminal = .closing := Token.terminal_of_word hc
    have phrase : Derives .sum us inner := inner.derives_of_writes hp hu (inner.tightness_pos hp)
    exact (Derives.group ho phrase hc).lower hn

theorem derivesArguments_of_writes : (ts : List Tree) → RespectPrecedence ts →
    ∀ {us : List Token}, WriteArguments ts (us.map Token.word) → ts ≠ [] → DerivesArguments us ts
  | [], _, _, _, h => absurd rfl h
  | [t], hp, us, h, _ => .one (t.derives_of_writes hp.1 h (t.tightness_pos hp.1))
  | t :: u :: ts, hp, us, h, _ => by
    obtain ⟨_, _, hu, hv, e⟩ := h
    obtain ⟨us, rest, rfl, rfl, e'⟩ := List.map_eq_append_iff.1 e
    obtain ⟨k, vs, rfl, hk, rfl⟩ := List.map_eq_cons_iff.1 e'
    exact .cons (t.derives_of_writes hp.1 hu (t.tightness_pos hp.1)) (Token.terminal_of_word hk)
      (derivesArguments_of_writes (u :: ts) hp.2 hv (List.cons_ne_nil u ts))

end

end Tree

/-! ## Texts -/

/-- An integer numeral with more digits than are read. -/
def Word.isOversized (w : Word) : Bool := w.kind = .number && Numeral.isOversized w.text

theorem any_isOversized (ts : List Token) :
    (ts.map Token.word).any Word.isOversized =
      ts.any fun k => k.kind = .number && Numeral.isOversized k.text := by
  rw [List.any_map]
  rfl

/-- A text that writes a tree is parsed to the tree, with any blanks between the words. -/
theorem parse_of_writes {t : Tree} {ws : List Word} {text : String} (hn : t.HasLexicalLeaves)
    (hp : t.RespectsPrecedence) (hw : t.Writes ws) (hs : Spaced ws text.toList) :
    parse text =
      if ws.any Word.isOversized then .error .oversizedInteger else .ok (.group t) := by
  obtain ⟨ts, read, rfl⟩ := hs.tokens (t.legible_of_writes hn hp hw)
  have phrase : Derives .sum ts t := t.derives_of_writes hp hw (t.tightness_pos hp)
  simp only [parse, parseSyntax_ok_iff.2 ⟨ts, t, read, phrase, rfl⟩, read, any_isOversized]

end ProcessGraph.Formula
