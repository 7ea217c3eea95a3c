import ProcessGraph.Proofs.Formula.Grammar

/-!
# What the parser accepts

`parse_iff_derives`: the parser accepts exactly the phrases of the grammar (`Derives`), with the
tree of the derivation inside a group, and the grammar gives a list of tokens at most one tree.

* Completeness (`Derives.reads`): after the tokens of a phrase the parser holds an operand that
  becomes the tree of the phrase when the frames of its level are closed. What lies below on the
  stack is not touched, as long as nothing there binds as tightly as the level.
* Soundness (`ParserState.Holds`): every frame stands for the tokens that it has read
  (`Frame.Holds`), and lies on a frame whose operand it may be. Reading a token keeps this
  (`Holds.feed`), and so does closing frames (`StackHolds.unwind`).

Unambiguity follows from both, as the parser is a function.
-/

set_option autoImplicit false

namespace ProcessGraph.Formula

open ParserState

/-! ## Closing frames -/

/-- Nothing on top of the stack binds as tightly as `n`. -/
def LooserThan (n : Nat) (stack : List Frame) : Prop := ∀ f ∈ stack.head?, f.tightness < n

theorem looserThan_cons {n : Nat} {f : Frame} (h : f.tightness < n) (stack : List Frame) :
    LooserThan n (f :: stack) := by
  intro g hg
  simp only [List.head?_cons, Option.mem_def, Option.some.injEq] at hg
  exact hg ▸ h

theorem LooserThan.mono {n m : Nat} {stack : List Frame} (h : LooserThan n stack) (hnm : n ≤ m) :
    LooserThan m stack := fun f hf => Nat.lt_of_lt_of_le (h f hf) hnm

theorem unwind_of_looserThan {n : Nat} {stack : List Frame} (h : LooserThan n stack) (t : Tree) :
    unwind n stack t = (stack, t) := by
  cases stack with
  | nil => rfl
  | cons f stack =>
    have hf : ¬ n ≤ f.tightness := by have := h f (by simp); omega
    simp [unwind, hf]

theorem looserThan_unwind (n : Nat) (stack : List Frame) (t : Tree) :
    LooserThan n (unwind n stack t).1 := by
  induction stack generalizing t with
  | nil => simp [unwind, LooserThan]
  | cons f stack ih =>
    unfold unwind
    split
    · exact ih (f.close t)
    · exact looserThan_cons (by omega) stack

/-- Closing the tighter frames first does not change what is closed in the end. -/
theorem unwind_unwind {m n : Nat} (h : m ≤ n) (stack : List Frame) (t : Tree) :
    unwind m (unwind n stack t).1 (unwind n stack t).2 = unwind m stack t := by
  induction stack generalizing t with
  | nil => rfl
  | cons f stack ih =>
    by_cases hf : n ≤ f.tightness
    · have hm : m ≤ f.tightness := by omega
      simp only [unwind, hf, hm, if_true]
      exact ih (f.close t)
    · simp [unwind, hf]

theorem unwind_congr {m n : Nat} (h : m ≤ n) {s s' : List Frame} {t t' : Tree}
    (he : unwind n s t = unwind n s' t') : unwind m s t = unwind m s' t' := by
  rw [← unwind_unwind h s t, he, unwind_unwind h s' t']

/-! ## Reading lists of tokens -/

theorem feedAll_append {context : String} {state state' : ParserState} {us : List Token}
    (h : feedAll context state us = .ok state') (vs : List Token) :
    feedAll context state (us ++ vs) = feedAll context state' vs := by
  induction us generalizing state with
  | nil => cases h; rfl
  | cons k us ih =>
    simp only [List.cons_append, feedAll] at h ⊢
    split at h
    · exact ih h
    · cases h

theorem feedAll_cons {context : String} {state state' : ParserState} {k : Token}
    (h : state.feed k = .ok state') (us : List Token) :
    feedAll context state (k :: us) = feedAll context state' us := by
  simp [feedAll, h]

theorem feedAll_singleton {context : String} {state state' : ParserState} {k : Token}
    (h : state.feed k = .ok state') : feedAll context state [k] = .ok state' := by
  simp [feedAll, h]

/-! ## Completeness -/

/-- The frames below a phrase of a level: up to powers, none on top may take the beginning of the
phrase as its operand. -/
def Below (n : Nonterminal) (stack : List Frame) : Prop := n.level ≤ 3 → LooserThan n.level stack

theorem Below.raise {n m : Nonterminal} {stack : List Frame} (h : Below n stack)
    (hn : n.level ≤ 3) (hnm : n.level ≤ m.level) : Below m stack := fun _ => (h hn).mono hnm

/-- What reading the tokens of a phrase on a stack leads to. -/
def ReadsPhrase (context : String) (n : Nonterminal) (us : List Token) (t : Tree)
    (stack : List Frame) : Prop :=
  ∃ s u, feedAll context (operand stack) us = .ok (operator s u) ∧
    unwind n.level s u = unwind n.level stack t

/-- What reading the arguments of a call on the frame of the call leads to. -/
def ReadsArguments (context : String) (us : List Token) (ts : List Tree) (name : String)
    (stack : List Frame) : Prop :=
  ∃ s u front last, feedAll context (operand (.call name [] :: stack)) us = .ok (operator s u) ∧
    ts = front ++ [last] ∧ unwind 1 s u = (.call name front :: stack, last)

section
variable {context : String} {us vs : List Token} {t l r : Tree} {stack : List Frame} {k : Token}

/-- A phrase of a level is read like one of a lower level. -/
theorem ReadsPhrase.lower {n m : Nonterminal} (h : ReadsPhrase context n us t stack)
    (hm : m.level ≤ n.level) : ReadsPhrase context m us t stack := by
  obtain ⟨s, u, hfeed, hunwind⟩ := h
  exact ⟨s, u, hfeed, unwind_congr hm hunwind⟩

/-- A binary operator: its frame `f` is pushed on what lies below the left operand, and the phrase
is complete when the frame is closed over the right operand. -/
theorem ReadsPhrase.binary {n m : Nonterminal} {f : Frame} (hn : n.level ≤ 3)
    (hm : n.level < m.level) (hf : f.tightness = n.level) (hb : Below n stack)
    (hl : ReadsPhrase context n us l stack)
    (hk : ∀ s u, unwind n.level s u = (stack, l) →
      (operator s u).feed k = .ok (operand (f :: stack)))
    (hr : ∀ stack, Below m stack → ReadsPhrase context m vs r stack) :
    ReadsPhrase context n (us ++ k :: vs) (f.close r) stack := by
  obtain ⟨s, u, hfeed, hunwind⟩ := hl
  obtain ⟨s', u', hfeed', hunwind'⟩ := hr (f :: stack) fun _ => looserThan_cons (by omega) stack
  rw [unwind_of_looserThan (hb hn)] at hunwind
  refine ⟨s', u', ?_, ?_⟩
  · rw [feedAll_append hfeed, feedAll_cons (hk s u hunwind), hfeed']
  · rw [unwind_congr (Nat.le_of_lt hm) hunwind']
    simp [unwind, hf]

/-- A sign: its frame is closed together with those of the operand. -/
theorem ReadsPhrase.sign {op : String}
    (hk : (operand stack).feed k = .ok (operand (.sign op :: stack)))
    (h : ReadsPhrase context .signed us t (.sign op :: stack)) :
    ReadsPhrase context .signed (k :: us) (.unary op t) stack := by
  obtain ⟨s, u, hfeed, hunwind⟩ := h
  refine ⟨s, u, ?_, ?_⟩
  · rw [feedAll_cons hk, hfeed]
  · rw [hunwind]
    simp [unwind, Frame.tightness, Frame.close, Nonterminal.level]

/-- An operand is read as a whole. -/
theorem ReadsPhrase.operand (h : feedAll context (.operand stack) us = .ok (operator stack t)) :
    ReadsPhrase context .operand us t stack := ⟨stack, t, h, rfl⟩

end

mutual

/-- **Completeness**: the parser reads every phrase. -/
theorem Derives.reads (context : String) {n : Nonterminal} {us : List Token} {t : Tree} :
    Derives n us t → ∀ stack, Below n stack → ReadsPhrase context n us t stack
  | .sumOfProduct h, stack, hb =>
    (h.reads context stack (hb.raise (by decide) (by decide))).lower (by decide)
  | .add hl hk hr, stack, hb =>
    .binary (f := .sum _ "+") (by decide) (by decide) rfl hb (hl.reads context stack hb)
      (fun s u hu => by
        simp [feed, feedOperator, hk, Token.text_of_terminal.1 hk,
          show unwind 1 s u = _ from hu])
      (hr.reads context)
  | .subtract hl hk hr, stack, hb =>
    .binary (f := .sum _ "-") (by decide) (by decide) rfl hb (hl.reads context stack hb)
      (fun s u hu => by
        simp [feed, feedOperator, hk, Token.text_of_terminal.2.1 hk,
          show unwind 1 s u = _ from hu])
      (hr.reads context)
  | .productOfPower h, stack, hb =>
    (h.reads context stack (hb.raise (by decide) (by decide))).lower (by decide)
  | .multiply hl hk hr, stack, hb =>
    .binary (f := .product _ "*") (by decide) (by decide) rfl hb (hl.reads context stack hb)
      (fun s u hu => by
        simp [feed, feedOperator, hk, Token.text_of_terminal.2.2.1 hk,
          show unwind 2 s u = _ from hu])
      (hr.reads context)
  | .divide hl hk hr, stack, hb =>
    .binary (f := .product _ "/") (by decide) (by decide) rfl hb (hl.reads context stack hb)
      (fun s u hu => by
        simp [feed, feedOperator, hk, Token.text_of_terminal.2.2.2 hk,
          show unwind 2 s u = _ from hu])
      (hr.reads context)
  | .powerOfSigned h, stack, hb =>
    (h.reads context stack (hb.raise (by decide) (by decide))).lower (by decide)
  | .raise hl hk hr, stack, hb =>
    .binary (f := .power _) (by decide) (by decide) rfl hb (hl.reads context stack hb)
      (fun s u hu => by simp [feed, feedOperator, hk, show unwind 3 s u = _ from hu])
      (hr.reads context)
  | .superscript (l := l) (d := d) hl hk htext hd, stack, hb => by
    obtain ⟨s, u, hfeed, hunwind⟩ := hl.reads context stack hb
    rw [unwind_of_looserThan (hb (by decide))] at hunwind
    refine ⟨stack, .binary "^" l (.number (.int d)), ?_, rfl⟩
    rw [feedAll_append hfeed]
    apply feedAll_singleton
    simp [feed, feedOperator, hk, show unwind 3 s u = _ from hunwind, superscriptNumber, htext, hd]
  | .signedOfOperand h, stack, hb =>
    (h.reads context stack fun hn => absurd hn (by decide)).lower (by decide)
  | .negative hk h, stack, _ =>
    .sign (by simp [feed, feedOperand, hk, Token.text_of_terminal.2.1 hk])
      (h.reads context _ fun hn => absurd hn (by decide))
  | .positive hk h, stack, _ =>
    .sign (by simp [feed, feedOperand, hk, Token.text_of_terminal.1 hk])
      (h.reads context _ fun hn => absurd hn (by decide))
  | .number hk, stack, _ => .operand (feedAll_singleton (by simp [feed, feedOperand, hk]))
  | .identifier hk, stack, _ => .operand (feedAll_singleton (by simp [feed, feedOperand, hk]))
  | .emptyCall hk ho hc, stack, _ => by
    apply ReadsPhrase.operand
    simp [feedAll, feed, feedOperand, feedOperator, hk, ho, hc]
  | @Derives.call k o us c _ hk ho hargs hc, stack, _ => by
    obtain ⟨s, u, front, last, hfeed, rfl, hunwind⟩ := hargs.reads context k.text stack
    apply ReadsPhrase.operand
    have hopen : feedAll context (.operand stack) [k, o] =
        .ok (.operand (.call k.text [] :: stack)) := by
      simp [feedAll, feed, feedOperand, feedOperator, hk, ho]
    rw [show k :: o :: us ++ [c] = [k, o] ++ (us ++ [c]) by simp, feedAll_append hopen,
      feedAll_append hfeed]
    apply feedAll_singleton
    simp [feed, feedOperator, hc, hunwind]
  | @Derives.group o us c _ ho h hc, stack, _ => by
    have hloose : LooserThan Nonterminal.sum.level (.group :: stack) :=
      looserThan_cons Nat.one_pos stack
    obtain ⟨s, u, hfeed, hunwind⟩ := h.reads context _ fun _ => hloose
    rw [unwind_of_looserThan hloose] at hunwind
    apply ReadsPhrase.operand
    have hopen : feedAll context (.operand stack) [o] = .ok (.operand (.group :: stack)) :=
      feedAll_singleton (by simp [feed, feedOperand, ho])
    rw [show o :: us ++ [c] = [o] ++ (us ++ [c]) by simp, feedAll_append hopen,
      feedAll_append hfeed]
    apply feedAll_singleton
    simp [feed, feedOperator, hc, show unwind 1 s u = _ from hunwind]

theorem DerivesArguments.reads (context : String) {us : List Token} {ts : List Tree} :
    DerivesArguments us ts → ∀ name stack, ReadsArguments context us ts name stack
  | .one (t := t) h, name, stack => by
    have hloose : LooserThan Nonterminal.sum.level (.call name [] :: stack) :=
      looserThan_cons Nat.one_pos stack
    obtain ⟨s, u, hfeed, hunwind⟩ := h.reads context _ fun _ => hloose
    rw [unwind_of_looserThan hloose] at hunwind
    exact ⟨s, u, [], t, hfeed, rfl, hunwind⟩
  | .more (k := k) (t := t) hargs hk h, name, stack => by
    obtain ⟨s, u, front, last, hfeed, rfl, hunwind⟩ := hargs.reads context name stack
    have hloose : LooserThan Nonterminal.sum.level (.call name (front ++ [last]) :: stack) :=
      looserThan_cons Nat.one_pos stack
    obtain ⟨s', u', hfeed', hunwind'⟩ := h.reads context _ fun _ => hloose
    rw [unwind_of_looserThan hloose] at hunwind'
    refine ⟨s', u', front ++ [last], t, ?_, rfl, hunwind'⟩
    have hcomma : (operator s u).feed k =
        .ok (.operand (.call name (front ++ [last]) :: stack)) := by
      simp [feed, feedOperator, hk, hunwind]
    rw [feedAll_append hfeed, feedAll_cons hcomma, hfeed']

end

/-! ## Frames and the tokens that they have read -/

/-- The level of the operand that a frame waits for. -/
def Frame.operand : Frame → Nonterminal
  | sum .. => .product
  | product .. => .power
  | power .. => .signed
  | sign .. => .signed
  | group => .sum
  | call .. => .sum

/-- The level of the phrase that a frame becomes. -/
def Frame.phrase : Frame → Nonterminal
  | sum .. => .sum
  | product .. => .product
  | power .. => .power
  | sign .. => .signed
  | group => .operand
  | call .. => .operand

/-- The frame has read the tokens. -/
inductive Frame.Holds : Frame → List Token → Prop
  | add {us l k} : Derives .sum us l → k.terminal = .plus → Holds (.sum l "+") (us ++ [k])
  | subtract {us l k} : Derives .sum us l → k.terminal = .minus → Holds (.sum l "-") (us ++ [k])
  | multiply {us l k} : Derives .product us l → k.terminal = .star →
      Holds (.product l "*") (us ++ [k])
  | divide {us l k} : Derives .product us l → k.terminal = .slash →
      Holds (.product l "/") (us ++ [k])
  | raise {us l k} : Derives .power us l → k.terminal = .caret → Holds (.power l) (us ++ [k])
  | negative {k} : k.terminal = .minus → Holds (.sign "-") [k]
  | positive {k} : k.terminal = .plus → Holds (.sign "+") [k]
  | group {o} : o.terminal = .opening → Holds .group [o]
  | call {k o} : k.terminal = .identifier → o.terminal = .opening → Holds (.call k.text []) [k, o]
  | arguments {k o us c ts} : k.terminal = .identifier → o.terminal = .opening →
      DerivesArguments us ts → c.terminal = .comma → Holds (.call k.text ts) (k :: o :: us ++ [c])

/-- The level that the operand above a stack must have. -/
def expected : List Frame → Nonterminal
  | [] => .sum
  | f :: _ => f.operand

/-- The frames of a stack have read the tokens, and each may be the operand of the one below. -/
inductive StackHolds : List Frame → List Token → Prop
  | nil : StackHolds [] []
  | cons {f stack us vs} : StackHolds stack us → f.Holds vs →
      (expected stack).level ≤ f.phrase.level → StackHolds (f :: stack) (us ++ vs)

/-- The parser has read the tokens. An operand that is there is at least a power: sums and products
stand on the stack until the next token closes them. -/
inductive ParserState.Holds : ParserState → List Token → Prop
  | operand {stack us} : StackHolds stack us → Holds (.operand stack) us
  | operator {stack us vs n t} : StackHolds stack us → Derives n vs t →
      (expected stack).level ≤ n.level → 3 ≤ n.level → Holds (.operator stack t) (us ++ vs)

theorem DerivesArguments.ne_nil {us : List Token} {ts : List Tree} (h : DerivesArguments us ts) :
    ts ≠ [] := by
  cases h <;> simp

theorem expected_le_four (stack : List Frame) : (expected stack).level ≤ 4 := by
  cases stack with
  | nil => decide
  | cons f stack => cases f <;> simp [expected, Frame.operand, Nonterminal.level]

theorem LooserThan.expected_le {n : Nat} {stack : List Frame} (h : LooserThan n stack)
    (hn : 1 ≤ n) : (expected stack).level ≤ n := by
  cases stack with
  | nil => exact hn
  | cons f stack =>
    have hf := h f (by simp)
    cases f <;> simp [Frame.tightness, expected, Frame.operand, Nonterminal.level] at hf ⊢ <;> omega

/-- An identifier is derived from one token. -/
theorem Derives.of_identifier {name : String} {n : Nonterminal} {us : List Token}
    (h : Derives n us (.identifier name)) :
    ∃ k : Token, us = [k] ∧ k.terminal = .identifier ∧ k.text = name := by
  have signed (h : Derives .signed us (.identifier name)) :
      Derives .operand us (.identifier name) := by
    cases h with
    | signedOfOperand h => exact h
  have power (h : Derives .power us (.identifier name)) :
      Derives .operand us (.identifier name) := by
    cases h with
    | powerOfSigned h => exact signed h
  have product (h : Derives .product us (.identifier name)) :
      Derives .operand us (.identifier name) := by
    cases h with
    | productOfPower h => exact power h
  have operand : Derives .operand us (.identifier name) := by
    cases n with
    | sum =>
      cases h with
      | sumOfProduct h => exact product h
    | product => exact product h
    | power => exact power h
    | signed => exact signed h
    | operand => exact h
  cases operand with
  | identifier hk => exact ⟨_, rfl, hk, rfl⟩

/-- Closing a frame over an operand of its level makes a phrase of its own level. -/
theorem Frame.Holds.close {f : Frame} {us vs : List Token} {t : Tree} (h : f.Holds us)
    (hf : 1 ≤ f.tightness) (ht : Derives f.operand vs t) :
    Derives f.phrase (us ++ vs) (f.close t) := by
  cases h with
  | add hl hk => rw [List.append_assoc]; exact .add hl hk ht
  | subtract hl hk => rw [List.append_assoc]; exact .subtract hl hk ht
  | multiply hl hk => rw [List.append_assoc]; exact .multiply hl hk ht
  | divide hl hk => rw [List.append_assoc]; exact .divide hl hk ht
  | raise hl hk => rw [List.append_assoc]; exact .raise hl hk ht
  | negative hk => exact .negative hk ht
  | positive hk => exact .positive hk ht
  | group | call | arguments => simp [Frame.tightness] at hf

theorem Frame.phrase_level {f : Frame} (h : 1 ≤ f.tightness) : f.phrase.level = f.tightness := by
  cases f <;> simp [Frame.tightness] at h <;> rfl

/-- What is left when the frames that bind at least as tightly as `level` are closed: a stack and a
phrase that have read the same tokens. -/
theorem StackHolds.unwind {level : Nat} (hlevel : 1 ≤ level) {stack : List Frame}
    {us vs : List Token} {n : Nonterminal} {t : Tree} (h : StackHolds stack us)
    (ht : Derives n vs t) (hn : (expected stack).level ≤ n.level) (hln : level ≤ n.level) :
    ∃ us' vs' m, us ++ vs = us' ++ vs' ∧ StackHolds (unwind level stack t).1 us' ∧
      Derives m vs' (unwind level stack t).2 ∧ level ≤ m.level := by
  induction h generalizing vs n t with
  | nil => exact ⟨[], vs, n, rfl, .nil, ht, hln⟩
  | @cons f stack us ws hs hf hle ih =>
    by_cases hc : level ≤ f.tightness
    · have h1 : 1 ≤ f.tightness := by omega
      have hp := Frame.phrase_level h1
      obtain ⟨us', vs', m, he, h'⟩ := ih (hf.close h1 (ht.lower hn)) hle (by omega)
      refine ⟨us', vs', m, by rw [← he, List.append_assoc], ?_⟩
      simpa [ProcessGraph.Formula.unwind, hc] using h'
    · refine ⟨us ++ ws, vs, n, rfl, ?_⟩
      simpa [ProcessGraph.Formula.unwind, hc] using ⟨StackHolds.cons hs hf hle, ht, hln⟩

/-- Closing the frames above a level after an operand: the operand has become a phrase of the
level, which may stand on what is left of the stack. -/
theorem ParserState.Holds.unwind {stack : List Frame} {t : Tree} {us : List Token}
    (h : (ParserState.operator stack t).Holds us) {m : Nonterminal} (hm : m.level ≤ 3) :
    ∃ us' vs, us = us' ++ vs ∧ StackHolds (unwind m.level stack t).1 us' ∧
      Derives m vs (unwind m.level stack t).2 ∧
      (expected (unwind m.level stack t).1).level ≤ m.level := by
  have hm1 : 1 ≤ m.level := by cases m <;> decide
  cases h with
  | operator hs ht hn h3 =>
    obtain ⟨us', vs, n, he, hs', ht', hmn⟩ := hs.unwind hm1 ht hn (by omega)
    exact ⟨us', vs, he, hs', ht'.lower hmn, (looserThan_unwind _ _ _).expected_le hm1⟩

/-! ## Soundness -/

section
variable {stack : List Frame} {t : Tree} {us : List Token} {k : Token} {state : ParserState}

/-- An operand on a stack: every level is below that of operands. -/
theorem StackHolds.operand {vs : List Token} (hs : StackHolds stack us)
    (ht : Derives .operand vs t) : (ParserState.operator stack t).Holds (us ++ vs) :=
  .operator hs ht (Nat.le_trans (expected_le_four stack) (by decide)) (by decide)

/-- A frame on a stack. -/
theorem StackHolds.push {f : Frame} {vs : List Token} (hs : StackHolds stack us)
    (hf : f.Holds vs) (h : (expected stack).level ≤ f.phrase.level) :
    (ParserState.operand (f :: stack)).Holds (us ++ vs) := .operand (.cons hs hf h)

theorem StackHolds.feedOperand (hs : StackHolds stack us)
    (hf : feedOperand stack k = .ok state) : state.Holds (us ++ [k]) := by
  have h4 := expected_le_four stack
  cases hk : k.terminal with
  | number =>
    simp only [ParserState.feedOperand, hk, Except.ok.injEq] at hf
    exact hf ▸ hs.operand (.number hk)
  | identifier =>
    simp only [ParserState.feedOperand, hk, Except.ok.injEq] at hf
    exact hf ▸ hs.operand (.identifier hk)
  | opening =>
    simp only [ParserState.feedOperand, hk, Except.ok.injEq] at hf
    exact hf ▸ hs.push (.group hk) (Nat.le_trans h4 (by decide))
  | minus =>
    simp only [ParserState.feedOperand, hk, Token.text_of_terminal.2.1 hk, Except.ok.injEq] at hf
    exact hf ▸ hs.push (.negative hk) h4
  | plus =>
    simp only [ParserState.feedOperand, hk, Token.text_of_terminal.1 hk, Except.ok.injEq] at hf
    exact hf ▸ hs.push (.positive hk) h4
  | closing =>
    -- only a call without arguments may end here
    simp only [ParserState.feedOperand, hk] at hf
    split at hf
    case h_6 name outer _ =>
      simp only [Except.ok.injEq] at hf
      cases hs with
      | cons hs hcall _ =>
        cases hcall with
        | call hn ho => subst hf; rw [List.append_assoc]; exact hs.operand (.emptyCall hn ho hk)
        | arguments _ _ hargs _ => exact absurd rfl hargs.ne_nil
    all_goals simp_all
  | ending | superscript | caret | comma | slash | star =>
    simp [ParserState.feedOperand, hk] at hf

/-- A closing parenthesis ends the group or the call whose last sum is complete. -/
theorem closing_holds {f : Frame} {outer : List Frame} {vs : List Token}
    (hs : StackHolds (f :: outer) us) (ht : Derives .sum vs t) (hk : k.terminal = .closing)
    (hf : f = .group ∨ ∃ name ts, f = .call name ts) :
    (ParserState.operator outer (f.close t)).Holds (us ++ vs ++ [k]) := by
  cases hs with
  | @cons _ _ us ws hs hframe _ =>
    rw [List.append_assoc, List.append_assoc]
    rcases hf with rfl | ⟨name, ts, rfl⟩
    · cases hframe with
      | group ho => exact hs.operand (.group ho ht hk)
    · cases hframe with
      | call hn ho => exact hs.operand (.call hn ho (.one ht) hk)
      | arguments hn ho hargs hc =>
        have := Derives.call hn ho (.more hargs hc ht) hk
        exact hs.operand (by simpa [Frame.close] using this)

/-- A comma ends an argument of the innermost call. -/
theorem comma_holds {name : String} {ts : List Tree} {outer : List Frame} {vs : List Token}
    (hs : StackHolds (.call name ts :: outer) us) (ht : Derives .sum vs t)
    (hk : k.terminal = .comma) :
    (ParserState.operand (.call name (ts ++ [t]) :: outer)).Holds (us ++ vs ++ [k]) := by
  cases hs with
  | @cons _ _ us ws hs hframe hle =>
    rw [List.append_assoc, List.append_assoc]
    cases hframe with
    | call hn ho => exact hs.push (.arguments hn ho (.one ht) hk) hle
    | arguments hn ho hargs hc =>
      have := Frame.Holds.arguments hn ho (.more hargs hc ht) hk
      exact hs.push (by simpa using this) hle

theorem ParserState.Holds.feedOperator (h : (ParserState.operator stack t).Holds us)
    (hlex : k.IsLexical)
    (hf : feedOperator stack t k = .ok state) : state.Holds (us ++ [k]) := by
  cases hk : k.terminal with
  | superscript =>
    obtain ⟨c, d, htext, hd⟩ := hlex.superscript hk
    obtain ⟨us, vs, rfl, hs, ht, he⟩ := h.unwind (m := .power) (by decide)
    simp only [ParserState.feedOperator, hk, superscriptNumber, htext, String.toList_singleton,
      List.head?_cons, Option.bind_some, hd, Option.getD_some, Except.ok.injEq] at hf
    subst hf
    rw [List.append_assoc]
    exact .operator hs (.superscript ht hk htext hd) he (by decide)
  | caret =>
    obtain ⟨us, vs, rfl, hs, ht, he⟩ := h.unwind (m := .power) (by decide)
    simp only [ParserState.feedOperator, hk, Except.ok.injEq] at hf
    subst hf
    rw [List.append_assoc]
    exact hs.push (.raise ht hk) he
  | star =>
    obtain ⟨us, vs, rfl, hs, ht, he⟩ := h.unwind (m := .product) (by decide)
    simp only [ParserState.feedOperator, hk, Token.text_of_terminal.2.2.1 hk,
      Except.ok.injEq] at hf
    subst hf
    rw [List.append_assoc]
    exact hs.push (.multiply ht hk) he
  | slash =>
    obtain ⟨us, vs, rfl, hs, ht, he⟩ := h.unwind (m := .product) (by decide)
    simp only [ParserState.feedOperator, hk, Token.text_of_terminal.2.2.2 hk,
      Except.ok.injEq] at hf
    subst hf
    rw [List.append_assoc]
    exact hs.push (.divide ht hk) he
  | plus =>
    obtain ⟨us, vs, rfl, hs, ht, he⟩ := h.unwind (m := .sum) (by decide)
    simp only [ParserState.feedOperator, hk, Token.text_of_terminal.1 hk, Except.ok.injEq] at hf
    subst hf
    rw [List.append_assoc]
    exact hs.push (.add ht hk) he
  | minus =>
    obtain ⟨us, vs, rfl, hs, ht, he⟩ := h.unwind (m := .sum) (by decide)
    simp only [ParserState.feedOperator, hk, Token.text_of_terminal.2.1 hk,
      Except.ok.injEq] at hf
    subst hf
    rw [List.append_assoc]
    exact hs.push (.subtract ht hk) he
  | closing =>
    obtain ⟨us, vs, rfl, hs, ht, -⟩ := h.unwind (m := .sum) (by decide)
    simp only [Nonterminal.level] at hs ht
    simp only [ParserState.feedOperator, hk] at hf
    split at hf
    · rename_i outer u hu
      rw [hu] at hs ht
      cases hf
      exact closing_holds hs ht hk (.inl rfl)
    · rename_i name ts outer u hu
      rw [hu] at hs ht
      cases hf
      exact closing_holds hs ht hk (.inr ⟨name, ts, rfl⟩)
    · cases hf
  | comma =>
    obtain ⟨us, vs, rfl, hs, ht, -⟩ := h.unwind (m := .sum) (by decide)
    simp only [Nonterminal.level] at hs ht
    simp only [ParserState.feedOperator, hk] at hf
    split at hf
    · rename_i name ts outer u hu
      rw [hu] at hs ht
      cases hf
      exact comma_holds hs ht hk
    · cases hf
  | opening =>
    -- a name becomes a call
    simp only [ParserState.feedOperator, hk] at hf
    split at hf
    · rename_i name
      cases hf
      cases h with
      | operator hs ht _ _ =>
        obtain ⟨n, rfl, hn, rfl⟩ := ht.of_identifier
        rw [List.append_assoc]
        exact hs.push (.call hn hk) (Nat.le_trans (expected_le_four stack) (Nat.le_succ 4))
    · cases hf
  | number | identifier | ending => simp [ParserState.feedOperator, hk] at hf

/-- Reading a token keeps what the state stands for. -/
theorem ParserState.Holds.feed {state' : ParserState} (h : state.Holds us) (hlex : k.IsLexical)
    (hf : state.feed k = .ok state') : state'.Holds (us ++ [k]) := by
  cases state with
  | operand stack =>
    cases h with
    | operand hs => exact hs.feedOperand hf
  | operator stack t => exact h.feedOperator hlex hf

end

/-- Reading tokens keeps what the state stands for. -/
theorem ParserState.Holds.feedAll {context : String} {ts us : List Token}
    {state state' : ParserState} (h : state.Holds us) (hlex : ∀ k ∈ ts, k.IsLexical)
    (hf : feedAll context state ts = .ok state') : state'.Holds (us ++ ts) := by
  induction ts generalizing state us with
  | nil =>
    simp only [Formula.feedAll, Except.ok.injEq] at hf
    simpa [← hf] using h
  | cons k ts ih =>
    simp only [Formula.feedAll] at hf
    split at hf
    · rename_i next hk
      have h' := h.feed (hlex k (by simp)) hk
      simpa using ih h' (fun k hk => hlex k (List.mem_cons_of_mem _ hk)) hf
    · cases hf

/-- **Soundness**: what the parser makes at the end of the text is the tree of a phrase. -/
theorem ParserState.Holds.finish {state : ParserState} {us : List Token} {t : Tree}
    (h : state.Holds us) (hf : state.finish = .ok t) : Derives .sum us t := by
  cases state with
  | operand stack => simp [ParserState.finish] at hf
  | operator stack u =>
    obtain ⟨us, vs, rfl, hs, ht, -⟩ := h.unwind (m := .sum) (by decide)
    simp only [Nonterminal.level] at hs ht
    simp only [ParserState.finish] at hf
    split at hf
    · rename_i u hu
      rw [hu] at hs ht
      cases hf
      cases hs
      exact ht
    · cases hf

/-! ## Main statements -/

theorem parseTokens_of_derives (context : String) {ts : List Token} {t : Tree}
    (h : Derives .sum ts t) : parseTokens context ts = .ok (.group t) := by
  obtain ⟨s, u, hfeed, hunwind⟩ := h.reads context [] fun _ => by simp [LooserThan]
  have hend : unwind 1 s u = ([], t) := hunwind
  simp [parseTokens, start, hfeed, finish, hend, bind, Except.bind]

theorem derives_of_parseTokens {context : String} {ts : List Token} {t : Tree}
    (hlex : ∀ k ∈ ts, k.IsLexical) (h : parseTokens context ts = .ok t) :
    ∃ e, Derives .sum ts e ∧ t = .group e := by
  unfold parseTokens at h
  cases hfeed : feedAll context start ts with
  | error e => simp [hfeed, bind, Except.bind] at h
  | ok state =>
    simp only [hfeed, bind, Except.bind] at h
    cases hend : state.finish with
    | error expected => simp [hend] at h
    | ok e =>
      simp only [hend, Except.ok.injEq] at h
      have hholds : state.Holds ts := by
        simpa using (ParserState.Holds.operand .nil).feedAll hlex hfeed
      exact ⟨e, hholds.finish hend, h.symm⟩

/-- The grammar gives a list of tokens at most one tree. -/
theorem Derives.unique {ts : List Token} {t t' : Tree} (h : Derives .sum ts t)
    (h' : Derives .sum ts t') : t = t' := by
  have he := (parseTokens_of_derives "" h).symm.trans (parseTokens_of_derives "" h')
  simpa using he

/-- Without its limit on integers, the parser accepts a text if its tokens are a phrase. -/
theorem parseSyntax_ok_iff {text : String} {t : Tree} :
    parseSyntax text = .ok t ↔
      ∃ ts e, tokens text = (ts, none) ∧ Derives .sum ts e ∧ t = .group e := by
  have hlex := tokens_isLexical text
  unfold parseSyntax
  constructor
  · intro h
    split at h
    · rename_i ts hts
      obtain ⟨e, he, rfl⟩ := derives_of_parseTokens (by simpa [hts] using hlex) h
      exact ⟨ts, e, hts, he, rfl⟩
    · rename_i ts e hts
      cases hfeed : feedAll text start ts <;> simp [hfeed, bind, Except.bind] at h
  · rintro ⟨ts, e, hts, he, rfl⟩
    simp [hts, parseTokens_of_derives text he]

/-- An integer with more digits than are read. -/
def Token.IsOversized (k : Token) : Prop :=
  k.kind = .number ∧ (∀ c ∈ k.text.toList, isDigit c) ∧ 4300 < k.text.length

theorem any_oversized_iff {ts : List Token} :
    (ts.any fun k => k.kind = .number && Numeral.isOversized k.text) = true ↔
      ∃ k ∈ ts, k.IsOversized := by
  simp only [List.any_eq_true, Token.IsOversized, Numeral.isOversized, Numeral.isInteger,
    Text.maxIntegerDigits, Bool.and_eq_true, decide_eq_true_eq, List.all_eq_true,
    String.length_toList]

theorem parse_ok_iff {text : String} {t : Tree} :
    parse text = .ok t ↔ parseSyntax text = .ok t ∧ ∀ k ∈ (tokens text).1, ¬ k.IsOversized := by
  unfold parse
  cases parseSyntax text with
  | error e => simp
  | ok u =>
    by_cases ho : ∃ k ∈ (tokens text).1, k.IsOversized
    · simp only [any_oversized_iff.2 ho, if_true, reduceCtorEq, false_iff]
      obtain ⟨k, hk, ho⟩ := ho
      exact fun h => h.2 k hk ho
    · have hno : ∀ k ∈ (tokens text).1, ¬ k.IsOversized := fun k hk h => ho ⟨k, hk, h⟩
      simp only [mt any_oversized_iff.1 ho, Bool.false_eq_true, if_false, Except.ok.injEq]
      exact ⟨fun h => ⟨h, hno⟩, fun h => h.1⟩

theorem parse_oversized_iff {text : String} :
    parse text = .error .oversizedInteger ↔
      (∃ t, parseSyntax text = .ok t) ∧ ∃ k ∈ (tokens text).1, k.IsOversized := by
  unfold parse
  cases parseSyntax text with
  | error e => simp
  | ok u =>
    by_cases ho : ∃ k ∈ (tokens text).1, k.IsOversized
    · simp [any_oversized_iff.2 ho, ho]
    · simp [mt any_oversized_iff.1 ho, ho]

/-- The parser accepts exactly the lists of tokens that the grammar derives from sums, with the
tree of the derivation inside a group; a text is parsed like its tokens, except that integers with
too many digits have no value; and no list of tokens has two trees. -/
theorem parse_iff_derives :
    (∀ (context : String) (ts : List Token), (∀ k ∈ ts, k.IsLexical) →
      ∀ t, parseTokens context ts = .ok t ↔ ∃ e, Derives .sum ts e ∧ t = .group e) ∧
    (∀ (text : String) (t : Tree), parse text = .ok t ↔
      ∃ ts e, tokens text = (ts, none) ∧ Derives .sum ts e ∧ t = .group e ∧
        ∀ k ∈ ts, ¬ k.IsOversized) ∧
    (∀ text : String, parse text = .error .oversizedInteger ↔
      ∃ ts e, tokens text = (ts, none) ∧ Derives .sum ts e ∧ ∃ k ∈ ts, k.IsOversized) ∧
    ∀ (n : Nonterminal) (ts : List Token) (t t' : Tree),
      Derives n ts t → Derives n ts t' → t = t' := by
  refine ⟨fun context ts hlex t => ⟨derives_of_parseTokens hlex, ?_⟩, fun text t => ?_,
    fun text => ?_, fun n ts t t' h h' => ?_⟩
  · rintro ⟨e, he, rfl⟩
    exact parseTokens_of_derives context he
  · rw [parse_ok_iff, parseSyntax_ok_iff]
    constructor
    · rintro ⟨⟨ts, e, hts, he, rfl⟩, hno⟩
      rw [hts] at hno
      exact ⟨ts, e, hts, he, rfl, hno⟩
    · rintro ⟨ts, e, hts, he, rfl, hno⟩
      exact ⟨⟨ts, e, hts, he, rfl⟩, by rw [hts]; exact hno⟩
  · rw [parse_oversized_iff]
    constructor
    · rintro ⟨⟨t, ht⟩, ho⟩
      obtain ⟨ts, e, hts, he, -⟩ := parseSyntax_ok_iff.1 ht
      rw [hts] at ho
      exact ⟨ts, e, hts, he, ho⟩
    · rintro ⟨ts, e, hts, he, ho⟩
      exact ⟨⟨_, parseSyntax_ok_iff.2 ⟨ts, e, hts, he, rfl⟩⟩, by rw [hts]; exact ho⟩
  · exact (h.lower (by cases n <;> decide)).unique (h'.lower (by cases n <;> decide))

/-- `a-b-2²`, which groups to the left. -/
theorem parse_difference :
    let ts : List Token := [⟨.identifier, "a", 0, 0⟩, ⟨.operator, "-", 1, 1⟩,
      ⟨.identifier, "b", 2, 2⟩, ⟨.operator, "-", 3, 3⟩, ⟨.number, "2", 4, 4⟩,
      ⟨.operator, "²", 5, 5⟩]
    (∀ k ∈ ts, k.IsLexical) ∧
      parseTokens "a-b-2²" ts = .ok (.group (.binary "-"
        (.binary "-" (.identifier "a") (.identifier "b"))
        (.binary "^" (.number (.int 2)) (.number (.int 2))))) := by
  intro ts
  have hlex : ∀ k ∈ ts, k.IsLexical := by
    intro k hk
    simp only [ts, List.mem_cons, List.not_mem_nil, or_false] at hk
    rcases hk with rfl | rfl | rfl | rfl | rfl | rfl
    · nofun
    · exact fun _ => ⟨'-', by decide, rfl⟩
    · nofun
    · exact fun _ => ⟨'-', by decide, rfl⟩
    · nofun
    · exact fun _ => ⟨'²', by decide, rfl⟩
  refine ⟨hlex, (parse_iff_derives.1 "a-b-2²" ts hlex _).2 ⟨_, ?_, rfl⟩⟩
  have operand {k : Token} {t : Tree} (h : Derives .operand [k] t) : Derives .power [k] t :=
    .powerOfSigned (.signedOfOperand h)
  have hab : Derives .sum [ts[0], ts[1], ts[2]]
      (.binary "-" (.identifier "a") (.identifier "b")) :=
    Derives.subtract (.sumOfProduct (.productOfPower (operand (.identifier rfl)))) rfl
      (.productOfPower (operand (.identifier rfl)))
  have htwo : Derives .operand [ts[4]] (.number (.int 2)) := by
    have hvalue : Numeral.value "2" = .int 2 := by decide
    exact hvalue ▸ .number rfl
  have hc : Derives .power ([ts[4]] ++ [ts[5]])
      (.binary "^" (.number (.int 2)) (.number (.int 2))) :=
    .superscript (c := '²') (d := 2) (operand htwo) rfl rfl rfl
  exact .subtract hab (k := ts[3]) rfl (.productOfPower hc)

end ProcessGraph.Formula
