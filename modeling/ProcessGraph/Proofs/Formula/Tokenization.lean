import ProcessGraph.Proofs.Formula.Lexemes

/-!
# What the lexer makes of a text

`t.IsNext cs i`: the token `t` is the next one of the text `cs` from the position `i` on. Before it
are blanks only, it is a slice of the text, and it is the longest one that starts there and belongs
to a class of tokens. One step of the lexer finds the next token (`Lexer.isNext_of_next`).

A list of tokens covers a text if it leaves out blanks only (`Covers`). A lexer that answers tokens
until there is none has covered the text (`Lexer.Yields.covers`), and this is what tokenizing does
(`Lexer.tokenize_eq_ok`).
-/

set_option autoImplicit false

namespace ProcessGraph.Formula

/-! ## One token -/

/-- The token is the next one of the text from the position `i` on. -/
structure Token.IsNext (cs : List Char) (i : Nat) (t : Token) : Prop where
  le_first : i ≤ t.first
  first_le : t.first ≤ t.last
  last_lt : t.last < cs.length
  blanks : ∀ j c, i ≤ j → j < t.first → cs[j]? = some c → c = '\t' ∨ c = ' ' ∨ c = '\u00a0'
  text : t.text.toList = (cs.drop t.first).take (t.last + 1 - t.first)
  kind : t.kind.Matches t.text.toList
  longest : ∀ (kind : TokenKind) (v : List Char), kind.Matches v → v <+: cs.drop t.first →
    v.length ≤ t.text.length

theorem isBlank_iff {c : Char} : isBlank c ↔ c = '\t' ∨ c = ' ' ∨ c = '\u00a0' := by
  simp [isBlank, or_assoc]

/-- Blanks and a lexeme behind them are read as a token. -/
theorem readToken_eq_token {i stop : Nat} {cs rest : List Char} {t : Token}
    (h : readToken i cs = .token t stop rest) : ∃ blanks w, cs = blanks ++ (w ++ rest) ∧
      (∀ c ∈ blanks, isBlank c) ∧ t.text.toList = w ∧ t.first = i + blanks.length ∧
      t.last + 1 = t.first + w.length ∧ stop = t.last + 1 ∧ w ≠ [] ∧ t.kind.Matches w ∧
      ∀ (kind : TokenKind) (v : List Char), kind.Matches v → v <+: w ++ rest → v <+: w := by
  obtain ⟨blanks, after, hb, rfl, all⟩ := exists_span isBlank cs
  simp only [readToken, hb] at h
  split at h
  · cases h
  rename_i c more
  split at h
  · rename_i kind text rest' hscan
    simp only [Reading.token.injEq] at h
    obtain ⟨rfl, rfl, rfl⟩ := h
    obtain ⟨split, hm⟩ := scan_matches hscan
    obtain ⟨c', text', rfl, -⟩ := hm.exists_cons
    refine ⟨blanks, c' :: text', by rw [split], all, by simp, rfl, ?_, ?_,
      List.cons_ne_nil _ _, hm, fun kind' v hv hp => scan_longest hscan hv (split ▸ hp)⟩
    · simp only [List.length_cons]; omega
    · simp only [List.length_cons]; omega
  · cases h

/-- Where no token is left there are blanks only. -/
theorem readToken_eq_finished {i stop : Nat} {cs : List Char}
    (h : readToken i cs = .finished stop) : (∀ c ∈ cs, isBlank c) ∧ stop = i + cs.length := by
  obtain ⟨blanks, after, hb, rfl, all⟩ := exists_span isBlank cs
  simp only [readToken, hb] at h
  split at h
  · cases h
    simpa using all
  · split at h <;> cases h

/-- Blanks in front of a text of a class are skipped, and the text is read as a token. -/
theorem readToken_append {i : Nat} {blanks cs : List Char} {kind : TokenKind} {w : String}
    (hb : ∀ c ∈ blanks, isBlank c) (hw : kind.Matches w.toList)
    (hc : kind = .operator ∨ ∀ c ∈ cs.head?, Separates c) :
    readToken i (blanks ++ (w.toList ++ cs)) =
      .token ⟨kind, w, i + blanks.length, i + blanks.length + w.length - 1⟩
        (i + blanks.length + w.length) cs := by
  obtain ⟨c, v, hv, starts⟩ := hw.exists_cons
  have skip : (blanks ++ (w.toList ++ cs)).span isBlank = (blanks, c :: (v ++ cs)) := by
    rw [hv]
    refine span_append_of_head hb fun d hd => ?_
    obtain rfl : c = d := by simpa using hd
    exact starts.not_isBlank
  have found : scan c (v ++ cs) = .lexeme kind (c :: v) cs := scan_append (hv ▸ hw) hc
  simp only [readToken, skip, found, ← hv, String.ofList_toList, String.length_toList]

theorem readToken_blanks {i : Nat} {blanks : List Char} (hb : ∀ c ∈ blanks, isBlank c) :
    readToken i blanks = .finished (i + blanks.length) := by
  have skip : blanks.span isBlank = (blanks, []) := by
    simpa using span_append_of_head hb fun c (hc : c ∈ [].head?) => nomatch hc
  simp only [readToken, skip]

/-- In terms of the whole text, what is read is the next token. -/
theorem readToken_isNext {cs rest : List Char} {i stop : Nat} {t : Token}
    (h : readToken i (cs.drop i) = .token t stop rest) :
    t.IsNext cs i ∧ stop = t.last + 1 ∧ rest = cs.drop stop := by
  obtain ⟨blanks, w, split, all, text, first, last, rfl, hw, kind, longest⟩ := readToken_eq_token h
  have width : 0 < w.length := List.length_pos_iff.2 hw
  have at_first : cs.drop t.first = w ++ rest := by
    rw [first, ← List.drop_drop, split, List.drop_left]
  have length : (cs.drop t.first).length = w.length + rest.length := by
    rw [at_first, List.length_append]
  rw [List.length_drop] at length
  refine ⟨⟨by omega, by omega, by omega, fun j c le lt hc => ?_, ?_, text ▸ kind,
    fun k v hv hp => ?_⟩, rfl, ?_⟩
  · rw [← isBlank_iff]
    have hc : (cs.drop i)[j - i]? = some c := by
      rw [List.getElem?_drop, Nat.add_sub_cancel' le, hc]
    rw [split, List.getElem?_append_left (by omega)] at hc
    exact all c (List.mem_of_getElem? hc)
  · rw [at_first, text, last, Nat.add_sub_cancel_left, List.take_left]
  · have := (longest k v hv (at_first ▸ hp)).length_le
    rwa [← String.length_toList, text]
  · rw [last, ← List.drop_drop, at_first, List.drop_left]

/-! ## All tokens -/

/-- The tokens cover the text from the position `i` on: they stand one after the other, each is a
slice of the text and the longest one that belongs to a class, and only blanks are left out. -/
structure Covers (cs : List Char) (i : Nat) (ts : List Token) : Prop where
  bounds : ∀ t ∈ ts, i ≤ t.first ∧ t.first ≤ t.last ∧ t.last < cs.length
  ordered : ts.Pairwise fun t u => t.first < u.first ∧ t.last < u.first
  texts : ∀ t ∈ ts, t.text.toList = (cs.drop t.first).take (t.last + 1 - t.first)
  blanks : ∀ j c, i ≤ j → cs[j]? = some c → (∀ t ∈ ts, ¬ (t.first ≤ j ∧ j ≤ t.last)) →
    c = '\t' ∨ c = ' ' ∨ c = '\u00a0'
  kinds : ∀ t ∈ ts, t.kind.Matches t.text.toList
  longest : ∀ t ∈ ts, ∀ (kind : TokenKind) (v : List Char), kind.Matches v →
    v <+: cs.drop t.first → v.length ≤ t.text.length
  count : ts.length ≤ cs.length - i

namespace Covers

variable {cs : List Char} {i : Nat} {t : Token} {ts : List Token}

theorem nil (h : ∀ c ∈ cs.drop i, isBlank c) : Covers cs i [] where
  bounds := nofun
  ordered := .nil
  texts := nofun
  blanks j c le hc _ := by
    rw [← isBlank_iff]
    refine h c (List.mem_of_getElem? (i := j - i) ?_)
    rw [List.getElem?_drop, Nat.add_sub_cancel' le, hc]
  kinds := nofun
  longest := nofun
  count := Nat.zero_le _

theorem cons (ht : t.IsNext cs i) (h : Covers cs (t.last + 1) ts) : Covers cs i (t :: ts) where
  bounds u hu := by
    have := ht.le_first
    have := ht.first_le
    rcases List.mem_cons.1 hu with rfl | hu
    · exact ⟨ht.le_first, ht.first_le, ht.last_lt⟩
    · have := h.bounds u hu
      omega
  ordered := List.pairwise_cons.2 ⟨fun u hu => by
    have := ht.first_le
    have := (h.bounds u hu).1
    omega, h.ordered⟩
  texts := List.forall_mem_cons.2 ⟨ht.text, h.texts⟩
  blanks j c le hc out := by
    obtain ⟨here, later⟩ := List.forall_mem_cons.1 out
    by_cases before : j < t.first
    · exact ht.blanks j c le before hc
    · exact h.blanks j c (by omega) hc later
  kinds := List.forall_mem_cons.2 ⟨ht.kind, h.kinds⟩
  longest := List.forall_mem_cons.2 ⟨ht.longest, h.longest⟩
  count := by
    have := ht.le_first
    have := ht.first_le
    have := ht.last_lt
    have := h.count
    rw [List.length_cons]
    omega

end Covers

namespace Lexer

/-- The lexer answers the tokens `ts`, one with each call, and then that there is none. -/
inductive Yields : Lexer → List Token → Lexer → Prop
  | finished {l l'} : l.next = (.ok none, l') → Yields l [] l'
  | token {l l₁ l' t ts} : l.next = (.ok (some t), l₁) → Yields l₁ ts l' → Yields l (t :: ts) l'

variable {l l' : Lexer} {t : Token} {ts : List Token}

/-- A token that the lexer answers is the next one, and the lexer stands behind it. -/
theorem isNext_of_next (h : l.next = (.ok (some t), l')) :
    t.IsNext l.text.toList l.consumed ∧ l' = ⟨l.text, t.last + 1⟩ ∧
      readToken l.consumed l.rest = .token t (t.last + 1) l'.rest := by
  unfold next at h
  split at h
  · cases h
  · rename_i t' stop rest hread
    cases h
    obtain ⟨ht, rfl, rfl⟩ := readToken_isNext hread
    exact ⟨ht, rfl, hread⟩
  · cases h

/-- The lexer answers no token where blanks only are left, and consumes them. -/
theorem finished_of_next (h : l.next = (.ok none, l')) :
    (∀ c ∈ l.rest, isBlank c) ∧ l' = ⟨l.text, l.consumed + l.rest.length⟩ ∧
      readToken l.consumed l.rest = .finished l'.consumed := by
  unfold next at h
  split at h
  · rename_i stop hread
    cases h
    obtain ⟨blank, rfl⟩ := readToken_eq_finished hread
    exact ⟨blank, rfl, hread⟩
  · cases h
  · cases h

/-- The tokens that a lexer answers cover the text that it has not consumed. -/
theorem Yields.covers (h : l.Yields ts l') : Covers l.text.toList l.consumed ts := by
  induction h with
  | finished h => exact .nil (finished_of_next h).1
  | token h _ ih =>
    obtain ⟨ht, rfl, -⟩ := isNext_of_next h
    exact .cons ht ih

/-- A lexer that has answered all tokens has consumed the whole text. -/
theorem Yields.consumed (h : l.Yields ts l') (hl : l.consumed ≤ l.text.length) :
    l' = ⟨l.text, l.text.length⟩ := by
  induction h with
  | @finished l l' h =>
    rw [(finished_of_next h).2.1, rest, List.length_drop, String.length_toList,
      Nat.add_sub_cancel' hl]
  | token h _ ih =>
    obtain ⟨ht, rfl, -⟩ := isNext_of_next h
    exact ih (Nat.succ_le_of_lt (String.length_toList ▸ ht.last_lt))

/-- Each token leaves less of the text. -/
theorem rest_shorter (h : l.next = (.ok (some t), l')) : l'.rest.length < l.rest.length := by
  obtain ⟨ht, rfl, -⟩ := isNext_of_next h
  have := ht.le_first
  have := ht.first_le
  have := ht.last_lt
  simp only [rest, List.length_drop]
  omega

/-- Where the lexer answers tokens until there is none, the loop reads them. -/
theorem Yields.readTokens (h : l.Yields ts l') {fuel : Nat} (hf : l.rest.length < fuel) :
    readTokens fuel l.consumed l.rest = (ts, none, l'.consumed) := by
  induction h generalizing fuel with
  | finished h =>
    obtain ⟨fuel, rfl⟩ := Nat.exists_eq_add_one_of_ne_zero (Nat.ne_zero_of_lt hf)
    simp only [Formula.readTokens, (finished_of_next h).2.2]
  | token h _ ih =>
    obtain ⟨fuel, rfl⟩ := Nat.exists_eq_add_one_of_ne_zero (Nat.ne_zero_of_lt hf)
    have later := ih (Nat.lt_of_lt_of_le (rest_shorter h) (Nat.lt_succ_iff.1 hf))
    obtain ⟨-, rfl, hread⟩ := isNext_of_next h
    simp only [Formula.readTokens, hread, later]

/-- What the loop reads is what the lexer answers. -/
theorem yields_of_readTokens {fuel stop : Nat} (hf : l.rest.length < fuel)
    (h : readTokens fuel l.consumed l.rest = (ts, none, stop)) : l.Yields ts ⟨l.text, stop⟩ := by
  induction fuel generalizing l ts with
  | zero => exact absurd hf (Nat.not_lt_zero _)
  | succ fuel ih =>
    unfold Formula.readTokens at h
    split at h
    · rename_i hread
      cases h
      exact .finished (by simp only [next, hread])
    · cases h
    · rename_i t stop' rest' hread
      have answer : l.next = (.ok (some t), ⟨l.text, stop'⟩) := by simp only [next, hread]
      have rest : rest' = (⟨l.text, stop'⟩ : Lexer).rest := (readToken_isNext hread).2.2
      simp only [Prod.mk.injEq] at h
      obtain ⟨rfl, none, rfl⟩ := h
      refine .token answer (ih (Nat.lt_of_lt_of_le (rest_shorter answer) (Nat.lt_succ_iff.1 hf)) ?_)
      rw [← rest, ← none]

/-- To tokenize is to ask for tokens until there is none. -/
theorem tokenize_eq_ok : l.tokenize = (.ok ts, l') ↔ l.Yields ts l' := by
  constructor
  · intro h
    unfold tokenize at h
    split at h
    · rename_i ts' stop hread
      cases h
      exact yields_of_readTokens (Nat.lt_succ_self _) hread
    · cases h
  · intro h
    have text : l'.text = l.text := by
      induction h with
      | finished h => rw [(finished_of_next h).2.1]
      | token h _ ih => rw [ih, (isNext_of_next h).2.1]
    simp only [tokenize, h.readTokens (Nat.lt_succ_self _), ← text]

end Lexer

/-! ## Texts -/

/-- The tokens of a text without a fault are those that a lexer at its start answers. -/
theorem tokens_eq_none {text : String} {ts : List Token} (h : tokens text = (ts, none)) :
    (Lexer.ofText text).Yields ts ⟨text, text.length⟩ := by
  simp only [tokens, Prod.mk.injEq] at h
  have yields : (Lexer.ofText text).Yields ts
      ⟨text, (readTokens (text.toList.length + 1) 0 text.toList).2.2⟩ :=
    Lexer.yields_of_readTokens (Nat.lt_succ_self _) (by rw [← h.1, ← h.2]; rfl)
  exact yields.consumed (Nat.zero_le _) ▸ yields

/-- A text that can be tokenized is covered by its tokens. They are what the lexer answers one
after the other, and with the last one the whole text is consumed. -/
theorem tokenize_covers {text : String} {ts : List Token} {l : Lexer}
    (h : (Lexer.ofText text).tokenize = (.ok ts, l)) :
    Covers text.toList 0 ts ∧ (Lexer.ofText text).Yields ts l ∧ l = ⟨text, text.length⟩ := by
  have yields := Lexer.tokenize_eq_ok.1 h
  exact ⟨yields.covers, yields, yields.consumed (Nat.zero_le _)⟩

/-- In ` $$a2.5E-1 ` the digit belongs to the name, and the dot to the number behind it. -/
theorem tokenize_covers_dollars :
    (Lexer.ofText " $$a2.5E-1 ").tokenize =
      (.ok [⟨.identifier, "$$a2", 1, 4⟩, ⟨.number, ".5E-1", 5, 9⟩], ⟨" $$a2.5E-1 ", 11⟩) ∧
    Covers " $$a2.5E-1 ".toList 0 [⟨.identifier, "$$a2", 1, 4⟩, ⟨.number, ".5E-1", 5, 9⟩] := by
  have read : (Lexer.ofText " $$a2.5E-1 ").tokenize =
      (.ok [⟨.identifier, "$$a2", 1, 4⟩, ⟨.number, ".5E-1", 5, 9⟩], ⟨" $$a2.5E-1 ", 11⟩) := by
    rfl
  exact ⟨read, (tokenize_covers read).1⟩

end ProcessGraph.Formula
