import ProcessGraph.Formula.Lexer

/-!
# Peeking leaves no trace

`next` consumes characters also where it fails, so `peek` puts them back on every way out: it leaves
the lexer as it was (`Lexer.peek_eq`). What a sequence of calls answers is read off one lexer
after the other (`Lexer.run_append`), and a peek does not move on to another one. Thus the peeks of
a sequence may be deleted, and only their own answers are missing (`Lexer.run_stays`).
-/

set_option autoImplicit false

namespace ProcessGraph.Formula.Lexer

/-! ## One call -/

/-- Only `reset` changes the text. -/
theorem text_next (l : Lexer) : l.next.2.text = l.text := by
  unfold next
  split <;> rfl

/-- A peek leaves the lexer as it was, also where `next` fails in the middle of a number. -/
theorem peek_eq (l : Lexer) : l.peek = (l.next.1, l) := by
  simp only [peek, text_next]

theorem answer_peek (l : Lexer) : l.answer .peek = ((l.answer .next).1, l) := by
  simp only [answer, peek_eq]

/-! ## Sequences of calls -/

/-- The lexer after a sequence of calls. -/
def after (l : Lexer) (calls : List Call) : Lexer := calls.foldl (fun l c => (l.answer c).2) l

theorem length_run (l : Lexer) (calls : List Call) : (run l calls).length = calls.length := by
  induction calls generalizing l with
  | nil => rfl
  | cons c calls ih => exact congrArg (· + 1) (ih _)

theorem run_append (l : Lexer) (calls more : List Call) :
    run l (calls ++ more) = run l calls ++ run (l.after calls) more := by
  induction calls generalizing l with
  | nil => rfl
  | cons c calls ih => exact congrArg (_ :: ·) (ih _)

/-- The answer to a call depends on the calls before it only. -/
theorem run_append_getElem? (l : Lexer) (calls more : List Call) (i : Nat) :
    (run l (calls ++ more))[calls.length + i]? = (run (l.after calls) more)[i]? := by
  rw [run_append, ← length_run l calls, List.getElem?_append_right (Nat.le_add_right ..),
    Nat.add_sub_cancel_left]

/-- A call with a mark stays unless it is a marked peek. -/
def stays (c : Call × Bool) : Bool := !(c.1 = .peek ∧ c.2)

/-- Without some of its peeks, a sequence has the same answers to the calls that are left. -/
theorem run_stays (l : Lexer) (calls : List (Call × Bool)) :
    run l ((calls.filter stays).map (·.1)) =
      ((calls.zip (run l (calls.map (·.1)))).filter (stays ·.1)).map (·.2) := by
  induction calls generalizing l with
  | nil => rfl
  | cons c calls ih =>
    obtain ⟨c, mark⟩ := c
    by_cases h : stays (c, mark)
    · simp [h, run, ih]
    · -- the deleted call is a peek: for the rest of the calls the lexer is where it was
      obtain ⟨rfl, -⟩ : c = .peek ∧ mark = true := by simpa [stays] using h
      simp [h, run, ih, answer_peek]

/-- A peek answers what `next` would in its place, and what `next` answers after it. Whichever peeks
are deleted from a sequence, the answers to the calls that are left are the same, and so are the
positions after them. -/
theorem peek_invisible (l : Lexer) :
    (∀ calls more : List Call, ∃ answer p q,
      (run l (calls ++ .peek :: more))[calls.length]? = some (answer, p) ∧
      (run l (calls ++ .next :: more))[calls.length]? = some (answer, q) ∧
      (run l (calls ++ .peek :: .next :: more))[calls.length + 1]? = some (answer, q)) ∧
    ∀ calls : List (Call × Bool), run l ((calls.filter stays).map (·.1)) =
      ((calls.zip (run l (calls.map (·.1)))).filter (stays ·.1)).map (·.2) := by
  refine ⟨fun calls more => ?_, run_stays l⟩
  let here := l.after calls
  refine ⟨(here.answer .next).1, here.consumed, (here.answer .next).2.consumed, ?_, ?_, ?_⟩
  · refine (run_append_getElem? l calls _ 0).trans ?_
    rw [run, answer_peek]
    rfl
  · exact run_append_getElem? l calls _ 0
  · refine (run_append_getElem? l calls _ 1).trans ?_
    rw [run, answer_peek]
    rfl

/-- After the fault in `1e+` the sequence goes on behind the sign; the peeks before and after it are
deleted. -/
example : run (ofText "1e+ 2") [.peek, .next, .peek, .next] =
      [(.error ⟨.badExponent ' ', some 3, "1e+ 2", []⟩, 0),
        (.error ⟨.badExponent ' ', some 3, "1e+ 2", []⟩, 3),
        (.ok (.token (some ⟨.number, "2", 4, 4⟩)), 3),
        (.ok (.token (some ⟨.number, "2", 4, 4⟩)), 5)] ∧
    run (ofText "1e+ 2") [.next, .next] =
      [(.error ⟨.badExponent ' ', some 3, "1e+ 2", []⟩, 3),
        (.ok (.token (some ⟨.number, "2", 4, 4⟩)), 5)] := by
  constructor <;> rfl

end ProcessGraph.Formula.Lexer
