import ProcessGraph.Proofs.Formula.Parsing
import ProcessGraph.Proofs.Number.Rounding

/-!
# The doubles of a formula

The doubles of a tree are those that number tokens of its formula write (`doubles_of_parse`). A
numeral with a point or an exponent writes an exact number (`Numeral.exact`), which is rounded to
the nearest double. So the double is never a NaN, and it is infinite exactly if the number is not
below `Binary64.overflow` (`Numeral.isFinite_double`).
-/

set_option autoImplicit false

namespace ProcessGraph.Formula

/-! ## Trees -/

namespace Tree

mutual

/-- The doubles that a tree is written with, from left to right. -/
def doubles : Tree → List Binary64
  | .number (.float x) => [x]
  | .number _ => []
  | .identifier _ => []
  | .binary _ left right => doubles left ++ doubles right
  | .unary _ operand => doubles operand
  | .call _ arguments => doublesOfAll arguments
  | .group inner => doubles inner

def doublesOfAll : List Tree → List Binary64
  | [] => []
  | t :: ts => doubles t ++ doublesOfAll ts

end

theorem doublesOfAll_append (ts us : List Tree) :
    doublesOfAll (ts ++ us) = doublesOfAll ts ++ doublesOfAll us := by
  induction ts with
  | nil => rfl
  | cons t ts ih => simp [doublesOfAll, ih]

end Tree

/-- The tokens write the doubles: each is the value of a number token. -/
def Writes (us : List Token) (xs : List Binary64) : Prop :=
  ∀ x ∈ xs, ∃ k ∈ us, k.terminal = .number ∧ Numeral.value k.text = .float x

theorem Writes.append {us vs : List Token} {xs ys : List Binary64} (h : Writes us xs)
    (h' : Writes vs ys) (k : Token) : Writes (us ++ k :: vs) (xs ++ ys) := by
  intro x hx
  rcases List.mem_append.1 hx with hx | hx
  · obtain ⟨m, hm, is⟩ := h x hx
    exact ⟨m, List.mem_append_left _ hm, is⟩
  · obtain ⟨m, hm, is⟩ := h' x hx
    exact ⟨m, List.mem_append_right _ (List.mem_cons_of_mem _ hm), is⟩

theorem Writes.subset {us vs : List Token} {xs : List Binary64} (h : Writes us xs)
    (more : us ⊆ vs) : Writes vs xs := by
  intro x hx
  obtain ⟨k, hk, is⟩ := h x hx
  exact ⟨k, more hk, is⟩

theorem Writes.nil (us : List Token) : Writes us [] := List.forall_mem_nil _

mutual

theorem Derives.writes {n : Nonterminal} {us : List Token} {t : Tree} :
    Derives n us t → Writes us t.doubles
  | .sumOfProduct h | .productOfPower h | .powerOfSigned h | .signedOfOperand h => h.writes
  | .add hl _ hr | .subtract hl _ hr | .multiply hl _ hr | .divide hl _ hr | .raise hl _ hr => by
    simpa [Tree.doubles] using hl.writes.append hr.writes _
  | .superscript hl _ _ _ => by
    simpa [Tree.doubles] using hl.writes.append (.nil []) _
  | .negative _ h | .positive _ h => h.writes.subset (List.subset_cons_self _ _)
  | @Derives.number k hk => by
    intro x hx
    refine ⟨k, List.mem_cons_self, hk, ?_⟩
    cases hv : Numeral.value k.text <;> simp_all [Tree.doubles]
  | .identifier _ | .emptyCall _ _ _ => .nil _
  | .call _ _ hargs _ => hargs.writes.subset fun k hk => by simp [hk]
  | .group _ h _ => h.writes.subset fun k hk => by simp [hk]

theorem DerivesArguments.writes {us : List Token} {ts : List Tree} :
    DerivesArguments us ts → Writes us (Tree.doublesOfAll ts)
  | .one h, x, hx => h.writes x (by simpa [Tree.doublesOfAll] using hx)
  | .more hts _ h, x, hx => hts.writes.append h.writes _ x <| by
    simpa [Tree.doublesOfAll, Tree.doublesOfAll_append] using hx

end

/-- The doubles of a formula are written in its text. -/
theorem doubles_of_parse {text : String} {t : Tree} (h : parse text = .ok t) :
    Writes (tokens text).1 t.doubles := by
  obtain ⟨ts, e, read, derives, rfl⟩ := parseSyntax_ok_iff.1 (parse_ok_iff.1 h).1
  rw [read]
  simpa [Tree.doubles] using derives.writes

/-! ## Numerals -/

namespace Numeral

/-- The number that a numeral writes, before it is rounded: the digits before the point, those
behind it as a fraction, and a power of ten. -/
def exact (text : String) : ℚ :=
  let (mantissa, rest) := text.toList.span fun c => c != 'e' && c != 'E'
  let (whole, fraction) := mantissa.span (· != '.')
  let fraction := fraction.drop 1
  (Nat.ofDigitChars 10 whole 0 + Nat.ofDigitChars 10 fraction 0 / 10 ^ fraction.length) *
    10 ^ exponent (rest.drop 1)

/-- Digits behind others leave these their places. -/
theorem ofDigitChars_eq_add (cs : List Char) (n : Nat) :
    Nat.ofDigitChars 10 cs n = n * 10 ^ cs.length + Nat.ofDigitChars 10 cs 0 := by
  induction cs generalizing n with
  | nil => simp
  | cons c cs ih =>
    rw [Nat.ofDigitChars_cons, Nat.ofDigitChars_cons, ih, ih (10 * 0 + _), List.length_cons]
    ring

theorem double_eq (text : String) : ∃ n e, double text.toList = Binary64.ofDecimal n e ∧
    exact text = n * 10 ^ e := by
  unfold double exact
  generalize text.toList.span (fun c => c != 'e' && c != 'E') = split
  obtain ⟨mantissa, rest⟩ := split
  dsimp only
  generalize mantissa.span (· != '.') = split
  obtain ⟨whole, fraction⟩ := split
  refine ⟨_, _, rfl, ?_⟩
  have ten : (10 : ℚ) ≠ 0 := by norm_num
  rw [Nat.ofDigitChars_append, ofDigitChars_eq_add (fraction.drop 1) (Nat.ofDigitChars 10 whole 0),
    zpow_sub₀ ten, zpow_natCast]
  push_cast
  field_simp

/-- The double is finite exactly if the number that is rounded is small enough. -/
theorem isFinite_double (text : String) :
    (double text.toList).isFinite ↔ exact text < Binary64.overflow := by
  obtain ⟨n, e, value, number⟩ := double_eq text
  rw [value, number, Binary64.isFinite_ofDecimal]

theorem isNaN_double (text : String) : (double text.toList).isNaN = false := by
  obtain ⟨n, e, value, -⟩ := double_eq text
  rw [value, Binary64.isNaN_ofDecimal]

theorem value_eq_float {text : String} {x : Binary64} (h : value text = .float x) :
    double text.toList = x := by
  unfold value at h
  split at h <;> cases h
  rfl

end Numeral

end ProcessGraph.Formula
