import ProcessGraph.Number.Binary64

/-!
# Shortest decimal text

A finite double is written with the fewest digits that read back as the same double; of several
such decimals the nearest one is taken. Numbers from `1e-4` up to `1e16` are written in positional
form with at least one digit after the point, others with an exponent of at least two digits.
-/

set_option autoImplicit false

namespace ProcessGraph.Binary64

/-- A decimal `digits * 10 ^ exponent`. -/
structure Decimal where
  digits : Nat
  exponent : Int
deriving DecidableEq, Inhabited

/-- The magnitude of a finite double as a fraction. -/
def ratio (x : Binary64) : Nat × Nat := scaleByTwo x.mantissa 1 x.exponent

/-- The fraction `a * 10 ^ e / b` as numerator and denominator. -/
def scaleByTen (a b : Nat) (e : Int) : Nat × Nat :=
  if 0 ≤ e then (a * Nat.pow 10 e.toNat, b) else (a, b * Nat.pow 10 (-e).toNat)

/-- The greatest `e` with `10 ^ e ≤ a / b`, for positive `a` and `b`: an estimate from the binary
logarithm, which is off by one at most. -/
def floorLog10 (a b : Nat) : Int :=
  let guess : Int := (floorLog2 a b * 30103).fdiv 100000
  let reaches (e : Int) : Bool := let (n, d) := scaleByTen a b (-e); d ≤ n
  if reaches (guess + 1) then guess + 1 else if reaches guess then guess else guess - 1

/-- The two decimals with `count` digits that enclose the magnitude of `x`, the nearer one first;
of two equally near ones the even one comes first. -/
def neighbours (x : Binary64) (count : Nat) : List Decimal :=
  let (a, b) := x.ratio
  let e := floorLog10 a b - (count - 1 : Int)
  let (n, d) := scaleByTen a b (-e)
  let low := n / d
  let r := n % d
  let lowFirst := 2 * r < d || (2 * r == d && low % 2 == 0)
  if lowFirst then [⟨low, e⟩, ⟨low + 1, e⟩] else [⟨low + 1, e⟩, ⟨low, e⟩]

/-- Does the decimal read back as the magnitude of `x`? -/
def readsBack (x : Binary64) (t : Decimal) : Bool :=
  magnitudeOfDecimal t.digits t.exponent == x.magnitude

/-- The shortest decimal that reads back, for a finite double that is not zero. Seventeen digits
always suffice. -/
def shortest (x : Binary64) : Decimal :=
  (((List.range 17).flatMap fun k => x.neighbours (k + 1)).find? x.readsBack).getD ⟨0, 0⟩

/-- Drops zeros at the end of the digits. -/
def Decimal.trim : Nat → Decimal → Decimal
  | 0, t => t
  | k + 1, t =>
    if t.digits ≠ 0 ∧ t.digits % 10 = 0 then trim k ⟨t.digits / 10, t.exponent + 1⟩ else t

/-- The text of a positive decimal. -/
def Decimal.text (t : Decimal) : List Char :=
  let t := trim 20 t
  let ds := Nat.toDigits 10 t.digits
  let point : Int := ds.length + t.exponent
  if -4 < point ∧ point ≤ 16 then
    if point ≤ 0 then '0' :: '.' :: List.replicate (-point).toNat '0' ++ ds
    else if point < ds.length then ds.take point.toNat ++ '.' :: ds.drop point.toNat
    else ds ++ List.replicate (point.toNat - ds.length) '0' ++ ['.', '0']
  else
    let e := point - 1
    let es := Nat.toDigits 10 e.natAbs
    let fraction := if ds.length = 1 then [] else '.' :: ds.drop 1
    ds.take 1 ++ fraction ++ 'e' :: (if e < 0 then '-' else '+') ::
      (if es.length = 1 then '0' :: es else es)

/-- The names of the numbers that have no decimal. -/
structure SpecialNames where
  infinity : String
  nan : String

/-- The text of a double. -/
def text (names : SpecialNames) (x : Binary64) : String :=
  let sign := if x.isNegative then "-" else ""
  if x.isNaN then names.nan
  else if x.isInfinite then sign ++ names.infinity
  else if x.isZero then sign ++ "0.0"
  else sign ++ String.ofList x.shortest.text

/-- The names in messages. -/
def plainNames : SpecialNames := ⟨"inf", "nan"⟩

/-- The names in documents. -/
def documentNames : SpecialNames := ⟨"Infinity", "NaN"⟩

example : text plainNames (ofDecimal 1 22) = "1e+22" := by decide +kernel
example : text plainNames (ofDecimal 1 (-7)) = "1e-07" := by decide +kernel
example : text plainNames (ofDecimal 1 15) = "1000000000000000.0" := by decide +kernel
example : text plainNames (ofDecimal 123456789125 (-3)) = "123456789.125" := by decide +kernel
example : text plainNames (ofDecimal 5 (-324)) = "5e-324" := by decide +kernel

end ProcessGraph.Binary64
