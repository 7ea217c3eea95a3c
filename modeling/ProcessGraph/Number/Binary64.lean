import ProcessGraph.Text.Quoted

/-!
# Double precision numbers

A double is its 64 bits: a sign, eleven exponent bits and 52 fraction bits. A finite double is
`mantissa * 2 ^ exponent` with the sign in front. A decimal is rounded to the nearest double in
exact arithmetic, a tie to the even mantissa, and to infinity from half a unit above the greatest
finite double on.
-/

set_option autoImplicit false

namespace ProcessGraph

/-- A double precision number, as its bits. -/
structure Binary64 where
  bits : UInt64
deriving DecidableEq, Inhabited, Repr

namespace Binary64

/-- The bit of the sign, `2 ^ 63`. -/
def signBit : Nat := 0x8000000000000000

/-- The bit above the fraction, `2 ^ 52`. A normal mantissa has it, and it is one in the exponent
bits. -/
def unitBit : Nat := 0x10000000000000

/-- The bits below the sign, as a number; it grows with the magnitude. -/
def magnitude (x : Binary64) : Nat := x.bits.toNat % signBit

/-- Is the sign bit set? -/
def isNegative (x : Binary64) : Bool := signBit ≤ x.bits.toNat

/-- The double with the given sign and the given bits below it. -/
def ofMagnitude (negative : Bool) (m : Nat) : Binary64 :=
  ⟨UInt64.ofNat ((if negative then signBit else 0) + m % signBit)⟩

/-- The magnitude of the infinities: all exponent bits and no fraction. -/
def infiniteMagnitude : Nat := 2047 * unitBit

def isFinite (x : Binary64) : Bool := x.magnitude < infiniteMagnitude

def isInfinite (x : Binary64) : Bool := x.magnitude == infiniteMagnitude

def isNaN (x : Binary64) : Bool := infiniteMagnitude < x.magnitude

def isZero (x : Binary64) : Bool := x.magnitude == 0

def infinity : Binary64 := ofMagnitude false infiniteMagnitude

def nan : Binary64 := ofMagnitude false (infiniteMagnitude + unitBit / 2)

/-- The same magnitude with the other sign. -/
def neg (x : Binary64) : Binary64 := ofMagnitude (!x.isNegative) x.magnitude

/-- The mantissa of a finite double, with its leading bit unless the double is subnormal. -/
def mantissa (x : Binary64) : Nat :=
  if x.magnitude < unitBit then x.magnitude else unitBit + x.magnitude % unitBit

/-- The power of two that the mantissa of a finite double counts. -/
def exponent (x : Binary64) : Int :=
  if x.magnitude < unitBit then -1074 else (x.magnitude / unitBit : Nat) - 1075

/-! ## Rounding -/

/-- The quotient `a / b` rounded to the nearest natural number, a tie to the even one. -/
def divideToEven (a b : Nat) : Nat :=
  let q := a / b
  let r := a % b
  if 2 * r < b then q else if b < 2 * r then q + 1 else q + q % 2

/-- The fraction `a * 2 ^ e / b` as numerator and denominator. -/
def scaleByTwo (a b : Nat) (e : Int) : Nat × Nat :=
  if 0 ≤ e then (a <<< e.toNat, b) else (a, b <<< (-e).toNat)

/-- The integer that a double is, if it is one. -/
def integer? (x : Binary64) : Option Int :=
  let (a, b) := scaleByTwo x.mantissa 1 x.exponent
  if x.isFinite ∧ a % b = 0 then
    some (if x.isNegative then -(a / b : Nat) else (a / b : Nat))
  else none

/-- The greatest `e` with `2 ^ e ≤ a / b`, for positive `a` and `b`. -/
def floorLog2 (a b : Nat) : Int :=
  let e : Int := (a.log2 : Int) - b.log2
  let (n, d) := scaleByTwo a b (-e)
  if d ≤ n then e else e - 1

/-- The magnitude of the double nearest to `a / b`. -/
def magnitudeOfRatio (a b : Nat) : Nat :=
  if a = 0 then 0
  else
    let q : Int := max (floorLog2 a b - 52) (-1074)
    let (n, d) := scaleByTwo a b (-q)
    min ((q + 1074).toNat * unitBit + divideToEven n d) infiniteMagnitude

/-- The number of decimal digits of `n`, at least one. -/
def digitCount (n : Nat) : Nat := (Nat.toDigits 10 n).length

/-- The magnitude of the double nearest to `n * 10 ^ e`; numbers from `10 ^ 310` on are infinite
and numbers below `10 ^ (-330)` are zero, which saves their powers. -/
def magnitudeOfDecimal (n : Nat) (e : Int) : Nat :=
  if n = 0 then 0
  else if 310 < e + digitCount n then infiniteMagnitude
  else if e + digitCount n < -330 then 0
  else if 0 ≤ e then magnitudeOfRatio (n * Nat.pow 10 e.toNat) 1
  else magnitudeOfRatio n (Nat.pow 10 (-e).toNat)

/-- The double nearest to `n * 10 ^ e`. -/
def ofDecimal (n : Nat) (e : Int) : Binary64 := ofMagnitude false (magnitudeOfDecimal n e)

/-! ## Hexadecimal digits of the bits -/

/-- The sixteen hexadecimal digits of the bits. -/
def toHex (x : Binary64) : String := String.ofList (Text.hexadecimal 16 x.bits.toNat)

/-- The value of a hexadecimal digit. -/
def hexDigit? (c : Char) : Option Nat :=
  if '0' ≤ c ∧ c ≤ '9' then some (c.toNat - '0'.toNat)
  else if 'a' ≤ c ∧ c ≤ 'f' then some (c.toNat - 'a'.toNat + 10)
  else if 'A' ≤ c ∧ c ≤ 'F' then some (c.toNat - 'A'.toNat + 10)
  else none

/-- The number that hexadecimal digits write. -/
def hexNatural? (cs : List Char) : Option Nat :=
  cs.foldlM (fun n c => (hexDigit? c).map (16 * n + ·)) 0

/-- The double with the given bits. -/
def ofHex? (s : String) : Option Binary64 :=
  if s.length = 16 then (hexNatural? s.toList).map fun n => ⟨UInt64.ofNat n⟩ else none

example : ofDecimal 25 (-1) = ⟨0x4004000000000000⟩ := by decide +kernel
example : ofDecimal 1 400 = infinity := by decide +kernel
example : ofDecimal 5 (-324) = ⟨1⟩ := by decide +kernel

end Binary64

end ProcessGraph
