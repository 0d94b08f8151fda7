/-!
# Numbers of JSON

A number is a whole part, perhaps with a sign, a fraction and an exponent. A plain whole number
is exact up to 64 bits. Every other number has double precision: its leading digits, as many as
fit into 64 bits, are rounded, and the result is multiplied by the rounded power of ten. A number
that is too large for this is out of range.

## Main definitions

* `Json.Numeral`: a number as written
* `Numeral.toNat?`: the value of a plain whole number
* `Numeral.leading`: the leading digits of a number and the power of ten behind them
* `Numeral.isHuge`: numbers out of range
* `Json.roundBinary`: rounding to so many binary digits
-/

namespace RazorLayout.Json

/-- A decimal digit. -/
def isDigit (c : Char) : Bool := '0' ≤ c && c ≤ '9'

/-- The value of a decimal digit. -/
def digitValue (c : Char) : Nat := c.toNat - '0'.toNat

/-- The value of decimal digits. -/
def digitsValue (digits : List Char) : Nat := digits.foldl (fun n c => n * 10 + digitValue c) 0

/-- The largest number of 64 bits. -/
def maxNat64 : Nat := Nat.pow 2 64 - 1

/-- Continues the number `n` by decimal digits, as many as fit into 64 bits. The other digits are
left. -/
def takeFitting (n : Nat) : List Char → Nat × List Char
  | [] => (n, [])
  | c :: digits =>
    let next := n * 10 + digitValue c
    if next ≤ maxNat64 then takeFitting next digits else (n, c :: digits)

/-! ### Double precision -/

/-- The nearest number that has no more than so many binary digits before its final zeros. Halfway
between two of them it is the even one. -/
def roundBinary (digits n : Nat) : Nat :=
  let unit := Nat.pow 2 (Nat.log2 n + 1 - digits)
  let below := n / unit
  let rest := n % unit
  if 2 * rest < unit || (2 * rest = unit && below % 2 = 0) then below * unit
  else (below + 1) * unit

/-- The binary digits of double precision. -/
def doubleDigits : Nat := 53

/-- The least value that is rounded beyond all numbers of double precision. -/
def doubleBound : Nat := Nat.pow 2 1024 - Nat.pow 2 970

/-- The largest power of ten within double precision. -/
def maxPower : Nat := 308

/-! ### Numbers -/

/-- A number as written. -/
structure Numeral where
  negative : Bool
  /-- The digits before the point. -/
  whole : List Char
  /-- The digits behind the point, when there is one. -/
  fraction : Option (List Char) := none
  /-- Sign and digits of the exponent, when there is one; the sign is true for minus. -/
  exponent : Option (Bool × List Char) := none
  deriving Repr, DecidableEq

namespace Numeral

/-- The value of a number without sign, point and exponent that fits into 64 bits. -/
def toNat? (n : Numeral) : Option Nat :=
  if n.negative || n.fraction.isSome || n.exponent.isSome then none
  else
    let value := digitsValue n.whole
    if value ≤ maxNat64 then some value else none

/-- The exponent as written. -/
def power (n : Numeral) : Int :=
  match n.exponent with
  | none => 0
  | some (minus, digits) => if minus then -(digitsValue digits : Int) else digitsValue digits

/-- The leading digits as a number of 64 bits, and the exponent of the power of ten that belongs
to it. Digits of the whole part that do not fit only raise the exponent; digits of the fraction
that do not fit are dropped. -/
def leading (n : Numeral) : Nat × Int :=
  let (whole, more) := takeFitting 0 n.whole
  let (significand, dropped) := takeFitting whole (n.fraction.getD [])
  let places := (n.fraction.getD []).length - dropped.length
  (significand, more.length - places + n.power)

/-- Whether the number is out of range, which negative powers of ten never are. -/
def isHuge (n : Numeral) : Bool :=
  let (significand, exponent) := n.leading
  if significand = 0 || exponent < 0 then false
  else if exponent > maxPower then true
  else
    roundBinary doubleDigits significand * roundBinary doubleDigits (Nat.pow 10 exponent.toNat)
      ≥ doubleBound

end Numeral

end RazorLayout.Json
