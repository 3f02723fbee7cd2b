import ExprScript.Source.Decimal

set_option autoImplicit false

/-! # The range of JSON numbers

A number that is written with a point, with an exponent or with more digits than 64 bits hold
has to be in the range of double precision. It is measured in two steps, each of which rounds.
First come the leading digits, as many as 64 bits hold, as one integer; then that integer is
multiplied by a power of ten. So near the end of the range the way in which a number is written
can decide whether it is in range.

All of this is done on natural numbers: a number in double precision is one whose binary
notation has `precision` leading digits and zeros behind them.
-/

namespace ExprScript.Json

/-! ## Rounding -/

/-- The number of binary digits in double precision. -/
def precision : Nat := 53

/-- The nearest number in double precision, of two equally near ones that with an even last
digit. There is no upper end. -/
def roundDouble (n : Nat) : Nat :=
  -- the value of a one in the last digit that is kept
  let unit := Nat.pow 2 (n.log2 + 1 - precision)
  let q := n / unit
  let r := n % unit
  if 2 * r < unit || (2 * r = unit && q % 2 = 0) then q * unit else (q + 1) * unit

/-- The end of the range of double precision. -/
def doubleLimit : Nat := Nat.pow 2 1024

/-- The largest power of ten in the range of double precision. -/
def maxPower : Nat := 308

/-- Whether the product of `m` and a power of ten, both rounded, is out of range. -/
def productOverflows (m : Nat) : Int → Bool
  | .ofNat e =>
    m ≠ 0 && (maxPower < e ||
      doubleLimit ≤ roundDouble (roundDouble m * roundDouble (Nat.pow 10 e)))
  -- a number of 64 bits can only become smaller
  | .negSucc _ => false

/-! ## Digits -/

/-- Puts digits behind the number `m` for as long as 64 bits hold the result. Returns the number
and the digits that are left. -/
def absorb (m : Nat) : List Char → Nat × List Char
  | [] => (m, [])
  | d :: ds =>
    let next := m * 10 + Decimal.ofDigits [d]
    if next < UInt64.size then absorb next ds else (m, d :: ds)

/-- Whether the number with the given digits before and behind the point and the given exponent
is out of range. Digits before the point that are left raise the exponent; those behind it that
are left do not count. -/
def outOfRange (whole part : List Char) (exponent : Int) : Bool :=
  let (m, unread) := absorb 0 whole
  let (m, left) := absorb m part
  productOverflows m (exponent + unread.length - (part.length - left.length))

end ExprScript.Json
