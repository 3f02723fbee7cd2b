set_option autoImplicit false

/-! # Decimal numerals

The number a run of decimal digits denotes, with or without a minus sign, and the 64-bit
integer it stands for when it is small enough.
-/

namespace ExprScript.Decimal

def digitValue (c : Char) : Nat := c.toNat - '0'.toNat

def ofDigits (ds : List Char) : Nat := ds.foldl (fun n d => 10 * n + digitValue d) 0

/-- The number denoted by a run of digits after an optional minus sign. -/
def ofSigned : List Char → Int
  | '-' :: ds => -(ofDigits ds : Int)
  | ds => ofDigits ds

/-- The number as a 64-bit integer, if it is one. -/
def toInt64? (n : Int) : Option Int64 :=
  if Int64.minValue.toInt ≤ n ∧ n ≤ Int64.maxValue.toInt then some (Int64.ofInt n) else none

end ExprScript.Decimal
