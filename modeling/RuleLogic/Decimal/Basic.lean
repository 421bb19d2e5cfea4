namespace RuleLogic

structure Decimal where
  coefficient : Nat
  exponent : Int
deriving DecidableEq, Repr

namespace Decimal

def digits (d : Decimal) : List Char := Nat.toDigits 10 d.coefficient

def magnitude (d : Decimal) : Int := d.digits.length + d.exponent

def infinity : Float := Float.ofBits 0x7FF0000000000000

def nearest (d : Decimal) : Float :=
  -- Past these magnitudes every number is infinite or zero, and no larger power of ten is built.
  if d.coefficient = 0 then 0
  else if 310 < d.magnitude then infinity
  else if d.magnitude < -330 then 0
  else Float.ofScientific d.coefficient (d.exponent < 0) d.exponent.natAbs

def integerText (n : Int) : List Char :=
  if n < 0 then '-' :: Nat.toDigits 10 n.natAbs else Nat.toDigits 10 n.natAbs

end Decimal

end RuleLogic
