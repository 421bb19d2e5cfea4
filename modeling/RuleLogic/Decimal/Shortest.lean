import RuleLogic.Decimal.Basic

namespace RuleLogic

structure Binary where
  significand : Nat
  exponent : Int
deriving DecidableEq, Repr

namespace Binary

def hiddenBit : Nat := 0x10000000000000

def ofFloat (x : Float) : Binary :=
  let bits := x.toBits.toNat
  let fraction := bits % hiddenBit
  match bits / hiddenBit % 2048 with
  | 0 => ⟨fraction, -1074⟩
  | biased => ⟨hiddenBit + fraction, (biased : Int) - 1075⟩

def interval (b : Binary) : Nat × Nat :=
  -- The neighbour below a power of two is half as far away as the one above.
  let below := if b.significand = hiddenBit ∧ -1074 < b.exponent then 1 else 2
  (4 * b.significand - below, 4 * b.significand + 2)

def leading (b : Binary) : Int :=
  let top := b.significand * Nat.pow 2 b.exponent.toNat
  let bottom := Nat.pow 2 (-b.exponent).toNat
  if bottom ≤ top then
    (Nat.toDigits 10 (top / bottom)).length - 1
  else
    let k := (Nat.toDigits 10 (bottom / top)).length - 1
    if top * Nat.pow 10 k = bottom then -k else -(k + 1 : Nat)

def exact (b : Binary) : Decimal :=
  if 0 ≤ b.exponent then ⟨b.significand * Nat.pow 2 b.exponent.toNat, 0⟩
  else ⟨b.significand * Nat.pow 5 (-b.exponent).toNat, b.exponent⟩

end Binary

namespace Decimal

inductive Tie where
  | even
  | up
deriving DecidableEq, Repr

def onGrid? (tie : Tie) (b : Binary) (exponent : Int) : Option Decimal :=
  let step := Nat.pow 10 exponent.toNat * Nat.pow 2 (2 - b.exponent).toNat
  let unit := Nat.pow 10 (-exponent).toNat * Nat.pow 2 (b.exponent - 2).toNat
  let value := 4 * b.significand * unit
  let low := b.interval.1 * unit
  let high := b.interval.2 * unit
  -- An end of the interval reads back as the number if its significand is even.
  let inside (c : Nat) : Bool :=
    if b.significand % 2 = 0 then low ≤ c * step ∧ c * step ≤ high
    else low < c * step ∧ c * step < high
  let floor := value / step
  let gapDown := value - floor * step
  let gapUp := (floor + 1) * step - value
  match inside floor, inside (floor + 1) with
  | false, false => none
  | true, false => some ⟨floor, exponent⟩
  | false, true => some ⟨floor + 1, exponent⟩
  | true, true =>
    if gapDown < gapUp ∨ gapDown = gapUp ∧ tie = .even ∧ floor % 2 = 0 then
      some ⟨floor, exponent⟩
    else some ⟨floor + 1, exponent⟩

def shortest (tie : Tie) (x : Float) : Decimal :=
  -- Seventeen digits tell any two numbers apart.
  let b := Binary.ofFloat x
  if b.significand = 0 then ⟨0, 0⟩
  else ((List.range 17).findSome? (fun n : Nat => onGrid? tie b (b.leading - n))).getD b.exact

end Decimal

end RuleLogic
