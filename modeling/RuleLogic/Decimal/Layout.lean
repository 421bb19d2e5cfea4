import RuleLogic.Decimal.Shortest

namespace RuleLogic.Decimal

structure Layout where
  tie : Tie
  positional : Option (Int × Int)
  pointZero : Bool
deriving DecidableEq, Repr

def significant (d : Decimal) : List Char :=
  match (d.digits.reverse.dropWhile (· = '0')).reverse with
  | [] => ['0']
  | ds => ds

namespace Layout

def isPositional (layout : Layout) (leading : Int) : Bool :=
  match layout.positional with
  | none => true
  | some (least, greatest) => least ≤ leading ∧ leading ≤ greatest

def fraction (pointZero : Bool) : List Char → List Char
  | [] => if pointZero then ['.', '0'] else []
  | ds => '.' :: ds

def positionalText (layout : Layout) (ds : List Char) (leading : Int) : List Char :=
  if leading < 0 then
    '0' :: '.' :: (List.replicate (-leading - 1).toNat '0' ++ ds)
  else
    let width := leading.toNat + 1
    ds.take width ++ List.replicate (width - ds.length) '0' ++
      fraction layout.pointZero (ds.drop width)

def scientificText (ds : List Char) (leading : Int) : List Char :=
  let sign := if leading < 0 then '-' else '+'
  ds.take 1 ++ fraction false (ds.drop 1) ++ 'e' :: sign :: Nat.toDigits 10 leading.natAbs

def isNegative (x : Float) : Bool := 0x8000000000000000 ≤ x.toBits

def text (layout : Layout) (x : Float) : List Char :=
  let d := shortest layout.tie x
  let leading := d.magnitude - 1
  let absolute :=
    if layout.isPositional leading then layout.positionalText d.significant leading
    else scientificText d.significant leading
  if isNegative x then '-' :: absolute else absolute

end Layout

end RuleLogic.Decimal
