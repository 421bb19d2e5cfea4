import RuleLogic.Decimal.Layout

namespace RuleLogic

inductive Value where
  | null
  | int (n : Int64)
  | float (x : Float)
  | bool (b : Bool)
  | str (s : String)
  | list (items : List Value)

namespace Value

def ofInt32 (n : Int32) : Value := .int n.toInt64

mutual

def beq : Value → Value → Bool
  | .null, .null => true
  | .int m, .int n => m == n
  | .float x, .float y => x == y
  | .bool a, .bool b => a == b
  | .str s, .str t => s == t
  | .list vs, .list ws => beqItems vs ws
  | _, _ => false

def beqItems : List Value → List Value → Bool
  | [], [] => true
  | v :: vs, w :: ws => beq v w && beqItems vs ws
  | _, _ => false

end

instance : BEq Value := ⟨beq⟩

def floatLayout : Decimal.Layout := ⟨.up, none, false⟩

def displayFloat (x : Float) : String :=
  if x.isNaN then "NaN"
  else if x.isFinite then String.ofList (floatLayout.text x)
  else if x < 0 then "-inf"
  else "inf"

mutual

def display : Value → String
  | .null => "null"
  | .int n => String.ofList (Decimal.integerText n.toInt)
  | .float x => displayFloat x
  | .bool b => if b then "true" else "false"
  | .str s => "\"" ++ s ++ "\""
  | .list items => "[" ++ ", ".intercalate (displayItems items) ++ "]"

def displayItems : List Value → List String
  | [] => []
  | v :: vs => display v :: displayItems vs

end

theorem beqItems_eq_beq (vs ws : List Value) : beqItems vs ws = (vs == ws) := by
  induction vs generalizing ws with
  | nil => cases ws <;> rfl
  | cons v vs ih =>
    cases ws with
    | nil => rfl
    | cons w ws =>
      simp only [beqItems, ih]
      rfl

theorem displayItems_eq_map (vs : List Value) : displayItems vs = vs.map display := by
  induction vs with
  | nil => rfl
  | cons v vs ih => simp only [displayItems, ih, List.map_cons]

end Value

end RuleLogic
