import RuleLogic.Wire.Tag

namespace RuleLogic

namespace Value

mutual

def toJson : Value → Json
  | .null => .null
  | .int n => .int n
  | .float x =>
    match finite? x with
    | some x => .float x
    | none => .null
  | .bool b => .bool b
  | .str s => .str s
  | .list items => .array (itemsToJson items)

def itemsToJson : List Value → List Json
  | [] => []
  | v :: vs => toJson v :: itemsToJson vs

end

mutual

def ofJson? : Json → Option Value
  | .null => some .null
  | .bool b => some (.bool b)
  | .int n => some (.int n)
  | .float x => some (.float x.val)
  | .str s => some (.str s)
  | .array items => (itemsOfJson? items).map .list
  | .object _ => none

def itemsOfJson? : List Json → Option (List Value)
  | [] => some []
  | j :: js =>
    match ofJson? j, itemsOfJson? js with
    | some v, some vs => some (v :: vs)
    | _, _ => none

end

theorem itemsToJson_eq_map (vs : List Value) : itemsToJson vs = vs.map toJson := by
  induction vs with
  | nil => rfl
  | cons v vs ih => simp only [itemsToJson, ih, List.map_cons]

end Value

namespace Param

def toJson (p : Param) : Json :=
  match p.value with
  | some v => .array [.str p.name, v.toJson]
  | none => .array [.str p.name]

def ofJson (predicate : String) : Json → Except DecodeError Param
  | .array [.str name] => .ok (.unbound name)
  | .array [.str name, j] =>
    match Value.ofJson? j with
    | some v => .ok (.bound name v)
    | none => .error (.malformed .predicate .argument)
  | _ => .error (.malformed .predicate (.param predicate))

end Param

end RuleLogic
