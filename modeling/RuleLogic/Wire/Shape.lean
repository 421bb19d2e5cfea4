import RuleLogic.Wire.Argument

namespace RuleLogic

inductive Shape (α : Type) where
  | predicate (name : String) (params : List Param)
  | check (name : String) (keys : Option (List String)) (body : α)
  | focused (scope : Scope) (name : String) (body : α)
  | modified (modifier : Modifier) (body : α)
  | set (members : List α)
  | joined (connective : Connective) (left right : α)

namespace Shape

def children {α : Type} : Shape α → List α
  | .predicate _ _ => []
  | .check _ _ body => [body]
  | .focused _ _ body => [body]
  | .modified _ body => [body]
  | .set members => members
  | .joined _ left right => [left, right]

def mapM {α β ε : Type} (f : α → Except ε β) : Shape α → Except ε (Shape β)
  | .predicate name params => .ok (.predicate name params)
  | .check name keys body => do
    let body ← f body
    .ok (.check name keys body)
  | .focused scope name body => do
    let body ← f body
    .ok (.focused scope name body)
  | .modified modifier body => do
    let body ← f body
    .ok (.modified modifier body)
  | .set members => do
    let members ← members.mapM f
    .ok (.set members)
  | .joined connective left right => do
    let left ← f left
    let right ← f right
    .ok (.joined connective left right)

def toNode : Shape Node → Node
  | .predicate name params => .predicate name params
  | .check name keys body => .check name keys body
  | .focused scope name body => .focused scope name body
  | .modified modifier body => .modified modifier body
  | .set members => .set members
  | .joined connective left right => .joined connective left right

def tagged (tag : Tag) (payload : Json) : Json := .array [.str tag.word, payload]

def toJson : Shape Json → Json
  | .predicate name params =>
    tagged .predicate (.array [.str name, .array (params.map Param.toJson)])
  | .check name (some keys) body => tagged .check (.array [.str name, body, .array (keys.map .str)])
  | .check name none body => tagged .check (.array [.str name, body])
  | .focused scope name body => tagged (.scope scope) (.array [.str name, body])
  | .modified modifier body => tagged (.modifier modifier) body
  | .set members => tagged .set (.array members)
  | .joined connective left right => tagged (.connective connective) (.array [left, right])

def header : Json → Except DecodeError (Tag × Json)
  | .array [] => .error (.expectedTag none)
  | .array (.str word :: rest) =>
    match Tag.ofWord? word with
    | none => .error (.unknownTag word)
    | some tag =>
      match rest with
      | [payload] => .ok (tag, payload)
      | _ => .error (.malformed tag (.pair (rest.length + 1)))
  | .array (j :: _) => .error (.expectedTag (some j.kind))
  | j => .error (.expectedNode j.kind)

def keyOfJson : Json → Except DecodeError String
  | .str key => .ok key
  | _ => .error (.malformed .check .keyStrings)

def keysOfJson : Json → Except DecodeError (Option (List String))
  | .null => .ok none
  | .array items => do
    let keys ← items.mapM keyOfJson
    .ok (some keys)
  | _ => .error (.malformed .check .keyArray)

def ofPayload : Tag → Json → Except DecodeError (Shape Json)
  | .predicate, .array [.str name, .array params] => do
    let params ← params.mapM (Param.ofJson name)
    .ok (.predicate name params)
  | .predicate, _ => .error (.malformed .predicate .namedParams)
  | .check, .array [.str name, body] => .ok (.check name none body)
  | .check, .array [.str name, body, keys] => do
    let keys ← keysOfJson keys
    .ok (.check name keys body)
  | .check, _ => .error (.malformed .check .checkedNode)
  | .scope scope, .array [.str name, body] => .ok (.focused scope name body)
  | .scope scope, _ => .error (.malformed (.scope scope) .namedNode)
  | .modifier modifier, body => .ok (.modified modifier body)
  | .set, .array members => .ok (.set members)
  | .set, _ => .error (.malformed .set .nodes)
  | .connective connective, .array [left, right] => .ok (.joined connective left right)
  | .connective connective, _ => .error (.malformed (.connective connective) .sides)

def ofJson (j : Json) : Except DecodeError (Shape Json) := do
  let (tag, payload) ← header j
  ofPayload tag payload

end Shape

end RuleLogic
