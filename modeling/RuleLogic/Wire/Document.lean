import RuleLogic.Json.Text
import RuleLogic.Wire.Shape

namespace RuleLogic

abbrev Document := List Node

def defaultDepth : Nat := 128

def textNesting : Nat := 127

inductive TextError where
  | notJson
  | undecodable (e : DecodeError)
deriving DecidableEq, Repr

namespace Node

mutual

def toJson : Node → Json
  | .predicate name params => Shape.toJson (.predicate name params)
  | .check name keys body => Shape.toJson (.check name keys (toJson body))
  | .focused scope name body => Shape.toJson (.focused scope name (toJson body))
  | .modified modifier body => Shape.toJson (.modified modifier (toJson body))
  | .set members => Shape.toJson (.set (membersToJson members))
  | .joined connective left right => Shape.toJson (.joined connective (toJson left) (toJson right))

def membersToJson : List Node → List Json
  | [] => []
  | n :: ns => toJson n :: membersToJson ns

end

def ofJsonWithin (limit : Nat) : Nat → Json → Except DecodeError Node
  | 0, _ => .error (.depthLimitExceeded limit)
  | room + 1, j => do
    let shape ← Shape.ofJson j
    let shape ← shape.mapM (ofJsonWithin limit room)
    .ok shape.toNode

def ofJson (j : Json) : Except DecodeError Node := ofJsonWithin defaultDepth defaultDepth j

def toText (n : Node) : String := n.toJson.text

def ofText (text : String) : Except TextError Node :=
  match Json.readFirst (some textNesting) text.toList with
  | none => .error .notJson
  | some (j, rest) =>
    -- The value is decoded before what follows it is looked at.
    match ofJson j with
    | .error e => .error (.undecodable e)
    | .ok n => if rest.all Json.Token.isBlank then .ok n else .error .notJson

theorem membersToJson_eq_map (ns : List Node) : membersToJson ns = ns.map toJson := by
  induction ns with
  | nil => rfl
  | cons n ns ih => simp only [membersToJson, ih, List.map_cons]

end Node

namespace Document

def toJson (d : Document) : Json := .array (d.map Node.toJson)

def ofJson (limit : Nat) : Json → Except DecodeError Document
  | .array items => items.mapM (Node.ofJsonWithin limit limit)
  | j => .error (.expectedNodeList j.kind)

def ofJsonUnlimited (j : Json) : Except DecodeError Document := ofJson j.nesting j

def ofText (text : String) : Except TextError Document :=
  match Json.read (some textNesting) text with
  | none => .error .notJson
  | some j => (ofJson defaultDepth j).mapError .undecodable

end Document

end RuleLogic
