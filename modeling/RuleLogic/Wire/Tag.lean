import RuleLogic.Json.Basic
import RuleLogic.Node

namespace RuleLogic

inductive Tag where
  | predicate
  | check
  | scope (s : Scope)
  | modifier (m : Modifier)
  | set
  | connective (c : Connective)
deriving DecidableEq, Repr

namespace Tag

def word : Tag → String
  | .predicate => "predicate"
  | .check => "check"
  | .scope .key => "key"
  | .scope .attr => "attr"
  | .modifier .not => "not"
  | .modifier .val => "val"
  | .modifier .each => "each"
  | .set => "set"
  | .connective .and => "and"
  | .connective .or => "or"
  | .connective .xor => "xor"
  | .connective .implication => "implication"

def all : List Tag :=
  [.predicate, .check, .modifier .not, .scope .key, .scope .attr, .modifier .val, .set,
   .modifier .each, .connective .and, .connective .or, .connective .xor, .connective .implication]

def ofWord? (word : String) : Option Tag := all.find? (fun t => t.word == word)

theorem mem_all (t : Tag) : t ∈ all := by
  rcases t with _ | _ | s | m | _ | c
  · decide
  · decide
  · cases s <;> decide
  · cases m <;> decide
  · decide
  · cases c <;> decide

theorem ofWord?_word (t : Tag) : ofWord? t.word = some t := by
  rcases t with _ | _ | s | m | _ | c
  · rfl
  · rfl
  · cases s <;> rfl
  · cases m <;> rfl
  · rfl
  · cases c <;> rfl

theorem ofWord?_eq_some_iff {w : String} {t : Tag} : ofWord? w = some t ↔ w = t.word := by
  constructor
  · intro h
    have hw : (t.word == w) = true :=
      List.find?_some (p := fun u : Tag => u.word == w) (l := all) h
    exact (beq_iff_eq.1 hw).symm
  · intro h
    rw [h, ofWord?_word]

end Tag

def Node.tag : Node → Tag
  | .predicate _ _ => .predicate
  | .check _ _ _ => .check
  | .focused s _ _ => .scope s
  | .modified m _ => .modifier m
  | .set _ => .set
  | .joined c _ _ => .connective c

inductive Malformation where
  | pair (elements : Nat)
  | namedParams
  | param (predicate : String)
  | argument
  | checkedNode
  | keyStrings
  | keyArray
  | namedNode
  | nodes
  | sides
deriving DecidableEq, Repr

def Malformation.reason : Malformation → String
  | .pair elements => "expected [tag, payload], found " ++ toString elements ++ " elements"
  | .namedParams => "expected [name, [params]]"
  | .param predicate => "param of '" ++ predicate ++ "' must be [name] or [name, value]"
  | .argument => "objects are not valid arguments"
  | .checkedNode => "expected [name, node] or [name, node, keys]"
  | .keyStrings => "keys must be strings"
  | .keyArray => "keys must be null or an array"
  | .namedNode => "expected [name, node]"
  | .nodes => "expected an array of nodes"
  | .sides => "expected [left, right]"

inductive DecodeError where
  | unknownTag (word : String)
  | malformed (tag : Tag) (malformation : Malformation)
  | expectedNode (found : Json.Kind)
  | expectedTag (found : Option Json.Kind)
  | expectedNodeList (found : Json.Kind)
  | depthLimitExceeded (limit : Nat)
deriving DecidableEq, Repr

def DecodeError.message : DecodeError → String
  | .unknownTag word => "unknown node tag '" ++ word ++ "'"
  | .malformed tag malformation => "malformed '" ++ tag.word ++ "' node: " ++ malformation.reason
  | .expectedNode found => "expected a [tag, payload] node, found " ++ found.phrase
  | .expectedTag (some found) => "expected a string node tag, found " ++ found.phrase
  | .expectedTag none => "expected a string node tag, found nothing"
  | .expectedNodeList found => "expected an array of nodes, found " ++ found.phrase
  | .depthLimitExceeded limit => "AST nesting exceeds the depth limit of " ++ toString limit

end RuleLogic
