import RuleLogic.Value

namespace RuleLogic

structure Param where
  name : String
  value : Option Value

inductive Scope where
  | key
  | attr
deriving DecidableEq, Repr

inductive Modifier where
  | not
  | val
  | each
deriving DecidableEq, Repr

inductive Connective where
  | and
  | or
  | xor
  | implication
deriving DecidableEq, Repr

inductive Node where
  | predicate (name : String) (params : List Param)
  | check (name : String) (keys : Option (List String)) (body : Node)
  | focused (scope : Scope) (name : String) (body : Node)
  | modified (modifier : Modifier) (body : Node)
  | set (members : List Node)
  | joined (connective : Connective) (left right : Node)

namespace Param

def bound (name : String) (value : Value) : Param := ⟨name, some value⟩

def unbound (name : String) : Param := ⟨name, none⟩

instance : BEq Param := ⟨fun p q => p.name == q.name && p.value == q.value⟩

def display (p : Param) : String :=
  p.name ++ ": " ++
    match p.value with
    | some v => v.display
    | none => "_"

end Param

def Scope.display (scope : Scope) (name body : String) : String :=
  match scope with
  | .key => "key[" ++ name ++ "](" ++ body ++ ")"
  | .attr => "attr[" ++ name ++ "](" ++ body ++ ")"

def Modifier.display (modifier : Modifier) (body : String) : String :=
  match modifier with
  | .not => "(NOT " ++ body ++ ")"
  | .val => "val(" ++ body ++ ")"
  | .each => "each(" ++ body ++ ")"

def Connective.word : Connective → String
  | .and => "AND"
  | .or => "OR"
  | .xor => "XOR"
  | .implication => "THEN"

def Connective.display (connective : Connective) (left right : String) : String :=
  "(" ++ left ++ " " ++ connective.word ++ " " ++ right ++ ")"

def displaySet (members : List String) : String := "set\x7b" ++ ", ".intercalate members ++ "\x7d"

namespace Node

def key (name : String) (body : Node) : Node := .focused .key name body

def attr (name : String) (body : Node) : Node := .focused .attr name body

def not (body : Node) : Node := .modified .not body

def val (body : Node) : Node := .modified .val body

def each (body : Node) : Node := .modified .each body

def and (left right : Node) : Node := .joined .and left right

def or (left right : Node) : Node := .joined .or left right

def xor (left right : Node) : Node := .joined .xor left right

def implication (left right : Node) : Node := .joined .implication left right

mutual

def beq : Node → Node → Bool
  | .predicate n ps, .predicate m qs => n == m && ps == qs
  | .check n ks a, .check m ls b => n == m && ks == ls && beq a b
  | .focused s n a, .focused t m b => s == t && n == m && beq a b
  | .modified f a, .modified g b => f == g && beq a b
  | .set as, .set bs => beqMembers as bs
  | .joined c a b, .joined d x y => c == d && beq a x && beq b y
  | _, _ => false

def beqMembers : List Node → List Node → Bool
  | [], [] => true
  | a :: as, b :: bs => beq a b && beqMembers as bs
  | _, _ => false

end

instance : BEq Node := ⟨beq⟩

mutual

def display : Node → String
  | .predicate name params => name ++ "(" ++ ", ".intercalate (params.map Param.display) ++ ")"
  | .check name (some keys) body =>
    "check " ++ name ++ " [" ++ ", ".intercalate keys ++ "] " ++ display body
  | .check name none body => "check " ++ name ++ " " ++ display body
  | .focused scope name body => scope.display name (display body)
  | .modified modifier body => modifier.display (display body)
  | .set members => displaySet (displayMembers members)
  | .joined connective left right => connective.display (display left) (display right)

def displayMembers : List Node → List String
  | [] => []
  | n :: ns => display n :: displayMembers ns

end

theorem beqMembers_eq_beq (as bs : List Node) : beqMembers as bs = (as == bs) := by
  induction as generalizing bs with
  | nil => cases bs <;> rfl
  | cons a as ih =>
    cases bs with
    | nil => rfl
    | cons b bs =>
      simp only [beqMembers, ih]
      rfl

theorem displayMembers_eq_map (ns : List Node) : displayMembers ns = ns.map display := by
  induction ns with
  | nil => rfl
  | cons n ns ih => simp only [displayMembers, ih, List.map_cons]

end Node

end RuleLogic
