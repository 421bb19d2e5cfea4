import RuleLogic.Predicate.Basic

namespace RuleLogic

inductive Rule where
  | predicate (p : Predicate)
  | check (name : String) (keys : List String) (rule : Rule)
  | focused (scope : Scope) (name : String) (rule : Rule)
  | modified (modifier : Modifier) (rule : Rule)
  | set (rules : List Rule)
  | joined (connective : Connective) (left right : Rule)

namespace Rule

instance : Coe Predicate Rule := ⟨.predicate⟩

def key (name : String) (rule : Rule) : Rule := .focused .key name rule

def attr (name : String) (rule : Rule) : Rule := .focused .attr name rule

def negation (rule : Rule) : Rule := .modified .not rule

def value (rule : Rule) : Rule := .modified .val rule

def each (rule : Rule) : Rule := .modified .each rule

def and (left right : Rule) : Rule := .joined .and left right

def or (left right : Rule) : Rule := .joined .or left right

def xor (left right : Rule) : Rule := .joined .xor left right

def implication (left right : Rule) : Rule := .joined .implication left right

instance : Complement Rule := ⟨negation⟩

instance : AndOp Rule := ⟨and⟩

instance : OrOp Rule := ⟨or⟩

instance : XorOp Rule := ⟨xor⟩

mutual

def beq : Rule → Rule → Bool
  | .predicate p, .predicate q => p == q
  | .check n ks a, .check m ls b => n == m && ks == ls && beq a b
  | .focused s n a, .focused t m b => s == t && n == m && beq a b
  | .modified f a, .modified g b => f == g && beq a b
  | .set as, .set bs => beqRules as bs
  | .joined c a b, .joined d x y => c == d && beq a x && beq b y
  | _, _ => false

def beqRules : List Rule → List Rule → Bool
  | [], [] => true
  | a :: as, b :: bs => beq a b && beqRules as bs
  | _, _ => false

end

instance : BEq Rule := ⟨beq⟩

mutual

def toNode : Rule → Node
  | .predicate p => p.toNode
  | .check name keys rule => .check name (some keys) (toNode rule)
  | .focused scope name rule => .focused scope name (toNode rule)
  | .modified modifier rule => .modified modifier (toNode rule)
  | .set rules => .set (toNodes rules)
  | .joined connective left right => .joined connective (toNode left) (toNode right)

def toNodes : List Rule → List Node
  | [] => []
  | r :: rs => toNode r :: toNodes rs

end

mutual

def display : Rule → String
  | .predicate p => p.display
  | .check name keys rule =>
    "check[" ++ name ++ ": " ++ ", ".intercalate keys ++ "](" ++ display rule ++ ")"
  | .focused scope name rule => scope.display name (display rule)
  | .modified modifier rule => modifier.display (display rule)
  | .set rules => displaySet (displayRules rules)
  | .joined connective left right => connective.display (display left) (display right)

def displayRules : List Rule → List String
  | [] => []
  | r :: rs => display r :: displayRules rs

end

theorem beqRules_eq_beq (as bs : List Rule) : beqRules as bs = (as == bs) := by
  induction as generalizing bs with
  | nil => cases bs <;> rfl
  | cons a as ih =>
    cases bs with
    | nil => rfl
    | cons b bs =>
      simp only [beqRules, ih]
      rfl

theorem toNodes_eq_map (rs : List Rule) : toNodes rs = rs.map toNode := by
  induction rs with
  | nil => rfl
  | cons r rs ih => simp only [toNodes, ih, List.map_cons]

theorem displayRules_eq_map (rs : List Rule) : displayRules rs = rs.map display := by
  induction rs with
  | nil => rfl
  | cons r rs ih => simp only [displayRules, ih, List.map_cons]

end Rule

end RuleLogic
