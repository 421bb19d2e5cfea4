import RuleLogic.Node

namespace RuleLogic

structure Signature where
  params : List String
  preset : List Value
  preset_le : preset.length ≤ params.length

structure Predicate extends Signature where
  name : String
  bound : List Value
  fits : preset.length + bound.length ≤ params.length

structure ArityMismatch where
  predicate : String
  arity : Nat
  given : Nat
deriving DecidableEq, Repr

def ArityMismatch.message (e : ArityMismatch) : String :=
  "predicate '" ++ e.predicate ++ "' takes " ++ toString e.arity ++ " arguments but " ++
    toString e.given ++ " were bound"

namespace Predicate

def new (name : String) (params : List String) : Predicate where
  name := name
  params := params
  preset := []
  preset_le := Nat.zero_le _
  bound := []
  fits := Nat.zero_le _

def ofSignature (name : String) (s : Signature) : Predicate where
  toSignature := s
  name := name
  bound := []
  fits := s.preset_le

def args (p : Predicate) : List Value := p.preset ++ p.bound

def arity (p : Predicate) : Nat := p.params.length

theorem args_length_le (p : Predicate) : p.args.length ≤ p.arity := by
  simpa [args, arity] using p.fits

def toEntry (p : Predicate) : Signature where
  params := p.params
  preset := p.args
  preset_le := p.args_length_le

def curry (p : Predicate) (values : List Value) : Except ArityMismatch Predicate :=
  if h : p.preset.length + (p.bound ++ values).length ≤ p.params.length then
    .ok { p with bound := p.bound ++ values, fits := h }
  else
    .error ⟨p.name, p.arity, (p.args ++ values).length⟩

instance : BEq Predicate :=
  ⟨fun p q => p.name == q.name && p.params == q.params && p.args == q.args⟩

def bindFirst : List String → List Value → List Param
  | [], _ => []
  | n :: ns, [] => .unbound n :: bindFirst ns []
  | n :: ns, v :: vs => .bound n v :: bindFirst ns vs

def placeholder : Param := .unbound "rest"

def toNode (p : Predicate) : Node :=
  -- Compiled again, a lone parameter would lose its value. The placeholder prevents that.
  let params := bindFirst (p.params.drop p.preset.length) p.bound
  if p.bound ≠ [] ∧ params.length ≤ 1 then .predicate p.name (params ++ [placeholder])
  else .predicate p.name params

def display (p : Predicate) : String :=
  p.name ++ "(" ++ ", ".intercalate (p.args.map Value.display) ++ ")"

end Predicate

end RuleLogic
