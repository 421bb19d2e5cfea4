import RuleLogic.Predicate.Standard
import RuleLogic.Rule
import RuleLogic.Wire.Document

namespace RuleLogic

inductive CompileError where
  | unknownPredicate (name : String)
  | arityMismatch (mismatch : ArityMismatch)
  | depthLimitExceeded (limit : Nat)
deriving DecidableEq, Repr

def CompileError.message : CompileError → String
  | .unknownPredicate name => "unknown predicate '" ++ name ++ "'"
  | .arityMismatch mismatch => mismatch.message
  | .depthLimitExceeded limit => "rule nesting exceeds the depth limit of " ++ toString limit

inductive LoadError where
  | unreadable
  | text (e : TextError)
  | compile (e : CompileError)
deriving DecidableEq, Repr

namespace Registry

def resolve (r : Registry) (name : String) (params : List Param) : Except CompileError Rule :=
  match r.lookup name with
  | none => .error (.unknownPredicate name)
  | some p =>
    -- A lone parameter stands for the value under test and gives no argument.
    if params.length ≤ 1 then .ok (.predicate p)
    else ((p.curry (params.filterMap Param.value)).map Rule.predicate).mapError .arityMismatch

def compileWithin (r : Registry) (limit : Nat) : Nat → Node → Except CompileError Rule
  -- The room is what is left of the limit. The limit itself is only reported.
  | 0, _ => .error (.depthLimitExceeded limit)
  | room + 1, n =>
    match n with
    | .predicate name params => r.resolve name params
    | .check name keys body => do
      let rule ← r.compileWithin limit room body
      .ok (.check name (keys.getD [name]) rule)
    | .focused scope name body => do
      let rule ← r.compileWithin limit room body
      .ok (.focused scope name rule)
    | .modified modifier body => do
      let rule ← r.compileWithin limit room body
      .ok (.modified modifier rule)
    | .set members => do
      let rules ← members.mapM (r.compileWithin limit room)
      .ok (.set rules)
    | .joined connective left right => do
      let left ← r.compileWithin limit room left
      let right ← r.compileWithin limit room right
      .ok (.joined connective left right)

end Registry

structure Compiler where
  registry : Registry
  maxDepth : Nat
  maxDepth_pos : 0 < maxDepth

namespace Compiler

def new (registry : Registry) : Compiler := ⟨registry, defaultDepth, by decide⟩

def withMaxDepth (c : Compiler) (depth : Nat) : Compiler :=
  ⟨c.registry, max depth 1, Nat.lt_of_lt_of_le Nat.one_pos (Nat.le_max_right depth 1)⟩

def visit (c : Compiler) (n : Node) : Except CompileError Rule :=
  c.registry.compileWithin c.maxDepth c.maxDepth n

def compile (c : Compiler) (d : Document) : Except CompileError (List Rule) := d.mapM c.visit

def compileJson (c : Compiler) (j : Json) : Except LoadError (List Rule) :=
  match Document.ofJson c.maxDepth j with
  | .error e => .error (.text (.undecodable e))
  | .ok d => (c.compile d).mapError .compile

def compileText (c : Compiler) (text : String) : Except LoadError (List Rule) :=
  match Json.read (some textNesting) text with
  | none => .error (.text .notJson)
  | some j => c.compileJson j

def compileFile (c : Compiler) (contents : Option ByteArray) : Except LoadError (List Rule) :=
  match contents.bind String.fromUTF8? with
  | none => .error .unreadable
  | some text => c.compileText text

def display (c : Compiler) : String :=
  "Compiler(" ++ toString c.registry.size ++ " predicates, max depth " ++ toString c.maxDepth ++ ")"

end Compiler

end RuleLogic
