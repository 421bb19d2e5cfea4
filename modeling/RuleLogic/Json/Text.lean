import RuleLogic.Json.Token

namespace RuleLogic.Json

mutual

def tokens : Json → List Token
  | .null => [.null]
  | .bool b => [.bool b]
  | .int n => [.int n]
  | .float x => [.float x]
  | .str s => [.str s]
  | .array items => .openArray :: ([Token.comma].intercalate (tokensOfItems items) ++ [.closeArray])
  | .object members =>
    .openObject :: ([Token.comma].intercalate (tokensOfMembers members) ++ [.closeObject])

def tokensOfItems : List Json → List (List Token)
  | [] => []
  | j :: js => tokens j :: tokensOfItems js

def tokensOfMembers : List (String × Json) → List (List Token)
  | [] => []
  | (key, j) :: ms => (.str key :: .colon :: tokens j) :: tokensOfMembers ms

end

def chars (j : Json) : List Char := j.tokens.flatMap Token.text

def text (j : Json) : String := String.ofList j.chars

namespace Reading

inductive Frame where
  | array (items : List Json)
  | object (members : List (String × Json)) (key : String)

inductive State where
  | value (stack : List Frame)
  | firstItem (stack : List Frame)
  | afterItem (items : List Json) (stack : List Frame)
  | firstKey (stack : List Frame)
  | key (members : List (String × Json)) (stack : List Frame)
  | colon (members : List (String × Json)) (key : String) (stack : List Frame)
  | afterMember (members : List (String × Json)) (stack : List Frame)

inductive Step where
  | stuck
  | done (j : Json)
  | more (state : State)

def deliver (j : Json) : List Frame → Step
  | [] => .done j
  | .array items :: stack => .more (.afterItem (j :: items) stack)
  | .object members key :: stack => .more (.afterMember ((key, j) :: members) stack)

def hasRoom (limit : Option Nat) (stack : List Frame) : Bool :=
  match limit with
  | none => true
  | some n => stack.length < n

def start (limit : Option Nat) (stack : List Frame) : Token → Step
  | .openArray => if hasRoom limit stack then .more (.firstItem stack) else .stuck
  | .openObject => if hasRoom limit stack then .more (.firstKey stack) else .stuck
  | .null => deliver .null stack
  | .bool b => deliver (.bool b) stack
  | .int n => deliver (.int n) stack
  | .float x => deliver (.float x) stack
  | .str s => deliver (.str s) stack
  | _ => .stuck

def step (limit : Option Nat) : State → Token → Step
  | .value stack, t => start limit stack t
  | .firstItem stack, .closeArray => deliver (.array []) stack
  | .firstItem stack, t => start limit (.array [] :: stack) t
  | .afterItem items stack, .comma => .more (.value (.array items :: stack))
  | .afterItem items stack, .closeArray => deliver (.array items.reverse) stack
  | .firstKey stack, .str key => .more (.colon [] key stack)
  | .firstKey stack, .closeObject => deliver (.object []) stack
  | .key members stack, .str key => .more (.colon members key stack)
  | .colon members key stack, .colon => .more (.value (.object members key :: stack))
  | .afterMember members stack, .comma => .more (.key members stack)
  | .afterMember members stack, .closeObject => deliver (.object members.reverse) stack
  | _, _ => .stuck

def run (limit : Option Nat) (state : State) (cs : List Char) : Option (Json × List Char) :=
  match h : Token.next? cs with
  | none => none
  | some (t, rest) =>
    have : rest.length < cs.length := Token.next?_length h
    match step limit state t with
    | .stuck => none
    | .done j => some (j, rest)
    | .more next => run limit next rest
termination_by cs.length

theorem run_eq (limit : Option Nat) (state : State) (cs : List Char) :
    run limit state cs =
      (Token.next? cs).bind fun (t, rest) =>
        match step limit state t with
        | .stuck => none
        | .done j => some (j, rest)
        | .more next => run limit next rest := by
  rw [run.eq_def]
  split <;> simp_all

end Reading

def readFirst (limit : Option Nat) (cs : List Char) : Option (Json × List Char) :=
  Reading.run limit (.value []) cs

def read (limit : Option Nat) (text : String) : Option Json :=
  match readFirst limit text.toList with
  | some (j, rest) => if rest.all Token.isBlank then some j else none
  | none => none

end RuleLogic.Json
