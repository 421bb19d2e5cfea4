import RuleLogic.Decimal.Layout
import RuleLogic.Json.Numeral
import RuleLogic.Json.Quoted

namespace RuleLogic.Json

inductive Token where
  | openArray
  | closeArray
  | openObject
  | closeObject
  | comma
  | colon
  | null
  | bool (b : Bool)
  | int (n : Int64)
  | float (x : FiniteFloat)
  | str (s : String)

def floatLayout : Decimal.Layout := ⟨.even, some (-5, 15), true⟩

namespace Token

def text : Token → List Char
  | .openArray => ['[']
  | .closeArray => [']']
  | .openObject => ['\x7b']
  | .closeObject => ['\x7d']
  | .comma => [',']
  | .colon => [':']
  | .null => ['n', 'u', 'l', 'l']
  | .bool true => ['t', 'r', 'u', 'e']
  | .bool false => ['f', 'a', 'l', 's', 'e']
  | .int n => Decimal.integerText n.toInt
  | .float x => floatLayout.text x
  | .str s => Quoted.encode s.toList

def isBlank (c : Char) : Bool := c = ' ' || c = '\t' || c = '\n' || c = '\r'

def punctuation? : Char → Option Token
  | '[' => some .openArray
  | ']' => some .closeArray
  | '\x7b' => some .openObject
  | '\x7d' => some .closeObject
  | ',' => some .comma
  | ':' => some .colon
  | _ => none

def word? : Char → List Char → Option (Token × List Char)
  | 'n', 'u' :: 'l' :: 'l' :: rest => some (.null, rest)
  | 't', 'r' :: 'u' :: 'e' :: rest => some (.bool true, rest)
  | 'f', 'a' :: 'l' :: 's' :: 'e' :: rest => some (.bool false, rest)
  | _, _ => none

def string? (cs : List Char) : Option (Token × List Char) :=
  (Quoted.decode? cs).map fun (s, rest) => (.str (String.ofList s), rest)

def ofNumeral? (n : Numeral) : Option Token :=
  match n.int? with
  | some i => some (.int i)
  | none => n.float?.map .float

def number? (cs : List Char) : Option (Token × List Char) := do
  let (n, rest) ← Numeral.scan? cs
  let t ← ofNumeral? n
  some (t, rest)

def scan? : List Char → Option (Token × List Char)
  | [] => none
  | c :: rest =>
    match punctuation? c with
    | some t => some (t, rest)
    | none =>
      if c = '"' then string? rest
      else if c = '-' ∨ c.isDigit then number? (c :: rest)
      else word? c rest

def next? (cs : List Char) : Option (Token × List Char) := scan? (cs.dropWhile isBlank)

theorem word?_length {c : Char} {cs rest : List Char} {t : Token}
    (h : word? c cs = some (t, rest)) : rest.length < cs.length + 1 := by
  unfold word? at h
  split at h
  case h_4 => simp at h
  all_goals
    simp only [Option.some.injEq, Prod.mk.injEq] at h
    obtain ⟨_, rfl⟩ := h
    simp only [List.length_cons]
    omega

theorem string?_length {cs rest : List Char} {t : Token} (h : string? cs = some (t, rest)) :
    rest.length < cs.length := by
  simp only [string?, Option.map_eq_some_iff, Prod.mk.injEq] at h
  obtain ⟨⟨s, r⟩, hs, _, rfl⟩ := h
  exact Quoted.readBody_length hs

theorem number?_length {cs rest : List Char} {t : Token} (h : number? cs = some (t, rest)) :
    rest.length < cs.length := by
  simp only [number?, Option.bind_eq_bind, Option.bind_eq_some_iff, Option.some.injEq,
    Prod.mk.injEq] at h
  obtain ⟨⟨n, r⟩, hn, _, _, _, rfl⟩ := h
  exact Numeral.scan?_length hn

theorem scan?_length {cs rest : List Char} {t : Token} (h : scan? cs = some (t, rest)) :
    rest.length < cs.length := by
  unfold scan? at h
  split at h
  · simp at h
  · split at h
    · simp only [Option.some.injEq, Prod.mk.injEq] at h
      obtain ⟨_, rfl⟩ := h
      exact Nat.lt_succ_self _
    · split at h
      · exact Nat.lt_succ_of_lt (string?_length h)
      · split at h
        · exact number?_length h
        · exact word?_length h

theorem next?_length {cs rest : List Char} {t : Token} (h : next? cs = some (t, rest)) :
    rest.length < cs.length :=
  Nat.lt_of_lt_of_le (scan?_length h) (List.dropWhile_sublist _).length_le

end Token

end RuleLogic.Json
