namespace RuleLogic.Json.Quoted

def letter? (c : Char) : Option Char :=
  match c.toNat with
  | 8 => some 'b'
  | 9 => some 't'
  | 10 => some 'n'
  | 12 => some 'f'
  | 13 => some 'r'
  | _ => none

def escaped (c : Char) : List Char :=
  if c = '"' ∨ c = '\\' then ['\\', c]
  else if c.toNat < 32 then
    match letter? c with
    | some l => ['\\', l]
    | none => ['\\', 'u', '0', '0', Nat.digitChar (c.toNat / 16), Nat.digitChar (c.toNat % 16)]
  else [c]

def encode (s : List Char) : List Char := '"' :: (s.flatMap escaped ++ ['"'])

def hexDigit? (c : Char) : Option Nat :=
  if c.isDigit then some (c.toNat - 48)
  else if 97 ≤ c.toNat ∧ c.toNat ≤ 102 then some (c.toNat - 87)
  else if 65 ≤ c.toNat ∧ c.toNat ≤ 70 then some (c.toNat - 55)
  else none

def unit? : List Char → Option (Nat × List Char)
  | a :: b :: c :: d :: rest => do
    let a ← hexDigit? a
    let b ← hexDigit? b
    let c ← hexDigit? c
    let d ← hexDigit? d
    some (((a * 16 + b) * 16 + c) * 16 + d, rest)
  | _ => none

def isHigh (unit : Nat) : Bool := 0xD800 ≤ unit ∧ unit < 0xDC00

def isLow (unit : Nat) : Bool := 0xDC00 ≤ unit ∧ unit < 0xE000

def codePoint? (rest : List Char) : Option (Char × List Char) := do
  let (unit, rest) ← unit? rest
  if isLow unit then none
  else if isHigh unit then
    match rest with
    | '\\' :: 'u' :: rest =>
      let (low, rest) ← unit? rest
      if isLow low then
        some (Char.ofNat (0x10000 + (unit - 0xD800) * 0x400 + (low - 0xDC00)), rest)
      else none
    | _ => none
  else some (Char.ofNat unit, rest)

def short? : Char → Option Char
  | '"' => some '"'
  | '\\' => some '\\'
  | '/' => some '/'
  | 'b' => some '\x08'
  | 'f' => some '\x0c'
  | 'n' => some '\n'
  | 'r' => some '\r'
  | 't' => some '\t'
  | _ => none

def unescape? : List Char → Option (Char × List Char)
  | [] => none
  | c :: rest => if c = 'u' then codePoint? rest else (short? c).map (·, rest)

theorem unit?_length {cs rest : List Char} {u : Nat} (h : unit? cs = some (u, rest)) :
    rest.length < cs.length := by
  unfold unit? at h
  split at h
  · simp only [Option.bind_eq_bind, Option.bind_eq_some_iff, Option.some.injEq, Prod.mk.injEq] at h
    obtain ⟨_, _, _, _, _, _, _, _, _, rfl⟩ := h
    simp only [List.length_cons]
    omega
  · simp at h

theorem codePoint?_length {cs rest : List Char} {c : Char} (h : codePoint? cs = some (c, rest)) :
    rest.length < cs.length := by
  simp only [codePoint?, Option.bind_eq_bind, Option.bind_eq_some_iff] at h
  obtain ⟨⟨u, r⟩, hu, h⟩ := h
  have hr := unit?_length hu
  split at h
  · simp at h
  · split at h
    · split at h
      · rename_i tail heq
        simp only [Option.bind_eq_some_iff] at h
        obtain ⟨⟨l, lrest⟩, hl, h⟩ := h
        have htail := unit?_length hl
        have hlen : r.length = tail.length + 2 := congrArg List.length heq
        split at h
        · simp only [Option.some.injEq, Prod.mk.injEq] at h
          obtain ⟨_, rfl⟩ := h
          omega
        · simp at h
      · simp at h
    · simp only [Option.some.injEq, Prod.mk.injEq] at h
      obtain ⟨_, rfl⟩ := h
      exact hr

theorem unescape?_length {cs rest : List Char} {c : Char} (h : unescape? cs = some (c, rest)) :
    rest.length < cs.length := by
  unfold unescape? at h
  split at h
  · simp at h
  · split at h
    · exact Nat.lt_succ_of_lt (codePoint?_length h)
    · simp only [Option.map_eq_some_iff, Prod.mk.injEq] at h
      obtain ⟨_, _, _, rfl⟩ := h
      exact Nat.lt_succ_self _

def readBody (done : List Char) : List Char → Option (List Char × List Char)
  | [] => none
  | c :: rest =>
    if c = '"' then some (done.reverse, rest)
    else if c = '\\' then
      match h : unescape? rest with
      | none => none
      | some (e, tail) =>
        have : tail.length < rest.length := unescape?_length h
        readBody (e :: done) tail
    else if c.toNat < 32 then none
    else readBody (c :: done) rest
termination_by cs => cs.length

def decode? (cs : List Char) : Option (List Char × List Char) := readBody [] cs

theorem readBody_nil (done : List Char) : readBody done [] = none := by
  rw [readBody]

theorem readBody_cons (done : List Char) (c : Char) (rest : List Char) :
    readBody done (c :: rest) =
      if c = '"' then some (done.reverse, rest)
      else if c = '\\' then (unescape? rest).bind fun (e, tail) => readBody (e :: done) tail
      else if c.toNat < 32 then none
      else readBody (c :: done) rest := by
  rw [readBody]
  split
  · rfl
  · split
    · split <;> simp_all
    · rfl

theorem readBody_length {done cs s rest : List Char} (h : readBody done cs = some (s, rest)) :
    rest.length < cs.length := by
  fun_induction readBody done cs <;> simp_all <;> omega

end RuleLogic.Json.Quoted
