import RuleLogic.Proofs.Delimited
import RuleLogic.Proofs.Json.Lexeme
import RuleLogic.Proofs.Json.Nesting

namespace RuleLogic.Json

open Numeral

inductive FloatFree : Json → Prop
  | null : FloatFree .null
  | bool (b : Bool) : FloatFree (.bool b)
  | int (n : Int64) : FloatFree (.int n)
  | str (s : String) : FloatFree (.str s)
  | array {items : List Json} (h : ∀ j ∈ items, FloatFree j) : FloatFree (.array items)
  | object {members : List (String × Json)} (h : ∀ m ∈ members, FloatFree m.2) :
    FloatFree (.object members)

def memberChars (m : String × Json) : List Char :=
  Token.text (.str m.1) ++ ':' :: m.2.chars

theorem flatMap_intercalate_comma (first : List Token) (others : List (List Token)) :
    ([Token.comma].intercalate (first :: others)).flatMap Token.text =
      first.flatMap Token.text ++ others.flatMap fun ts => ',' :: ts.flatMap Token.text := by
  rw [Delimited.intercalate_cons, List.flatMap_append, List.flatMap_assoc]
  rfl

theorem tokensOfItems_eq_map (js : List Json) : tokensOfItems js = js.map tokens := by
  induction js with
  | nil => rfl
  | cons j js ih => rw [tokensOfItems, ih, List.map_cons]

theorem tokensOfMembers_eq_map (ms : List (String × Json)) :
    tokensOfMembers ms = ms.map fun m => .str m.1 :: .colon :: m.2.tokens := by
  induction ms with
  | nil => rfl
  | cons m ms ih =>
    obtain ⟨key, j⟩ := m
    rw [tokensOfMembers, ih, List.map_cons]

theorem chars_array_cons (j : Json) (js : List Json) (rest : List Char) :
    chars (.array (j :: js)) ++ rest =
      '[' :: (j.chars ++ (js.flatMap (fun i => ',' :: i.chars) ++ ']' :: rest)) := by
  rw [chars, tokens, tokensOfItems, List.flatMap_cons, List.flatMap_append,
    flatMap_intercalate_comma, tokensOfItems_eq_map, List.flatMap_map]
  simp [Token.text, chars]

theorem chars_object_cons (m : String × Json) (ms : List (String × Json)) (rest : List Char) :
    chars (.object (m :: ms)) ++ rest =
      '\x7b' ::
        (memberChars m ++ (ms.flatMap (fun n => ',' :: memberChars n) ++ '\x7d' :: rest)) := by
  obtain ⟨key, j⟩ := m
  rw [chars, tokens, tokensOfMembers, List.flatMap_cons, List.flatMap_append,
    flatMap_intercalate_comma, tokensOfMembers_eq_map, List.flatMap_map]
  simp [Token.text, chars, memberChars]

namespace Reading

variable {limit : Option Nat} {stack : List Frame} {rest : List Char}

def Admits (limit : Option Nat) (depth : Nat) : Prop := ∀ n ∈ limit, depth ≤ n

theorem hasRoom_of_admits {depth : Nat} (h : Admits limit (stack.length + (depth + 1))) :
    hasRoom limit stack = true := by
  cases limit with
  | none => rfl
  | some n =>
    have hle := h n rfl
    exact decide_eq_true (by omega)

def Starts (limit : Option Nat) (state : State) (stack : List Frame) : Prop :=
  ∀ t, t ≠ .closeArray → step limit state t = start limit stack t

theorem starts_value (stack : List Frame) : Starts limit (.value stack) stack :=
  fun _ _ => rfl

theorem starts_firstItem (stack : List Frame) :
    Starts limit (.firstItem stack) (.array [] :: stack) := by
  intro t ht
  cases t with
  | closeArray => exact absurd rfl ht
  | _ => rfl

def ReadsBack (limit : Option Nat) (j : Json) : Prop :=
  ∀ {state stack rest}, Starts limit state stack → Admits limit (stack.length + j.nesting) →
    Delimits rest → run limit state (j.chars ++ rest) = (deliver j stack).proceed limit rest

theorem run_text {state : State} {t : Token} (hfloat : ∀ x, t ≠ .float x)
    (hint : ∀ n, t = .int n → Delimits rest) :
    run limit state (t.text ++ rest) = (step limit state t).proceed limit rest :=
  run_of_next? (Token.next?_text hfloat hint)

theorem run_punctuation {state : State} {c : Char} (t : Token) (hc : Token.punctuation? c = some t)
    (hblank : Token.isBlank c = false) :
    run limit state (c :: rest) = (step limit state t).proceed limit rest :=
  run_of_next? (Token.next?_of_punctuation hc hblank)

theorem delimits_cons {c : Char} (hdigit : c.isDigit = false)
    (hc : c ≠ '.' ∧ c ≠ 'e' ∧ c ≠ 'E') : Delimits (c :: rest) := by
  rintro d ⟨⟩
  exact ⟨hdigit, hc⟩

theorem delimits_flatMap_comma {α : Type} (f : α → List Char) (xs : List α) {c : Char}
    (hc : Delimits (c :: rest)) : Delimits (xs.flatMap (fun x => ',' :: f x) ++ c :: rest) := by
  cases xs with
  | nil => exact hc
  | cons x xs => exact delimits_cons rfl (by decide)

theorem run_afterItem {js done : List Json} (hread : ∀ j ∈ js, ReadsBack limit j)
    (hroom : ∀ j ∈ js, Admits limit (stack.length + 1 + j.nesting)) :
    run limit (.afterItem done stack) (js.flatMap (fun j => ',' :: j.chars) ++ ']' :: rest) =
      (deliver (.array (done.reverse ++ js)) stack).proceed limit rest := by
  induction js generalizing done with
  | nil =>
    rw [List.flatMap_nil, List.nil_append, List.append_nil, run_punctuation .closeArray rfl rfl]
    rfl
  | cons j js ih =>
    obtain ⟨hj, hjs⟩ := List.forall_mem_cons.mp hread
    obtain ⟨hroomj, hroomjs⟩ := List.forall_mem_cons.mp hroom
    have hend : Delimits (js.flatMap (fun j => ',' :: j.chars) ++ ']' :: rest) :=
      delimits_flatMap_comma chars js (delimits_cons rfl (by decide))
    have hitem := hj (starts_value (.array done :: stack)) hroomj hend
    have htail := @ih (j :: done) hjs hroomjs
    rw [List.reverse_cons, List.append_assoc, List.singleton_append] at htail
    rw [List.flatMap_cons, List.append_assoc, List.cons_append, run_punctuation .comma rfl rfl]
    exact hitem.trans htail

theorem admits_part {whole part : Json} (hpart : part.nesting < whole.nesting)
    (h : Admits limit (stack.length + whole.nesting)) :
    Admits limit (stack.length + 1 + part.nesting) := by
  intro n hn
  have hwhole := h n hn
  omega

theorem readsBack_array {items : List Json} (hread : ∀ j ∈ items, ReadsBack limit j) :
    ReadsBack limit (.array items) := by
  intro state stack rest hstate hroom _
  have hopen := hasRoom_of_admits hroom
  have hfirst {tail : List Char} :
      run limit state ('[' :: tail) = run limit (.firstItem stack) tail := by
    rw [run_punctuation .openArray rfl rfl, hstate .openArray (by rintro ⟨⟩), start, if_pos hopen]
    rfl
  cases items with
  | nil =>
    have hchars : chars (.array []) ++ rest = '[' :: ']' :: rest := rfl
    rw [hchars, hfirst, run_punctuation .closeArray rfl rfl]
    rfl
  | cons j js =>
    obtain ⟨hj, hjs⟩ := List.forall_mem_cons.mp hread
    have hend : Delimits (js.flatMap (fun i => ',' :: i.chars) ++ ']' :: rest) :=
      delimits_flatMap_comma chars js (delimits_cons rfl (by decide))
    have hitems (i : Json) (hi : i ∈ j :: js) := admits_part (nesting_lt_of_mem hi) hroom
    obtain ⟨hroomj, hroomjs⟩ := List.forall_mem_cons.mp hitems
    have hitem := hj (starts_firstItem stack) hroomj hend
    have htail := @run_afterItem limit stack rest js [j] hjs hroomjs
    rw [chars_array_cons, hfirst]
    exact hitem.trans htail

theorem run_member {state : State} {members : List (String × Json)} {m : String × Json}
    (hstate : step limit state (.str m.1) = .more (.colon members m.1 stack))
    (hread : ReadsBack limit m.2) (hroom : Admits limit (stack.length + 1 + m.2.nesting))
    (hrest : Delimits rest) :
    run limit state (memberChars m ++ rest) =
      run limit (.afterMember (m :: members) stack) rest := by
  have hkey := @run_text limit (':' :: (m.2.chars ++ rest)) state (.str m.1) (by rintro x ⟨⟩)
    (by rintro n ⟨⟩)
  have hvalue := hread (starts_value (.object members m.1 :: stack)) hroom hrest
  rw [hstate, Step.proceed, run_punctuation .colon rfl rfl] at hkey
  rw [memberChars, List.append_assoc, List.cons_append]
  exact hkey.trans hvalue

theorem run_afterMember {ms done : List (String × Json)} (hread : ∀ m ∈ ms, ReadsBack limit m.2)
    (hroom : ∀ m ∈ ms, Admits limit (stack.length + 1 + m.2.nesting)) :
    run limit (.afterMember done stack)
        (ms.flatMap (fun m => ',' :: memberChars m) ++ '\x7d' :: rest) =
      (deliver (.object (done.reverse ++ ms)) stack).proceed limit rest := by
  induction ms generalizing done with
  | nil =>
    rw [List.flatMap_nil, List.nil_append, List.append_nil, run_punctuation .closeObject rfl rfl]
    rfl
  | cons m ms ih =>
    obtain ⟨hm, hms⟩ := List.forall_mem_cons.mp hread
    obtain ⟨hroomm, hroomms⟩ := List.forall_mem_cons.mp hroom
    have hend : Delimits (ms.flatMap (fun m => ',' :: memberChars m) ++ '\x7d' :: rest) :=
      delimits_flatMap_comma memberChars ms (delimits_cons rfl (by decide))
    have hmember := @run_member limit stack _ (.key done stack) done m rfl hm hroomm hend
    have htail := @ih (m :: done) hms hroomms
    rw [List.reverse_cons, List.append_assoc, List.singleton_append] at htail
    rw [List.flatMap_cons, List.append_assoc, List.cons_append, run_punctuation .comma rfl rfl]
    exact hmember.trans htail

theorem readsBack_object {members : List (String × Json)}
    (hread : ∀ m ∈ members, ReadsBack limit m.2) : ReadsBack limit (.object members) := by
  intro state stack rest hstate hroom _
  have hopen := hasRoom_of_admits hroom
  have hfirst {tail : List Char} :
      run limit state ('\x7b' :: tail) = run limit (.firstKey stack) tail := by
    rw [run_punctuation .openObject rfl rfl, hstate .openObject (by rintro ⟨⟩), start, if_pos hopen]
    rfl
  cases members with
  | nil =>
    have hchars : chars (.object []) ++ rest = '\x7b' :: '\x7d' :: rest := rfl
    rw [hchars, hfirst, run_punctuation .closeObject rfl rfl]
    rfl
  | cons m ms =>
    obtain ⟨hm, hms⟩ := List.forall_mem_cons.mp hread
    have hend : Delimits (ms.flatMap (fun m => ',' :: memberChars m) ++ '\x7d' :: rest) :=
      delimits_flatMap_comma memberChars ms (delimits_cons rfl (by decide))
    have hmembers (n : String × Json) (hn : n ∈ m :: ms) :=
      admits_part (nesting_lt_of_mem_object hn) hroom
    obtain ⟨hroomm, hroomms⟩ := List.forall_mem_cons.mp hmembers
    have hmember := @run_member limit stack _ (.firstKey stack) [] m rfl hm hroomm hend
    have htail := @run_afterMember limit stack rest ms [m] hms hroomms
    rw [chars_object_cons, hfirst]
    exact hmember.trans htail

theorem readsBack_scalar {j : Json} (t : Token) (htokens : j.tokens = [t])
    (hstart : ∀ stack, start limit stack t = deliver j stack) (hclose : t ≠ .closeArray)
    (hfloat : ∀ x, t ≠ .float x) : ReadsBack limit j := by
  intro state stack rest hstate _ hrest
  rw [chars, htokens, List.flatMap_singleton, run_text hfloat fun _ _ => hrest, hstate t hclose,
    hstart]

theorem readsBack_of_floatFree {j : Json} (h : FloatFree j) : ReadsBack limit j := by
  induction h with
  | null => exact readsBack_scalar .null rfl (fun _ => rfl) (by rintro ⟨⟩) (by rintro _ ⟨⟩)
  | bool b => exact readsBack_scalar (.bool b) rfl (fun _ => rfl) (by rintro ⟨⟩) (by rintro _ ⟨⟩)
  | int n => exact readsBack_scalar (.int n) rfl (fun _ => rfl) (by rintro ⟨⟩) (by rintro _ ⟨⟩)
  | str s => exact readsBack_scalar (.str s) rfl (fun _ => rfl) (by rintro ⟨⟩) (by rintro _ ⟨⟩)
  | array h ih => exact readsBack_array ih
  | object h ih => exact readsBack_object ih

end Reading

theorem readFirst_chars {limit : Option Nat} {j : Json} {rest : List Char} (hj : FloatFree j)
    (hroom : Reading.Admits limit j.nesting) (hrest : Delimits rest) :
    readFirst limit (j.chars ++ rest) = some (j, rest) := by
  rw [← Nat.zero_add j.nesting] at hroom
  exact Reading.readsBack_of_floatFree hj (Reading.starts_value []) hroom hrest

theorem readFirst_text {limit : Option Nat} {j : Json} (hj : FloatFree j)
    (hroom : Reading.Admits limit j.nesting) : readFirst limit j.text.toList = some (j, []) := by
  have hend : Delimits [] := by rintro c ⟨⟩
  have htext : j.text.toList = j.chars ++ [] := by
    rw [text, String.toList_ofList, List.append_nil]
  rw [htext]
  exact readFirst_chars hj hroom hend

theorem readFirst_text_none {j : Json} (hj : FloatFree j) :
    readFirst none j.text.toList = some (j, []) :=
  readFirst_text hj (by rintro n ⟨⟩)

theorem readFirst_text_eq_ite {j : Json} (hj : FloatFree j) (limit : Nat) :
    readFirst (some limit) j.text.toList = if j.nesting ≤ limit then some (j, []) else none := by
  by_cases hroom : j.nesting ≤ limit
  · rw [if_pos hroom]
    exact readFirst_text hj (by rintro n ⟨⟩; exact hroom)
  · rw [if_neg hroom]
    exact readFirst_eq_none_of_lt_nesting (readFirst_text_none hj) (Nat.not_le.mp hroom)

theorem read_text_none {j : Json} (hj : FloatFree j) : read none j.text = some j :=
  read_eq_some_iff.mpr ⟨[], readFirst_text_none hj, rfl⟩

theorem read_text_eq_ite {j : Json} (hj : FloatFree j) (limit : Nat) :
    read (some limit) j.text = if j.nesting ≤ limit then some j else none := by
  rw [read, readFirst_text_eq_ite hj]
  by_cases hroom : j.nesting ≤ limit
  · rw [if_pos hroom, if_pos hroom]
    rfl
  · rw [if_neg hroom, if_neg hroom]

end RuleLogic.Json
