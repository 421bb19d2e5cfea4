import RuleLogic.Proofs.Delimited
import RuleLogic.Proofs.Equality
import RuleLogic.Proofs.Json.Lexeme

namespace RuleLogic

open Delimited

namespace Json

open Decimal in
theorem Token.isWord_integerText (i : Int) : IsWord (integerText i) := by
  have hdigits : IsWord (Nat.toDigits 10 i.natAbs) := by
    intro c hc
    rw [inWord, Char.isAlphanum, Numeral.isDigit_of_mem_toDigits c hc]
    simp
  unfold integerText
  split
  · exact List.forall_mem_cons.mpr ⟨by decide, hdigits⟩
  · exact hdigits

theorem Token.eq_of_text_eq {t t' : Token} (ht : ∀ x, t ≠ .float x) (ht' : ∀ x, t' ≠ .float x)
    (h : t.text = t'.text) : t = t' := by
  have hread {t : Token} (ht : ∀ x, t ≠ .float x) : next? (t.text ++ []) = some (t, []) :=
    next?_text ht fun _ _ _ => nofun
  have heq := (hread ht).symm
  rw [h, hread ht'] at heq
  cases heq
  rfl

end Json

namespace Value

inductive Legible : Value → Prop
  | null : Legible .null
  | int (n : Int64) : Legible (.int n)
  | bool (b : Bool) : Legible (.bool b)
  | str {s : String} (h : '"' ∉ s.toList) : Legible (.str s)
  | list {items : List Value} (h : ∀ v ∈ items, Legible v) : Legible (.list items)

theorem nanFree_of_legible {v : Value} (h : v.Legible) : v.NaNFree := by
  induction h with
  | null => exact .null
  | int n => exact .int n
  | bool b => exact .bool b
  | str _ => exact .str _
  | list _ ih => exact .list ih

def text (v : Value) : List Char := v.display.toList

inductive IsToken : Value → Json.Token → Prop
  | null : IsToken .null .null
  | int (n : Int64) : IsToken (.int n) (.int n)
  | bool (b : Bool) : IsToken (.bool b) (.bool b)

variable {v w : Value} {t : Json.Token} {rest rest' : List Char}

theorem text_of_isToken (h : v.IsToken t) : v.text = t.text := by
  cases h with
  | null => rfl
  | int n => exact String.toList_ofList
  | bool b => cases b <;> rfl

theorem isWord_of_isToken (h : v.IsToken t) : IsWord t.text := by
  cases h with
  | null => decide
  | int n => exact Json.Token.isWord_integerText n.toInt
  | bool b => cases b <;> decide

theorem text_ne_nil_of_isToken (h : v.IsToken t) : t.text ≠ [] := by
  cases h with
  | null => decide
  | int n =>
    obtain ⟨c, cs, htext, _⟩ := Json.Token.integerText_eq_cons n.toInt
    exact List.ne_nil_of_mem (htext ▸ List.mem_cons_self)
  | bool b => cases b <;> decide

theorem ne_float_of_isToken (h : v.IsToken t) : ∀ x, t ≠ .float x := by
  cases h <;> rintro x ⟨⟩

theorem eq_of_isToken (h : v.IsToken t) (h' : w.IsToken t) : v = w := by
  cases h <;> cases h' <;> rfl

theorem text_str (s : String) : (Value.str s).text = '"' :: (s.toList ++ ['"']) := by
  rw [text, display, String.toList_append, String.toList_append]
  rfl

theorem text_list (items : List Value) :
    (Value.list items).text = '[' :: (separator.intercalate (items.map text) ++ [']']) := by
  rw [text, display, displayItems_eq_map, String.toList_append, String.toList_append,
    String.toList_intercalate, List.map_map]
  rfl

theorem text_append_ne_of_isToken (h : v.IsToken t) {c : Char} (hc : inWord c = false) :
    t.text ++ rest ≠ c :: rest' :=
  word_append_ne (isWord_of_isToken h) (text_ne_nil_of_isToken h) hc _ _

theorem forms_of_legible (h : v.Legible) :
    (∃ t, v.IsToken t) ∨ (∃ s : String, '"' ∉ s.toList ∧ v = .str s) ∨
      ∃ items, (∀ w ∈ items, w.Legible) ∧ v = .list items := by
  cases h with
  | null => exact .inl ⟨_, .null⟩
  | int n => exact .inl ⟨_, .int n⟩
  | bool b => exact .inl ⟨_, .bool b⟩
  | str h => exact .inr (.inl ⟨_, h, rfl⟩)
  | list h => exact .inr (.inr ⟨_, h, rfl⟩)

theorem text_append_ne (h : v.Legible) {c : Char} (hc : inWord c = false) (hquote : '"' ≠ c)
    (hbracket : '[' ≠ c) (rest rest' : List Char) : v.text ++ rest ≠ c :: rest' := by
  rcases forms_of_legible h with ⟨t, ht⟩ | ⟨s, _, rfl⟩ | ⟨items, _, rfl⟩
  · rw [text_of_isToken ht]
    exact text_append_ne_of_isToken ht hc
  · rw [text_str]
    exact fun heq => hquote (List.cons.inj heq).1
  · rw [text_list]
    exact fun heq => hbracket (List.cons.inj heq).1

theorem reads_of_isToken (h : v.IsToken t) : Reads Legible text id v := by
  intro w hw rest rest' hrest hrest' heq
  rw [text_of_isToken h] at heq
  rcases forms_of_legible hw with ⟨t', ht'⟩ | ⟨s, _, rfl⟩ | ⟨items, _, rfl⟩
  · rw [text_of_isToken ht'] at heq
    obtain ⟨htokens, rfl⟩ :=
      word_append_inj (isWord_of_isToken h) (isWord_of_isToken ht') hrest hrest' heq
    obtain rfl : t = t' :=
      Json.Token.eq_of_text_eq (ne_float_of_isToken h) (ne_float_of_isToken ht') htokens
    exact ⟨eq_of_isToken h ht', rfl⟩
  · rw [text_str] at heq
    exact absurd heq (text_append_ne_of_isToken h (by decide))
  · rw [text_list] at heq
    exact absurd heq (text_append_ne_of_isToken h (by decide))

theorem reads_str {s : String} (h : '"' ∉ s.toList) : Reads Legible text id (.str s) := by
  intro w hw rest rest' hrest hrest' heq
  rcases forms_of_legible hw with ⟨t, ht⟩ | ⟨s', h', rfl⟩ | ⟨items, _, rfl⟩
  · exact (reads_of_isToken ht).symm (.str h) hrest hrest' heq
  · have hinside {s : String} (h : '"' ∉ s.toList) : ∀ c ∈ s.toList, (c != '"') = true :=
      fun c hc => bne_iff_ne.mpr (ne_of_mem_of_not_mem hc h)
    simp only [text_str, List.cons_append, List.append_assoc, List.cons.injEq, true_and] at heq
    obtain ⟨hs, hrests⟩ :=
      append_inj_of_forall (hinside h) (hinside h') (by simp) (by simp) heq
    exact ⟨congrArg str (String.toList_inj.mp hs), (List.cons.inj hrests).2⟩
  · rw [text_str, text_list] at heq
    cases (List.cons.inj heq).1

theorem items_read {close : Char} (hclose : close = ']' ∨ close = ')') {vs ws : List Value}
    (hvs : ∀ v ∈ vs, v.Legible) (hreads : ∀ v ∈ vs, Reads Legible text id v)
    (hws : ∀ w ∈ ws, w.Legible)
    (h : separator.intercalate (vs.map text) ++ close :: rest =
      separator.intercalate (ws.map text) ++ close :: rest') : vs = ws ∧ rest = rest' := by
  have hends : inWord close = false ∧ close ≠ ',' ∧ '"' ≠ close ∧ '[' ≠ close := by
    rcases hclose with rfl | rfl <;> decide
  obtain ⟨hbreaks, hcomma, hquote, hbracket⟩ := hends
  have hstart (v : Value) (hv : v.Legible) := text_append_ne hv hbreaks hquote hbracket
  obtain ⟨hitems, hrest⟩ := items_append_inj hbreaks hcomma hstart hvs hreads hws h
  rw [List.map_id, List.map_id] at hitems
  exact ⟨hitems, hrest⟩

theorem reads_of_legible (h : v.Legible) : Reads Legible text id v := by
  induction h with
  | null => exact reads_of_isToken .null
  | int n => exact reads_of_isToken (.int n)
  | bool b => exact reads_of_isToken (.bool b)
  | str h => exact reads_str h
  | @list items h ih =>
    intro w hw rest rest' hrest hrest' heq
    rcases forms_of_legible hw with ⟨t, ht⟩ | ⟨s, hs, rfl⟩ | ⟨items', h', rfl⟩
    · exact (reads_of_isToken ht).symm (.list h) hrest hrest' heq
    · rw [text_list, text_str] at heq
      cases (List.cons.inj heq).1
    · simp only [text_list, List.cons_append, List.append_assoc, List.cons.injEq, true_and] at heq
      obtain ⟨hitems, hrests⟩ := items_read (.inl rfl) h ih h' heq
      exact ⟨congrArg list hitems, hrests⟩

end Value

end RuleLogic
