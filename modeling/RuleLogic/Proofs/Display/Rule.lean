import RuleLogic.Proofs.Compiler.Outline
import RuleLogic.Proofs.Display.Value
import RuleLogic.Proofs.Equality

namespace RuleLogic

open Delimited

namespace Display

def IsName (s : String) : Prop :=
  s ≠ "" ∧ ∀ c ∈ s.toList, c.isAlphanum = true ∨ c = '_' ∨ c = '?'

instance (s : String) : Decidable (IsName s) :=
  @instDecidableAnd _ _ _ (List.decidableBAll _ s.toList)

theorem isWord_of_isName {s : String} (h : IsName s) : IsWord s.toList := by
  intro c hc
  rcases h.2 c hc with halnum | rfl | rfl
  · rw [inWord, halnum]
    rfl
  · decide
  · decide

theorem name_append_ne {s : String} (h : IsName s) {c : Char} (hc : inWord c = false)
    (rest rest' : List Char) : s.toList ++ rest ≠ c :: rest' :=
  word_append_ne (isWord_of_isName h) (fun hnil => h.1 (String.toList_eq_nil_iff.mp hnil)) hc _ _

theorem reads_name {s : String} (h : IsName s) : Reads IsName String.toList id s := by
  intro s' h' rest rest' hrest hrest' heq
  obtain ⟨hs, hrests⟩ := word_append_inj (isWord_of_isName h) (isWord_of_isName h') hrest hrest' heq
  exact ⟨String.toList_inj.mp hs, hrests⟩

theorem keys_read {keys keys' : List String} {rest rest' : List Char}
    (hkeys : ∀ k ∈ keys, IsName k) (hkeys' : ∀ k ∈ keys', IsName k)
    (h : separator.intercalate (keys.map String.toList) ++ ']' :: rest =
      separator.intercalate (keys'.map String.toList) ++ ']' :: rest') :
    keys = keys' ∧ rest = rest' := by
  have hstart (k : String) (hk : IsName k) := name_append_ne hk (by decide : inWord ']' = false)
  have hreads (k : String) (hk : k ∈ keys) := reads_name (hkeys k hk)
  obtain ⟨hitems, hrest⟩ :=
    items_append_inj (by decide) (by decide) hstart hkeys hreads hkeys' h
  rw [List.map_id, List.map_id] at hitems
  exact ⟨hitems, hrest⟩

end Display

open Display

def Predicate.shown (p : Predicate) : String × List Value := (p.name, p.args)

def Scope.word : Scope → String
  | .key => "key"
  | .attr => "attr"

def Modifier.word : Modifier → String
  -- A negation is written in parentheses instead.
  | .not => ""
  | .val => "val"
  | .each => "each"

def Modifier.lead : Modifier → List Char
  | .not => ['N', 'O', 'T', ' ']
  | .val => []
  | .each => []

theorem Scope.isWord_word (scope : Scope) : IsWord scope.word.toList := by
  cases scope <;> decide

theorem Modifier.isWord_word (modifier : Modifier) : IsWord modifier.word.toList := by
  cases modifier <;> decide

theorem Connective.isWord_word (connective : Connective) : IsWord connective.word.toList := by
  cases connective <;> decide

theorem Scope.word_injective {a b : Scope} (h : a.word = b.word) : a = b := by
  cases a <;> cases b <;> simp [word] at h ⊢

theorem Modifier.word_injective {a b : Modifier} (h : a.word = b.word) : a = b := by
  cases a <;> cases b <;> simp [word] at h ⊢

theorem Connective.word_injective {a b : Connective} (h : a.word = b.word) : a = b := by
  cases a <;> cases b <;> simp [word] at h ⊢

theorem Connective.reads_word (a : Connective) :
    Reads (fun _ => True) (fun b : Connective => b.word.toList) id a := by
  intro b _ rest rest' hrest hrest' heq
  obtain ⟨hwords, hrests⟩ := word_append_inj a.isWord_word b.isWord_word hrest hrest' heq
  exact ⟨Connective.word_injective (String.toList_inj.mp hwords), hrests⟩

namespace Rule

inductive Legible : Rule → Prop
  | predicate {p : Predicate} (hname : IsName p.name) (hargs : ∀ v ∈ p.args, v.Legible) :
    Legible (.predicate p)
  | check {name : String} {keys : List String} {rule : Rule} (hname : IsName name)
    (hkeys : ∀ k ∈ keys, IsName k) (hrule : Legible rule) : Legible (.check name keys rule)
  | focused (scope : Scope) {name : String} {rule : Rule} (hname : IsName name)
    (hrule : Legible rule) : Legible (.focused scope name rule)
  | modified (modifier : Modifier) {rule : Rule} (hrule : Legible rule) :
    Legible (.modified modifier rule)
  | set {rules : List Rule} (hrules : ∀ r ∈ rules, Legible r) : Legible (.set rules)
  | joined (connective : Connective) {left right : Rule} (hleft : Legible left)
    (hright : Legible right) : Legible (.joined connective left right)

def text (r : Rule) : List Char := r.display.toList

def shown (r : Rule) : Outline (String × List Value) := r.outline Predicate.shown

def opening : Rule → String × Char
  | .predicate p => (p.name, '(')
  | .check _ _ _ => ("check", '[')
  | .focused scope _ _ => (scope.word, '[')
  | .modified modifier _ => (modifier.word, '(')
  | .set _ => ("set", '\x7b')
  | .joined _ _ _ => ("", '(')

def inside : Rule → List Char
  | .predicate p => separator.intercalate (p.args.map Value.text) ++ [')']
  | .check name keys rule =>
    name.toList ++ ':' :: ' ' ::
      (separator.intercalate (keys.map String.toList) ++ ']' :: '(' :: (rule.text ++ [')']))
  | .focused _ name rule => name.toList ++ ']' :: '(' :: (rule.text ++ [')'])
  | .modified modifier rule => modifier.lead ++ (rule.text ++ [')'])
  | .set rules => separator.intercalate (rules.map text) ++ ['\x7d']
  | .joined connective left right =>
    left.text ++ ' ' :: (connective.word.toList ++ ' ' :: (right.text ++ [')']))

theorem text_eq (r : Rule) : r.text = r.opening.1.toList ++ r.opening.2 :: r.inside := by
  cases r with
  | predicate p =>
    rw [text, display, Predicate.display, String.toList_append, String.toList_append,
      String.toList_append, String.toList_intercalate, List.map_map, List.append_assoc,
      List.append_assoc]
    rfl
  | check name keys rule => simp [text, display, opening, inside, separator]
  | focused scope name rule =>
    cases scope <;> simp [text, display, Scope.display, opening, Scope.word, inside]
  | modified modifier rule =>
    cases modifier <;>
      simp [text, display, Modifier.display, opening, Modifier.word, inside, Modifier.lead]
  | set rules =>
    have hopening : "set\x7b".toList = "set".toList ++ ['\x7b'] := by decide
    rw [text, display, displaySet, displayRules_eq_map, String.toList_append, String.toList_append,
      String.toList_intercalate, List.map_map, hopening, List.append_assoc, List.append_assoc]
    rfl
  | joined connective left right =>
    simp [text, display, Connective.display, opening, inside]

variable {r r' : Rule} {rest rest' : List Char}

theorem isWord_opening (h : r.Legible) : IsWord r.opening.1.toList := by
  cases h with
  | predicate hname _ => exact isWord_of_isName hname
  | check _ _ _ => exact (by decide : IsWord "check".toList)
  | focused scope _ _ => exact scope.isWord_word
  | modified modifier _ => exact modifier.isWord_word
  | set _ => exact (by decide : IsWord "set".toList)
  | joined _ _ _ => exact List.forall_mem_nil _

theorem mark_cases (r : Rule) :
    r.opening.2 = '(' ∨ r.opening.2 = '\x7b' ∨ r.opening.2 = '[' ∧ r.opening.1 ≠ "" := by
  cases r with
  | focused scope _ _ => cases scope <;> simp [opening, Scope.word]
  | _ => simp [opening]

theorem breaks_mark (r : Rule) (cs : List Char) : Breaks (r.opening.2 :: cs) := by
  rcases r.mark_cases with h | h | ⟨h, _⟩
  all_goals
    rw [h]
    exact breaks_cons (by decide) _

theorem opening_of_word_append (h : r.Legible) {w cs : List Char} {c : Char} (hw : IsWord w)
    (hc : inWord c = false) (heq : w ++ c :: cs = r.text ++ rest) :
    w = r.opening.1.toList ∧ c = r.opening.2 ∧ cs = r.inside ++ rest := by
  rw [text_eq, List.append_assoc] at heq
  obtain ⟨hword, hbehind⟩ :=
    word_append_inj hw (isWord_opening h) (breaks_cons hc _) (breaks_mark r _) heq
  exact ⟨hword, List.cons.inj hbehind⟩

theorem opening_read (h : r.Legible) (h' : r'.Legible) (heq : r.text ++ rest = r'.text ++ rest') :
    r.opening = r'.opening ∧ r.inside ++ rest = r'.inside ++ rest' := by
  have hmark : inWord r.opening.2 = false := breaks_mark r [] _ rfl
  rw [text_eq r, List.append_assoc] at heq
  obtain ⟨hword, hmark, hinside⟩ := opening_of_word_append h' (isWord_opening h) hmark heq
  exact ⟨Prod.ext (String.toList_inj.mp hword) hmark, hinside⟩

theorem ne_text_append (h : r.Legible) {w cs : List Char} {c : Char} (hw : IsWord w)
    (hc : inWord c = false) (hopen : c ≠ '(' ∧ c ≠ '\x7b') (hbracket : c = '[' → w = []) :
    w ++ c :: cs ≠ r.text ++ rest := by
  intro heq
  obtain ⟨rfl, rfl, _⟩ := opening_of_word_append h hw hc heq
  rcases r.mark_cases with hmark | hmark | ⟨hmark, hword⟩
  · exact hopen.1 hmark
  · exact hopen.2 hmark
  · exact hword (String.toList_eq_nil_iff.mp (hbracket hmark))

theorem args_append_ne (h : r.Legible) {vs : List Value} (hvs : ∀ v ∈ vs, v.Legible) :
    separator.intercalate (vs.map Value.text) ++ ')' :: rest ≠ r.text ++ rest' := by
  cases vs with
  | nil => exact ne_text_append h (List.forall_mem_nil _) (by decide) (by decide) fun _ => rfl
  | cons v vs =>
    rw [intercalate_cons_map, List.append_assoc]
    rcases Value.forms_of_legible (hvs v List.mem_cons_self) with
      ⟨t, ht⟩ | ⟨s, _, rfl⟩ | ⟨items, _, rfl⟩
    · rw [Value.text_of_isToken ht]
      have hword := Value.isWord_of_isToken ht
      cases vs with
      | nil => exact ne_text_append h hword (by decide) (by decide) nofun
      | cons w vs => exact ne_text_append h hword (by decide) (by decide) nofun
    · rw [Value.text_str]
      exact ne_text_append h (List.forall_mem_nil _) (by decide) (by decide) fun _ => rfl
    · rw [Value.text_list]
      exact ne_text_append h (List.forall_mem_nil _) (by decide) (by decide) fun _ => rfl

theorem reads_predicate {p : Predicate} (h : (Rule.predicate p).Legible) :
    Reads Legible text shown (.predicate p) := by
  intro r hr rest rest' hrest hrest' heq
  obtain ⟨hopening, hinside⟩ := opening_read h hr heq
  cases h with
  | predicate hname hargs =>
    cases hr with
    | predicate hname' hargs' =>
      simp only [inside, List.append_assoc, List.singleton_append] at hinside
      have hreads (v : Value) (hv : v ∈ p.args) := Value.reads_of_legible (hargs v hv)
      obtain ⟨hargs, hrests⟩ := Value.items_read (.inr rfl) hargs hreads hargs' hinside
      exact ⟨congrArg Outline.leaf (Prod.ext (Prod.mk.inj hopening).1 hargs), hrests⟩
    | modified modifier hr =>
      -- The predicate may have the name of the modifier. Then what is in the parentheses decides.
      cases modifier with
      | not => exact absurd (Prod.mk.inj hopening).1 hname.1
      | _ =>
        simp only [inside, Modifier.lead, List.nil_append, List.append_assoc,
          List.singleton_append] at hinside
        exact absurd hinside (args_append_ne hr hargs)
    | joined _ _ _ => exact absurd (Prod.mk.inj hopening).1 hname.1
    | _ => simp [opening] at hopening

theorem reads_check {name : String} {keys : List String} {rule : Rule}
    (h : (check name keys rule).Legible) (hreads : Reads Legible text shown rule) :
    Reads Legible text shown (.check name keys rule) := by
  intro r hr rest rest' hrest hrest' heq
  obtain ⟨hopening, hinside⟩ := opening_read h hr heq
  cases h with
  | check hname hkeys hrule =>
    cases hr with
    | @check name' keys' rule' hname' hkeys' hrule' =>
      simp only [inside, List.append_assoc, List.cons_append] at hinside
      obtain ⟨rfl, hlist⟩ := (reads_name hname).before hname' (by decide) hinside
      obtain ⟨rfl, hbody⟩ := keys_read hkeys hkeys' (List.cons.inj hlist).2
      obtain ⟨hrule, hrests⟩ := hreads.before hrule' (by decide) (List.cons.inj hbody).2
      exact ⟨congrArg (Outline.check name keys) hrule, hrests⟩
    | focused scope _ _ => cases scope <;> simp [opening, Scope.word] at hopening
    | _ => simp [opening] at hopening

theorem reads_focused {scope : Scope} {name : String} {rule : Rule}
    (h : (focused scope name rule).Legible) (hreads : Reads Legible text shown rule) :
    Reads Legible text shown (.focused scope name rule) := by
  intro r hr rest rest' hrest hrest' heq
  obtain ⟨hopening, hinside⟩ := opening_read h hr heq
  cases h with
  | focused _ hname hrule =>
    cases hr with
    | @focused scope' name' rule' hname' hrule' =>
      obtain rfl := Scope.word_injective (Prod.mk.inj hopening).1
      simp only [inside, List.append_assoc, List.cons_append] at hinside
      obtain ⟨rfl, hbody⟩ := (reads_name hname).before hname' (by decide) hinside
      obtain ⟨hrule, hrests⟩ := hreads.before hrule' (by decide) (List.cons.inj hbody).2
      exact ⟨congrArg (Outline.focused scope name) hrule, hrests⟩
    | check _ _ _ => cases scope <;> simp [opening, Scope.word] at hopening
    | _ => simp [opening] at hopening

theorem inside_negation_ne {left right rule : Rule} (h : left.Legible) (connective : Connective) :
    (modified .not rule).inside ++ rest ≠ (joined connective left right).inside ++ rest' := by
  simp only [inside, List.append_assoc, List.cons_append]
  have hblank : ' ' ≠ '[' := by decide
  exact ne_text_append h (by decide : IsWord ['N', 'O', 'T']) (by decide) (by decide)
    fun h => absurd h hblank

theorem reads_modified {modifier : Modifier} {rule : Rule} (h : (modified modifier rule).Legible)
    (hreads : Reads Legible text shown rule) :
    Reads Legible text shown (.modified modifier rule) := by
  intro r hr rest rest' hrest hrest' heq
  obtain ⟨hopening, hinside⟩ := opening_read h hr heq
  cases hr with
  | predicate hname hargs =>
    exact (reads_predicate (.predicate hname hargs)).symm h hrest hrest' heq
  | @modified modifier' rule' hrule' =>
    obtain rfl := Modifier.word_injective (Prod.mk.inj hopening).1
    simp only [inside, List.append_assoc, List.append_cancel_left_eq] at hinside
    obtain ⟨hrule, hrests⟩ := hreads.before hrule' (by decide) hinside
    exact ⟨congrArg (Outline.modified modifier) hrule, hrests⟩
  | joined connective hleft hright =>
    cases modifier with
    | not => exact absurd hinside (inside_negation_ne hleft connective)
    | _ => simp [opening, Modifier.word] at hopening
  | _ => simp [opening] at hopening

theorem reads_set {rules : List Rule} (h : (set rules).Legible)
    (hreads : ∀ r ∈ rules, Reads Legible text shown r) :
    Reads Legible text shown (.set rules) := by
  intro r hr rest rest' hrest hrest' heq
  obtain ⟨hopening, hinside⟩ := opening_read h hr heq
  cases h with
  | set hrules =>
    cases hr with
    | @set rules' hrules' =>
      simp only [inside, List.append_assoc, List.singleton_append] at hinside
      have hstart (r : Rule) (hr : r.Legible) (rest rest' : List Char) :
          r.text ++ rest ≠ '\x7d' :: rest' :=
        (ne_text_append hr (List.forall_mem_nil _) (by decide) (by decide) fun _ => rfl).symm
      obtain ⟨hrules, hrests⟩ :=
        items_append_inj (by decide) (by decide) hstart hrules hreads hrules' hinside
      have houtline (rules : List Rule) : (set rules).shown = .set (rules.map shown) :=
        congrArg Outline.set (outlineOfRules_eq_map Predicate.shown rules)
      exact ⟨by rw [houtline, houtline, hrules], hrests⟩
    | _ => simp [opening] at hopening

theorem reads_joined {connective : Connective} {left right : Rule}
    (h : (joined connective left right).Legible) (hreadsLeft : Reads Legible text shown left)
    (hreadsRight : Reads Legible text shown right) :
    Reads Legible text shown (.joined connective left right) := by
  intro r hr rest rest' hrest hrest' heq
  obtain ⟨hopening, hinside⟩ := opening_read h hr heq
  cases h with
  | joined _ hleft hright =>
    cases hr with
    | predicate hname hargs =>
      have hreads := reads_predicate (.predicate hname hargs)
      exact hreads.symm (.joined connective hleft hright) hrest hrest' heq
    | modified modifier hrule' =>
      cases modifier with
      | not => exact absurd hinside.symm (inside_negation_ne hleft connective)
      | _ => simp [opening, Modifier.word] at hopening
    | @joined connective' left' right' hleft' hright' =>
      simp only [inside, List.append_assoc, List.cons_append] at hinside
      obtain ⟨hleft, hword⟩ := hreadsLeft.before hleft' (by decide) hinside
      obtain ⟨rfl, hbehind⟩ := connective.reads_word.before trivial (by decide) hword
      obtain ⟨hright, hrests⟩ := hreadsRight.before hright' (by decide) hbehind
      exact ⟨congrArg₂ (Outline.joined connective) hleft hright, hrests⟩
    | _ => simp [opening] at hopening

theorem reads_of_legible (h : r.Legible) : Reads Legible text shown r := by
  induction h with
  | predicate hname hargs => exact reads_predicate (.predicate hname hargs)
  | check hname hkeys hrule ih => exact reads_check (.check hname hkeys hrule) ih
  | focused scope hname hrule ih => exact reads_focused (.focused scope hname hrule) ih
  | modified modifier hrule ih => exact reads_modified (.modified modifier hrule) ih
  | set hrules ih => exact reads_set (.set hrules) ih
  | joined connective hleft hright ihleft ihright =>
    exact reads_joined (.joined connective hleft hright) ihleft ihright

theorem beq_self_of_legible (h : r.Legible) : beq r r = true := by
  induction h with
  | @predicate p _ hargs =>
    exact Predicate.beq_self_iff.mpr fun v hv => Value.nanFree_of_legible (hargs v hv)
  | @set rules _ ih => exact (beqRules_eq_beq rules rules).trans (beq_self_of_forall_mem ih)
  | _ => simp only [beq, beq_self_eq_true, Bool.and_self, *]

theorem shown_eq_of_display_eq (h : r.Legible) (h' : r'.Legible) (heq : r.display = r'.display) :
    r.shown = r'.shown := by
  have htext : r.text ++ [] = r'.text ++ [] := by rw [text, text, heq]
  exact (reads_of_legible h r' h' [] [] nofun nofun htext).1

end Rule

namespace Compiler

theorem eq_of_shown_eq {c : Compiler} {n₁ n₂ : Node} {r₁ r₂ : Rule} (h₁ : c.visit n₁ = .ok r₁)
    (h₂ : c.visit n₂ = .ok r₂) (h : r₁.shown = r₂.shown) : r₁ = r₂ := by
  -- What a definition has to say for a predicate is known from the predicate's name and arguments.
  let unbind : String × List Value → String × List Value :=
    fun (name, args) => c.registry.unbind (name, [], args)
  have hunbind (r : Rule) : r.surface.map c.registry.unbind = r.shown.map unbind := by
    rw [Rule.surface, Rule.shown, Rule.map_outline, Rule.map_outline]
    rfl
  have hessence : n₁.essence = n₂.essence := by
    rw [← essence_of_visit h₁, ← essence_of_visit h₂, hunbind, hunbind, h]
  have hvisit := visit_eq_of_essence_eq c hessence
  rw [h₁, h₂] at hvisit
  exact Except.ok.inj hvisit

theorem eq_of_display_eq {r₁ r₂ : Rule} (hl₁ : r₁.Legible) (hl₂ : r₂.Legible)
    (h : r₁.display = r₂.display) :
    r₁.shown = r₂.shown ∧
      ∀ (c : Compiler) (n₁ n₂ : Node), c.visit n₁ = .ok r₁ → c.visit n₂ = .ok r₂ →
        r₁ = r₂ ∧ (r₁ == r₂) = true := by
  have hshown := Rule.shown_eq_of_display_eq hl₁ hl₂ h
  refine ⟨hshown, fun c n₁ n₂ h₁ h₂ => ?_⟩
  obtain rfl := eq_of_shown_eq h₁ h₂ hshown
  exact ⟨rfl, Rule.beq_self_of_legible hl₁⟩

theorem eq_of_display_eq_keywords :
    let preset : Predicate :=
      ⟨⟨["part", "rest", "input"], [.str "), val(set("], by decide⟩, "val", [], by decide⟩
    let c := new (.insert .empty preset)
    let n (name : String) : Node :=
      .val (.and (.predicate "val" [.bound name (.list [.int (-1), .null]), .unbound "_"])
        (.set []))
    let r (p : Predicate) : Rule := .value (.and p (.set []))
    let p : Predicate := { preset with bound := [.list [.int (-1), .null]], fits := Nat.le_succ 2 }
    let q : Predicate :=
      { Predicate.new "val" preset.params with bound := p.args, fits := Nat.le_succ 2 }
    c.visit (n "rest") = .ok (r p) ∧ c.visit (n "other") = .ok (r p) ∧
      (r p).display = "val((val(\"), val(set(\", [-1, null]) AND set\x7b\x7d))" ∧
      (r p == r p) = true ∧ (r q).display = (r p).display ∧ (r q).shown = (r p).shown := by
  intro preset c n r p q
  have hrest : c.visit (n "rest") = .ok (r p) := by cbv
  have hother : c.visit (n "other") = .ok (r p) := by cbv
  have hargs : ∀ v ∈ p.args, v.Legible := by
    have hitems : ∀ v ∈ [Value.int (-1), .null], v.Legible := by
      simp [Value.Legible.int, Value.Legible.null]
    exact List.forall_mem_cons.mpr ⟨.str (by decide), List.forall_mem_singleton.mpr (.list hitems)⟩
  have hlegible (p : Predicate) (hname : p.name = "val") (hargs : ∀ v ∈ p.args, v.Legible) :
      (r p).Legible :=
    .modified _ (.joined _ (.predicate (hname ▸ by decide) hargs) (.set (List.forall_mem_nil _)))
  have hp := hlegible p rfl hargs
  have hq := hlegible q rfl hargs
  have hdisplay : (r p).display = "val((val(\"), val(set(\", [-1, null]) AND set\x7b\x7d))" :=
    rfl
  refine ⟨hrest, hother, hdisplay, ?_, rfl, (eq_of_display_eq hq hp rfl).1⟩
  exact ((eq_of_display_eq hp hp rfl).2 c _ _ hrest hother).2

end Compiler

end RuleLogic
