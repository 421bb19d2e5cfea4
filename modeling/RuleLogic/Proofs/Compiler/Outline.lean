import RuleLogic.Proofs.Compiler.Image

namespace RuleLogic

inductive Outline (α : Type) where
  | leaf (a : α)
  | check (name : String) (keys : List String) (body : Outline α)
  | focused (scope : Scope) (name : String) (body : Outline α)
  | modified (modifier : Modifier) (body : Outline α)
  | set (members : List (Outline α))
  | joined (connective : Connective) (left right : Outline α)

namespace Outline

variable {α β : Type}

mutual

def map (f : α → β) : Outline α → Outline β
  | .leaf a => .leaf (f a)
  | .check name keys body => .check name keys (map f body)
  | .focused scope name body => .focused scope name (map f body)
  | .modified modifier body => .modified modifier (map f body)
  | .set members => .set (mapMembers f members)
  | .joined connective left right => .joined connective (map f left) (map f right)

def mapMembers (f : α → β) : List (Outline α) → List (Outline β)
  | [] => []
  | o :: os => map f o :: mapMembers f os

end

end Outline

namespace Node

variable {α : Type}

mutual

def outline (f : String → List Param → α) : Node → Outline α
  | .predicate name params => .leaf (f name params)
  | .check name keys body => .check name (keys.getD [name]) (outline f body)
  | .focused scope name body => .focused scope name (outline f body)
  | .modified modifier body => .modified modifier (outline f body)
  | .set members => .set (outlineOfMembers f members)
  | .joined connective left right => .joined connective (outline f left) (outline f right)

def outlineOfMembers (f : String → List Param → α) : List Node → List (Outline α)
  | [] => []
  | n :: ns => outline f n :: outlineOfMembers f ns

end

theorem outlineOfMembers_eq_map (f : String → List Param → α) (ns : List Node) :
    outlineOfMembers f ns = ns.map (outline f) := by
  induction ns with
  | nil => rfl
  | cons n ns ih => rw [outlineOfMembers, ih, List.map_cons]

end Node

namespace Rule

variable {α β : Type}

mutual

def outline (f : Predicate → α) : Rule → Outline α
  | .predicate p => .leaf (f p)
  | .check name keys rule => .check name keys (outline f rule)
  | .focused scope name rule => .focused scope name (outline f rule)
  | .modified modifier rule => .modified modifier (outline f rule)
  | .set rules => .set (outlineOfRules f rules)
  | .joined connective left right => .joined connective (outline f left) (outline f right)

def outlineOfRules (f : Predicate → α) : List Rule → List (Outline α)
  | [] => []
  | r :: rs => outline f r :: outlineOfRules f rs

end

theorem outlineOfRules_eq_map (f : Predicate → α) (rs : List Rule) :
    outlineOfRules f rs = rs.map (outline f) := by
  induction rs with
  | nil => rfl
  | cons r rs ih => rw [outlineOfRules, ih, List.map_cons]

mutual

theorem map_outline (g : α → β) (f : Predicate → α) (r : Rule) :
    (r.outline f).map g = r.outline (g ∘ f) := by
  cases r with
  | predicate p => rfl
  | set rules => rw [outline, Outline.map, outline, mapMembers_outlineOfRules g f rules]
  | joined connective left right =>
    rw [outline, Outline.map, outline, map_outline g f left, map_outline g f right]
  | _ => simp only [outline, Outline.map, map_outline g f]

theorem mapMembers_outlineOfRules (g : α → β) (f : Predicate → α) (rs : List Rule) :
    Outline.mapMembers g (outlineOfRules f rs) = outlineOfRules (g ∘ f) rs := by
  cases rs with
  | nil => rfl
  | cons r rs =>
    rw [outlineOfRules, Outline.mapMembers, outlineOfRules, map_outline g f r,
      mapMembers_outlineOfRules g f rs]

end

end Rule

def Node.essence (n : Node) : Outline (String × List Value) :=
  n.outline fun name params => (name, Param.given params)

def Predicate.surface (p : Predicate) : String × List String × List Value :=
  (p.name, p.params, p.args)

def Rule.surface (r : Rule) : Outline (String × List String × List Value) :=
  r.outline Predicate.surface

namespace Registry

open Traversal

def compileOutline (r : Registry) (limit : Nat) :
    Nat → Outline (String × List Value) → Except CompileError Rule
  | 0, _ => .error (.depthLimitExceeded limit)
  | room + 1, o =>
    match o with
    | .leaf (name, values) => r.apply name values
    | .check name keys body => do
      let rule ← r.compileOutline limit room body
      .ok (.check name keys rule)
    | .focused scope name body => do
      let rule ← r.compileOutline limit room body
      .ok (.focused scope name rule)
    | .modified modifier body => do
      let rule ← r.compileOutline limit room body
      .ok (.modified modifier rule)
    | .set members => do
      let rules ← members.mapM (r.compileOutline limit room)
      .ok (.set rules)
    | .joined connective left right => do
      let left ← r.compileOutline limit room left
      let right ← r.compileOutline limit room right
      .ok (.joined connective left right)

theorem compileWithin_eq_compileOutline (r : Registry) (limit room : Nat) (n : Node) :
    r.compileWithin limit room n = r.compileOutline limit room n.essence := by
  induction room generalizing n with
  | zero => rfl
  | succ room ih =>
    unfold Node.essence at ih ⊢
    cases n with
    | predicate name params => exact r.resolve_eq_apply name params
    | set members =>
      have hmembers := funext ih
      rw [compileWithin, Node.outline, Node.outlineOfMembers_eq_map, compileOutline, List.mapM_map,
        hmembers]
      rfl
    | _ => simp only [compileWithin, Node.outline, compileOutline, ih]

def presetCount (r : Registry) (name : String) : Nat :=
  (r.lookup name).elim 0 fun entry => entry.args.length

def unbind (r : Registry) : String × List String × List Value → String × List Value
  | (name, _, args) => (name, args.drop (r.presetCount name))

theorem unbind_surface_of_resolve {r : Registry} {name : String} {params : List Param}
    {p : Predicate} (h : r.resolve name params = .ok (.predicate p)) :
    r.unbind p.surface = (name, Param.given params) := by
  obtain ⟨rfl, entry, hlookup, _, _, hargs⟩ := exists_entry_of_resolve h
  rw [Predicate.surface, unbind, presetCount, hlookup, Option.elim_some, hargs, List.drop_left]

theorem outline_of_compileWithin {α : Type} {r : Registry} {f : Predicate → α}
    {g : String → List Param → α}
    (hleaf : ∀ name params p, r.resolve name params = .ok (.predicate p) → f p = g name params)
    {limit room : Nat} {n : Node} {rule : Rule} (h : r.compileWithin limit room n = .ok rule) :
    rule.outline f = n.outline g := by
  induction room generalizing n rule with
  | zero => cases h
  | succ room ih =>
    cases n with
    | predicate name params =>
      obtain ⟨p, rfl, _⟩ := offers_of_resolve h
      exact congrArg Outline.leaf (hleaf name params p h)
    | set members =>
      obtain ⟨rules, hrules, ⟨⟩⟩ := bind_eq_ok_iff.mp h
      rw [Rule.outline, Node.outline, Rule.outlineOfRules_eq_map, Node.outlineOfMembers_eq_map,
        Traversal.map_eq_map_of_mapM_eq_ok (fun n _ rule hn => ih hn) hrules]
    | joined connective left right =>
      obtain ⟨l, hl, h⟩ := bind_eq_ok_iff.mp h
      obtain ⟨r, hr, ⟨⟩⟩ := bind_eq_ok_iff.mp h
      rw [Rule.outline, Node.outline, ih hl, ih hr]
    | _ =>
      obtain ⟨body, hbody, ⟨⟩⟩ := bind_eq_ok_iff.mp h
      rw [Rule.outline, Node.outline, ih hbody]

end Registry

namespace Compiler

theorem visit_eq_of_essence_eq (c : Compiler) {n₁ n₂ : Node} (h : n₁.essence = n₂.essence) :
    c.visit n₁ = c.visit n₂ := by
  rw [visit, visit, Registry.compileWithin_eq_compileOutline, h,
    ← Registry.compileWithin_eq_compileOutline]

theorem essence_of_visit {c : Compiler} {n : Node} {r : Rule} (h : c.visit n = .ok r) :
    r.surface.map c.registry.unbind = n.essence := by
  rw [Rule.surface, Rule.map_outline]
  exact Registry.outline_of_compileWithin (fun _ _ _ => Registry.unbind_surface_of_resolve) h

theorem visit_eq_iff_essence_eq (c : Compiler) (n₁ n₂ : Node) :
    (n₁.essence = n₂.essence → c.visit n₁ = c.visit n₂) ∧
      ∀ r₁ r₂, c.visit n₁ = .ok r₁ → c.visit n₂ = .ok r₂ →
        (r₁.surface = r₂.surface ↔ n₁.essence = n₂.essence) ∧
        (r₁ = r₂ ↔ n₁.essence = n₂.essence) := by
  refine ⟨visit_eq_of_essence_eq c, fun r₁ r₂ h₁ h₂ => ?_⟩
  have hessence (h : r₁.surface = r₂.surface) : n₁.essence = n₂.essence := by
    rw [← essence_of_visit h₁, h, essence_of_visit h₂]
  have hrule (h : n₁.essence = n₂.essence) : r₁ = r₂ := by
    have hvisit := visit_eq_of_essence_eq c h
    rw [h₁, h₂] at hvisit
    exact Except.ok.inj hvisit
  constructor
  · exact ⟨hessence, fun h => congrArg Rule.surface (hrule h)⟩
  · exact ⟨fun h => hessence (congrArg Rule.surface h), hrule⟩

theorem visit_eq_of_other_placeholders :
    let entry : Predicate :=
      ⟨⟨["low", "high", "input"], [.int 0], by decide⟩, "between?", [], by decide⟩
    let c := new (.insert .empty entry)
    let adult (keys : Option (List String)) (params : List Param) : Node :=
      .check "adult" keys (.predicate "between?" params)
    let n := adult none [.bound "high" (.int 9), .unbound "input"]
    let rule (value : Value) : Rule :=
      .check "adult" ["adult"] (.predicate { entry with bound := [value], fits := Nat.le_succ 2 })
    c.visit n = .ok (rule (.int 9)) ∧
      c.visit (adult (some ["adult"]) [.unbound "x", .bound "y" (.int 9), .unbound "z"]) =
        c.visit n ∧
      c.visit (adult none [.bound "high" (.int 8), .unbound "input"]) = .ok (rule (.int 8)) ∧
      rule (.int 9) ≠ rule (.int 8) := by
  intro entry c adult n rule
  have hnine : c.visit n = .ok (rule (.int 9)) := by cbv
  have height : c.visit (adult none [.bound "high" (.int 8), .unbound "input"]) =
      .ok (rule (.int 8)) := by cbv
  refine ⟨hnine, (visit_eq_iff_essence_eq c _ _).1 rfl, height, fun h => ?_⟩
  have hessence := ((visit_eq_iff_essence_eq c _ _).2 _ _ hnine height).2.mp h
  simp [n, adult, Node.essence, Node.outline, Param.given, Param.bound, Param.unbound] at hessence

end Compiler

end RuleLogic
