import RuleLogic.Proofs.Compiler.Image
import RuleLogic.Proofs.Compiler.Loading
import RuleLogic.Proofs.Wire.Arguments

namespace RuleLogic

namespace Predicate

def mapBound (f : Value → Value) (p : Predicate) : Predicate where
  toSignature := p.toSignature
  name := p.name
  bound := p.bound.map f
  fits := by
    rw [List.length_map]
    exact p.fits

@[simp] theorem bound_mapBound (f : Value → Value) (p : Predicate) :
    (p.mapBound f).bound = p.bound.map f :=
  rfl

theorem mapBound_of_bound_eq_nil {f : Value → Value} {p : Predicate} (h : p.bound = []) :
    p.mapBound f = p := by
  apply eq_of_signature
  · rfl
  · rfl
  · rw [bound_mapBound, h, List.map_nil]

theorem curry_mapBound {f : Value → Value} {p q : Predicate} {values : List Value}
    (h : p.curry values = .ok q) :
    (p.mapBound f).curry (values.map f) = .ok (q.mapBound f) := by
  obtain ⟨hs, hn, hb⟩ := curry_eq_ok_iff.mp h
  refine curry_eq_ok_iff.mpr ⟨hs, hn, ?_⟩
  rw [bound_mapBound, bound_mapBound, hb, List.map_append]

end Predicate

theorem Param.filterMap_mapArg (f : Value → Value) (params : List Param) :
    (params.map (mapArg f)).filterMap Param.value = (params.filterMap Param.value).map f := by
  rw [List.filterMap_map, List.map_filterMap]
  rfl

theorem Param.given_mapArg (f : Value → Value) (params : List Param) :
    given (params.map (mapArg f)) = (given params).map f := by
  rw [given, given, List.length_map, filterMap_mapArg, apply_ite (List.map f), List.map_nil]

theorem Shape.frame_mapArgs {α : Type} (f : Value → Value) (s : Shape α) :
    (s.mapArgs f).frame = s.frame.mapArgs f :=
  map_mapArgs f _ s

namespace Rule

mutual

def mapBound (f : Value → Value) : Rule → Rule
  | .predicate p => .predicate (p.mapBound f)
  | .check name keys rule => .check name keys (mapBound f rule)
  | .focused scope name rule => .focused scope name (mapBound f rule)
  | .modified modifier rule => .modified modifier (mapBound f rule)
  | .set rules => .set (mapBoundOfRules f rules)
  | .joined connective left right => .joined connective (mapBound f left) (mapBound f right)

def mapBoundOfRules (f : Value → Value) : List Rule → List Rule
  | [] => []
  | r :: rs => mapBound f r :: mapBoundOfRules f rs

end

theorem mapBoundOfRules_eq_map (f : Value → Value) (rs : List Rule) :
    mapBoundOfRules f rs = rs.map (mapBound f) := by
  induction rs with
  | nil => rfl
  | cons r rs ih => rw [mapBoundOfRules, ih, List.map_cons]

end Rule

namespace Registry

open Traversal

variable {r : Registry} {f : Value → Value}

theorem resolve_mapArg {name : String} {params : List Param} {rule : Rule}
    (h : r.resolve name params = .ok rule) :
    r.resolve name (params.map (Param.mapArg f)) = .ok (rule.mapBound f) := by
  rw [resolve_eq_apply, apply_eq_ok_iff] at h ⊢
  obtain ⟨entry, p, hlookup, hcurry, rfl⟩ := h
  have hmapped := Predicate.curry_mapBound (f := f) hcurry
  rw [Predicate.mapBound_of_bound_eq_nil (bound_eq_nil_of_lookup hlookup)] at hmapped
  rw [Param.given_mapArg]
  exact ⟨entry, _, hlookup, hmapped, rfl⟩

theorem assemble_mapArgs {s : Shape Rule} {rule : Rule} (h : r.assemble s = .ok rule) :
    r.assemble ((s.mapArgs f).map (Rule.mapBound f)) = .ok (rule.mapBound f) := by
  cases s with
  | predicate name params => exact resolve_mapArg h
  | set rules =>
    cases h
    rw [Rule.mapBound, Rule.mapBoundOfRules_eq_map]
    rfl
  | _ =>
    cases h
    rfl

theorem compileWithin_mapArgs {limit room : Nat} {n : Node} {rule : Rule}
    (h : r.compileWithin limit room n = .ok rule) :
    r.compileWithin limit room (n.mapArgs f) = .ok (rule.mapBound f) := by
  induction room generalizing n rule with
  | zero => cases h
  | succ room ih =>
    obtain ⟨s, hs, hrule⟩ := compileWithin_succ_eq_ok_iff.mp h
    obtain ⟨hframe, hchildren⟩ := Shape.mapM_eq_ok_iff.mp hs
    refine compileWithin_succ_eq_ok_iff.mpr ⟨_, ?_, assemble_mapArgs hrule⟩
    rw [Node.shape_mapArgs, Shape.mapM_eq_ok_iff]
    constructor
    · rw [Shape.frame_map, Shape.frame_map, Shape.frame_mapArgs, Shape.frame_mapArgs, hframe]
    · rw [Shape.children_map, Shape.children_map, Shape.children_mapArgs, Shape.children_mapArgs]
      have hall := Traversal.mapM_eq_ok_iff.mp hchildren
      rw [Traversal.mapM_eq_ok_iff, List.forall₂_map_left_iff, List.forall₂_map_right_iff]
      exact hall.imp fun _ _ hc => ih hc

theorem preset_of_offers {p : Predicate} (h : r.Offers p) :
    ∃ entry, r.lookup p.name = some entry ∧ p.preset = entry.args := by
  obtain ⟨entry, values, hlookup, hcurry⟩ := h
  obtain ⟨hs, _, _⟩ := Predicate.curry_eq_ok_iff.mp hcurry
  refine ⟨entry, hlookup, ?_⟩
  rw [Predicate.args, bound_eq_nil_of_lookup hlookup, List.append_nil, hs]

end Registry

namespace Compiler

open Traversal

variable {c : Compiler} {d : Document} {rs : List Rule}

theorem compile_mapArgs (f : Value → Value) (h : c.compile d = .ok rs) :
    c.compile (Document.mapArgs f d) = .ok (rs.map (Rule.mapBound f)) := by
  have hall := mapM_eq_ok_iff.mp h
  rw [compile, Document.mapArgs, mapM_eq_ok_iff, List.forall₂_map_left_iff,
    List.forall₂_map_right_iff]
  exact hall.imp fun _ _ hn => Registry.compileWithin_mapArgs hn

theorem compile_toNode (h : c.compile d = .ok rs) : c.compile (rs.map Rule.toNode) = .ok rs := by
  have hrules : ∀ r ∈ rs, c.visit r.toNode = .ok (id r) := by
    intro r hr
    obtain ⟨n, _, hn⟩ := exists_of_mem_of_mapM_eq_ok h hr
    obtain ⟨hdepth, hleaves⟩ := admitted_of_visit hn
    exact Registry.compileWithin_toNode hdepth hleaves
  have hall := mapM_map_eq_ok hrules
  rwa [List.map_id] at hall

theorem compileJson_of_compile (h : c.compile d = .ok rs) :
    c.compileJson (Document.toJson (rs.map Rule.toNode)) =
      .ok (rs.map (Rule.mapBound Value.nullNonFinite)) := by
  have hnodes := compile_toNode h
  have hread := Document.ofJson_toJson_of_depth_le (depth_le_of_compile hnodes)
  rw [compileJson_of_ok hread, compile_mapArgs Value.nullNonFinite hnodes]
  rfl

theorem mapBound_eq_self_of_compileJson {j : Json} (h : c.compileJson j = .ok rs) :
    rs.map (Rule.mapBound Value.nullNonFinite) = rs := by
  obtain ⟨d, hread, hcompile⟩ := compileJson_eq_ok_iff.mp h
  have hmapped := compile_mapArgs Value.nullNonFinite hcompile
  rw [Document.mapArgs_eq_self_of_ofJson hread, hcompile] at hmapped
  exact (Except.ok.inj hmapped).symm

theorem compileJson_toJson_toNode (c : Compiler) (rs : List Rule) :
    (∀ d, c.compile d = .ok rs →
      (∀ r ∈ rs, ∀ p ∈ r.leaves,
        ∃ entry, c.registry.lookup p.name = some entry ∧ p.preset = entry.args) ∧
      c.compileJson (Document.toJson (rs.map Rule.toNode)) =
        .ok (rs.map (Rule.mapBound Value.nullNonFinite))) ∧
    ∀ j, c.compileJson j = .ok rs →
      c.compileJson (Document.toJson (rs.map Rule.toNode)) = .ok rs := by
  constructor
  · intro d h
    refine ⟨?_, compileJson_of_compile h⟩
    intro r hr p hp
    obtain ⟨n, _, hn⟩ := exists_of_mem_of_mapM_eq_ok h hr
    exact Registry.preset_of_offers ((admitted_of_visit hn).2 p hp)
  · intro j h
    obtain ⟨d, _, hcompile⟩ := compileJson_eq_ok_iff.mp h
    rw [compileJson_of_compile hcompile, mapBound_eq_self_of_compileJson h]

theorem compileJson_stored_infinity :
    let infinity : Value := .float (1.0 / 0.0)
    let entry : Predicate :=
      ⟨⟨["least", "most", "input"], [infinity], by decide⟩, "p?", [], by decide⟩
    let leaf (v : Value) : Predicate := { entry with bound := [v], fits := Nat.le_succ 2 }
    let c := new (.insert .empty entry)
    let d : Document := [.predicate "p?" [.bound "most" (.list [infinity]), .unbound "input"]]
    let stored (v : Value) : Json := Document.toJson [(leaf v).toNode]
    c.compile d = .ok [leaf (.list [infinity])] ∧
      c.compileJson (stored (.list [infinity])) = .ok [leaf (.list [.null])] ∧
      c.compileJson (stored (.list [.null])) = .ok [leaf (.list [.null])] := by
  intro infinity entry leaf c d stored
  have hcompile : c.compile d = .ok [leaf (.list [infinity])] := by cbv
  have hstored := ((compileJson_toJson_toNode c _).1 d hcompile).2
  exact ⟨hcompile, hstored, (compileJson_toJson_toNode c _).2 _ hstored⟩

end Compiler

end RuleLogic
