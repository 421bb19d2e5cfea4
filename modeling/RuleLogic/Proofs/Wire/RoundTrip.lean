import Mathlib.Order.Nat
import RuleLogic.Proofs.Wire.Limit

namespace RuleLogic

namespace Value

mutual

def nullNonFinite : Value → Value
  | .float x => if x.isFinite then .float x else .null
  | .list items => .list (nullNonFiniteItems items)
  | v => v

def nullNonFiniteItems : List Value → List Value
  | [] => []
  | v :: vs => nullNonFinite v :: nullNonFiniteItems vs

end

theorem nullNonFiniteItems_eq_map (vs : List Value) :
    nullNonFiniteItems vs = vs.map nullNonFinite := by
  induction vs with
  | nil => rfl
  | cons v vs ih => rw [nullNonFiniteItems, ih, List.map_cons]

mutual

theorem ofJson?_toJson (v : Value) : ofJson? v.toJson = some v.nullNonFinite := by
  cases v with
  | float x =>
    simp only [toJson, finite?, nullNonFinite]
    by_cases hx : x.isFinite = true
    · rw [dif_pos hx, if_pos hx]
      rfl
    · rw [dif_neg hx, if_neg hx]
      rfl
  | list items =>
    rw [toJson, ofJson?, itemsOfJson?_itemsToJson items]
    rfl
  | _ => rfl

theorem itemsOfJson?_itemsToJson (vs : List Value) :
    itemsOfJson? (itemsToJson vs) = some (nullNonFiniteItems vs) := by
  cases vs with
  | nil => rfl
  | cons v vs =>
    rw [itemsToJson, itemsOfJson?, ofJson?_toJson v, itemsOfJson?_itemsToJson vs]
    rfl

end

end Value

namespace Param

def mapArg (f : Value → Value) (p : Param) : Param := ⟨p.name, p.value.map f⟩

theorem ofJson_toJson (predicate : String) (p : Param) :
    ofJson predicate p.toJson = .ok (p.mapArg Value.nullNonFinite) := by
  obtain ⟨name, value⟩ := p
  cases value with
  | none => rfl
  | some v =>
    simp only [toJson, ofJson, Value.ofJson?_toJson]
    rfl

end Param

namespace Shape

open Traversal

variable {α β : Type}

def mapArgs (f : Value → Value) : Shape α → Shape α
  | .predicate name params => .predicate name (params.map (Param.mapArg f))
  | s => s

@[simp] theorem children_mapArgs (f : Value → Value) (s : Shape α) :
    (s.mapArgs f).children = s.children := by
  cases s <;> rfl

theorem map_mapArgs (f : Value → Value) (g : α → β) (s : Shape α) :
    (s.mapArgs f).map g = (s.map g).mapArgs f := by
  cases s <;> rfl

theorem ofJson_tagged (tag : Tag) (payload : Json) :
    ofJson (tagged tag payload) = ofPayload tag payload := by
  rw [ofJson, tagged, header_eq_ok_iff.mpr rfl]
  rfl

theorem ofJson_toJson (s : Shape Json) :
    ofJson s.toJson = .ok (s.mapArgs Value.nullNonFinite) := by
  cases s with
  | predicate name params =>
    have hparams := Traversal.mapM_map_eq_ok fun p (_ : p ∈ params) => Param.ofJson_toJson name p
    rw [toJson, ofJson_tagged, ofPayload, hparams]
    rfl
  | check name keys body =>
    cases keys with
    | none => exact ofJson_tagged .check _
    | some keys =>
      have hkeys := mapM_keyOfJson_eq_ok_iff.mpr (rfl : keys.map Json.str = keys.map Json.str)
      rw [toJson, ofJson_tagged, ofPayload, keysOfJson, hkeys]
      rfl
  | focused scope name body => exact ofJson_tagged (.scope scope) _
  | modified modifier body => exact ofJson_tagged (.modifier modifier) _
  | set members => exact ofJson_tagged .set _
  | joined connective left right => exact ofJson_tagged (.connective connective) _

end Shape

namespace Node

mutual

def mapArgs (f : Value → Value) : Node → Node
  | .predicate name params => .predicate name (params.map (Param.mapArg f))
  | .check name keys body => .check name keys (mapArgs f body)
  | .focused scope name body => .focused scope name (mapArgs f body)
  | .modified modifier body => .modified modifier (mapArgs f body)
  | .set members => .set (mapArgsOfMembers f members)
  | .joined connective left right => .joined connective (mapArgs f left) (mapArgs f right)

def mapArgsOfMembers (f : Value → Value) : List Node → List Node
  | [] => []
  | n :: ns => mapArgs f n :: mapArgsOfMembers f ns

end

theorem mapArgsOfMembers_eq_map (f : Value → Value) (ns : List Node) :
    mapArgsOfMembers f ns = ns.map (mapArgs f) := by
  induction ns with
  | nil => rfl
  | cons n ns ih => rw [mapArgsOfMembers, ih, List.map_cons]

theorem shape_mapArgs (f : Value → Value) (n : Node) :
    (n.mapArgs f).shape = (n.shape.mapArgs f).map (mapArgs f) := by
  cases n with
  | set members => rw [mapArgs, mapArgsOfMembers_eq_map]; rfl
  | _ => rfl

theorem depth_mapArgs (f : Value → Value) (n : Node) : (n.mapArgs f).depth = n.depth := by
  induction n using Node.induction with
  | step n ih =>
    refine depth_eq_of_le_succ_iff (depth_pos _) n.depth_pos fun k => ?_
    rw [depth_le_succ_iff, depth_le_succ_iff, shape_mapArgs, Shape.children_map,
      Shape.children_mapArgs, List.forall_mem_map]
    exact forall₂_congr fun c hc => by rw [ih c hc]

theorem ofJsonWithin_toJson {limit room : Nat} {n : Node} (h : n.depth ≤ room) :
    ofJsonWithin limit room n.toJson = .ok (n.mapArgs Value.nullNonFinite) := by
  induction room generalizing n with
  | zero => exact absurd h (Nat.not_le.mpr n.depth_pos)
  | succ room ih =>
    have hchildren := depth_le_succ_iff.mp h
    rw [ofJsonWithin_succ_eq_ok_iff]
    refine ⟨(n.shape.mapArgs Value.nullNonFinite).map toJson, ?_, ?_⟩
    · rw [toJson_eq, Shape.ofJson_toJson, Shape.map_mapArgs]
    · rw [shape_mapArgs]
      refine Shape.mapM_map_eq_ok fun c hc => ih (hchildren c ?_)
      rwa [Shape.children_mapArgs] at hc

end Node

namespace Document

def mapArgs (f : Value → Value) (d : Document) : Document := d.map (Node.mapArgs f)

theorem depth_mapArgs (f : Value → Value) (d : Document) : depth (mapArgs f d) = depth d := by
  refine eq_of_forall_ge_iff fun k => ?_
  rw [depth_le_iff, depth_le_iff, mapArgs, List.forall_mem_map]
  simp only [Node.depth_mapArgs]

theorem ofJson_toJson_of_depth_le {limit : Nat} {d : Document} (h : depth d ≤ limit) :
    ofJson limit (toJson d) = .ok (mapArgs Value.nullNonFinite d) :=
  Traversal.mapM_map_eq_ok fun n hn => Node.ofJsonWithin_toJson (depth_le_iff.mp h n hn)

theorem ofJson_toJson_eq_ite (limit : Nat) (d : Document) :
    ofJson limit (toJson d) =
      if depth d ≤ limit then .ok (mapArgs Value.nullNonFinite d)
      else .error (.depthLimitExceeded limit) := by
  have hnodes := depth_le_iff.mp (Nat.le_refl (depth d))
  have hread : ofJson (depth d) (toJson d) = .ok (mapArgs Value.nullNonFinite d) :=
    Traversal.mapM_map_eq_ok fun n hn => Node.ofJsonWithin_toJson (hnodes n hn)
  have hlimit := ofJson_eq_ite hread limit
  rwa [depth_mapArgs] at hlimit

example :
    ofJson 1 (toJson [.predicate "p?" [.bound "x" (.float (0.0 / 0.0)), .unbound "y"]]) =
      .ok [.predicate "p?" [.bound "x" .null, .unbound "y"]] := rfl

end Document

end RuleLogic
