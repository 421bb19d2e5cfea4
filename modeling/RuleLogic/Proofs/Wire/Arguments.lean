import RuleLogic.Proofs.Wire.RoundTrip

namespace RuleLogic

namespace Value

mutual

theorem toJson_of_ofJson? {j : Json} {v : Value} (h : ofJson? j = some v) : v.toJson = j := by
  cases j with
  | float x =>
    cases h
    rw [toJson, finite?, dif_pos x.property]
  | array items =>
    obtain ⟨vs, hvs, rfl⟩ := Option.map_eq_some_iff.mp h
    rw [toJson, itemsToJson_of_itemsOfJson? hvs]
  | object members => cases h
  | _ =>
    cases h
    rfl

theorem itemsToJson_of_itemsOfJson? {js : List Json} {vs : List Value}
    (h : itemsOfJson? js = some vs) : itemsToJson vs = js := by
  cases js with
  | nil =>
    cases h
    rfl
  | cons j js =>
    rw [itemsOfJson?] at h
    split at h
    · rename_i w ws hw hws
      cases h
      rw [itemsToJson, toJson_of_ofJson? hw, itemsToJson_of_itemsOfJson? hws]
    · cases h

end

end Value

namespace Param

theorem toJson_of_ofJson {predicate : String} {j : Json} {p : Param}
    (h : ofJson predicate j = .ok p) : p.toJson = j := by
  unfold ofJson at h
  split at h
  · cases h
    rfl
  · rename_i name value
    split at h
    · rename_i v hv
      cases h
      have hjson : toJson (bound name v) = .array [.str name, v.toJson] := rfl
      rw [hjson, Value.toJson_of_ofJson? hv]
    · cases h
  · cases h

theorem nullNonFinite_of_ofJson {predicate : String} {j : Json} {p : Param}
    (h : ofJson predicate j = .ok p) : ∀ v, p.value = some v → v.nullNonFinite = v := by
  intro v hv
  -- What was read is read again from what it is written as.
  have hagain := ofJson_toJson predicate p
  rw [toJson_of_ofJson h, h] at hagain
  have hvalue : p.value = p.value.map Value.nullNonFinite :=
    congrArg Param.value (Except.ok.inj hagain)
  rw [hv] at hvalue
  exact (Option.some.inj hvalue).symm

theorem mapArg_eq_self {f : Value → Value} {p : Param} (h : ∀ v, p.value = some v → f v = v) :
    p.mapArg f = p := by
  obtain ⟨name, value⟩ := p
  cases value with
  | none => rfl
  | some v =>
    have hv := h v rfl
    rw [mapArg, Option.map_some, hv]

end Param

namespace Shape

open Traversal

variable {α β : Type}

def args : Shape α → List Value
  | .predicate _ params => params.filterMap Param.value
  | _ => []

@[simp] theorem args_map (f : α → β) (s : Shape α) : (s.map f).args = s.args := by
  cases s <;> rfl

theorem args_eq_of_frame {s : Shape α} {t : Shape β} (h : s.frame = t.frame) : s.args = t.args :=
  calc
    s.args = s.frame.args := (args_map _ s).symm
    _ = t.frame.args := congrArg args h
    _ = t.args := args_map _ t

theorem mapArgs_eq_self {f : Value → Value} {s : Shape α} (h : ∀ v ∈ s.args, f v = v) :
    s.mapArgs f = s := by
  cases s with
  | predicate name params =>
    have hparams : ∀ p ∈ params, p.mapArg f = id p := fun p hp =>
      Param.mapArg_eq_self fun v hv => h v (List.mem_filterMap.mpr ⟨p, hp, hv⟩)
    rw [mapArgs, List.map_congr_left hparams, List.map_id]
  | _ => rfl

theorem nullNonFinite_of_mem_args {j : Json} {s : Shape Json} (h : ofJson j = .ok s) :
    ∀ v ∈ s.args, v.nullNonFinite = v := by
  intro v hv
  obtain ⟨tag, payload, _, hpayload⟩ := ofJson_eq_ok_iff.mp h
  unfold ofPayload at hpayload
  split at hpayload
  case h_1 =>
    obtain ⟨ps, hps, ⟨⟩⟩ := bind_eq_ok_iff.mp hpayload
    obtain ⟨p, hp, hpv⟩ := List.mem_filterMap.mp hv
    obtain ⟨item, _, hitem⟩ := exists_of_mem_of_mapM_eq_ok hps hp
    exact Param.nullNonFinite_of_ofJson hitem v hpv
  case h_4 =>
    obtain ⟨keys, _, ⟨⟩⟩ := bind_eq_ok_iff.mp hpayload
    cases hv
  all_goals cases hpayload <;> cases hv

end Shape

namespace Node

open Traversal

mutual

def args : Node → List Value
  | .predicate _ params => params.filterMap Param.value
  | .check _ _ body => args body
  | .focused _ _ body => args body
  | .modified _ body => args body
  | .set members => argsOfMembers members
  | .joined _ left right => args left ++ args right

def argsOfMembers : List Node → List Value
  | [] => []
  | n :: ns => args n ++ argsOfMembers ns

end

theorem mem_argsOfMembers {v : Value} {ns : List Node} :
    v ∈ argsOfMembers ns ↔ ∃ n ∈ ns, v ∈ n.args := by
  induction ns with
  | nil => simp [argsOfMembers]
  | cons n ns ih => rw [argsOfMembers, List.mem_append, ih, List.exists_mem_cons_iff]

theorem mem_args_iff {v : Value} {n : Node} :
    v ∈ n.args ↔ v ∈ n.shape.args ∨ ∃ c ∈ n.shape.children, v ∈ c.args := by
  cases n with
  | set members => simp [args, shape, Shape.args, Shape.children, mem_argsOfMembers]
  | _ => simp [args, shape, Shape.args, Shape.children]

theorem mapArgs_eq_self {f : Value → Value} {n : Node} (h : ∀ v ∈ n.args, f v = v) :
    n.mapArgs f = n := by
  induction n using Node.induction with
  | step n ih =>
    have hown : n.shape.mapArgs f = n.shape :=
      Shape.mapArgs_eq_self fun v hv => h v (mem_args_iff.mpr (.inl hv))
    have hchildren : ∀ c ∈ n.shape.children, c.mapArgs f = id c := fun c hc =>
      ih c hc fun v hv => h v (mem_args_iff.mpr (.inr ⟨c, hc, hv⟩))
    have hshape : (n.mapArgs f).shape = n.shape := by
      rw [shape_mapArgs, hown]
      apply Shape.eq_of_frame_of_children
      · rw [Shape.frame_map]
      · rw [Shape.children_map, List.map_congr_left hchildren, List.map_id]
    rw [← toNode_shape (n.mapArgs f), hshape, toNode_shape]

theorem nullNonFinite_of_mem_args {limit room : Nat} {j : Json} {n : Node}
    (h : ofJsonWithin limit room j = .ok n) : ∀ v ∈ n.args, v.nullNonFinite = v := by
  induction room generalizing j n with
  | zero => cases h
  | succ room ih =>
    intro v hv
    obtain ⟨s, hs, hn⟩ := ofJsonWithin_succ_eq_ok_iff.mp h
    obtain ⟨hframe, hchildren⟩ := Shape.mapM_eq_ok_iff.mp hn
    rcases mem_args_iff.mp hv with hown | ⟨c, hc, hvc⟩
    · rw [← Shape.args_eq_of_frame hframe] at hown
      exact Shape.nullNonFinite_of_mem_args hs v hown
    · obtain ⟨item, _, hitem⟩ := exists_of_mem_of_mapM_eq_ok hchildren hc
      exact ih hitem v hvc

end Node

namespace Document

open Traversal

theorem mapArgs_eq_self_of_ofJson {limit : Nat} {j : Json} {d : Document}
    (h : ofJson limit j = .ok d) : mapArgs Value.nullNonFinite d = d := by
  cases j with
  | array items =>
    have hnodes : ∀ n ∈ d, n.mapArgs Value.nullNonFinite = id n := by
      intro n hn
      obtain ⟨item, _, hitem⟩ := exists_of_mem_of_mapM_eq_ok h hn
      exact Node.mapArgs_eq_self (Node.nullNonFinite_of_mem_args hitem)
    rw [mapArgs, List.map_congr_left hnodes, List.map_id]
  | _ => cases h

end Document

end RuleLogic
