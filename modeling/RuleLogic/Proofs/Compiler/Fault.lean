import RuleLogic.Proofs.Compiler.Assembly

namespace RuleLogic

namespace Node

mutual

def parts (depth : Nat) : Node → List (Nat × Node)
  | .predicate name params => [(depth, .predicate name params)]
  | .check name keys body => (depth, .check name keys body) :: parts (depth + 1) body
  | .focused scope name body => (depth, .focused scope name body) :: parts (depth + 1) body
  | .modified modifier body => (depth, .modified modifier body) :: parts (depth + 1) body
  | .set members => (depth, .set members) :: partsOfMembers (depth + 1) members
  | .joined connective left right =>
    (depth, .joined connective left right) :: (parts (depth + 1) left ++ parts (depth + 1) right)

def partsOfMembers (depth : Nat) : List Node → List (Nat × Node)
  | [] => []
  | n :: ns => parts depth n ++ partsOfMembers depth ns

end

theorem partsOfMembers_eq_flatMap (depth : Nat) (ns : List Node) :
    partsOfMembers depth ns = ns.flatMap (parts depth) := by
  induction ns with
  | nil => rfl
  | cons n ns ih => rw [partsOfMembers, ih, List.flatMap_cons]

theorem parts_eq (depth : Nat) (n : Node) :
    n.parts depth = (depth, n) :: n.shape.children.flatMap (parts (depth + 1)) := by
  cases n with
  | set members => rw [parts, partsOfMembers_eq_flatMap]; rfl
  | _ => simp [parts, shape, Shape.children]

theorem mem_parts_iff {depth : Nat} {n : Node} {part : Nat × Node} :
    part ∈ n.parts depth ↔
      part = (depth, n) ∨ ∃ c ∈ n.shape.children, part ∈ c.parts (depth + 1) := by
  rw [parts_eq, List.mem_cons, List.mem_flatMap]

end Node

def Document.parts (d : Document) : List (Nat × Node) := d.flatMap (Node.parts 1)

theorem Predicate.failure?_curry (p : Predicate) (values : List Value) :
    Traversal.failure? (p.curry values) =
      if p.arity < p.args.length + values.length then
        some ⟨p.name, p.arity, p.args.length + values.length⟩
      else none := by
  have hlength : p.preset.length + (p.bound ++ values).length = p.args.length + values.length := by
    rw [args, List.length_append, List.length_append, Nat.add_assoc]
  rw [curry, arity, ← hlength]
  by_cases hfits : p.preset.length + (p.bound ++ values).length ≤ p.params.length
  · rw [dif_pos hfits, if_neg (Nat.not_lt.mpr hfits)]
    rfl
  · rw [dif_neg hfits, if_pos (Nat.lt_of_not_le hfits), hlength, ← List.length_append]
    rfl

namespace Registry

open Traversal

def ownFault? (r : Registry) : Node → Option CompileError
  | .predicate name params =>
    match r.lookup name with
    | none => some (.unknownPredicate name)
    | some entry =>
      let given := entry.args.length + params.countP fun p => p.value.isSome
      if 2 ≤ params.length ∧ entry.arity < given then
        some (.arityMismatch ⟨name, entry.arity, given⟩)
      else none
  | _ => none

def fault? (r : Registry) (limit : Nat) : Nat × Node → Option CompileError
  | (depth, n) =>
    if depth ≤ limit then r.ownFault? n
    -- Nothing is looked at below the first part that is too deep.
    else if depth = limit + 1 then some (.depthLimitExceeded limit)
    else none

theorem fault?_of_depth_le {r : Registry} {limit depth : Nat} (h : depth ≤ limit) (n : Node) :
    r.fault? limit (depth, n) = r.ownFault? n :=
  if_pos h

theorem failure?_resolve (r : Registry) (name : String) (params : List Param) :
    failure? (r.resolve name params) = r.ownFault? (.predicate name params) := by
  rw [resolve, ownFault?]
  cases hlookup : r.lookup name with
  | none => rfl
  | some entry =>
    dsimp only
    by_cases hlone : params.length ≤ 1
    · rw [if_pos hlone, if_neg fun h => absurd h.1 (Nat.not_le.mpr (Nat.lt_succ_of_le hlone))]
      rfl
    · have hmany : 2 ≤ params.length := Nat.lt_of_not_le hlone
      rw [if_neg hlone, failure?_mapError, failure?_map, Predicate.failure?_curry,
        List.length_filterMap_eq_countP, name_of_lookup hlookup]
      simp only [hmany, true_and]
      split <;> rfl

theorem ownFault?_of_fault? {r : Registry} {limit depth : Nat} {n : Node} {m : ArityMismatch}
    (h : r.fault? limit (depth, n) = some (.arityMismatch m)) :
    depth ≤ limit ∧ r.ownFault? n = some (.arityMismatch m) := by
  rw [fault?] at h
  split at h
  · exact ⟨‹_›, h⟩
  · split at h <;> cases h

theorem exists_params_of_ownFault? {r : Registry} {n : Node} {m : ArityMismatch}
    (h : r.ownFault? n = some (.arityMismatch m)) :
    ∃ params, n = .predicate m.predicate params ∧ 2 ≤ params.length := by
  unfold ownFault? at h
  split at h
  · rename_i name params
    split at h
    · cases h
    · dsimp only at h
      split at h
      · rename_i hmany
        cases h
        exact ⟨params, rfl, hmany.1⟩
      · cases h
  · cases h

theorem failure?_assemble {r : Registry} {n : Node} {s : Shape Rule}
    (h : n.shape.frame = s.frame) : failure? (r.assemble s) = r.ownFault? n := by
  cases n with
  | predicate name params =>
    cases s with
    | predicate name params =>
      cases h
      exact r.failure?_resolve name params
    | _ => cases h
  | _ =>
    cases s with
    | predicate name params => cases h
    | _ => rfl

theorem failure?_compileWithin_succ (r : Registry) (limit room : Nat) (n : Node) :
    failure? (r.compileWithin limit (room + 1) n) =
      (r.ownFault? n).or
        (n.shape.children.findSome? fun c => failure? (r.compileWithin limit room c)) := by
  rw [compileWithin_succ, ← Shape.failure?_mapM]
  cases hs : n.shape.mapM (r.compileWithin limit room) with
  | error e =>
    -- Children are compiled first, but a node that has any is not wrong itself.
    cases n with
    | predicate name params => cases hs
    | _ => rfl
  | ok s =>
    rw [← failure?_assemble (Shape.mapM_eq_ok_iff.mp hs).1]
    exact Option.or_none.symm

theorem failure?_compileWithin {r : Registry} {limit depth room : Nat} {n : Node}
    (hroom : depth + room = limit + 1) :
    failure? (r.compileWithin limit room n) = (n.parts depth).findSome? (r.fault? limit) := by
  induction room generalizing depth n with
  | zero =>
    have hdeep : r.fault? limit (depth, n) = some (.depthLimitExceeded limit) := by
      rw [fault?, if_neg (by omega), if_pos (by omega)]
    rw [Node.parts_eq, List.findSome?_cons, hdeep]
    rfl
  | succ room ih =>
    have hdepth : depth ≤ limit := by omega
    have hnext : depth + 1 + room = limit + 1 := by omega
    rw [failure?_compileWithin_succ, Node.parts_eq, findSome?_preorder,
      fault?_of_depth_le hdepth]
    simp only [ih hnext]

end Registry

namespace Compiler

open Traversal

def faults (c : Compiler) (d : Document) : List CompileError :=
  d.parts.filterMap (c.registry.fault? c.maxDepth)

theorem failure?_visit (c : Compiler) (n : Node) :
    failure? (c.visit n) = (n.parts 1).findSome? (c.registry.fault? c.maxDepth) :=
  Registry.failure?_compileWithin (Nat.add_comm 1 c.maxDepth)

theorem failure?_compile (c : Compiler) (d : Document) :
    failure? (c.compile d) = (c.faults d).head? := by
  rw [faults, List.head?_filterMap, Document.parts, findSome?_flatMap, compile, failure?_mapM]
  simp only [failure?_visit]

theorem exists_part_of_arityMismatch {c : Compiler} {d : Document} {m : ArityMismatch}
    (h : .arityMismatch m ∈ c.faults d) :
    ∃ depth params, (depth, Node.predicate m.predicate params) ∈ d.parts ∧
      depth ≤ c.maxDepth ∧ 2 ≤ params.length ∧
        c.visit (.predicate m.predicate params) = .error (.arityMismatch m) := by
  obtain ⟨⟨depth, n⟩, hpart, hfault⟩ := List.mem_filterMap.mp h
  obtain ⟨hdepth, hown⟩ := Registry.ownFault?_of_fault? hfault
  obtain ⟨params, rfl, hmany⟩ := Registry.exists_params_of_ownFault? hown
  refine ⟨depth, params, hpart, hdepth, hmany, ?_⟩
  rw [← failure?_eq_some_iff, failure?_visit, Node.parts, List.findSome?_singleton,
    Registry.fault?_of_depth_le c.maxDepth_pos, hown]

theorem compile_eq_first_fault (c : Compiler) (d : Document) :
    ((∃ rs, c.compile d = .ok rs) ↔ c.faults d = []) ∧
      (∀ rs, c.compile d = .ok rs → rs.length = d.length ∧
        ∀ i (hd : i < d.length) (hr : i < rs.length), c.visit d[i] = .ok rs[i]) ∧
      (∀ e, c.compile d = .error e ↔ (c.faults d).head? = some e) ∧
      ∀ m, c.compile d = .error (.arityMismatch m) →
        ∃ depth params, (depth, Node.predicate m.predicate params) ∈ d.parts ∧
          depth ≤ c.maxDepth ∧ 2 ≤ params.length ∧
            c.visit (.predicate m.predicate params) = .error (.arityMismatch m) := by
  have herror (e : CompileError) : c.compile d = .error e ↔ (c.faults d).head? = some e := by
    rw [← failure?_compile, failure?_eq_some_iff]
  refine ⟨?_, ?_, herror, fun m hm => ?_⟩
  · rw [← failure?_eq_none_iff, failure?_compile, List.head?_eq_none_iff]
  · intro rs hrs
    obtain ⟨hlength, hvisit⟩ := List.forall₂_iff_get.mp (mapM_eq_ok_iff.mp hrs)
    exact ⟨hlength.symm, hvisit⟩
  · exact exists_part_of_arityMismatch (List.mem_of_head? ((herror _).mp hm))

theorem compile_eq_first_fault_by_depth :
    let c (depth : Nat) := (new (.register .empty "gt?" ["num", "input"])).withMaxDepth depth
    let mismatch : ArityMismatch := ⟨"gt?", 2, 3⟩
    let excess : Node := .predicate "gt?" [.bound "a" .null, .bound "b" .null, .bound "c" .null]
    let d : Document := [.and (.not excess) excess, .predicate "nope?" []]
    let fine : Document := [.set [], .predicate "gt?" [.bound "a" .null]]
    let entry : Predicate := .new "gt?" ["num", "input"]
    (c 2).faults d =
        [.depthLimitExceeded 2, .arityMismatch mismatch, .unknownPredicate "nope?"] ∧
      (c 2).compile d = .error (.depthLimitExceeded 2) ∧
      (c 3).faults d =
        [.arityMismatch mismatch, .arityMismatch mismatch, .unknownPredicate "nope?"] ∧
      (c 3).compile d = .error (.arityMismatch mismatch) ∧
      (∃ depth params, (depth, .predicate "gt?" params) ∈ d.parts ∧ depth ≤ 3 ∧
        2 ≤ params.length ∧
        (c 3).visit (.predicate "gt?" params) = .error (.arityMismatch mismatch)) ∧
      (c 1).faults fine = [] ∧ (c 1).compile fine = .ok [.set [], .predicate entry] ∧
      (c 1).visit (.predicate "gt?" [.bound "a" .null]) = .ok entry := by
  intro c mismatch excess d fine entry
  have hdeep : (c 2).faults d =
      [.depthLimitExceeded 2, .arityMismatch mismatch, .unknownPredicate "nope?"] := by cbv
  have hlevel : (c 3).faults d =
      [.arityMismatch mismatch, .arityMismatch mismatch, .unknownPredicate "nope?"] := by cbv
  have hfine : (c 1).compile fine = .ok [.set [], .predicate entry] := by cbv
  obtain ⟨_, _, hfirst, _⟩ := compile_eq_first_fault (c 2) d
  obtain ⟨_, _, hfirst', harity⟩ := compile_eq_first_fault (c 3) d
  obtain ⟨hok, hvisit, _, _⟩ := compile_eq_first_fault (c 1) fine
  have hmismatch := (hfirst' _).mpr (congrArg List.head? hlevel)
  exact ⟨hdeep, (hfirst _).mpr (congrArg List.head? hdeep), hlevel, hmismatch,
    harity mismatch hmismatch, hok.mp ⟨_, hfine⟩, hfine,
    (hvisit _ hfine).2 1 (by decide) (by decide)⟩

end Compiler

end RuleLogic
