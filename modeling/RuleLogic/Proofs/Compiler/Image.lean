import RuleLogic.Proofs.Compiler.Assembly

namespace RuleLogic

namespace Rule

mutual

def leaves : Rule → List Predicate
  | .predicate p => [p]
  | .check _ _ rule => leaves rule
  | .focused _ _ rule => leaves rule
  | .modified _ rule => leaves rule
  | .set rules => leavesOfRules rules
  | .joined _ left right => leaves left ++ leaves right

def leavesOfRules : List Rule → List Predicate
  | [] => []
  | r :: rs => leaves r ++ leavesOfRules rs

end

theorem mem_leavesOfRules {p : Predicate} {rs : List Rule} :
    p ∈ leavesOfRules rs ↔ ∃ r ∈ rs, p ∈ r.leaves := by
  induction rs with
  | nil => simp [leavesOfRules]
  | cons r rs ih => rw [leavesOfRules, List.mem_append, ih, List.exists_mem_cons_iff]

theorem mem_leaves_iff {p : Predicate} {r : Rule} :
    p ∈ r.leaves ↔ r = .predicate p ∨ ∃ c ∈ r.children, p ∈ c.leaves := by
  cases r with
  | predicate q => simp [leaves, children, eq_comm]
  | set rules => simp [leaves, children, mem_leavesOfRules]
  | _ => simp [leaves, children]

def shape : Rule → Shape Rule
  | .predicate p => .predicate p.name p.writtenParams
  | .check name keys rule => .check name (some keys) rule
  | .focused scope name rule => .focused scope name rule
  | .modified modifier rule => .modified modifier rule
  | .set rules => .set rules
  | .joined connective left right => .joined connective left right

@[simp] theorem children_shape (r : Rule) : r.shape.children = r.children := by
  cases r <;> rfl

theorem shape_toNode (r : Rule) : r.toNode.shape = r.shape.map toNode := by
  cases r with
  | predicate p => rw [toNode, Predicate.toNode_eq]; rfl
  | set rules => rw [toNode, toNodes_eq_map]; rfl
  | _ => rfl

end Rule

namespace Registry

theorem assemble_shape {r : Registry} {rule : Rule}
    (h : ∀ p, rule = .predicate p → r.Offers p) : r.assemble rule.shape = .ok rule := by
  cases rule with
  | predicate p => exact resolve_writtenParams (h p rfl)
  | _ => rfl

theorem compileWithin_toNode {r : Registry} {limit room : Nat} {rule : Rule}
    (hdepth : rule.depth ≤ room) (hleaves : ∀ p ∈ rule.leaves, r.Offers p) :
    r.compileWithin limit room rule.toNode = .ok rule := by
  induction room generalizing rule with
  | zero => exact absurd hdepth (Nat.not_le.mpr rule.depth_pos)
  | succ room ih =>
    rw [compileWithin_succ_eq_ok_iff]
    refine ⟨rule.shape, ?_, ?_⟩
    · rw [Rule.shape_toNode, Shape.mapM_eq_ok_iff, Shape.frame_map, Shape.children_map,
        Rule.children_shape, Traversal.mapM_eq_ok_iff, List.forall₂_map_left_iff,
        List.forall₂_same]
      refine ⟨rfl, fun c hc => ih (Rule.depth_le_succ_iff.mp hdepth c hc) fun p hp => ?_⟩
      exact hleaves p (Rule.mem_leaves_iff.mpr (.inr ⟨c, hc, hp⟩))
    · exact assemble_shape fun p hp => hleaves p (Rule.mem_leaves_iff.mpr (.inl hp))

theorem offers_of_assemble {r : Registry} {s : Shape Rule} {p : Predicate}
    (h : r.assemble s = .ok (.predicate p)) : r.Offers p := by
  cases s with
  | predicate name params =>
    obtain ⟨q, ⟨⟩, hq⟩ := offers_of_resolve h
    exact hq
  | _ => cases h

theorem offers_of_mem_leaves {r : Registry} {limit room : Nat} {n : Node} {rule : Rule}
    (h : r.compileWithin limit room n = .ok rule) : ∀ p ∈ rule.leaves, r.Offers p := by
  induction room generalizing n rule with
  | zero => cases h
  | succ room ih =>
    intro p hp
    rcases Rule.mem_leaves_iff.mp hp with rfl | ⟨c, hc, hpc⟩
    · obtain ⟨s, _, hs⟩ := compileWithin_succ_eq_ok_iff.mp h
      exact offers_of_assemble hs
    · have hchildren := (forall₂_children_of_compileWithin h).flip
      obtain ⟨_, _, hcompiled⟩ := Traversal.exists_mem_of_forall₂ hchildren c hc
      exact ih hcompiled p hpc

end Registry

namespace Compiler

theorem admitted_of_visit {c : Compiler} {n : Node} {r : Rule} (h : c.visit n = .ok r) :
    r.depth ≤ c.maxDepth ∧ ∀ p ∈ r.leaves, c.registry.Offers p := by
  constructor
  · rw [Registry.depth_of_compileWithin h]
    exact Registry.depth_le_of_compileWithin h
  · exact Registry.offers_of_mem_leaves h

theorem visit_toNode (c : Compiler) (r : Rule) :
    (r.depth ≤ c.maxDepth ∧ (∀ p ∈ r.leaves, c.registry.Offers p) → c.visit r.toNode = .ok r) ∧
      (∀ n, c.visit n = .ok r →
        r.depth ≤ c.maxDepth ∧ ∀ p ∈ r.leaves, c.registry.Offers p) ∧
      ∀ n, c.visit n = .ok r → c.visit r.toNode = .ok r := by
  have hcompile (h : r.depth ≤ c.maxDepth ∧ ∀ p ∈ r.leaves, c.registry.Offers p) :
      c.visit r.toNode = .ok r :=
    Registry.compileWithin_toNode h.1 h.2
  refine ⟨hcompile, fun n h => admitted_of_visit h, fun n h => ?_⟩
  exact hcompile (admitted_of_visit h)

theorem visit_toNode_preset_nan :
    let nan : Value := .float (0.0 / 0.0)
    let entry : Predicate := ⟨⟨["left", "right"], [nan], by decide⟩, "eql?", [], by decide⟩
    let leaf : Predicate := { entry with bound := [nan], fits := by decide }
    let c := (new (.insert .empty entry)).withMaxDepth 2
    let node : Node := .key "age" (.predicate "eql?" [.bound "x" nan, .unbound "y"])
    let rule : Rule := .key "age" leaf
    let joined : Rule := .and entry leaf
    c.visit node = .ok rule ∧
      rule.toNode = .key "age" (.predicate "eql?" [.bound "right" nan, .unbound "rest"]) ∧
      c.visit rule.toNode = .ok rule ∧
      joined.depth ≤ c.maxDepth ∧ (∀ p ∈ joined.leaves, c.registry.Offers p) ∧
      c.visit joined.toNode = .ok joined ∧
      ∀ n, c.visit n ≠ .ok (.negation joined) := by
  intro nan entry leaf c node rule joined
  have hvisit : c.visit node = .ok rule := by cbv
  have hdepth : joined.depth ≤ c.maxDepth := by decide
  have hlookup : c.registry.lookup "eql?" = some entry := by cbv
  have hoffers : ∀ p ∈ joined.leaves, c.registry.Offers p := by
    rintro p (_ | ⟨_, _ | ⟨_, ⟨⟩⟩⟩)
    · exact ⟨entry, [], hlookup, rfl⟩
    · exact ⟨entry, [nan], hlookup, rfl⟩
  refine ⟨hvisit, rfl, (visit_toNode c rule).2.2 node hvisit, hdepth, hoffers,
    (visit_toNode c joined).1 ⟨hdepth, hoffers⟩, fun n h => ?_⟩
  exact absurd ((visit_toNode c (.negation joined)).2.1 n h).1 (by decide)

end Compiler

end RuleLogic
