import RuleLogic.Proofs.Compiler.Binding
import RuleLogic.Proofs.Depth

namespace RuleLogic

namespace Registry

open Traversal

def assemble (r : Registry) : Shape Rule → Except CompileError Rule
  | .predicate name params => r.resolve name params
  | .check name keys body => .ok (.check name (keys.getD [name]) body)
  | .focused scope name body => .ok (.focused scope name body)
  | .modified modifier body => .ok (.modified modifier body)
  | .set members => .ok (.set members)
  | .joined connective left right => .ok (.joined connective left right)

theorem compileWithin_succ (r : Registry) (limit room : Nat) (n : Node) :
    r.compileWithin limit (room + 1) n =
      n.shape.mapM (r.compileWithin limit room) >>= r.assemble := by
  cases n with
  | predicate name params => rfl
  | _ =>
    simp only [compileWithin, Node.shape, Shape.mapM, bind_assoc]
    rfl

theorem children_of_assemble {r : Registry} {s : Shape Rule} {rule : Rule}
    (h : r.assemble s = .ok rule) : rule.children = s.children := by
  cases s with
  | predicate name params =>
    obtain ⟨p, rfl, _⟩ := offers_of_resolve h
    rfl
  | _ =>
    cases h
    rfl

theorem assemble_ne_depthLimitExceeded {r : Registry} {s : Shape Rule} {limit : Nat} :
    r.assemble s ≠ .error (.depthLimitExceeded limit) := by
  cases s with
  | predicate name params => exact resolve_ne_depthLimitExceeded
  | _ => rintro ⟨⟩

theorem compileWithin_succ_eq_ok_iff {r : Registry} {limit room : Nat} {n : Node} {rule : Rule} :
    r.compileWithin limit (room + 1) n = .ok rule ↔
      ∃ s, n.shape.mapM (r.compileWithin limit room) = .ok s ∧ r.assemble s = .ok rule := by
  rw [compileWithin_succ, bind_eq_ok_iff]

theorem forall₂_children_of_compileWithin {r : Registry} {limit room : Nat} {n : Node}
    {rule : Rule} (h : r.compileWithin limit (room + 1) n = .ok rule) :
    List.Forall₂ (fun m rule => r.compileWithin limit room m = .ok rule)
      n.shape.children rule.children := by
  obtain ⟨s, hs, hrule⟩ := compileWithin_succ_eq_ok_iff.mp h
  rw [children_of_assemble hrule]
  exact Traversal.mapM_eq_ok_iff.mp (Shape.mapM_eq_ok_iff.mp hs).2

theorem depth_le_of_compileWithin {r : Registry} {limit room : Nat} {n : Node} {rule : Rule}
    (h : r.compileWithin limit room n = .ok rule) : n.depth ≤ room := by
  induction room generalizing n rule with
  | zero => cases h
  | succ room ih =>
    rw [Node.depth_le_succ_iff]
    intro c hc
    obtain ⟨_, _, hrule⟩ := exists_mem_of_forall₂ (forall₂_children_of_compileWithin h) c hc
    exact ih hrule

theorem depth_of_compileWithin {r : Registry} {limit room : Nat} {n : Node} {rule : Rule}
    (h : r.compileWithin limit room n = .ok rule) : rule.depth = n.depth := by
  induction room generalizing n rule with
  | zero => cases h
  | succ room ih =>
    refine depth_eq_of_le_succ_iff rule.depth_pos n.depth_pos fun k => ?_
    rw [Rule.depth_le_succ_iff, Node.depth_le_succ_iff]
    have hchildren := forall₂_children_of_compileWithin h
    have hdepths : List.Forall₂ (fun m rule => m.depth ≤ k ↔ rule.depth ≤ k)
        n.shape.children rule.children := hchildren.imp fun _ _ hc => by rw [ih hc]
    exact (forall_mem_congr_of_forall₂ hdepths).symm

theorem exists_child_of_depthLimitExceeded {r : Registry} {limit limit' room : Nat} {n : Node}
    (h : r.compileWithin limit (room + 1) n = .error (.depthLimitExceeded limit')) :
    ∃ c ∈ n.shape.children, r.compileWithin limit room c = .error (.depthLimitExceeded limit') := by
  rw [compileWithin_succ] at h
  rcases bind_eq_error_iff.mp h with hm | ⟨s, _, hs⟩
  · exact exists_of_mapM_eq_error (Shape.mapM_eq_error_iff.mp hm)
  · exact absurd hs assemble_ne_depthLimitExceeded

theorem compileWithin_ne_depthLimitExceeded {r : Registry} {limit limit' room : Nat} {n : Node}
    (h : n.depth ≤ room) : r.compileWithin limit room n ≠ .error (.depthLimitExceeded limit') := by
  induction room generalizing n with
  | zero => exact absurd h (Nat.not_le.mpr n.depth_pos)
  | succ room ih =>
    intro he
    obtain ⟨c, hc, hce⟩ := exists_child_of_depthLimitExceeded he
    exact ih (Node.depth_le_succ_iff.mp h c hc) hce

end Registry

end RuleLogic
