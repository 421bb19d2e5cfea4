import RuleLogic.Proofs.Compiler.Assembly

namespace RuleLogic

def CompileError.deepen : CompileError → CompileError
  | .depthLimitExceeded limit => .depthLimitExceeded (limit + 1)
  | e => e

def Node.ruleOver : Node → List Rule → Option Rule
  | .check name keys _, [rule] => some (.check name (keys.getD [name]) rule)
  | .focused scope name _, [rule] => some (.focused scope name rule)
  | .modified modifier _, [rule] => some (.modified modifier rule)
  | .set _, rules => some (.set rules)
  | .joined connective _ _, [left, right] => some (.joined connective left right)
  | _, _ => none

namespace Registry

open Traversal

theorem mapError_deepen_assemble (r : Registry) (s : Shape Rule) :
    (r.assemble s).mapError .deepen = r.assemble s := by
  cases h : r.assemble s with
  | ok rule => rfl
  | error e =>
    cases e with
    | depthLimitExceeded limit => exact absurd h assemble_ne_depthLimitExceeded
    | _ => rfl

theorem compileWithin_deepen (r : Registry) (limit room : Nat) (n : Node) :
    r.compileWithin (limit + 1) room n = (r.compileWithin limit room n).mapError .deepen := by
  induction room generalizing n with
  | zero => rfl
  | succ room ih =>
    rw [compileWithin_succ, compileWithin_succ, bind_mapError, funext ih, Shape.mapM_mapError]
    simp only [mapError_deepen_assemble]

theorem assemble_eq_ruleOver (r : Registry) {n : Node} {s : Shape Rule} (hn : n.tag ≠ .predicate)
    (h : n.shape.frame = s.frame) :
    ∃ rule, n.ruleOver s.children = some rule ∧ r.assemble s = .ok rule := by
  cases n with
  | predicate name params => exact absurd rfl hn
  | set members =>
    cases s with
    | set rules => exact ⟨_, rfl, rfl⟩
    | _ => cases h
  | _ =>
    cases s <;> cases h
    exact ⟨_, rfl, rfl⟩

end Registry

namespace Compiler

open Traversal

theorem visit_predicate (c : Compiler) (name : String) (params : List Param) :
    c.visit (.predicate name params) = c.registry.resolve name params := by
  obtain ⟨room, hroom⟩ := Nat.exists_eq_succ_of_ne_zero (Nat.ne_of_gt c.maxDepth_pos)
  rw [visit, hroom, Registry.compileWithin]

variable {r : Registry} {depth : Nat} {hdepth : 0 < depth} {n : Node}

theorem visit_succ (r : Registry) (depth : Nat) (hdepth : 0 < depth) (n : Node) :
    visit ⟨r, depth + 1, Nat.succ_pos depth⟩ n =
      (n.shape.mapM (visit ⟨r, depth, hdepth⟩)).mapError .deepen >>= r.assemble := by
  rw [visit, Registry.compileWithin_succ, funext (r.compileWithin_deepen depth depth),
    Shape.mapM_mapError]
  rfl

theorem visit_succ_of_ok {s : Shape Rule} (hn : n.tag ≠ .predicate)
    (h : n.shape.mapM (visit ⟨r, depth, hdepth⟩) = .ok s) :
    ∃ rule, n.ruleOver s.children = some rule ∧
      visit ⟨r, depth + 1, Nat.succ_pos depth⟩ n = .ok rule := by
  obtain ⟨rule, hover, hassemble⟩ := r.assemble_eq_ruleOver hn (Shape.mapM_eq_ok_iff.mp h).1
  refine ⟨rule, hover, ?_⟩
  rw [visit_succ r depth hdepth, h]
  exact hassemble

theorem visit_succ_of_error {e : CompileError}
    (h : n.shape.mapM (visit ⟨r, depth, hdepth⟩) = .error e) :
    visit ⟨r, depth + 1, Nat.succ_pos depth⟩ n = .error e.deepen := by
  rw [visit_succ r depth hdepth, h]
  rfl

theorem visit_succ_eq_ok_iff (hn : n.tag ≠ .predicate) :
    (∃ rule, visit ⟨r, depth + 1, Nat.succ_pos depth⟩ n = .ok rule) ↔
      ∀ c ∈ n.shape.children, ∃ rule, visit ⟨r, depth, hdepth⟩ c = .ok rule := by
  rw [← Shape.exists_mapM_eq_ok_iff]
  constructor
  · rintro ⟨rule, hrule⟩
    cases h : n.shape.mapM (visit ⟨r, depth, hdepth⟩) with
    | ok s => exact ⟨s, rfl⟩
    | error e => cases hrule.symm.trans (visit_succ_of_error h)
  · rintro ⟨s, hs⟩
    obtain ⟨rule, _, hrule⟩ := visit_succ_of_ok hn hs
    exact ⟨rule, hrule⟩

theorem visit_succ_of_forall₂ (hn : n.tag ≠ .predicate) {rules : List Rule}
    (h : List.Forall₂ (fun c rule => visit ⟨r, depth, hdepth⟩ c = .ok rule) n.shape.children
      rules) :
    ∃ rule, n.ruleOver rules = some rule ∧
      visit ⟨r, depth + 1, Nat.succ_pos depth⟩ n = .ok rule := by
  have hchildren := mapM_eq_ok_iff.mpr h
  obtain ⟨s, hs⟩ := Shape.exists_mapM_eq_ok_iff.mpr (exists_mapM_eq_ok_iff.mp ⟨rules, hchildren⟩)
  have hrules : s.children = rules :=
    Except.ok.inj ((Shape.mapM_eq_ok_iff.mp hs).2.symm.trans hchildren)
  rw [← hrules]
  exact visit_succ_of_ok hn hs

theorem visit_succ_eq_error_iff (hn : n.tag ≠ .predicate) {e : CompileError} :
    visit ⟨r, depth + 1, Nat.succ_pos depth⟩ n = .error e ↔
      ∃ f, FailsFirst (visit ⟨r, depth, hdepth⟩) n.shape.children f ∧ e = f.deepen := by
  simp only [← mapM_eq_error_iff, ← Shape.mapM_eq_error_iff]
  constructor
  · intro he
    cases h : n.shape.mapM (visit ⟨r, depth, hdepth⟩) with
    | ok s =>
      obtain ⟨rule, _, hrule⟩ := visit_succ_of_ok hn h
      cases he.symm.trans hrule
    | error f => exact ⟨f, rfl, Except.error.inj (he.symm.trans (visit_succ_of_error h))⟩
  · rintro ⟨f, hf, rfl⟩
    exact visit_succ_of_error hf

theorem visit_over_children (r : Registry) (depth : Nat) (hdepth : 0 < depth) (n : Node) :
    let inner : Compiler := ⟨r, depth, hdepth⟩
    let outer : Compiler := ⟨r, depth + 1, Nat.succ_pos depth⟩
    (n.tag = .predicate → outer.visit n = inner.visit n) ∧
      (n.tag ≠ .predicate →
        ((∃ rule, outer.visit n = .ok rule) ↔
          ∀ c ∈ n.shape.children, ∃ rule, inner.visit c = .ok rule) ∧
        (∀ rules, List.Forall₂ (fun c rule => inner.visit c = .ok rule) n.shape.children rules →
          ∃ rule, n.ruleOver rules = some rule ∧ outer.visit n = .ok rule) ∧
        ∀ e, outer.visit n = .error e ↔
          ∃ f, FailsFirst inner.visit n.shape.children f ∧ e = f.deepen) := by
  intro inner outer
  refine ⟨fun hn => ?_, fun hn => ⟨?_, fun rules hrules => ?_, fun e => ?_⟩⟩
  · cases n with
    | predicate name params => rw [visit_predicate, visit_predicate]
    | _ => cases hn
  · exact visit_succ_eq_ok_iff hn
  · exact visit_succ_of_forall₂ hn hrules
  · exact visit_succ_eq_error_iff hn

theorem visit_over_children_at_limit :
    let r : Registry := .register .empty "gt?" ["num", "input"]
    let inner : Compiler := ⟨r, 2, by decide⟩
    let outer : Compiler := ⟨r, 3, by decide⟩
    let n : Node := .check "age" none (.predicate "gt?" [.bound "num" (.int 18), .unbound "input"])
    let rule : Rule :=
      .check "age" ["age"] (.predicate ⟨⟨["num", "input"], [], by decide⟩, "gt?", [.int 18],
        by decide⟩)
    inner.visit n = .ok rule ∧
      inner.visit (.not n) = .error (.depthLimitExceeded 2) ∧
      inner.visit (.implication n n) = .error (.depthLimitExceeded 2) ∧
      outer.visit (.implication n n) = .ok (.implication rule rule) ∧
      outer.visit (.implication n (.not n)) = .error (.depthLimitExceeded 3) := by
  intro r inner outer n rule
  have hn : inner.visit n = .ok rule := by cbv
  have hdeep : inner.visit (.not n) = .error (.depthLimitExceeded 2) := by cbv
  refine ⟨hn, hdeep, by cbv, ?_, ?_⟩
  · have hlayer := (visit_over_children r 2 (by decide) (.implication n n)).2 (by decide)
    obtain ⟨_, ⟨⟩, hvisit⟩ := hlayer.2.1 [rule, rule] (.cons hn (.cons hn .nil))
    exact hvisit
  · have hlayer := (visit_over_children r 2 (by decide) (.implication n (.not n))).2 (by decide)
    have hfirst : FailsFirst inner.visit [n, .not n] (.depthLimitExceeded 2) :=
      ⟨[n], .not n, [], rfl, List.forall_mem_singleton.mpr ⟨rule, hn⟩, hdeep⟩
    exact (hlayer.2.2 _).mpr ⟨_, hfirst, rfl⟩

end Compiler

end RuleLogic
