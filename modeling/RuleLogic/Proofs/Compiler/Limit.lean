import RuleLogic.Proofs.Compiler.Loading

namespace RuleLogic

namespace Registry

theorem limit_eq_of_depthLimitExceeded {r : Registry} {limit limit' room : Nat} {n : Node}
    (h : r.compileWithin limit room n = .error (.depthLimitExceeded limit')) : limit' = limit := by
  induction room generalizing n with
  | zero =>
    cases h
    rfl
  | succ room ih =>
    obtain ⟨c, _, hce⟩ := exists_child_of_depthLimitExceeded h
    exact ih hce

theorem compileWithin_cut {r : Registry} {limit limit' room room' : Nat} (h : room ≤ room')
    (n : Node) :
    r.compileWithin limit room n = .error (.depthLimitExceeded limit) ∨
      r.compileWithin limit room n = r.compileWithin limit' room' n := by
  induction room generalizing room' n with
  | zero => exact .inl rfl
  | succ room ih =>
    obtain ⟨room', rfl⟩ := Nat.exists_eq_add_of_le' (Nat.lt_of_lt_of_le (Nat.succ_pos room) h)
    have hle := Nat.le_of_succ_le_succ h
    rw [compileWithin_succ, compileWithin_succ]
    rcases Shape.mapM_cut fun c (_ : c ∈ n.shape.children) => ih hle c with hcut | heq
    · rw [hcut]
      exact .inl rfl
    · rw [heq]
      exact .inr rfl

end Registry

namespace Compiler

open Traversal

variable {c c' : Compiler}

theorem visit_cut (hr : c.registry = c'.registry) (h : c.maxDepth ≤ c'.maxDepth) (n : Node) :
    c.visit n = .error (.depthLimitExceeded c.maxDepth) ∨ c.visit n = c'.visit n := by
  rw [visit, visit, hr]
  exact Registry.compileWithin_cut h n

theorem visit_isCut (hr : c.registry = c'.registry) (h : c.maxDepth ≤ c'.maxDepth) (n : Node) :
    IsCut (.depthLimitExceeded c.maxDepth) (.depthLimitExceeded c'.maxDepth) (c.visit n)
      (c'.visit n) :=
  isCut_of_cut (visit_cut hr h n) fun he => by rw [Registry.limit_eq_of_depthLimitExceeded he]

theorem compile_isCut (hr : c.registry = c'.registry) (h : c.maxDepth ≤ c'.maxDepth)
    (d : Document) :
    IsCut (.depthLimitExceeded c.maxDepth) (.depthLimitExceeded c'.maxDepth) (c.compile d)
      (c'.compile d) := by
  refine isCut_of_cut (Traversal.mapM_cut fun n _ => visit_cut hr h n) fun he => ?_
  obtain ⟨n, _, hn⟩ := exists_of_mapM_eq_error he
  rw [Registry.limit_eq_of_depthLimitExceeded hn]

theorem limit_only_cuts :
    (∀ (j : Json) (limit limit' : Nat), limit ≤ limit' →
      IsCut (.depthLimitExceeded limit) (.depthLimitExceeded limit') (Document.ofJson limit j)
        (Document.ofJson limit' j)) ∧
      (∀ c c' : Compiler, c.registry = c'.registry → c.maxDepth ≤ c'.maxDepth →
        (∀ n, IsCut (.depthLimitExceeded c.maxDepth) (.depthLimitExceeded c'.maxDepth) (c.visit n)
          (c'.visit n)) ∧
        ∀ d, IsCut (.depthLimitExceeded c.maxDepth) (.depthLimitExceeded c'.maxDepth) (c.compile d)
          (c'.compile d)) ∧
      (∀ (j : Json) (limit limit' : Nat), j.nesting ≤ limit →
        Document.ofJson limit j ≠ .error (.depthLimitExceeded limit')) ∧
      ∀ (c : Compiler) (d : Document) (limit : Nat), Document.depth d ≤ c.maxDepth →
        c.compile d ≠ .error (.depthLimitExceeded limit) := by
  refine ⟨?_, ?_, ?_, ?_⟩
  · exact fun j limit limit' h => Document.ofJson_isCut h j
  · exact fun c c' hr h => ⟨visit_isCut hr h, compile_isCut hr h⟩
  · exact fun j limit limit' h => Document.ofJson_ne_depthLimitExceeded h
  · exact fun c d limit h => compile_ne_depthLimitExceeded h limit

theorem limit_only_cuts_before_fault :
    let j : Json :=
      .array [.array [.str "not", .array [.str "set", .array []]], .array [.str "nope", .null]]
    let d : Document := [.not (.set []), .predicate "nope?" []]
    let c (depth : Nat) : Compiler := (new .empty).withMaxDepth depth
    2 ≤ 128 ∧ (c 2).registry = (c 128).registry ∧ (c 2).maxDepth ≤ (c 128).maxDepth ∧
      Document.depth d ≤ (c 2).maxDepth ∧
      Document.ofJson 1 j = .error (.depthLimitExceeded 1) ∧
      Document.ofJson 2 j = .error (.unknownTag "nope") ∧
      Document.ofJson 128 j = .error (.unknownTag "nope") ∧
      (c 1).compile d = .error (.depthLimitExceeded 1) ∧
      (c 2).compile d = .error (.unknownPredicate "nope?") ∧
      (c 128).compile d = .error (.unknownPredicate "nope?") ∧
      (c 2).compile d ≠ .error (.depthLimitExceeded 2) := by
  intro j d c
  have hread : Document.ofJson 2 j = .error (.unknownTag "nope") := rfl
  have hcompile : (c 2).compile d = .error (.unknownPredicate "nope?") := by cbv
  have hdepth : Document.depth d ≤ (c 2).maxDepth := by decide
  obtain ⟨hjson, hdocument, _, hshallow⟩ := limit_only_cuts
  refine ⟨by decide, rfl, by decide, hdepth, rfl, hread, ?_, by cbv, hcompile, ?_, ?_⟩
  · exact (hjson j 2 128 (by decide)).error_of_error _ (by decide) hread
  · exact ((hdocument (c 2) (c 128) rfl (by decide)).2 d).error_of_error _ (by decide) hcompile
  · exact hshallow (c 2) d 2 hdepth

end Compiler

end RuleLogic
