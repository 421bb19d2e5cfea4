import RuleLogic.Proofs.Compiler.Loading

namespace RuleLogic.Compiler

open Traversal

variable {c : Compiler} {j : Json}

theorem compileJson_eq_bind (c : Compiler) (j : Json) :
    c.compileJson j =
      (Document.ofJson c.maxDepth j).mapError (fun f => .text (.undecodable f)) >>=
        fun d => (c.compile d).mapError .compile := by
  rw [compileJson]
  cases Document.ofJson c.maxDepth j <;> rfl

theorem compileJson_eq_ok_iff_of_limit {rs : List Rule} :
    c.compileJson j = .ok rs ↔
      ∃ d, Document.ofJson c.maxDepth j = .ok d ∧ c.compile d = .ok rs := by
  rw [compileJson_eq_bind, bind_eq_ok_iff]
  simp only [mapError_eq_ok_iff]

theorem compileJson_eq_error_iff {e : LoadError} :
    c.compileJson j = .error e ↔
      (∃ f, Document.ofJson c.maxDepth j = .error f ∧ .text (.undecodable f) = e) ∨
        ∃ d, Document.ofJson c.maxDepth j = .ok d ∧
          ∃ f, c.compile d = .error f ∧ .compile f = e := by
  rw [compileJson_eq_bind, bind_eq_error_iff]
  simp only [mapError_eq_ok_iff, mapError_eq_error_iff]

theorem compileJson_append_eq_ok_iff {xs ys : List Json} {rs : List Rule} :
    c.compileJson (.array (xs ++ ys)) = .ok rs ↔
      ∃ rx ry, c.compileJson (.array xs) = .ok rx ∧ c.compileJson (.array ys) = .ok ry ∧
        rs = rx ++ ry := by
  simp only [compileJson_eq_ok_iff_of_limit]
  constructor
  · rintro ⟨d, hd, hrs⟩
    obtain ⟨dx, dy, hdx, hdy, rfl⟩ := mapM_append_eq_ok_iff.mp hd
    obtain ⟨rx, ry, hrx, hry, rfl⟩ := mapM_append_eq_ok_iff.mp hrs
    exact ⟨rx, ry, ⟨dx, hdx, hrx⟩, ⟨dy, hdy, hry⟩, rfl⟩
  · rintro ⟨rx, ry, ⟨dx, hdx, hrx⟩, ⟨dy, hdy, hry⟩, rfl⟩
    exact ⟨dx ++ dy, mapM_append_eq_ok_iff.mpr ⟨dx, dy, hdx, hdy, rfl⟩,
      mapM_append_eq_ok_iff.mpr ⟨rx, ry, hrx, hry, rfl⟩⟩

theorem compileJson_array_eq_error_iff {items : List Json} {e : LoadError} :
    c.compileJson (.array items) = .error e ↔
      (∃ f, FailsFirst (Node.ofJsonWithin c.maxDepth c.maxDepth) items f ∧
        .text (.undecodable f) = e) ∨
      ∃ d, List.Forall₂ (fun j n => Node.ofJsonWithin c.maxDepth c.maxDepth j = .ok n) items d ∧
        ∃ f, FailsFirst c.visit d f ∧ .compile f = e := by
  rw [compileJson_eq_error_iff]
  simp only [Document.ofJson, compile, mapM_eq_error_iff, mapM_eq_ok_iff]

theorem compileJson_append (c : Compiler) (xs ys : List Json) :
    let read := Node.ofJsonWithin c.maxDepth c.maxDepth
    (∀ rs, c.compileJson (.array (xs ++ ys)) = .ok rs ↔
      ∃ rx ry, c.compileJson (.array xs) = .ok rx ∧ c.compileJson (.array ys) = .ok ry ∧
        rs = rx ++ ry) ∧
      ∀ e, c.compileJson (.array (xs ++ ys)) = .error e ↔
        (∃ f, FailsFirst read (xs ++ ys) f ∧ .text (.undecodable f) = e) ∨
        ∃ d, List.Forall₂ (fun j n => read j = .ok n) (xs ++ ys) d ∧
          ∃ f, FailsFirst c.visit d f ∧ .compile f = e := by
  intro read
  exact ⟨fun rs => compileJson_append_eq_ok_iff, fun e => compileJson_array_eq_error_iff⟩

example :
    let unknown : Json := .array [.str "predicate", .array [.str "nope?", .array []]]
    let deep : Json := .array [.str "not", .array [.str "set", .array []]]
    let c (depth : Nat) : Compiler := (new .empty).withMaxDepth depth
    (c 1).compileJson (.array ([unknown] ++ [deep])) =
        .error (.text (.undecodable (.depthLimitExceeded 1))) ∧
      (c 2).compileJson (.array ([unknown] ++ [deep])) =
        .error (.compile (.unknownPredicate "nope?")) := by
  cbv

end RuleLogic.Compiler
