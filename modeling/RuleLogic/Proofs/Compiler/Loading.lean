import RuleLogic.Proofs.Compiler.Assembly
import RuleLogic.Proofs.Wire.Limit

namespace RuleLogic

namespace Compiler

open Traversal

variable {c : Compiler} {j : Json} {d : Document}

theorem depth_le_of_compile {rs : List Rule} (h : c.compile d = .ok rs) :
    Document.depth d ≤ c.maxDepth := by
  rw [Document.depth_le_iff]
  intro n hn
  obtain ⟨_, _, hrule⟩ := exists_mem_of_forall₂ (mapM_eq_ok_iff.mp h) n hn
  exact Registry.depth_le_of_compileWithin hrule

theorem compile_ne_depthLimitExceeded (h : Document.depth d ≤ c.maxDepth) (limit : Nat) :
    c.compile d ≠ .error (.depthLimitExceeded limit) := by
  intro he
  obtain ⟨n, hn, hne⟩ := exists_of_mapM_eq_error he
  have hdepth := Document.depth_le_iff.mp h n hn
  exact Registry.compileWithin_ne_depthLimitExceeded hdepth hne

theorem compileJson_of_error {e : DecodeError} (h : Document.ofJson c.maxDepth j = .error e) :
    c.compileJson j = .error (.text (.undecodable e)) := by
  rw [compileJson, h]

theorem compileJson_of_ok (h : Document.ofJson c.maxDepth j = .ok d) :
    c.compileJson j = (c.compile d).mapError .compile := by
  rw [compileJson, h]

theorem compileJson_of_depth_le (h : Document.ofJsonUnlimited j = .ok d)
    (hdepth : Document.depth d ≤ c.maxDepth) :
    c.compileJson j = (c.compile d).mapError .compile := by
  have hread := Document.ofJson_eq_ite h c.maxDepth
  rw [if_pos hdepth] at hread
  exact compileJson_of_ok hread

theorem compileJson_of_lt_depth (h : Document.ofJsonUnlimited j = .ok d)
    (hdepth : c.maxDepth < Document.depth d) :
    c.compileJson j = .error (.text (.undecodable (.depthLimitExceeded c.maxDepth))) := by
  have hread := Document.ofJson_eq_ite h c.maxDepth
  rw [if_neg (Nat.not_le.mpr hdepth)] at hread
  exact compileJson_of_error hread

theorem compile_of_lt_depth (hdepth : c.maxDepth < Document.depth d) :
    ∃ e, c.compile d = .error e := by
  cases h : c.compile d with
  | error e => exact ⟨e, rfl⟩
  | ok rs => exact absurd (depth_le_of_compile h) (Nat.not_le.mpr hdepth)

theorem compileJson_of_unlimited_error {e : DecodeError}
    (h : Document.ofJsonUnlimited j = .error e) :
    c.compileJson j = .error (.text (.undecodable e)) ∨
      c.compileJson j = .error (.text (.undecodable (.depthLimitExceeded c.maxDepth))) := by
  rcases Nat.le_total c.maxDepth j.nesting with hle | hle
  · rcases Document.ofJson_cut hle j with hcut | heq
    · exact .inr (compileJson_of_error hcut)
    · exact .inl (compileJson_of_error (heq.trans h))
  · exact .inl (compileJson_of_error ((Document.ofJson_eq_unlimited hle).trans h))

theorem compileJson_cases (c : Compiler) (j : Json) :
    (∃ e, c.compileJson j = .error (.text e)) ∨
      ∃ d, Document.ofJsonUnlimited j = .ok d ∧ Document.depth d ≤ c.maxDepth ∧
        c.compileJson j = (c.compile d).mapError .compile := by
  cases hread : Document.ofJsonUnlimited j with
  | error e =>
    rcases compileJson_of_unlimited_error (c := c) hread with h | h
    · exact .inl ⟨_, h⟩
    · exact .inl ⟨_, h⟩
  | ok d =>
    rcases Nat.lt_or_ge c.maxDepth (Document.depth d) with hlt | hle
    · exact .inl ⟨_, compileJson_of_lt_depth hread hlt⟩
    · exact .inr ⟨d, rfl, hle, compileJson_of_depth_le hread hle⟩

theorem compileJson_eq_ok_iff {rs : List Rule} :
    c.compileJson j = .ok rs ↔
      ∃ d, Document.ofJsonUnlimited j = .ok d ∧ c.compile d = .ok rs := by
  constructor
  · intro h
    rcases compileJson_cases c j with ⟨e, he⟩ | ⟨d, hd, _, hcompile⟩
    · cases he.symm.trans h
    · rw [hcompile, mapError_eq_ok_iff] at h
      exact ⟨d, hd, h⟩
  · rintro ⟨d, hd, hrs⟩
    rw [compileJson_of_depth_le hd (depth_le_of_compile hrs), mapError_eq_ok_iff]
    exact hrs

theorem compileJson_ne_depthLimitExceeded (limit : Nat) :
    c.compileJson j ≠ .error (.compile (.depthLimitExceeded limit)) := by
  intro h
  rcases compileJson_cases c j with ⟨e, he⟩ | ⟨d, _, hdepth, hcompile⟩
  · cases he.symm.trans h
  · rw [hcompile, mapError_eq_error_iff] at h
    obtain ⟨e, he, ⟨⟩⟩ := h
    exact compile_ne_depthLimitExceeded hdepth limit he

theorem compileJson_agrees (c : Compiler) (j : Json) :
    (∀ limit, j.nesting ≤ limit → Document.ofJson limit j = Document.ofJsonUnlimited j) ∧
      (∀ d, Document.ofJsonUnlimited j = .ok d → Document.depth d ≤ c.maxDepth →
        c.compileJson j = (c.compile d).mapError .compile) ∧
      (∀ d, Document.ofJsonUnlimited j = .ok d → c.maxDepth < Document.depth d →
        c.compileJson j = .error (.text (.undecodable (.depthLimitExceeded c.maxDepth))) ∧
          ∃ e, c.compile d = .error e) ∧
      (∀ e, Document.ofJsonUnlimited j = .error e →
        c.compileJson j = .error (.text (.undecodable e)) ∨
          c.compileJson j = .error (.text (.undecodable (.depthLimitExceeded c.maxDepth)))) ∧
      (∀ rs, c.compileJson j = .ok rs ↔
        ∃ d, Document.ofJsonUnlimited j = .ok d ∧ c.compile d = .ok rs) ∧
      ∀ limit, c.compileJson j ≠ .error (.compile (.depthLimitExceeded limit)) := by
  refine ⟨fun limit hlimit => Document.ofJson_eq_unlimited hlimit, ?_, ?_, ?_, ?_, ?_⟩
  · exact fun d hd hdepth => compileJson_of_depth_le hd hdepth
  · exact fun d hd hdepth => ⟨compileJson_of_lt_depth hd hdepth, compile_of_lt_depth hdepth⟩
  · exact fun e he => compileJson_of_unlimited_error he
  · exact fun rs => compileJson_eq_ok_iff
  · exact compileJson_ne_depthLimitExceeded

theorem compileJson_agrees_nested_not :
    let c := (new .empty).withMaxDepth 2
    let under (tag : String) (j : Json) : Json := .array [.array [.str tag, j]]
    let negation : Json := .array [.str "not", .array [.str "set", .array []]]
    let unknown : Json := .array [.str "not", .array [.str "nope", .null]]
    (Json.array [negation]).nesting ≤ 128 ∧
      Document.ofJson 128 (.array [negation]) = Document.ofJsonUnlimited (.array [negation]) ∧
      Document.ofJsonUnlimited (.array [negation]) = .ok [.not (.set [])] ∧
      Document.depth [.not (.set [])] ≤ c.maxDepth ∧
      c.compileJson (.array [negation]) = .ok [.negation (.set [])] ∧
      Document.ofJsonUnlimited (under "each" negation) = .ok [.each (.not (.set []))] ∧
      c.maxDepth < Document.depth [.each (.not (.set []))] ∧
      c.compileJson (under "each" negation) =
        .error (.text (.undecodable (.depthLimitExceeded 2))) ∧
      (∃ e, c.compile [.each (.not (.set []))] = .error e) ∧
      Document.ofJsonUnlimited (under "each" unknown) = .error (.unknownTag "nope") ∧
      c.compileJson (under "each" unknown) =
        .error (.text (.undecodable (.depthLimitExceeded 2))) := by
  intro c under negation unknown
  have hread : Document.ofJsonUnlimited (.array [negation]) = .ok [.not (.set [])] := rfl
  have hdeep : Document.ofJsonUnlimited (under "each" negation) = .ok [.each (.not (.set []))] :=
    rfl
  have hunknown : Document.ofJsonUnlimited (under "each" unknown) = .error (.unknownTag "nope") :=
    rfl
  have hfits : Document.depth [.not (.set [])] ≤ c.maxDepth := by decide
  have hexceeds : c.maxDepth < Document.depth [.each (.not (.set []))] := by decide
  obtain ⟨hlimit, hcompile, _, _, _, _⟩ := compileJson_agrees c (.array [negation])
  obtain ⟨_, _, hcut, _, _, _⟩ := compileJson_agrees c (under "each" negation)
  obtain ⟨_, _, _, herror, _, _⟩ := compileJson_agrees c (under "each" unknown)
  obtain ⟨hcut, hnone⟩ := hcut _ hdeep hexceeds
  refine ⟨by decide, hlimit 128 (by decide), hread, hfits, hcompile _ hread hfits, hdeep, hexceeds,
    hcut, hnone, hunknown, ?_⟩
  rcases herror _ hunknown with h | h
  · cases h
  · exact h

end Compiler

end RuleLogic
