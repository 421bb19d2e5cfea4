import RuleLogic.Proofs.Compiler.Loading
import RuleLogic.Proofs.Wire.Text

namespace RuleLogic

inductive LoadError.ReportsDepth : LoadError → Prop
  | reading (limit : Nat) : ReportsDepth (.text (.undecodable (.depthLimitExceeded limit)))
  | compiling (limit : Nat) : ReportsDepth (.compile (.depthLimitExceeded limit))

theorem Node.lt_nesting_of_ofJson_eq_error {j : Json} {limit : Nat}
    (h : ofJson j = .error (.depthLimitExceeded limit)) : textNesting < j.nesting := by
  by_contra hshallow
  have hroom : j.nesting < defaultDepth := Nat.lt_succ_of_le (Nat.not_lt.mp hshallow)
  exact ofJsonWithin_ne_depthLimitExceeded hroom h

theorem Node.ofText_ne_depthLimitExceeded (text : String) (limit : Nat) :
    ofText text ≠ .error (.undecodable (.depthLimitExceeded limit)) := by
  intro h
  unfold ofText at h
  split at h
  · cases h
  · rename_i j rest hread
    have hshallow := Json.nesting_le_of_readFirst hread
    cases hnode : ofJson j with
    | error e =>
      rw [hnode] at h
      cases h
      exact absurd hshallow (Nat.not_le.mpr (lt_nesting_of_ofJson_eq_error hnode))
    | ok n =>
      simp only [hnode] at h
      split at h
      · cases h
      · cases h

theorem Node.ofText_eq_notJson {text : String} {j : Json} {rest : List Char} {limit : Nat}
    (hread : Json.readFirst none text.toList = some (j, rest))
    (h : ofJson j = .error (.depthLimitExceeded limit)) : ofText text = .error .notJson := by
  rw [ofText, Json.readFirst_eq_none_of_lt_nesting hread (lt_nesting_of_ofJson_eq_error h)]

namespace Document

theorem lt_nesting_of_ofJson_eq_error {limit limit' : Nat} {j : Json}
    (h : ofJson limit j = .error (.depthLimitExceeded limit')) : limit < j.nesting := by
  by_contra hshallow
  exact ofJson_ne_depthLimitExceeded (Nat.not_lt.mp hshallow) h

theorem ofText_ne_depthLimitExceeded (text : String) (limit : Nat) :
    ofText text ≠ .error (.undecodable (.depthLimitExceeded limit)) := by
  intro h
  unfold ofText at h
  split at h
  · cases h
  · rename_i j hread
    obtain ⟨e, he, ⟨⟩⟩ := Traversal.mapError_eq_error_iff.mp h
    have hshallow := Nat.le_succ_of_le (Json.nesting_le_of_read hread)
    exact ofJson_ne_depthLimitExceeded hshallow he

theorem ofText_eq_notJson {text : String} {j : Json} {limit : Nat}
    (hread : Json.read none text = some j)
    (h : ofJson defaultDepth j = .error (.depthLimitExceeded limit)) :
    ofText text = .error .notJson := by
  have hdeep : textNesting < j.nesting := Nat.lt_of_succ_lt (lt_nesting_of_ofJson_eq_error h)
  rw [ofText, Json.read_eq_none_of_lt_nesting hread hdeep]

end Document

-- No node, but no fault is found in it down to depth `count`.
def negations (count : Nat) : Json := Nat.repeat (Shape.tagged (.modifier .not)) count .null

theorem nesting_negations (count : Nat) : (negations count).nesting = count := by
  induction count with
  | zero => rfl
  | succ count ih => exact (Shape.nesting_tagged _ _).trans (congrArg Nat.succ ih)

theorem floatFree_negations (count : Nat) : (negations count).FloatFree := by
  induction count with
  | zero => exact .null
  | succ count ih => exact Shape.floatFree_tagged _ ih

theorem ofJsonWithin_negations {limit room count : Nat} (h : room ≤ count) :
    Node.ofJsonWithin limit room (negations count) = .error (.depthLimitExceeded limit) := by
  induction room generalizing count with
  | zero => rfl
  | succ room ih =>
    obtain ⟨count, rfl⟩ := Nat.exists_eq_add_of_le' (Nat.lt_of_lt_of_le (Nat.succ_pos room) h)
    have hinner := ih (Nat.le_of_succ_le_succ h)
    have hshape : Shape.ofJson (negations (count + 1)) = .ok (.modified .not (negations count)) :=
      Shape.ofJson_tagged (.modifier .not) _
    refine Node.ofJsonWithin_succ_eq_error_iff.mpr (.inr ⟨_, hshape, ?_⟩)
    rw [Shape.mapM, hinner]
    rfl

theorem ofJson_negations {limit count : Nat} (h : limit ≤ count) :
    Document.ofJson limit (.array [negations count]) = .error (.depthLimitExceeded limit) := by
  rw [Document.ofJson, List.mapM_cons, ofJsonWithin_negations h]
  rfl

namespace Compiler

open Traversal

variable {c : Compiler} {j : Json} {text : String} {e : LoadError}

theorem lt_nesting_of_reportsDepth (h : c.compileJson j = .error e) (he : e.ReportsDepth) :
    c.maxDepth < j.nesting := by
  cases he with
  | reading limit =>
    cases hread : Document.ofJson c.maxDepth j with
    | error e =>
      rw [compileJson_of_error hread] at h
      cases h
      exact Document.lt_nesting_of_ofJson_eq_error hread
    | ok d =>
      rw [compileJson_of_ok hread, mapError_eq_error_iff] at h
      obtain ⟨_, _, ⟨⟩⟩ := h
  | compiling limit => exact absurd h (compileJson_ne_depthLimitExceeded limit)

theorem compileText_eq_notJson (hdepth : textNesting ≤ c.maxDepth)
    (hread : Json.read none text = some j) (h : c.compileJson j = .error e) (he : e.ReportsDepth) :
    c.compileText text = .error (.text .notJson) := by
  have hdeep := Nat.lt_of_le_of_lt hdepth (lt_nesting_of_reportsDepth h he)
  rw [compileText, Json.read_eq_none_of_lt_nesting hread hdeep]

theorem compileText_ne_of_reportsDepth (hdepth : textNesting ≤ c.maxDepth) (he : e.ReportsDepth) :
    c.compileText text ≠ .error e := by
  intro h
  unfold compileText at h
  split at h
  · cases h
    cases he
  · rename_i j hread
    have hshallow := Nat.le_trans (Json.nesting_le_of_read hread) hdepth
    exact absurd hshallow (Nat.not_le.mpr (lt_nesting_of_reportsDepth h he))

theorem compileFile_ne_of_reportsDepth (hdepth : textNesting ≤ c.maxDepth) (he : e.ReportsDepth)
    (contents : Option ByteArray) : c.compileFile contents ≠ .error e := by
  intro h
  unfold compileFile at h
  split at h
  · cases h
    cases he
  · exact compileText_ne_of_reportsDepth hdepth he h

theorem compileFile_toUTF8 (c : Compiler) (text : String) :
    c.compileFile (some text.toUTF8) = c.compileText text := by
  have hvalid : text.toUTF8.IsValidUTF8 := text.isValidUTF8
  rw [compileFile, Option.bind_some, String.fromUTF8?, dif_pos hvalid]
  rfl

theorem exists_compileText_of_lt (hdepth : c.maxDepth < textNesting) :
    ∃ text, c.compileText text =
      .error (.text (.undecodable (.depthLimitExceeded c.maxDepth))) := by
  refine ⟨(Json.array [negations c.maxDepth]).text, ?_⟩
  have hfree : Json.FloatFree (.array [negations c.maxDepth]) :=
    .array (List.forall_mem_singleton.mpr (floatFree_negations c.maxDepth))
  have hnesting : (Json.array [negations c.maxDepth]).nesting ≤ textNesting := by
    simp only [Json.nesting, Json.nestingOfItems, nesting_negations]
    omega
  rw [compileText, Json.read_text_eq_ite hfree, if_pos hnesting]
  exact compileJson_of_error (ofJson_negations (Nat.le_refl c.maxDepth))

theorem depthLimitExceeded_unreachable (text : String) :
    (∀ limit, Document.ofText text ≠ .error (.undecodable (.depthLimitExceeded limit)) ∧
        Node.ofText text ≠ .error (.undecodable (.depthLimitExceeded limit))) ∧
      (∀ c : Compiler, 127 ≤ c.maxDepth → ∀ e : LoadError, e.ReportsDepth →
        c.compileText text ≠ .error e ∧ ∀ contents, c.compileFile contents ≠ .error e) ∧
      (∀ j limit, Json.read none text = some j →
        Document.ofJson defaultDepth j = .error (.depthLimitExceeded limit) →
          Document.ofText text = .error .notJson) ∧
      (∀ j rest limit, Json.readFirst none text.toList = some (j, rest) →
        Node.ofJson j = .error (.depthLimitExceeded limit) →
          Node.ofText text = .error .notJson) ∧
      ∀ (c : Compiler) (j : Json) (e : LoadError), 127 ≤ c.maxDepth →
        Json.read none text = some j → c.compileJson j = .error e → e.ReportsDepth →
          c.compileText text = .error (.text .notJson) ∧
            c.compileFile (some text.toUTF8) = .error (.text .notJson) := by
  refine ⟨?_, ?_, ?_, ?_, ?_⟩
  · intro limit
    exact ⟨Document.ofText_ne_depthLimitExceeded text limit,
      Node.ofText_ne_depthLimitExceeded text limit⟩
  · intro c hdepth e he
    exact ⟨compileText_ne_of_reportsDepth hdepth he, compileFile_ne_of_reportsDepth hdepth he⟩
  · exact fun j limit hread h => Document.ofText_eq_notJson hread h
  · exact fun j rest limit hread h => Node.ofText_eq_notJson hread h
  · intro c j e hdepth hread h he
    have htext := compileText_eq_notJson hdepth hread h he
    exact ⟨htext, (compileFile_toUTF8 c text).trans htext⟩

theorem depthLimitExceeded_unreachable_negations :
    let c := (new .empty).withMaxDepth 127
    let node := negations 200
    let document := Json.array [node]
    Node.ofText node.text = .error .notJson ∧
      Document.ofText document.text = .error .notJson ∧
      c.compileJson document = .error (.text (.undecodable (.depthLimitExceeded 127))) ∧
      c.compileText document.text = .error (.text .notJson) ∧
      c.compileText document.text ≠ .error (.text (.undecodable (.depthLimitExceeded 127))) := by
  intro c node document
  have hnode : node.FloatFree := floatFree_negations 200
  have hdocument : document.FloatFree := .array (List.forall_mem_singleton.mpr hnode)
  have hdepth : 127 ≤ c.maxDepth := by decide
  have htoo : c.compileJson document = .error (.text (.undecodable (.depthLimitExceeded 127))) :=
    compileJson_of_error (ofJson_negations (by decide))
  have hreport := LoadError.ReportsDepth.reading 127
  obtain ⟨_, _, _, ofNode, _⟩ := depthLimitExceeded_unreachable node.text
  obtain ⟨_, never, ofDocument, _, rejected⟩ := depthLimitExceeded_unreachable document.text
  refine ⟨?_, ?_, htoo, ?_, ?_⟩
  · have hdeep : Node.ofJson node = .error (.depthLimitExceeded defaultDepth) :=
      ofJsonWithin_negations (by decide)
    exact ofNode _ _ _ (Json.readFirst_text_none hnode) hdeep
  · have hdeep :
        Document.ofJson defaultDepth document = .error (.depthLimitExceeded defaultDepth) :=
      ofJson_negations (by decide)
    exact ofDocument _ _ (Json.read_text_none hdocument) hdeep
  · exact (rejected c document _ hdepth (Json.read_text_none hdocument) htoo hreport).1
  · exact (never c hdepth _ hreport).1

end Compiler

end RuleLogic
