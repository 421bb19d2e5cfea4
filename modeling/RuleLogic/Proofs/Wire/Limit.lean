import RuleLogic.Proofs.Depth
import RuleLogic.Proofs.Json.Nesting
import RuleLogic.Proofs.Wire.Grammar

namespace RuleLogic

namespace Json

theorem nesting_le_of_isPayload {word : String} {payload c : Json} {cs : List Json}
    (h : IsPayload word payload cs) (hc : c ∈ cs) : c.nesting ≤ payload.nesting := by
  have hsecond {a b : Json} {rest : List Json} :
      b.nesting ≤ (Json.array (a :: b :: rest)).nesting :=
    Nat.le_of_lt (nesting_lt_of_mem (List.mem_cons_of_mem a List.mem_cons_self))
  cases h with
  | predicate => cases hc
  | bare => exact Nat.le_of_eq (congrArg nesting (List.mem_singleton.mp hc))
  | set => exact Nat.le_of_lt (nesting_lt_of_mem hc)
  | sides => exact Nat.le_of_lt (nesting_lt_of_mem hc)
  | _ =>
    rw [List.mem_singleton.mp hc]
    exact hsecond

end Json

theorem Param.eq_malformed_of_ofJson {predicate : String} {j : Json} {e : DecodeError}
    (h : ofJson predicate j = .error e) : ∃ m, e = .malformed .predicate m := by
  unfold ofJson at h
  split at h
  · cases h
  · split at h
    · cases h
    · cases h
      exact ⟨_, rfl⟩
  · cases h
    exact ⟨_, rfl⟩

namespace Shape

open Traversal

theorem nesting_lt_of_mem_children {j c : Json} {s : Shape Json} (h : ofJson j = .ok s)
    (hc : c ∈ s.children) : c.nesting < j.nesting := by
  obtain ⟨word, payload, rfl, hpayload⟩ := exists_ofJson_iff.mp ⟨s, h, rfl⟩
  have hle := Json.nesting_le_of_isPayload hpayload hc
  have hlt : payload.nesting < (Json.array [.str word, payload]).nesting :=
    Json.nesting_lt_of_mem (List.mem_cons_of_mem _ List.mem_cons_self)
  exact Nat.lt_of_le_of_lt hle hlt

theorem eq_malformed_of_keysOfJson {j : Json} {e : DecodeError} (h : keysOfJson j = .error e) :
    ∃ m, e = .malformed .check m := by
  unfold keysOfJson at h
  split at h
  · cases h
  · rcases bind_eq_error_iff.mp h with hkeys | ⟨_, _, ⟨⟩⟩
    obtain ⟨key, _, hkey⟩ := exists_of_mapM_eq_error hkeys
    unfold keyOfJson at hkey
    split at hkey
    · cases hkey
    · cases hkey
      exact ⟨_, rfl⟩
  · cases h
    exact ⟨_, rfl⟩

theorem eq_malformed_of_ofPayload {tag : Tag} {payload : Json} {e : DecodeError}
    (h : ofPayload tag payload = .error e) : ∃ m, e = .malformed tag m := by
  unfold ofPayload at h
  split at h
  · rcases bind_eq_error_iff.mp h with hps | ⟨_, _, ⟨⟩⟩
    obtain ⟨j, _, hj⟩ := exists_of_mapM_eq_error hps
    exact Param.eq_malformed_of_ofJson hj
  · cases h
    exact ⟨_, rfl⟩
  · cases h
  · rcases bind_eq_error_iff.mp h with hkeys | ⟨_, _, ⟨⟩⟩
    exact eq_malformed_of_keysOfJson hkeys
  · cases h
    exact ⟨_, rfl⟩
  · cases h
  · cases h
    exact ⟨_, rfl⟩
  · cases h
  · cases h
  · cases h
    exact ⟨_, rfl⟩
  · cases h
  · cases h
    exact ⟨_, rfl⟩

theorem ofJson_ne_depthLimitExceeded (j : Json) (limit : Nat) :
    ofJson j ≠ .error (.depthLimitExceeded limit) := by
  intro h
  rcases bind_eq_error_iff.mp h with hheader | ⟨⟨tag, payload⟩, _, hpayload⟩
  · unfold header at hheader
    split at hheader
    · cases hheader
    · split at hheader
      · cases hheader
      · split at hheader
        · cases hheader
        · cases hheader
    · cases hheader
    · cases hheader
  · obtain ⟨m, ⟨⟩⟩ := eq_malformed_of_ofPayload hpayload

end Shape

namespace Node

open Traversal

theorem exists_child_of_depthLimitExceeded {limit room limit' : Nat} {j : Json}
    (h : ofJsonWithin limit (room + 1) j = .error (.depthLimitExceeded limit')) :
    ∃ s, Shape.ofJson j = .ok s ∧
      ∃ c ∈ s.children, ofJsonWithin limit room c = .error (.depthLimitExceeded limit') := by
  rcases ofJsonWithin_succ_eq_error_iff.mp h with hs | ⟨s, hs, hm⟩
  · exact absurd hs (Shape.ofJson_ne_depthLimitExceeded j limit')
  · exact ⟨s, hs, exists_of_mapM_eq_error (Shape.mapM_eq_error_iff.mp hm)⟩

theorem ofJsonWithin_ne_depthLimitExceeded {limit room limit' : Nat} {j : Json}
    (h : j.nesting < room) : ofJsonWithin limit room j ≠ .error (.depthLimitExceeded limit') := by
  induction room generalizing j with
  | zero => omega
  | succ room ih =>
    intro he
    obtain ⟨s, hs, c, hc, hce⟩ := exists_child_of_depthLimitExceeded he
    have hlt := Shape.nesting_lt_of_mem_children hs hc
    exact ih (by omega) hce

theorem limit_eq_of_depthLimitExceeded {limit room limit' : Nat} {j : Json}
    (h : ofJsonWithin limit room j = .error (.depthLimitExceeded limit')) : limit' = limit := by
  induction room generalizing j with
  | zero =>
    cases h
    rfl
  | succ room ih =>
    obtain ⟨_, _, c, _, hce⟩ := exists_child_of_depthLimitExceeded h
    exact ih hce

theorem ofJsonWithin_cut {limit limit' room room' : Nat} (h : room ≤ room') (j : Json) :
    ofJsonWithin limit room j = .error (.depthLimitExceeded limit) ∨
      ofJsonWithin limit room j = ofJsonWithin limit' room' j := by
  induction room generalizing room' j with
  | zero => exact .inl rfl
  | succ room ih =>
    obtain ⟨room', rfl⟩ := Nat.exists_eq_add_of_le' (Nat.lt_of_lt_of_le (Nat.succ_pos room) h)
    have hle := Nat.le_of_succ_le_succ h
    cases hs : Shape.ofJson j with
    | error e =>
      -- A fault of the layer itself is found at any limit.
      have hfault {l r : Nat} : ofJsonWithin l (r + 1) j = .error e :=
        ofJsonWithin_succ_eq_error_iff.mpr (.inl hs)
      exact .inr (hfault.trans hfault.symm)
    | ok s =>
      rcases Shape.mapM_cut fun c (_ : c ∈ s.children) => ih hle c with hcut | heq
      · exact .inl (ofJsonWithin_succ_eq_error_iff.mpr (.inr ⟨s, hs, hcut⟩))
      · refine .inr ?_
        rw [ofJsonWithin, ofJsonWithin, hs]
        exact congrArg (fun r => do let t ← r; .ok t.toNode) heq

theorem ofJsonWithin_eq_ite {limit room : Nat} {j : Json} {n : Node}
    (h : ofJsonWithin limit room j = .ok n) (limit' room' : Nat) :
    ofJsonWithin limit' room' j =
      if n.depth ≤ room' then .ok n else .error (.depthLimitExceeded limit') := by
  -- The successful reading is followed down, and the other one with it.
  induction room generalizing room' j n with
  | zero => cases h
  | succ room ih =>
    cases room' with
    | zero => rw [if_neg (Nat.not_le.mpr n.depth_pos)]; rfl
    | succ room' =>
      obtain ⟨s, hs, hn⟩ := ofJsonWithin_succ_eq_ok_iff.mp h
      obtain ⟨hframe, hchildren⟩ := Shape.mapM_eq_ok_iff.mp hn
      have hall := (Traversal.mapM_eq_ok_iff.mp hchildren).imp fun _ _ hc => ih hc room'
      have hm := Shape.mapM_eq_ite hframe hall
      by_cases hdepth : n.depth ≤ room' + 1
      · rw [if_pos (depth_le_succ_iff.mp hdepth)] at hm
        rw [if_pos hdepth, ofJsonWithin_succ_eq_ok_iff]
        exact ⟨s, hs, hm⟩
      · rw [if_neg fun hall => hdepth (depth_le_succ_iff.mpr hall)] at hm
        rw [if_neg hdepth, ofJsonWithin_succ_eq_error_iff]
        exact .inr ⟨s, hs, hm⟩

end Node

namespace Document

theorem ofJson_cut {limit limit' : Nat} (h : limit ≤ limit') (j : Json) :
    ofJson limit j = .error (.depthLimitExceeded limit) ∨ ofJson limit j = ofJson limit' j := by
  cases j with
  | array items => exact Traversal.mapM_cut fun item _ => Node.ofJsonWithin_cut h item
  | _ => exact .inr rfl

theorem limit_eq_of_depthLimitExceeded {limit limit' : Nat} {j : Json}
    (h : ofJson limit j = .error (.depthLimitExceeded limit')) : limit' = limit := by
  cases j with
  | array items =>
    obtain ⟨item, _, hitem⟩ := Traversal.exists_of_mapM_eq_error h
    exact Node.limit_eq_of_depthLimitExceeded hitem
  | _ => cases h

theorem ofJson_isCut {limit limit' : Nat} (h : limit ≤ limit') (j : Json) :
    Traversal.IsCut (.depthLimitExceeded limit) (.depthLimitExceeded limit') (ofJson limit j)
      (ofJson limit' j) :=
  Traversal.isCut_of_cut (ofJson_cut h j) fun he => by rw [limit_eq_of_depthLimitExceeded he]

theorem ofJson_ne_depthLimitExceeded {limit limit' : Nat} {j : Json} (h : j.nesting ≤ limit) :
    ofJson limit j ≠ .error (.depthLimitExceeded limit') := by
  intro he
  cases j with
  | array items =>
    obtain ⟨item, hitem, hie⟩ := Traversal.exists_of_mapM_eq_error he
    have hlt := Json.nesting_lt_of_mem hitem
    exact Node.ofJsonWithin_ne_depthLimitExceeded (Nat.lt_of_lt_of_le hlt h) hie
  | _ => cases he

theorem ofJson_eq_unlimited {limit : Nat} {j : Json} (h : j.nesting ≤ limit) :
    ofJson limit j = ofJsonUnlimited j := by
  rcases ofJson_cut h j with hcut | heq
  · exact absurd hcut (ofJson_ne_depthLimitExceeded (Nat.le_refl _))
  · exact heq.symm

theorem ofJson_eq_ite {limit : Nat} {j : Json} {d : Document} (h : ofJson limit j = .ok d)
    (limit' : Nat) :
    ofJson limit' j = if depth d ≤ limit' then .ok d else .error (.depthLimitExceeded limit') := by
  cases j with
  | array items =>
    have hitems := Traversal.mapM_eq_ok_iff.mp h
    have hall := hitems.imp fun _ _ hn => Node.ofJsonWithin_eq_ite hn limit' limit'
    have hm := Traversal.mapM_eq_ite hall
    exact hm.trans (if_congr depth_le_iff.symm rfl rfl)
  | _ => cases h

theorem depth_le_of_ofJson {limit : Nat} {j : Json} {d : Document} (h : ofJson limit j = .ok d) :
    depth d ≤ limit := by
  have hsame := ofJson_eq_ite h limit
  by_contra hdeep
  rw [if_neg hdeep, h] at hsame
  cases hsame

end Document

end RuleLogic
