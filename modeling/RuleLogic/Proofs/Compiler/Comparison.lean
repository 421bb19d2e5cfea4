import RuleLogic.Proofs.Compiler.Storage
import RuleLogic.Proofs.Equality

namespace RuleLogic

namespace Param

theorem beq_iff {p q : Param} :
    (p == q) = true ↔ p.name = q.name ∧ (p.value == q.value) = true := by
  have hbeq : (p == q) = (p.name == q.name && p.value == q.value) := rfl
  rw [hbeq, Bool.and_eq_true, beq_iff_eq]

theorem filterMap_value_beq {ps qs : List Param} (h : (ps == qs) = true) :
    (ps.filterMap value == qs.filterMap value) = true := by
  induction ps generalizing qs with
  | nil =>
    cases qs with
    | nil => rfl
    | cons q qs => cases h
  | cons p ps ih =>
    cases qs with
    | nil => cases h
    | cons q qs =>
      rw [List.cons_beq_cons, Bool.and_eq_true, beq_iff] at h
      obtain ⟨⟨_, hvalue⟩, hrest⟩ := h
      cases hp : p.value with
      | none =>
        cases hq : q.value with
        | none => rw [List.filterMap_cons_none hp, List.filterMap_cons_none hq, ih hrest]
        | some w => rw [hp, hq] at hvalue; cases hvalue
      | some v =>
        cases hq : q.value with
        | none => rw [hp, hq] at hvalue; cases hvalue
        | some w =>
          rw [hp, hq, Option.some_beq_some] at hvalue
          rw [List.filterMap_cons_some hp, List.filterMap_cons_some hq, List.cons_beq_cons, hvalue,
            ih hrest, Bool.and_true]

end Param

namespace Predicate

theorem bindFirst_beq (names : List String) {values values' : List Value}
    (h : (values == values') = true) :
    (bindFirst names values == bindFirst names values') = true := by
  induction names generalizing values values' with
  | nil => rfl
  | cons n names ih =>
    cases values with
    | nil =>
      cases values' with
      | nil =>
        rw [bindFirst, List.cons_beq_cons, ih h, Bool.and_true, Param.beq_iff]
        exact ⟨rfl, rfl⟩
      | cons v' values' => cases h
    | cons v values =>
      cases values' with
      | nil => cases h
      | cons v' values' =>
        rw [List.cons_beq_cons, Bool.and_eq_true] at h
        rw [bindFirst, bindFirst, List.cons_beq_cons, ih h.2, Bool.and_true, Param.beq_iff]
        exact ⟨rfl, h.1⟩

variable {p q : Predicate}

theorem writtenParams_beq_iff (h : p.toSignature = q.toSignature) :
    (p.writtenParams == q.writtenParams) = true ↔ (p.bound == q.bound) = true := by
  constructor
  · intro hwritten
    rw [← p.filterMap_writtenParams, ← q.filterMap_writtenParams]
    exact Param.filterMap_value_beq hwritten
  · intro hbound
    have hopen : (p.openParams == q.openParams) = true := by
      rw [openParams, openParams, h]
      exact bindFirst_beq _ hbound
    have hlength := List.length_eq_of_beq hopen
    -- Equal arguments leave both predicates with a placeholder or neither.
    have hempty : p.bound ≠ [] ↔ q.bound ≠ [] := by
      rw [← List.length_pos_iff, ← List.length_pos_iff, List.length_eq_of_beq hbound]
    rw [writtenParams, writtenParams]
    simp only [hempty, hlength]
    split
    · rw [append_beq_append hlength, hopen]
      rfl
    · exact hopen

theorem toNode_beq_iff :
    (p.toNode == q.toNode) = true ↔
      p.name = q.name ∧ (p.writtenParams == q.writtenParams) = true := by
  have hbeq :
      (p.toNode == q.toNode) = (p.name == q.name && p.writtenParams == q.writtenParams) := by
    rw [toNode_eq, toNode_eq]
    rfl
  rw [hbeq, Bool.and_eq_true, beq_iff_eq]

theorem beq_iff_of_signature (h : p.toSignature = q.toSignature)
    (hfree : ∀ v ∈ p.preset, v.NaNFree) :
    (p == q) = true ↔ p.name = q.name ∧ (p.bound == q.bound) = true := by
  have hargs : (p.args == q.args) = (p.bound == q.bound) := by
    rw [args, args, ← h, append_beq_append rfl, Value.items_beq_self_iff.mpr hfree, Bool.true_and]
  rw [beq_iff, hargs, h]
  simp only [true_and]

theorem toNode_beq_iff_beq (h : p.name = q.name → p.toSignature = q.toSignature)
    (hfree : ∀ v ∈ p.preset, v.NaNFree) : (p.toNode == q.toNode) = true ↔ (p == q) = true := by
  rw [toNode_beq_iff]
  constructor
  · rintro ⟨hname, hwritten⟩
    rw [beq_iff_of_signature (h hname) hfree, ← writtenParams_beq_iff (h hname)]
    exact ⟨hname, hwritten⟩
  · intro hbeq
    have hname := (beq_iff.mp hbeq).1
    rw [writtenParams_beq_iff (h hname), ← beq_iff_of_signature (h hname) hfree]
    exact hbeq

end Predicate

namespace Rule

theorem predicate_toNode_beq (p : Predicate) {r : Rule} (h : ∀ q, r ≠ .predicate q) :
    Node.beq p.toNode r.toNode = false ∧ Node.beq r.toNode p.toNode = false := by
  rw [Predicate.toNode_eq]
  cases r with
  | predicate q => exact absurd rfl (h q)
  | _ => exact ⟨rfl, rfl⟩

mutual

theorem toNode_beq_toNode {r₁ r₂ : Rule}
    (h : ∀ p ∈ r₁.leaves, ∀ q ∈ r₂.leaves, (p.toNode == q.toNode) = (p == q)) :
    Node.beq r₁.toNode r₂.toNode = beq r₁ r₂ := by
  cases r₁ with
  | predicate p =>
    cases r₂ with
    | predicate q => exact h p List.mem_cons_self q List.mem_cons_self
    | _ => exact (predicate_toNode_beq p (by rintro q ⟨⟩)).1
  | check name keys a =>
    cases r₂ with
    | predicate q => exact (predicate_toNode_beq q (by rintro q ⟨⟩)).2
    | check name' keys' b =>
      rw [leaves, leaves] at h
      rw [toNode, toNode, Node.beq, beq, toNode_beq_toNode h]
      rfl
    | _ => rfl
  | focused scope name a =>
    cases r₂ with
    | predicate q => exact (predicate_toNode_beq q (by rintro q ⟨⟩)).2
    | focused scope' name' b =>
      rw [leaves, leaves] at h
      rw [toNode, toNode, Node.beq, beq, toNode_beq_toNode h]
    | _ => rfl
  | modified modifier a =>
    cases r₂ with
    | predicate q => exact (predicate_toNode_beq q (by rintro q ⟨⟩)).2
    | modified modifier' b =>
      rw [leaves, leaves] at h
      rw [toNode, toNode, Node.beq, beq, toNode_beq_toNode h]
    | _ => rfl
  | set as =>
    cases r₂ with
    | predicate q => exact (predicate_toNode_beq q (by rintro q ⟨⟩)).2
    | set bs => exact toNodes_beq_toNodes h
    | _ => rfl
  | joined connective a b =>
    cases r₂ with
    | predicate q => exact (predicate_toNode_beq q (by rintro q ⟨⟩)).2
    | joined connective' x y =>
      rw [leaves, leaves] at h
      have hleft := toNode_beq_toNode fun p hp q hq =>
        h p (List.mem_append_left _ hp) q (List.mem_append_left _ hq)
      have hright := toNode_beq_toNode fun p hp q hq =>
        h p (List.mem_append_right _ hp) q (List.mem_append_right _ hq)
      rw [toNode, toNode, Node.beq, beq, hleft, hright]
    | _ => rfl

theorem toNodes_beq_toNodes {as bs : List Rule}
    (h : ∀ p ∈ leavesOfRules as, ∀ q ∈ leavesOfRules bs, (p.toNode == q.toNode) = (p == q)) :
    Node.beqMembers (toNodes as) (toNodes bs) = beqRules as bs := by
  cases as with
  | nil => cases bs <;> rfl
  | cons a as =>
    cases bs with
    | nil => rfl
    | cons b bs =>
      rw [leavesOfRules, leavesOfRules] at h
      have hhead := toNode_beq_toNode fun p hp q hq =>
        h p (List.mem_append_left _ hp) q (List.mem_append_left _ hq)
      have htail := toNodes_beq_toNodes fun p hp q hq =>
        h p (List.mem_append_right _ hp) q (List.mem_append_right _ hq)
      rw [toNodes, toNodes, Node.beqMembers, beqRules, hhead, htail]

end

end Rule

theorem Registry.signature_eq_of_offers {r : Registry} {p q : Predicate} (hp : r.Offers p)
    (hq : r.Offers q) (h : p.name = q.name) : p.toSignature = q.toSignature := by
  obtain ⟨entry, _, hentry, hp⟩ := hp
  obtain ⟨entry', _, hentry', hq⟩ := hq
  obtain rfl : entry = entry' := by
    rw [h, hentry'] at hentry
    exact (Option.some.inj hentry).symm
  rw [(Predicate.curry_eq_ok_iff.mp hp).1, (Predicate.curry_eq_ok_iff.mp hq).1]

namespace Compiler

theorem toNode_beq_of_visit {c : Compiler}
    (hfree : ∀ name entry, c.registry.lookup name = some entry → ∀ v ∈ entry.args, v.NaNFree)
    {n₁ n₂ : Node} {r₁ r₂ : Rule} (h₁ : c.visit n₁ = .ok r₁) (h₂ : c.visit n₂ = .ok r₂) :
    (r₁.toNode == r₂.toNode) = (r₁ == r₂) := by
  refine Rule.toNode_beq_toNode fun p hp q hq => Bool.eq_iff_iff.mpr ?_
  have hpoffers := (admitted_of_visit h₁).2 p hp
  have hqoffers := (admitted_of_visit h₂).2 q hq
  obtain ⟨entry, hlookup, hpreset⟩ := Registry.preset_of_offers hpoffers
  refine Predicate.toNode_beq_iff_beq (Registry.signature_eq_of_offers hpoffers hqoffers) ?_
  rw [hpreset]
  exact hfree _ entry hlookup

theorem beq_iff_toNode_beq (c : Compiler)
    (hfree : ∀ name entry, c.registry.lookup name = some entry → ∀ v ∈ entry.args, v.NaNFree)
    (n₁ n₂ : Node) (r₁ r₂ : Rule) (h₁ : c.visit n₁ = .ok r₁) (h₂ : c.visit n₂ = .ok r₂) :
    ((r₁ == r₂) = true ↔ (r₁.toNode == r₂.toNode) = true) ∧
      ((∃ p ∈ r₁.leaves ++ r₂.leaves, ∃ v ∈ p.bound, ¬v.NaNFree) →
        (r₁ == r₂) = false ∧ (r₁.toNode == r₂.toNode) = false) := by
  have hnode := toNode_beq_of_visit hfree h₁ h₂
  rw [hnode, and_self]
  refine ⟨Iff.rfl, ?_⟩
  rintro ⟨p, hp, v, hv, hnan⟩
  refine Bool.eq_false_iff.mpr fun hbeq => hnan ?_
  have hargs : v ∈ p.args := List.mem_append_right _ hv
  obtain ⟨hfree₁, hfree₂⟩ := Rule.nanFree_of_beq hbeq
  rcases List.mem_append.mp hp with hp | hp
  · exact hfree₁ p hp v hargs
  · exact hfree₂ p hp v hargs

theorem beq_iff_toNode_beq_zeros :
    let entry (x : Float) : Predicate :=
      ⟨⟨["least", "most", "input"], [.float x], Nat.le_add_left 1 2⟩, "between?", [],
        Nat.le_add_left 1 2⟩
    let c := new (.insert .empty (entry 0.5))
    let n (x : Float) : Node :=
      .key "age" (.predicate "between?" [.bound "most" (.list [.float x]), .unbound "any"])
    let r (x : Float) : Rule :=
      .key "age" (.predicate { entry 0.5 with bound := [.list [.float x]], fits := Nat.le_succ 2 })
    (∀ x, c.visit (n x) = .ok (r x)) ∧
      (r 0.0 == r (-0.0)) = true ∧ ((r 0.0).toNode == (r (-0.0)).toNode) = true ∧
      (r (0.0 / 0.0) == r (0.0 / 0.0)) = false ∧
      ((r (0.0 / 0.0)).toNode == (r (0.0 / 0.0)).toNode) = false := by
  intro entry c n r
  have hvisit (y x : Float) :
      (new (.insert .empty (entry y))).visit (n x) = .ok (.key "age" (.predicate
        { entry y with bound := [.list [.float x]], fits := Nat.le_succ 2 })) := by
    cbv
  have hfree : ∀ name p, c.registry.lookup name = some p → ∀ v ∈ p.args, v.NaNFree := by
    intro name p hlookup
    have hentry := (Registry.lookup_insert .empty (entry 0.5) name).symm.trans hlookup
    split at hentry
    · cases hentry
      exact List.forall_mem_singleton.mpr (.float (by decide))
    · cases hentry
  have hzeros : (r 0.0 == r (-0.0)) = true := by decide
  have hnan : ∃ p ∈ (r (0.0 / 0.0)).leaves ++ (r (0.0 / 0.0)).leaves,
      ∃ v ∈ p.bound, ¬v.NaNFree := by
    refine ⟨_, List.mem_cons_self, _, List.mem_cons_self, fun h => ?_⟩
    have hitem := Value.nanFree_list_iff.mp h _ List.mem_cons_self
    exact absurd (Value.nanFree_float_iff.mp hitem) (by decide)
  refine ⟨hvisit 0.5, hzeros, ?_, ?_⟩
  · exact (beq_iff_toNode_beq c hfree _ _ _ _ (hvisit _ _) (hvisit _ _)).1.mp hzeros
  · exact (beq_iff_toNode_beq c hfree _ _ _ _ (hvisit _ _) (hvisit _ _)).2 hnan

end Compiler

end RuleLogic
