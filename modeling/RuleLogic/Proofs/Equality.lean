import RuleLogic.Proofs.Compiler.Image

namespace RuleLogic

section Lists

variable {α : Type} [BEq α] {xs ys : List α}

theorem beq_self_of_forall_mem (h : ∀ x ∈ xs, (x == x) = true) : (xs == xs) = true := by
  induction xs with
  | nil => rfl
  | cons x xs ih =>
    obtain ⟨hx, hxs⟩ := List.forall_mem_cons.mp h
    rw [List.cons_beq_cons, hx, ih hxs, Bool.and_true]

theorem append_beq_append (h : xs.length = ys.length) (zs zs' : List α) :
    (xs ++ zs == ys ++ zs') = (xs == ys && zs == zs') := by
  induction xs generalizing ys with
  | nil =>
    rw [List.eq_nil_of_length_eq_zero h.symm]
    rfl
  | cons x xs ih =>
    cases ys with
    | nil => cases h
    | cons y ys =>
      rw [List.cons_append, List.cons_append, List.cons_beq_cons, List.cons_beq_cons,
        ih (Nat.succ.inj h), Bool.and_assoc]

end Lists

namespace Value

open Float.Model in
theorem unpacked_beq_self {x : UnpackedFloat} (h : x.isNaN = false) : x.beq x = true := by
  cases x with
  | notANumber => cases h
  | infinity sign => cases sign <;> rfl
  | zero sign => rfl
  | finite sign mantissa exponent hpos =>
    have hself : (compare exponent exponent).then (compare mantissa mantissa) = .eq := by
      rw [Std.compare_self, Std.compare_self]
      rfl
    cases sign with
    | positive => exact congrArg (fun o => some o == some .eq) hself
    | negative => exact congrArg (fun o => some o.swap == some .eq) hself

open Float.Model in
theorem isNaN_of_unpacked_beq {x y : UnpackedFloat} (h : x.beq y = true) :
    x.isNaN = false ∧ y.isNaN = false := by
  cases x with
  | notANumber => cases h
  | _ =>
    cases y with
    | notANumber => cases h
    | _ => exact ⟨rfl, rfl⟩

inductive NaNFree : Value → Prop
  | null : NaNFree .null
  | int (n : Int64) : NaNFree (.int n)
  | float {x : Float} (h : x.isNaN = false) : NaNFree (.float x)
  | bool (b : Bool) : NaNFree (.bool b)
  | str (s : String) : NaNFree (.str s)
  | list {items : List Value} (h : ∀ v ∈ items, NaNFree v) : NaNFree (.list items)

theorem nanFree_float_iff {x : Float} : (Value.float x).NaNFree ↔ x.isNaN = false :=
  ⟨fun | .float h => h, .float⟩

theorem nanFree_list_iff {items : List Value} :
    (Value.list items).NaNFree ↔ ∀ v ∈ items, v.NaNFree :=
  ⟨fun | .list h => h, .list⟩

theorem beq_self_of_nanFree {v : Value} (h : v.NaNFree) : (v == v) = true := by
  induction h with
  | null => rfl
  | int n => exact beq_self_eq_true n
  | float h => exact unpacked_beq_self h
  | bool b => exact beq_self_eq_true b
  | str s => exact beq_self_eq_true s
  | @list items _ ih => exact (beqItems_eq_beq items items).trans (beq_self_of_forall_mem ih)

mutual

theorem nanFree_of_beq {v w : Value} (h : beq v w = true) : v.NaNFree ∧ w.NaNFree := by
  cases v <;> cases w
  case null.null => exact ⟨.null, .null⟩
  case int.int m n => exact ⟨.int m, .int n⟩
  case float.float x y =>
    have hnan : x.toModel.unpack.isNaN = false ∧ y.toModel.unpack.isNaN = false :=
      isNaN_of_unpacked_beq h
    exact ⟨.float hnan.1, .float hnan.2⟩
  case bool.bool a b => exact ⟨.bool a, .bool b⟩
  case str.str s t => exact ⟨.str s, .str t⟩
  case list.list vs ws =>
    have hitems : beqItems vs ws = true := h
    exact ⟨.list (nanFree_of_beqItems hitems).1, .list (nanFree_of_beqItems hitems).2⟩
  all_goals cases h

theorem nanFree_of_beqItems {vs ws : List Value} (h : beqItems vs ws = true) :
    (∀ v ∈ vs, v.NaNFree) ∧ ∀ w ∈ ws, w.NaNFree := by
  cases vs <;> cases ws
  case nil.nil => exact ⟨List.forall_mem_nil _, List.forall_mem_nil _⟩
  case cons.cons v vs w ws =>
    rw [beqItems, Bool.and_eq_true] at h
    obtain ⟨hv, hw⟩ := nanFree_of_beq h.1
    obtain ⟨hvs, hws⟩ := nanFree_of_beqItems h.2
    exact ⟨List.forall_mem_cons.mpr ⟨hv, hvs⟩, List.forall_mem_cons.mpr ⟨hw, hws⟩⟩
  all_goals cases h

end

theorem nanFree_of_items_beq {vs ws : List Value} (h : (vs == ws) = true) :
    (∀ v ∈ vs, v.NaNFree) ∧ ∀ w ∈ ws, w.NaNFree :=
  nanFree_of_beqItems ((beqItems_eq_beq vs ws).trans h)

theorem items_beq_self_iff {vs : List Value} : (vs == vs) = true ↔ ∀ v ∈ vs, v.NaNFree := by
  constructor
  · exact fun h => (nanFree_of_items_beq h).1
  · exact fun h => beq_self_of_forall_mem fun v hv => beq_self_of_nanFree (h v hv)

end Value

namespace Predicate

theorem beq_iff {p q : Predicate} :
    (p == q) = true ↔ p.name = q.name ∧ p.params = q.params ∧ (p.args == q.args) = true := by
  have hbeq : (p == q) = (p.name == q.name && p.params == q.params && p.args == q.args) := rfl
  rw [hbeq, Bool.and_eq_true, Bool.and_eq_true, beq_iff_eq, beq_iff_eq, and_assoc]

theorem beq_self_iff {p : Predicate} : (p == p) = true ↔ ∀ v ∈ p.args, v.NaNFree := by
  rw [beq_iff, Value.items_beq_self_iff]
  exact ⟨fun h => h.2.2, fun h => ⟨rfl, rfl, h⟩⟩

theorem nanFree_of_beq {p q : Predicate} (h : (p == q) = true) :
    (∀ v ∈ p.args, v.NaNFree) ∧ ∀ v ∈ q.args, v.NaNFree :=
  Value.nanFree_of_items_beq (beq_iff.mp h).2.2

end Predicate

namespace Rule

mutual

theorem forall₂_leaves_of_beq {r₁ r₂ : Rule} (h : beq r₁ r₂ = true) :
    List.Forall₂ (fun p q => (p == q) = true) r₁.leaves r₂.leaves := by
  cases r₁ <;> cases r₂
  case predicate.predicate p q => exact .cons h .nil
  case check.check name keys a name' keys' b =>
    rw [beq, Bool.and_eq_true] at h
    rw [leaves, leaves]
    exact forall₂_leaves_of_beq h.2
  case focused.focused scope name a scope' name' b =>
    rw [beq, Bool.and_eq_true] at h
    rw [leaves, leaves]
    exact forall₂_leaves_of_beq h.2
  case modified.modified modifier a modifier' b =>
    rw [beq, Bool.and_eq_true] at h
    rw [leaves, leaves]
    exact forall₂_leaves_of_beq h.2
  case set.set as bs => exact forall₂_leaves_of_beqRules h
  case joined.joined connective a b connective' x y =>
    rw [beq, Bool.and_eq_true, Bool.and_eq_true] at h
    exact List.rel_append (forall₂_leaves_of_beq h.1.2) (forall₂_leaves_of_beq h.2)
  all_goals cases h

theorem forall₂_leaves_of_beqRules {as bs : List Rule} (h : beqRules as bs = true) :
    List.Forall₂ (fun p q => (p == q) = true) (leavesOfRules as) (leavesOfRules bs) := by
  cases as <;> cases bs
  case nil.nil => exact .nil
  case cons.cons a as b bs =>
    rw [beqRules, Bool.and_eq_true] at h
    exact List.rel_append (forall₂_leaves_of_beq h.1) (forall₂_leaves_of_beqRules h.2)
  all_goals cases h

end

theorem nanFree_of_beq {r₁ r₂ : Rule} (h : (r₁ == r₂) = true) :
    (∀ p ∈ r₁.leaves, ∀ v ∈ p.args, v.NaNFree) ∧ ∀ p ∈ r₂.leaves, ∀ v ∈ p.args, v.NaNFree := by
  have hleaves := forall₂_leaves_of_beq h
  constructor
  · intro p hp
    obtain ⟨q, _, hq⟩ := Traversal.exists_mem_of_forall₂ hleaves p hp
    exact (Predicate.nanFree_of_beq hq).1
  · intro q hq
    obtain ⟨p, _, hp⟩ := Traversal.exists_mem_of_forall₂ hleaves.flip q hq
    exact (Predicate.nanFree_of_beq hp).2

end Rule

end RuleLogic
