import RuleLogic.Compiler
import RuleLogic.Proofs.Traversal

namespace RuleLogic

namespace Predicate

theorem eq_of_signature {p q : Predicate} (hs : p.toSignature = q.toSignature)
    (hn : p.name = q.name) (hb : p.bound = q.bound) : p = q := by
  cases p
  cases q
  cases hs
  cases hn
  cases hb
  rfl

theorem curry_eq_ok_iff {p q : Predicate} {values : List Value} :
    p.curry values = .ok q ↔
      q.toSignature = p.toSignature ∧ q.name = p.name ∧ q.bound = p.bound ++ values := by
  unfold curry
  constructor
  · intro h
    split at h
    · cases h
      exact ⟨rfl, rfl, rfl⟩
    · cases h
  · rintro ⟨hs, hn, hb⟩
    have hfits := q.fits
    rw [hs, hb] at hfits
    rw [dif_pos hfits]
    exact congrArg Except.ok (eq_of_signature hs.symm hn.symm hb.symm)

theorem length_bindFirst (names : List String) (values : List Value) :
    (bindFirst names values).length = names.length := by
  induction names generalizing values with
  | nil => rfl
  | cons n names ih =>
    cases values with
    | nil => rw [bindFirst, List.length_cons, ih, List.length_cons]
    | cons v values => rw [bindFirst, List.length_cons, ih, List.length_cons]

theorem filterMap_bindFirst {names : List String} {values : List Value}
    (h : values.length ≤ names.length) :
    (bindFirst names values).filterMap Param.value = values := by
  induction names generalizing values with
  | nil =>
    rw [List.eq_nil_of_length_eq_zero (Nat.le_zero.mp h)]
    rfl
  | cons n names ih =>
    cases values with
    | nil =>
      rw [bindFirst, List.filterMap_cons_none rfl]
      exact ih (Nat.zero_le _)
    | cons v values =>
      rw [bindFirst, List.filterMap_cons_some (f := Param.value) rfl, ih (Nat.le_of_succ_le_succ h)]

def openParams (p : Predicate) : List Param := bindFirst (p.params.drop p.preset.length) p.bound

def writtenParams (p : Predicate) : List Param :=
  if p.bound ≠ [] ∧ p.openParams.length ≤ 1 then p.openParams ++ [placeholder] else p.openParams

theorem toNode_eq (p : Predicate) : p.toNode = .predicate p.name p.writtenParams := by
  rw [toNode, writtenParams, apply_ite (Node.predicate p.name)]
  rfl

theorem bound_length_le (p : Predicate) : p.bound.length ≤ p.openParams.length := by
  rw [openParams, length_bindFirst, List.length_drop]
  exact Nat.le_sub_of_add_le' p.fits

theorem filterMap_openParams (p : Predicate) : p.openParams.filterMap Param.value = p.bound := by
  have hle := p.bound_length_le
  rw [openParams, length_bindFirst] at hle
  exact filterMap_bindFirst hle

theorem filterMap_writtenParams (p : Predicate) :
    p.writtenParams.filterMap Param.value = p.bound := by
  unfold writtenParams
  split
  · rw [List.filterMap_append, filterMap_openParams]
    exact List.append_nil _
  · exact p.filterMap_openParams

theorem bound_eq_nil_of_writtenParams {p : Predicate} (h : p.writtenParams.length ≤ 1) :
    p.bound = [] := by
  unfold writtenParams at h
  split at h
  · rename_i hcond
    have hpos := List.length_pos_iff.mpr hcond.1
    have hle := p.bound_length_le
    rw [List.length_append, List.length_singleton] at h
    omega
  · rename_i hcond
    by_cases hbound : p.bound = []
    · exact hbound
    · exact absurd ⟨hbound, h⟩ hcond

end Predicate

def Param.given (params : List Param) : List Value :=
  if params.length ≤ 1 then [] else params.filterMap Param.value

theorem Param.given_writtenParams (p : Predicate) : given p.writtenParams = p.bound := by
  unfold given
  split
  · rename_i hlone
    exact (Predicate.bound_eq_nil_of_writtenParams hlone).symm
  · exact p.filterMap_writtenParams

namespace Registry

open Traversal

def apply (r : Registry) (name : String) (values : List Value) : Except CompileError Rule :=
  match r.lookup name with
  | none => .error (.unknownPredicate name)
  | some p => ((p.curry values).map Rule.predicate).mapError .arityMismatch

def Offers (r : Registry) (p : Predicate) : Prop :=
  ∃ entry values, r.lookup p.name = some entry ∧ entry.curry values = .ok p

theorem bound_eq_nil_of_lookup {r : Registry} {name : String} {p : Predicate}
    (h : r.lookup name = some p) : p.bound = [] := by
  rw [lookup, Option.map_eq_some_iff] at h
  obtain ⟨s, _, rfl⟩ := h
  rfl

theorem resolve_eq_apply (r : Registry) (name : String) (params : List Param) :
    r.resolve name params = r.apply name (Param.given params) := by
  rw [resolve, apply, Param.given]
  cases r.lookup name with
  | none => rfl
  | some p =>
    dsimp only
    split
    · have hcurry : p.curry [] = .ok p :=
        Predicate.curry_eq_ok_iff.mpr ⟨rfl, rfl, (List.append_nil _).symm⟩
      rw [hcurry]
      rfl
    · rfl

theorem apply_eq_ok_iff {r : Registry} {name : String} {values : List Value} {rule : Rule} :
    r.apply name values = .ok rule ↔
      ∃ entry p, r.lookup name = some entry ∧ entry.curry values = .ok p ∧ rule = .predicate p := by
  rw [apply]
  cases r.lookup name with
  | none => simp
  | some entry =>
    rw [mapError_eq_ok_iff]
    cases hcurry : entry.curry values <;> simp [Except.map, hcurry, eq_comm]

theorem resolve_writtenParams {r : Registry} {p : Predicate} (h : r.Offers p) :
    r.resolve p.name p.writtenParams = .ok (.predicate p) := by
  obtain ⟨entry, values, hlookup, hcurry⟩ := h
  obtain ⟨hs, hn, _⟩ := Predicate.curry_eq_ok_iff.mp hcurry
  have hbound : p.bound = entry.bound ++ p.bound := by
    rw [bound_eq_nil_of_lookup hlookup, List.nil_append]
  have hwritten := Predicate.curry_eq_ok_iff.mpr ⟨hs, hn, hbound⟩
  rw [resolve_eq_apply, Param.given_writtenParams, apply_eq_ok_iff]
  exact ⟨entry, p, hlookup, hwritten, rfl⟩

theorem offers_of_resolve {r : Registry} {name : String} {params : List Param} {rule : Rule}
    (h : r.resolve name params = .ok rule) : ∃ p, rule = .predicate p ∧ r.Offers p := by
  rw [resolve_eq_apply, apply_eq_ok_iff] at h
  obtain ⟨entry, p, hlookup, hcurry, rfl⟩ := h
  obtain ⟨_, hn, _⟩ := Predicate.curry_eq_ok_iff.mp hcurry
  exact ⟨p, rfl, entry, _, by rw [hn, name_of_lookup hlookup, hlookup], hcurry⟩

theorem exists_entry_of_resolve {r : Registry} {name : String} {params : List Param}
    {p : Predicate} (h : r.resolve name params = .ok (.predicate p)) :
    p.name = name ∧ ∃ entry, r.lookup name = some entry ∧ p.params = entry.params ∧
      p.preset.length = entry.preset.length ∧ p.args = entry.args ++ Param.given params := by
  rw [resolve_eq_apply, apply_eq_ok_iff] at h
  obtain ⟨entry, _, hlookup, hcurry, ⟨⟩⟩ := h
  obtain ⟨hs, hn, hb⟩ := Predicate.curry_eq_ok_iff.mp hcurry
  refine ⟨hn.trans (name_of_lookup hlookup), entry, hlookup, by rw [hs], by rw [hs], ?_⟩
  rw [Predicate.args, Predicate.args, hs, hb, List.append_assoc]

theorem resolve_ne_depthLimitExceeded {r : Registry} {name : String} {params : List Param}
    {limit : Nat} : r.resolve name params ≠ .error (.depthLimitExceeded limit) := by
  intro h
  rw [resolve_eq_apply, apply] at h
  split at h
  · cases h
  · obtain ⟨e, _, ⟨⟩⟩ := mapError_eq_error_iff.mp h

end Registry

end RuleLogic
