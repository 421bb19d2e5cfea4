import RuleLogic.Proofs.Compiler.Currying

namespace RuleLogic.Predicate

-- One list of arguments, with the number of those that were bound before registration.
structure Counted where
  name : String
  params : List String
  args : List Value
  preset : Nat

namespace Counted

def new (name : String) (params : List String) : Counted := ⟨name, params, [], 0⟩

def curry (c : Counted) (values : List Value) : Except ArityMismatch Counted :=
  let bound := c.args ++ values
  if c.params.length < bound.length then .error ⟨c.name, c.params.length, bound.length⟩
  else .ok { c with args := bound }

def registered (c : Counted) : Counted := { c with preset := c.args.length }

def openParams (c : Counted) : List Param :=
  (c.params.zipIdx.drop c.preset).map fun (name, i) => ⟨name, c.args[i]?⟩

def toNode (c : Counted) : Node :=
  if c.preset < c.args.length ∧ c.openParams.length ≤ 1 then
    .predicate c.name (c.openParams ++ [placeholder])
  else .predicate c.name c.openParams

inductive Built : Counted → Prop
  | new (name : String) (params : List String) : Built (.new name params)
  | curry {c d : Counted} {values : List Value} (hc : Built c) (h : c.curry values = .ok d) :
    Built d
  | registered {c : Counted} (hc : Built c) : Built c.registered

end Counted

def counted (p : Predicate) : Counted := ⟨p.name, p.params, p.args, p.preset.length⟩

theorem counted_injective : Function.Injective counted := by
  rintro ⟨⟨_, _, _⟩, _, _, _⟩ ⟨⟨_, _, _⟩, _, _, _⟩ h
  simp only [counted, args, Counted.mk.injEq] at h
  obtain ⟨rfl, rfl, hargs, hpreset⟩ := h
  obtain ⟨rfl, rfl⟩ := List.append_inj hargs hpreset
  rfl

theorem counted_new (name : String) (params : List String) :
    (new name params).counted = .new name params :=
  rfl

theorem counted_curry (p : Predicate) (values : List Value) :
    (p.curry values).map counted = p.counted.curry values := by
  rw [Counted.curry]
  cases h : p.curry values with
  | ok q =>
    obtain ⟨hs, hn, _⟩ := curry_eq_ok_iff.mp h
    have hargs := args_of_curry h
    have hfits : (p.args ++ values).length ≤ p.params.length := by
      rw [List.length_append]
      exact exists_curry_eq_ok_iff.mp ⟨q, h⟩
    rw [Except.map, counted, hs, hn, hargs]
    exact (if_neg (Nat.not_lt.mpr hfits)).symm
  | error e =>
    obtain ⟨hlt, rfl⟩ := curry_eq_error_iff.mp h
    rw [← List.length_append] at hlt ⊢
    exact (if_pos hlt).symm

theorem counted_registered (p : Predicate) : p.registered.counted = p.counted.registered := by
  rw [counted, args_registered]
  rfl

theorem counted_lookup {r : Registry} {p : Predicate} {others : List Predicate}
    (h : ∀ x ∈ others, x.name ≠ p.name) :
    ((others.foldl Registry.insert (r.insert p)).lookup p.name).map counted =
      some p.counted.registered := by
  rw [Registry.lookup_foldl_insert_self h, Option.map_some, counted_registered]

theorem getElem?_bindFirst (names : List String) (values : List Value) (i : Nat) :
    (bindFirst names values)[i]? = names[i]?.map fun name => ⟨name, values[i]?⟩ := by
  induction names generalizing values i with
  | nil => rfl
  | cons n names ih =>
    cases i with
    | zero => cases values <;> rfl
    | succ i =>
      cases values with
      | nil => exact ih [] i
      | cons v values => exact ih values i

theorem openParams_counted (p : Predicate) : p.counted.openParams = p.openParams := by
  refine List.ext_getElem? fun i => ?_
  have hbound : p.args[p.preset.length + i]? = p.bound[i]? := by
    rw [← List.getElem?_drop, drop_args]
  rw [openParams, getElem?_bindFirst, ← hbound]
  simp only [Counted.openParams, counted, List.getElem?_map, List.getElem?_drop,
    List.getElem?_zipIdx, Option.map_map, Nat.zero_add]
  rfl

theorem counted_toNode (p : Predicate) : p.counted.toNode = p.toNode := by
  have hbound : p.counted.preset < p.counted.args.length ↔ p.bound ≠ [] := by
    rw [counted, args, List.length_append, Nat.lt_add_right_iff_pos, List.length_pos_iff]
  rw [toNode_eq, writtenParams, Counted.toNode, openParams_counted]
  simp only [hbound, apply_ite (Node.predicate p.name)]
  rfl

theorem built_of_origin {p : Predicate} {fixed later : List Value} (h : p.Origin fixed later) :
    p.counted.Built := by
  induction h with
  | new name params => exact .new name params
  | @curry p q _ _ values _ h ih =>
    have hcurry := p.counted_curry values
    rw [h] at hcurry
    exact ih.curry hcurry.symm
  | lookup _ r hothers h ih =>
    have hlookup := counted_lookup (r := r) hothers
    rw [h] at hlookup
    rw [Option.some.inj hlookup]
    exact ih.registered

theorem exists_counted_of_built {c : Counted} (h : c.Built) : ∃ p : Predicate, p.counted = c := by
  induction h with
  | new name params => exact ⟨.new name params, rfl⟩
  | @curry _ _ values _ h ih =>
    obtain ⟨p, rfl⟩ := ih
    rw [← counted_curry] at h
    cases hcurry : p.curry values with
    | ok q =>
      rw [hcurry] at h
      exact ⟨q, Except.ok.inj h⟩
    | error e =>
      rw [hcurry] at h
      cases h
  | registered _ ih =>
    obtain ⟨p, rfl⟩ := ih
    exact ⟨p.registered, p.counted_registered⟩

theorem exists_counted_iff {c : Counted} :
    (∃ p : Predicate, p.counted = c) ↔
      c.preset ≤ c.args.length ∧ c.args.length ≤ c.params.length := by
  constructor
  · rintro ⟨p, rfl⟩
    refine ⟨?_, p.args_length_le⟩
    rw [counted, args, List.length_append]
    exact Nat.le_add_right _ _
  · rintro ⟨hpreset, hargs⟩
    have hlength : (c.args.take c.preset).length = c.preset := List.length_take_of_le hpreset
    let p : Predicate :=
      { name := c.name
        params := c.params
        preset := c.args.take c.preset
        preset_le := by omega
        bound := c.args.drop c.preset
        fits := by rwa [← List.length_append, List.take_append_drop] }
    refine ⟨p, ?_⟩
    rw [counted, args, List.take_append_drop, hlength]

theorem built_iff_le {c : Counted} :
    c.Built ↔ c.preset ≤ c.args.length ∧ c.args.length ≤ c.params.length := by
  rw [← exists_counted_iff]
  constructor
  · exact exists_counted_of_built
  · rintro ⟨p, rfl⟩
    exact built_of_origin p.origin

end RuleLogic.Predicate
