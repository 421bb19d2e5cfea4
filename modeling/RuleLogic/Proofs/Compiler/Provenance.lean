import RuleLogic.Proofs.Compiler.Fault
import RuleLogic.Proofs.Compiler.Image

namespace RuleLogic

namespace Predicate

def registered (p : Predicate) : Predicate := .ofSignature p.name p.toEntry

@[simp] theorem args_registered (p : Predicate) : p.registered.args = p.args :=
  List.append_nil p.args

end Predicate

namespace Registry

theorem lookup_insert_self (r : Registry) (p : Predicate) :
    (r.insert p).lookup p.name = some p.registered := by
  rw [lookup_insert, if_pos rfl]
  rfl

theorem lookup_foldl_insert_of_ne {ps : List Predicate} {name : String}
    (h : ∀ p ∈ ps, p.name ≠ name) (r : Registry) :
    (ps.foldl insert r).lookup name = r.lookup name := by
  induction ps generalizing r with
  | nil => rfl
  | cons p ps ih =>
    obtain ⟨hp, hps⟩ := List.forall_mem_cons.mp h
    rw [List.foldl_cons, ih hps, lookup_insert, if_neg hp]

theorem lookup_foldl_insert_self {ps : List Predicate} {p : Predicate}
    (h : ∀ x ∈ ps, x.name ≠ p.name) (r : Registry) :
    (ps.foldl insert (r.insert p)).lookup p.name = some p.registered :=
  (lookup_foldl_insert_of_ne h _).trans (lookup_insert_self r p)

theorem exists_part_of_mem_leaves {r : Registry} {limit room : Nat} (depth : Nat) {n : Node}
    {rule : Rule} {p : Predicate} (h : r.compileWithin limit room n = .ok rule)
    (hp : p ∈ rule.leaves) :
    ∃ level params, (level, Node.predicate p.name params) ∈ n.parts depth ∧
      r.resolve p.name params = .ok (.predicate p) := by
  induction room generalizing depth n rule with
  | zero => cases h
  | succ room ih =>
    rcases Rule.mem_leaves_iff.mp hp with rfl | ⟨rule', hrule', hp'⟩
    · -- Only a predicate compiles to a predicate.
      cases n with
      | predicate name params =>
        obtain ⟨rfl, _⟩ := exists_entry_of_resolve h
        exact ⟨depth, params, Node.mem_parts_iff.mpr (.inl rfl), h⟩
      | joined connective left right =>
        obtain ⟨_, _, h⟩ := Traversal.bind_eq_ok_iff.mp h
        obtain ⟨_, _, ⟨⟩⟩ := Traversal.bind_eq_ok_iff.mp h
      | _ => obtain ⟨_, _, ⟨⟩⟩ := Traversal.bind_eq_ok_iff.mp h
    · have hchildren := (forall₂_children_of_compileWithin h).flip
      obtain ⟨c, hc, hcompiled⟩ := Traversal.exists_mem_of_forall₂ hchildren rule' hrule'
      obtain ⟨level, params, hpart, hresolve⟩ := ih (depth + 1) hcompiled hp'
      exact ⟨level, params, Node.mem_parts_iff.mpr (.inr ⟨c, hc, hpart⟩), hresolve⟩

end Registry

namespace Predicate

inductive Origin : Predicate → (fixed later : List Value) → Prop
  | new (name : String) (params : List String) : Origin (.new name params) [] []
  | curry {p q : Predicate} {fixed later values : List Value} (hp : Origin p fixed later)
    (h : p.curry values = .ok q) : Origin q fixed (later ++ values)
  -- All that is bound when a predicate is registered is fixed from then on.
  | lookup {p q : Predicate} {fixed later : List Value} (hp : Origin p fixed later) (r : Registry)
    {others : List Predicate} (hothers : ∀ x ∈ others, x.name ≠ p.name)
    (h : (others.foldl Registry.insert (r.insert p)).lookup p.name = some q) :
    Origin q (fixed ++ later) []

theorem preset_bound_of_origin {p : Predicate} {fixed later : List Value}
    (h : p.Origin fixed later) : p.preset = fixed ∧ p.bound = later := by
  induction h with
  | new name params => exact ⟨rfl, rfl⟩
  | curry _ h ih =>
    obtain ⟨hs, _, hb⟩ := curry_eq_ok_iff.mp h
    rw [hs, hb, ih.1, ih.2]
    exact ⟨rfl, rfl⟩
  | lookup _ r hothers h ih =>
    rw [Registry.lookup_foldl_insert_self hothers] at h
    cases h
    rw [← ih.1, ← ih.2]
    exact ⟨rfl, rfl⟩

theorem origin (p : Predicate) : p.Origin p.preset p.bound := by
  -- What is preset is bound first, the result is registered, and then the rest is bound.
  let q : Predicate :=
    { Predicate.new p.name p.params with
      bound := p.preset
      fits := Nat.le_trans (Nat.le_of_eq (Nat.zero_add _)) p.preset_le }
  have hnew : Origin (.new p.name p.params) [] [] := .new _ _
  have hq : q.Origin [] p.preset := hnew.curry (curry_eq_ok_iff.mpr ⟨rfl, rfl, rfl⟩)
  have hentry : (ofSignature p.name p.toSignature).Origin p.preset [] :=
    hq.lookup .empty (List.forall_mem_nil _) (Registry.lookup_insert_self _ q)
  exact hentry.curry (curry_eq_ok_iff.mpr ⟨rfl, rfl, rfl⟩)

theorem map_name_bindFirst (names : List String) (values : List Value) :
    (bindFirst names values).map Param.name = names := by
  induction names generalizing values with
  | nil => rfl
  | cons n names ih =>
    cases values with
    | nil => rw [bindFirst, List.map_cons, ih]; rfl
    | cons v values => rw [bindFirst, List.map_cons, ih]; rfl

theorem map_value_bindFirst {names : List String} {values : List Value}
    (h : values.length ≤ names.length) :
    (bindFirst names values).map Param.value =
      values.map some ++ List.replicate (names.length - values.length) none := by
  induction names generalizing values with
  | nil =>
    rw [List.eq_nil_of_length_eq_zero (Nat.le_zero.mp h)]
    rfl
  | cons n names ih =>
    cases values with
    | nil =>
      rw [bindFirst, List.map_cons, ih (Nat.zero_le _)]
      rfl
    | cons v values =>
      rw [bindFirst, List.map_cons, ih (Nat.le_of_succ_le_succ h), List.length_cons,
        List.length_cons, Nat.add_sub_add_right]
      rfl

theorem drop_args (p : Predicate) : p.args.drop p.preset.length = p.bound := by
  rw [args, List.drop_left]

theorem map_name_openParams (p : Predicate) :
    p.openParams.map Param.name = p.params.drop p.preset.length :=
  map_name_bindFirst _ _

theorem map_value_openParams (p : Predicate) :
    p.openParams.map Param.value =
      (p.args.drop p.preset.length).map some ++ List.replicate (p.arity - p.args.length) none := by
  have hle := p.bound_length_le
  rw [openParams, length_bindFirst] at hle
  have hopen : (p.params.drop p.preset.length).length - p.bound.length =
      p.arity - p.args.length := by
    rw [List.length_drop, Nat.sub_sub, args, List.length_append, arity]
  rw [openParams, map_value_bindFirst hle, drop_args, hopen]

theorem needs_placeholder_iff (p : Predicate) :
    p.bound ≠ [] ∧ p.openParams.length ≤ 1 ↔
      (∃ q ∈ p.openParams, q.value ≠ none) ∧ p.openParams.length = 1 := by
  have hbound : p.bound ≠ [] ↔ ∃ q ∈ p.openParams, q.value ≠ none := by
    rw [← filterMap_openParams, ne_eq, List.filterMap_eq_nil_iff]
    simp only [not_forall, exists_prop, ne_eq]
  rw [← hbound]
  refine and_congr_right fun hne => ?_
  have hpos := List.length_pos_iff.mpr hne
  have hle := p.bound_length_le
  omega

theorem args_conserved :
    (∀ p fixed later, Origin p fixed later ↔
        p.args = fixed ++ later ∧ p.preset.length = fixed.length) ∧
      (∀ p : Predicate, p.preset.length ≤ p.args.length ∧ p.args.length ≤ p.params.length) ∧
      (∀ (r : Registry) (name : String) (entry : Predicate), r.lookup name = some entry →
        entry.name = name ∧ entry.preset.length = entry.args.length) ∧
      (∀ (c : Compiler) (n : Node) (rule : Rule), c.visit n = .ok rule → ∀ p ∈ rule.leaves,
        ∃ entry depth params, c.registry.lookup p.name = some entry ∧ p.params = entry.params ∧
          p.preset.length = entry.preset.length ∧
          (depth, Node.predicate p.name params) ∈ n.parts 1 ∧
          p.args = entry.args ++ Param.given params) ∧
      (∀ (c : Compiler) (d : Document) (rules : List Rule), c.compile d = .ok rules →
        ∀ rule ∈ rules, ∃ n ∈ d, c.visit n = .ok rule) ∧
      ∀ p : Predicate, ∃ own : List Param,
        own.map Param.name = p.params.drop p.preset.length ∧
        own.map Param.value = (p.args.drop p.preset.length).map some ++
          List.replicate (p.arity - p.args.length) none ∧
        p.toNode = .predicate p.name
          (if (∃ q ∈ own, q.value ≠ none) ∧ own.length = 1 then own ++ [placeholder] else own) := by
  refine ⟨fun p fixed later => ⟨fun h => ?_, fun h => ?_⟩, fun p => ⟨?_, p.args_length_le⟩,
    fun r name entry h => ?_, fun c n rule h p hp => ?_, fun c d rules h rule hrule => ?_,
    fun p => ?_⟩
  · obtain ⟨rfl, rfl⟩ := preset_bound_of_origin h
    exact ⟨rfl, rfl⟩
  · obtain ⟨rfl, rfl⟩ := List.append_inj h.1 h.2
    exact p.origin
  · rw [args, List.length_append]
    exact Nat.le_add_right _ _
  · rw [args, Registry.bound_eq_nil_of_lookup h, List.append_nil]
    exact ⟨Registry.name_of_lookup h, rfl⟩
  · obtain ⟨depth, params, hpart, hresolve⟩ := Registry.exists_part_of_mem_leaves 1 h hp
    obtain ⟨_, entry, hlookup, hparams, hpreset, hargs⟩ :=
      Registry.exists_entry_of_resolve hresolve
    exact ⟨entry, depth, params, hlookup, hparams, hpreset, hpart, hargs⟩
  · exact Traversal.exists_of_mem_of_mapM_eq_ok h hrule
  · refine ⟨p.openParams, p.map_name_openParams, p.map_value_openParams, ?_⟩
    rw [toNode_eq, writtenParams]
    simp only [needs_placeholder_iff]

theorem args_conserved_between :
    let fresh : Predicate := .new "between?" ["low", "high", "input"]
    let first : Predicate := { fresh with bound := [.int 1], fits := by decide }
    let second : Predicate :=
      { first.registered with bound := [.list [.null]], fits := by decide }
    let entry := second.registered
    let c := Compiler.new ((Registry.empty.insert second).register "nil?" ["input"])
    let node : Node := .key "age" (.predicate "between?" [.bound "x" (.bool true), .unbound "y"])
    let leaf : Predicate := { entry with bound := [.bool true], fits := by decide }
    fresh.curry [.int 1] = .ok first ∧
      (Registry.empty.insert first).lookup "between?" = some first.registered ∧
      first.registered.curry [.list [.null]] = .ok second ∧
      second.args = [.int 1, .list [.null]] ∧ second.preset.length = 1 ∧
      c.registry.lookup "between?" = some entry ∧
      entry.args = [.int 1, .list [.null]] ∧ entry.preset.length = 2 ∧
      c.compile [node] = .ok [.key "age" leaf] ∧
      (∃ n ∈ [node], c.visit n = .ok (.key "age" leaf)) ∧
      (∃ found depth params, c.registry.lookup "between?" = some found ∧
        leaf.params = found.params ∧ leaf.preset.length = found.preset.length ∧
        (depth, Node.predicate "between?" params) ∈ node.parts 1 ∧
        leaf.args = found.args ++ Param.given params) ∧
      leaf.toNode = .predicate "between?" [.bound "input" (.bool true), .unbound "rest"] := by
  intro fresh first second entry c node leaf
  have hfirst : fresh.curry [.int 1] = .ok first := rfl
  have hlookup : (Registry.empty.insert first).lookup "between?" = some first.registered :=
    Registry.lookup_insert_self _ first
  have hsecond : first.registered.curry [.list [.null]] = .ok second := rfl
  have hothers : ∀ x ∈ [Predicate.new "nil?" ["input"]], x.name ≠ "between?" := by decide
  have hentry : c.registry.lookup "between?" = some entry :=
    Registry.lookup_foldl_insert_self (p := second) hothers .empty
  have hcompile : c.compile [node] = .ok [.key "age" leaf] := by cbv
  have hvisit : c.visit node = .ok (.key "age" leaf) := by cbv
  have honce : first.registered.Origin ([] ++ ([] ++ [.int 1])) [] :=
    ((Origin.new _ _).curry hfirst).lookup .empty (List.forall_mem_nil _) hlookup
  have htwice := honce.curry hsecond
  have hstored := htwice.lookup .empty hothers hentry
  obtain ⟨horigin, _, _, hleaves, hdocument, hnode⟩ := args_conserved
  obtain ⟨hargs, hpreset⟩ := (horigin _ _ _).mp htwice
  obtain ⟨hargs', hpreset'⟩ := (horigin _ _ _).mp hstored
  refine ⟨hfirst, hlookup, hsecond, hargs, hpreset, hentry, hargs', hpreset', hcompile,
    hdocument c _ _ hcompile _ List.mem_cons_self,
    hleaves c node _ hvisit leaf List.mem_cons_self, ?_⟩
  obtain ⟨own, hnames, hvalues, htoNode⟩ := hnode leaf
  obtain ⟨⟨name, value⟩, rfl, rfl⟩ := List.map_eq_singleton_iff.mp hnames
  obtain rfl : value = some (.bool true) := List.head_eq_of_cons_eq hvalues
  rw [htoNode, if_pos ⟨⟨_, List.mem_cons_self, Option.some_ne_none _⟩, rfl⟩]
  rfl

end Predicate

end RuleLogic
