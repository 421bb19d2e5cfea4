import Mathlib.Data.List.Induction
import RuleLogic.Proofs.Compiler.Outline
import RuleLogic.Proofs.Compiler.Provenance
import RuleLogic.Proofs.Utf8

namespace RuleLogic

theorem Predicate.surface_registered (p : Predicate) : p.registered.surface = p.surface := by
  rw [surface, surface, args_registered]
  rfl

namespace Registry

inductive Operation where
  | register (name : String) (params : List String)
  | insert (p : Predicate)

inductive Start where
  | empty
  | standard
  | collected (ps : List Predicate)

def Operation.apply (r : Registry) : Operation → Registry
  | .register name params => r.register name params
  | .insert p => r.insert p

def Operation.predicate : Operation → Predicate
  | .register name params => .new name params
  | .insert p => p

def Start.registry : Start → Registry
  | .empty => .empty
  | .standard => .standard
  | .collected ps => .ofList ps

def Start.predicates : Start → List Predicate
  | .empty => []
  | .standard => standardSignatures.map fun (name, params) => .new name params
  | .collected ps => ps

structure History where
  start : Start
  operations : List Operation

namespace History

def registry (h : History) : Registry := h.operations.foldl Operation.apply h.start.registry

def predicates (h : History) : List Predicate :=
  h.start.predicates ++ h.operations.map Operation.predicate

def under (h : History) (name : String) : List Predicate :=
  h.predicates.filter fun p => p.name = name

end History

theorem apply_eq_insert (r : Registry) (o : Operation) : o.apply r = r.insert o.predicate := by
  cases o <;> rfl

theorem start_registry_eq_ofList (s : Start) : s.registry = ofList s.predicates := by
  cases s with
  | standard => rw [Start.registry, Start.predicates, standard, ofList, List.foldl_map]; rfl
  | _ => rfl

theorem registry_eq_ofList (h : History) : h.registry = ofList h.predicates := by
  rw [History.registry, History.predicates, ofList, List.foldl_append, List.foldl_map,
    start_registry_eq_ofList]
  simp only [ofList, funext fun r => funext (apply_eq_insert r)]

theorem lookup_ofList (ps : List Predicate) (name : String) :
    (ofList ps).lookup name =
      (ps.filter fun p => p.name = name).getLast?.map Predicate.registered := by
  -- The induction is on the last predicate, since that is the one that counts.
  induction ps using List.reverseRecOn with
  | nil => rfl
  | append_singleton ps p ih =>
    rw [ofList, List.foldl_concat, lookup_insert, List.filter_append]
    by_cases hp : p.name = name
    · subst hp
      rw [if_pos rfl, List.filter_cons_of_pos (by simp), List.filter_nil, List.getLast?_concat]
      rfl
    · rw [if_neg hp, List.filter_cons_of_neg (by simpa using hp), List.filter_nil,
        List.append_nil]
      exact ih

theorem lookup_registry (h : History) (name : String) :
    h.registry.lookup name = (h.under name).getLast?.map Predicate.registered := by
  rw [registry_eq_ofList, lookup_ofList, History.under]

theorem under_swap (start : Start) (before after : List Operation) {o o' : Operation}
    (hnames : o.predicate.name ≠ o'.predicate.name) (name : String) :
    (⟨start, before ++ o :: o' :: after⟩ : History).under name =
      (⟨start, before ++ o' :: o :: after⟩ : History).under name := by
  simp only [History.under, History.predicates, List.map_append, List.map_cons, List.filter_append]
  by_cases ho : o.predicate.name = name
  · have ho' : ¬ o'.predicate.name = name := fun h => hnames (ho.trans h.symm)
    simp [ho, ho']
  · simp [ho, List.filter_cons]

theorem eq_of_lookup_eq {r r' : Registry} (h : ∀ name, r.lookup name = r'.lookup name) :
    r = r' := by
  have hentry (name : String) : r.signatures[name]? = r'.signatures[name]? := by
    refine Option.map_injective (fun s t hst => ?_) (h name)
    exact congrArg Predicate.toSignature hst
  exact congrArg Registry.mk (Std.ExtTreeMap.ext_getElem? hentry)

theorem contains_eq_isSome_lookup (r : Registry) (name : String) :
    r.contains name = (r.lookup name).isSome := by
  rw [contains, lookup, Option.isSome_map, Std.ExtTreeMap.contains_eq_isSome_getElem?]

theorem mem_names_iff {r : Registry} {name : String} :
    name ∈ r.names ↔ (r.lookup name).isSome = true := by
  rw [names, Std.ExtTreeMap.mem_keys, ← Std.ExtTreeMap.contains_iff_mem,
    ← contains_eq_isSome_lookup, contains]

theorem names_increasing (r : Registry) :
    r.names.Pairwise fun a b => a.toUTF8.data.toList < b.toUTF8.data.toList := by
  have hkeys : r.names.Pairwise fun a b => compare a b = .lt := Std.ExtTreeMap.ordered_keys
  exact hkeys.imp fun hab => Utf8.toUTF8_lt_toUTF8 (compareOfLessAndEq_eq_lt.mp hab)

theorem size_eq_length_names (r : Registry) : r.size = r.names.length :=
  Std.ExtTreeMap.length_keys.symm

theorem isEmpty_iff {r : Registry} : r.isEmpty = true ↔ r.names = [] := by
  rw [isEmpty, names, Std.ExtTreeMap.isEmpty_iff, Std.ExtTreeMap.keys_eq_nil_iff]

theorem isSome_lookup_registry_iff {h : History} {name : String} :
    (h.registry.lookup name).isSome = true ↔ ∃ p ∈ h.predicates, p.name = name := by
  rw [lookup_registry, Option.isSome_map, List.getLast?_isSome, History.under, ne_eq,
    List.filter_eq_nil_iff]
  simp

theorem names_registry_eq_nil_iff {h : History} : h.registry.names = [] ↔ h.predicates = [] := by
  rw [List.eq_nil_iff_forall_not_mem, List.eq_nil_iff_forall_not_mem]
  simp only [mem_names_iff, isSome_lookup_registry_iff]
  constructor
  · exact fun h p hp => h p.name ⟨p, hp, rfl⟩
  · rintro h name ⟨p, hp, _⟩
    exact h p hp

theorem last_put_counts (h : History) :
    (∀ name, (h.registry.lookup name).map Predicate.surface =
      (h.under name).getLast?.map Predicate.surface) ∧
    (∀ name, h.registry.contains name = true ↔ ∃ p, h.registry.lookup name = some p) ∧
    (∀ name, name ∈ h.registry.names ↔ ∃ p ∈ h.predicates, p.name = name) ∧
    (h.registry.names.Pairwise fun a b => a.toUTF8.data.toList < b.toUTF8.data.toList) ∧
    h.registry.size = h.registry.names.length ∧
    (h.registry.isEmpty = true ↔ h.predicates = []) ∧
    ∀ h' : History, (∀ name, h'.under name = h.under name) → h'.registry = h.registry := by
  refine ⟨fun name => ?_, fun name => ?_, fun name => ?_, names_increasing _,
    size_eq_length_names _, ?_, fun h' hsame => ?_⟩
  · rw [lookup_registry, Option.map_map]
    refine congrArg (fun f => Option.map f _) (funext fun p => ?_)
    exact p.surface_registered
  · rw [contains_eq_isSome_lookup, Option.isSome_iff_exists]
  · rw [mem_names_iff, isSome_lookup_registry_iff]
  · rw [isEmpty_iff, names_registry_eq_nil_iff]
  · refine eq_of_lookup_eq fun name => ?_
    rw [lookup_registry, lookup_registry, hsame]

theorem last_put_counts_reordered :
    let p : Predicate := ⟨⟨["num", "input"], [.int 18], by decide⟩, "gt?", [], by decide⟩
    let h : History := ⟨.empty, [.register "gt?" ["num"], .register "int?" [], .insert p]⟩
    let h' : History := ⟨.empty, [.register "gt?" ["num"], .insert p, .register "int?" []]⟩
    (h.registry.lookup "gt?").map Predicate.surface = some ("gt?", ["num", "input"], [.int 18]) ∧
      h'.registry = h.registry := by
  intro p h h'
  obtain ⟨hlookup, _, _, _, _, _, hreorder⟩ := last_put_counts h
  have hnames :
      (Operation.insert p).predicate.name ≠ (Operation.register "int?" []).predicate.name := by
    decide
  exact ⟨hlookup "gt?", hreorder h' (under_swap .empty [.register "gt?" ["num"]] [] hnames)⟩

end Registry

end RuleLogic
