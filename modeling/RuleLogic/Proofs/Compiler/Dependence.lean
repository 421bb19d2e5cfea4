import RuleLogic.Proofs.Compiler.Provenance

namespace RuleLogic

def Document.names (d : Document) : List String :=
  d.parts.filterMap fun
    | (_, .predicate name _) => some name
    | _ => none

theorem Document.mem_names_iff {d : Document} {name : String} :
    name ∈ d.names ↔ ∃ depth params, (depth, Node.predicate name params) ∈ d.parts := by
  rw [names, List.mem_filterMap]
  constructor
  · rintro ⟨⟨depth, n⟩, hpart, hname⟩
    cases n with
    | predicate name' params =>
      cases hname
      exact ⟨depth, params, hpart⟩
    | _ => cases hname
  · rintro ⟨depth, params, hpart⟩
    exact ⟨_, hpart, rfl⟩

namespace Registry

open Traversal

theorem assemble_congr {r r' : Registry} {n : Node} {s : Shape Rule}
    (hframe : n.shape.frame = s.frame)
    (h : ∀ name params, n = .predicate name params → r.lookup name = r'.lookup name) :
    r.assemble s = r'.assemble s := by
  cases s with
  | predicate name params =>
    cases n with
    | predicate name' params' =>
      cases hframe
      rw [assemble, assemble, resolve, resolve, h name params rfl]
    | _ => cases hframe
  | _ => rfl

theorem compileWithin_congr {r r' : Registry} {limit room : Nat} (depth : Nat) {n : Node}
    (h : ∀ level name params, (level, Node.predicate name params) ∈ n.parts depth →
      r.lookup name = r'.lookup name) :
    r.compileWithin limit room n = r'.compileWithin limit room n := by
  induction room generalizing depth n with
  | zero => rfl
  | succ room ih =>
    have hchildren : ∀ c ∈ n.shape.children,
        r.compileWithin limit room c = r'.compileWithin limit room c := by
      refine fun c hc => ih (depth + 1) fun level name params hpart => ?_
      exact h level name params (Node.mem_parts_iff.mpr (.inr ⟨c, hc, hpart⟩))
    rw [compileWithin_succ, compileWithin_succ, Shape.mapM_congr (mapM_congr hchildren)]
    cases hs : n.shape.mapM (r'.compileWithin limit room) with
    | error e => rfl
    | ok s =>
      refine assemble_congr (Shape.mapM_eq_ok_iff.mp hs).1 fun name params hn => ?_
      exact h depth name params (Node.mem_parts_iff.mpr (.inl (by rw [hn])))

theorem exists_lookup_of_compileWithin {r : Registry} {limit room depth level : Nat} {n : Node}
    {rule : Rule} {name : String} {params : List Param}
    (h : r.compileWithin limit room n = .ok rule)
    (hpart : (level, Node.predicate name params) ∈ n.parts depth) :
    ∃ entry, r.lookup name = some entry := by
  induction room generalizing depth n rule with
  | zero => cases h
  | succ room ih =>
    rcases Node.mem_parts_iff.mp hpart with hself | ⟨c, hc, hpart⟩
    · cases hself
      have hresolve : r.resolve name params = .ok rule := h
      rw [resolve_eq_apply, apply_eq_ok_iff] at hresolve
      obtain ⟨entry, _, hlookup, _⟩ := hresolve
      exact ⟨entry, hlookup⟩
    · obtain ⟨_, _, hcompiled⟩ := exists_mem_of_forall₂ (forall₂_children_of_compileWithin h) c hc
      exact ih hcompiled hpart

end Registry

namespace Compiler

open Traversal

variable {c c' : Compiler} {d : Document}

theorem compile_congr (hdepth : c.maxDepth = c'.maxDepth)
    (h : ∀ name ∈ d.names, c.registry.lookup name = c'.registry.lookup name) :
    c.compile d = c'.compile d := by
  refine mapM_congr fun n hn => ?_
  rw [visit, visit, hdepth]
  refine Registry.compileWithin_congr 1 fun level name params hpart => h name ?_
  exact Document.mem_names_iff.mpr ⟨level, params, List.mem_flatMap.mpr ⟨n, hn, hpart⟩⟩

theorem exists_lookup_of_compile {rs : List Rule} (h : c.compile d = .ok rs) {name : String}
    (hname : name ∈ d.names) : ∃ entry, c.registry.lookup name = some entry := by
  obtain ⟨level, params, hpart⟩ := Document.mem_names_iff.mp hname
  obtain ⟨n, hn, hpart⟩ := List.mem_flatMap.mp hpart
  obtain ⟨_, _, hrule⟩ := exists_mem_of_forall₂ (mapM_eq_ok_iff.mp h) n hn
  exact Registry.exists_lookup_of_compileWithin hrule hpart

def extend (c : Compiler) (ps : List Predicate) : Compiler :=
  { c with registry := ps.foldl Registry.insert c.registry }

theorem compile_extend {ps : List Predicate} (h : ∀ p ∈ ps, p.name ∉ d.names) :
    (c.extend ps).compile d = c.compile d := by
  refine compile_congr rfl fun name hname => ?_
  exact Registry.lookup_foldl_insert_of_ne (fun p hp hne => h p hp (hne ▸ hname)) c.registry

theorem compile_extend_of_compile {rs : List Rule} {ps : List Predicate}
    (h : c.compile d = .ok rs) (hnew : ∀ p ∈ ps, c.registry.lookup p.name = none) :
    (c.extend ps).compile d = .ok rs := by
  rw [← h]
  refine compile_extend fun p hp hname => ?_
  obtain ⟨entry, hentry⟩ := exists_lookup_of_compile h hname
  cases (hnew p hp).symm.trans hentry

theorem compile_depends_on_names (d : Document) :
    (∀ c c' : Compiler, c.maxDepth = c'.maxDepth →
      (∀ name ∈ d.names, c.registry.lookup name = c'.registry.lookup name) →
        c.compile d = c'.compile d) ∧
      (∀ (c : Compiler) (ps : List Predicate), (∀ p ∈ ps, p.name ∉ d.names) →
        (c.extend ps).compile d = c.compile d) ∧
      (∀ (c : Compiler) (rs : List Rule), c.compile d = .ok rs →
        ∀ name ∈ d.names, ∃ entry, c.registry.lookup name = some entry) ∧
      ∀ (c : Compiler) (rs : List Rule) (ps : List Predicate), c.compile d = .ok rs →
        (∀ p ∈ ps, c.registry.lookup p.name = none) → (c.extend ps).compile d = .ok rs := by
  refine ⟨?_, ?_, ?_, ?_⟩
  · exact fun c c' hdepth h => compile_congr hdepth h
  · exact fun c ps h => compile_extend h
  · exact fun c rs h name hname => exists_lookup_of_compile h hname
  · exact fun c rs ps h hnew => compile_extend_of_compile h hnew

theorem compile_depends_on_names_replaced :
    let c : Compiler := new (.register (.register .empty "gt?" ["num", "input"]) "size?" ["input"])
    let c' : Compiler := new (.register (.register .empty "nil?" []) "gt?" ["num", "input"])
    let d : Document := [.not (.predicate "gt?" [.bound "num" (.int 18), .unbound "input"])]
    let rule : Rule :=
      .negation (.predicate ⟨⟨["num", "input"], [], by decide⟩, "gt?", [.int 18], by decide⟩)
    let size : Predicate := ⟨⟨["size", "input"], [], by decide⟩, "size?", [.int 3], by decide⟩
    let lt : Predicate := .new "lt?" ["num", "input"]
    d.names = ["gt?"] ∧
      c.registry.lookup "gt?" = c'.registry.lookup "gt?" ∧
      c.registry.lookup "lt?" = none ∧
      c.compile d = .ok [rule] ∧
      c'.compile d = .ok [rule] ∧
      (c.extend [size, lt, size]).compile d = .ok [rule] ∧
      (c.extend [lt]).compile d = .ok [rule] ∧
      (c.extend [.new "gt?" []]).compile d = .error (.arityMismatch ⟨"gt?", 0, 1⟩) := by
  intro c c' d rule size lt
  have hnames : d.names = ["gt?"] := by cbv
  have hsame : c.registry.lookup "gt?" = c'.registry.lookup "gt?" := by cbv
  have hnew : c.registry.lookup "lt?" = none := by cbv
  have hcompile : c.compile d = .ok [rule] := by cbv
  obtain ⟨hagree, hother, _, hmore⟩ := compile_depends_on_names d
  refine ⟨hnames, hsame, hnew, hcompile, ?_, ?_, ?_, by cbv⟩
  · rw [← hagree c c' rfl (by rw [hnames]; exact List.forall_mem_singleton.mpr hsame), hcompile]
  · rw [hother c _ (by rw [hnames]; decide), hcompile]
  · exact hmore c _ _ hcompile (List.forall_mem_singleton.mpr hnew)

end Compiler

end RuleLogic
