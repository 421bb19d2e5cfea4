import RuleLogic.Proofs.Compiler.Composition
import RuleLogic.Proofs.Compiler.Dependence
import RuleLogic.Proofs.Compiler.Outline
import RuleLogic.Proofs.Equality

namespace RuleLogic

namespace Predicate

open Traversal

variable {p q : Predicate} {values : List Value} {chunks : List (List Value)}

theorem exists_curry_eq_ok_iff :
    (∃ q, p.curry values = .ok q) ↔ p.args.length + values.length ≤ p.arity := by
  rw [← failure?_eq_none_iff, failure?_curry, ite_eq_right_iff, ← Nat.not_lt]
  simp

theorem curry_eq_error_iff {e : ArityMismatch} :
    p.curry values = .error e ↔ p.arity < p.args.length + values.length ∧
      e = ⟨p.name, p.arity, p.args.length + values.length⟩ := by
  rw [← failure?_eq_some_iff, failure?_curry, Option.ite_none_right_eq_some, Option.some.injEq,
    eq_comm]

theorem curry_nil (p : Predicate) : p.curry [] = .ok p :=
  curry_eq_ok_iff.mpr ⟨rfl, rfl, (List.append_nil _).symm⟩

theorem args_of_curry (h : p.curry values = .ok q) : q.args = p.args ++ values := by
  obtain ⟨hs, _, hb⟩ := curry_eq_ok_iff.mp h
  rw [args, args, hs, hb, List.append_assoc]

theorem params_of_curry (h : p.curry values = .ok q) : q.params = p.params := by
  rw [(curry_eq_ok_iff.mp h).1]

theorem curry_of_curry (h : p.curry values = .ok q) (more : List Value) :
    q.curry more = p.curry (values ++ more) := by
  obtain ⟨hs, hn, hb⟩ := curry_eq_ok_iff.mp h
  cases hmore : q.curry more with
  | ok r =>
    obtain ⟨hs', hn', hb'⟩ := curry_eq_ok_iff.mp hmore
    refine (curry_eq_ok_iff.mpr ⟨hs'.trans hs, hn'.trans hn, ?_⟩).symm
    rw [hb', hb, List.append_assoc]
  | error e =>
    obtain ⟨hlt, rfl⟩ := curry_eq_error_iff.mp hmore
    have hlength : q.args.length + more.length = p.args.length + (values ++ more).length := by
      rw [args_of_curry h, List.length_append, List.length_append, Nat.add_assoc]
    have harity : q.arity = p.arity := congrArg List.length (params_of_curry h)
    rw [hlength, harity] at hlt ⊢
    rw [hn]
    exact (curry_eq_error_iff.mpr ⟨hlt, rfl⟩).symm

def curryAll (p : Predicate) (chunks : List (List Value)) : Except ArityMismatch Predicate :=
  chunks.foldlM curry p

theorem curryAll_eq_ok_iff : p.curryAll chunks = .ok q ↔ p.curry chunks.flatten = .ok q := by
  induction chunks generalizing p with
  | nil => rw [List.flatten_nil, curry_nil, curryAll, List.foldlM_nil]; rfl
  | cons chunk chunks ih =>
    rw [curryAll, List.foldlM_cons, bind_eq_ok_iff, List.flatten_cons]
    constructor
    · rintro ⟨p', hp', hq⟩
      rw [← curry_of_curry hp']
      exact ih.mp hq
    · intro h
      have hall := exists_curry_eq_ok_iff.mp ⟨q, h⟩
      rw [List.length_append] at hall
      have hfirst : p.args.length + chunk.length ≤ p.arity := by omega
      obtain ⟨p', hp'⟩ := exists_curry_eq_ok_iff.mpr hfirst
      refine ⟨p', hp', ih.mpr ?_⟩
      rw [curry_of_curry hp', h]

theorem curryAll_eq_error_iff {e : ArityMismatch} :
    p.curryAll chunks = .error e ↔
      ∃ before chunk after, chunks = before ++ chunk :: after ∧
        p.args.length + before.flatten.length ≤ p.arity ∧
        p.arity < p.args.length + (before.flatten ++ chunk).length ∧
        e = ⟨p.name, p.arity, p.args.length + (before.flatten ++ chunk).length⟩ := by
  have hstep (before : List (List Value)) (chunk : List Value) :
      (∃ q, p.curryAll before = .ok q ∧ q.curry chunk = .error e) ↔
        p.args.length + before.flatten.length ≤ p.arity ∧
        p.arity < p.args.length + (before.flatten ++ chunk).length ∧
        e = ⟨p.name, p.arity, p.args.length + (before.flatten ++ chunk).length⟩ := by
    rw [← exists_curry_eq_ok_iff, ← curry_eq_error_iff, ← exists_and_right]
    refine exists_congr fun q => ?_
    rw [curryAll_eq_ok_iff]
    exact and_congr_right fun hq => by rw [curry_of_curry hq]
  rw [curryAll, foldlM_eq_error_iff]
  constructor
  · rintro ⟨before, chunk, after, q, hchunks, hq⟩
    exact ⟨before, chunk, after, hchunks, (hstep before chunk).mp ⟨q, hq⟩⟩
  · rintro ⟨before, chunk, after, hchunks, h⟩
    obtain ⟨q, hq⟩ := (hstep before chunk).mpr h
    exact ⟨before, chunk, after, q, hchunks, hq⟩

theorem curry_registered_of_ok (h : p.curry values = .ok q) :
    ∃ q', p.registered.curry values = .ok q' ∧ q'.surface = q.surface := by
  have hfits : p.registered.args.length + values.length ≤ p.registered.arity := by
    rw [args_registered]
    exact exists_curry_eq_ok_iff.mp ⟨q, h⟩
  obtain ⟨q', hq'⟩ := exists_curry_eq_ok_iff.mpr hfits
  have hname : q'.name = q.name :=
    (curry_eq_ok_iff.mp hq').2.1.trans (curry_eq_ok_iff.mp h).2.1.symm
  have hparams : q'.params = q.params := (params_of_curry hq').trans (params_of_curry h).symm
  have hargs : q'.args = q.args := by
    rw [args_of_curry hq', args_of_curry h, args_registered]
  exact ⟨q', hq', by rw [surface, surface, hname, hparams, hargs]⟩

theorem curry_registered_of_error {e : ArityMismatch} (h : p.curry values = .error e) :
    p.registered.curry values = .error e := by
  rw [curry_eq_error_iff] at h ⊢
  rw [args_registered]
  exact h

end Predicate

namespace Compiler

open Traversal

variable {c : Compiler} {p q : Predicate} {values : List Value} {params params' : List Param}

theorem visit_extend (c : Compiler) (p : Predicate) (h : 2 ≤ params.length) :
    (c.extend [p]).visit (.predicate p.name params) =
      ((p.registered.curry (params.filterMap Param.value)).map Rule.predicate).mapError
        .arityMismatch := by
  have hlookup : (c.extend [p]).registry.lookup p.name = some p.registered :=
    Registry.lookup_insert_self c.registry p
  rw [visit_predicate, Registry.resolve_eq_apply, Registry.apply, hlookup, Param.given,
    if_neg (Nat.not_le.mpr h)]

theorem visit_extend_of_ok (h : 2 ≤ params.length)
    (hcurry : p.curry (params.filterMap Param.value) = .ok q) :
    ∃ q' : Predicate, (c.extend [p]).visit (.predicate p.name params) = .ok q' ∧
      q'.surface = q.surface := by
  obtain ⟨q', hq', hsurface⟩ := Predicate.curry_registered_of_ok hcurry
  refine ⟨q', ?_, hsurface⟩
  rw [visit_extend c p h, hq']
  rfl

theorem visit_extend_of_error {e : ArityMismatch} (h : 2 ≤ params.length)
    (hcurry : p.curry (params.filterMap Param.value) = .error e) :
    (c.extend [p]).visit (.predicate p.name params) = .error (.arityMismatch e) := by
  rw [visit_extend c p h, Predicate.curry_registered_of_error hcurry]
  rfl

theorem visit_extend_curried (hcurry : p.curry values = .ok q) (h : 2 ≤ params.length)
    (h' : 2 ≤ params'.length)
    (hvalues : params'.filterMap Param.value = values ++ params.filterMap Param.value) :
    (∃ r r' : Predicate, (c.extend [q]).visit (.predicate p.name params) = .ok r ∧
        (c.extend [p]).visit (.predicate p.name params') = .ok r' ∧ r.surface = r'.surface ∧
        r.args = p.args ++ values ++ params.filterMap Param.value) ∨
      ∃ e, (c.extend [q]).visit (.predicate p.name params) = .error (.arityMismatch e) ∧
        (c.extend [p]).visit (.predicate p.name params') = .error (.arityMismatch e) := by
  have hname : p.name = q.name := (Predicate.curry_eq_ok_iff.mp hcurry).2.1.symm
  have hstaged := Predicate.curry_of_curry hcurry (params.filterMap Param.value)
  cases hall : p.curry (params'.filterMap Param.value) with
  | ok s =>
    rw [← hvalues, hall] at hstaged
    obtain ⟨r, hr, hsurface⟩ := visit_extend_of_ok (c := c) h hstaged
    obtain ⟨r', hr', hsurface'⟩ := visit_extend_of_ok (c := c) h' hall
    refine .inl ⟨r, r', hname ▸ hr, hr', hsurface.trans hsurface'.symm, ?_⟩
    have hargs : r.args = s.args := congrArg (fun t => t.2.2) hsurface
    rw [hargs, Predicate.args_of_curry hall, hvalues, List.append_assoc]
  | error e =>
    rw [← hvalues, hall] at hstaged
    exact .inr ⟨e, hname ▸ visit_extend_of_error h hstaged, visit_extend_of_error h' hall⟩

end Compiler

namespace Predicate

theorem beq_iff_of_surface_eq {p q : Predicate} (h : p.surface = q.surface) :
    (p == q) = true ↔ ∀ v ∈ p.args, v.NaNFree := by
  obtain ⟨hname, hparams, hargs⟩ : p.name = q.name ∧ p.params = q.params ∧ p.args = q.args := by
    simpa [surface] using h
  rw [beq_iff, ← hargs, Value.items_beq_self_iff]
  exact ⟨fun h => h.2.2, fun h => ⟨hname, hparams, h⟩⟩

theorem curry_in_stages (p : Predicate) :
    (∀ chunks : List (List Value),
      ((∃ q, p.curryAll chunks = .ok q) ↔ p.args.length + chunks.flatten.length ≤ p.arity) ∧
      ((∃ q, p.curry chunks.flatten = .ok q) ↔
        p.args.length + chunks.flatten.length ≤ p.arity) ∧
      (∀ q q', p.curryAll chunks = .ok q → p.curry chunks.flatten = .ok q' →
        q = q' ∧ q.toNode = q'.toNode) ∧
      ∀ e, p.curryAll chunks = .error e →
        ∃ before chunk after, chunks = before ++ chunk :: after ∧
          p.args.length + before.flatten.length ≤ p.arity ∧
          p.arity < p.args.length + (before.flatten ++ chunk).length ∧
          e = ⟨p.name, p.arity, p.args.length + (before.flatten ++ chunk).length⟩) ∧
    ∀ values q, p.curry values = .ok q →
      ∀ (c : Compiler) (params params' : List Param), 2 ≤ params.length → 2 ≤ params'.length →
        params'.filterMap Param.value = values ++ params.filterMap Param.value →
        (∃ r r', (c.extend [q]).visit (.predicate p.name params) = .ok r ∧
          (c.extend [p]).visit (.predicate p.name params') = .ok r' ∧
          r.surface = r'.surface ∧
          ((r == r') = true ↔
            ∀ v ∈ p.args ++ values ++ params.filterMap Param.value, v.NaNFree)) ∨
        ∃ e, (c.extend [q]).visit (.predicate p.name params) = .error (.arityMismatch e) ∧
          (c.extend [p]).visit (.predicate p.name params') = .error (.arityMismatch e) := by
  constructor
  · intro chunks
    have hiff : (∃ q, p.curryAll chunks = .ok q) ↔ ∃ q, p.curry chunks.flatten = .ok q :=
      exists_congr fun q => curryAll_eq_ok_iff
    refine ⟨hiff.trans exists_curry_eq_ok_iff, exists_curry_eq_ok_iff, fun q q' hq hq' => ?_,
      fun e he => curryAll_eq_error_iff.mp he⟩
    obtain rfl : q = q' := Except.ok.inj ((curryAll_eq_ok_iff.mp hq).symm.trans hq')
    exact ⟨rfl, rfl⟩
  · intro values q hcurry c params params' h h' hvalues
    rcases Compiler.visit_extend_curried (c := c) hcurry h h' hvalues with
      ⟨r, r', hr, hr', hsurface, hargs⟩ | herror
    · refine .inl ⟨r, r', hr, hr', congrArg Outline.leaf hsurface, ?_⟩
      rw [← hargs]
      exact beq_iff_of_surface_eq hsurface
    · exact .inr herror

theorem curry_in_stages_between :
    let p : Predicate := .new "between?" ["low", "high", "input"]
    let q : Predicate := { p with bound := [.int 1], fits := by decide }
    let c := Compiler.new .empty
    let params : List Param := [.bound "high" (.int 9), .unbound "input"]
    let params' : List Param := [.bound "low" (.int 1), .unbound "x", .bound "high" (.int 9)]
    let late : Rule :=
      .predicate ⟨⟨p.params, [.int 1], by decide⟩, "between?", [.int 9], by decide⟩
    let early : Rule := .predicate { p with bound := [.int 1, .int 9], fits := by decide }
    p.curryAll [[.int 1], [], [.int 9, .null], [.bool true]] = .error ⟨"between?", 3, 4⟩ ∧
      p.curry [.int 1] = .ok q ∧
      (c.extend [q]).visit (.predicate "between?" params) = .ok late ∧
      (c.extend [p]).visit (.predicate "between?" params') = .ok early ∧
      late ≠ early ∧ (late == early) = true := by
  intro p q c params params' late early
  have hq : p.curry [.int 1] = .ok q := rfl
  have hlate : (c.extend [q]).visit (.predicate "between?" params) = .ok late := by cbv
  have hearly : (c.extend [p]).visit (.predicate "between?" params') = .ok early := by cbv
  have hne : late ≠ early := fun h => by
    simp [late, early, p, Predicate.new] at h
  have hfree : ∀ v ∈ p.args ++ [.int 1] ++ params.filterMap Param.value, v.NaNFree := by
    rintro v (_ | ⟨_, _ | ⟨_, ⟨⟩⟩⟩)
    · exact .int 1
    · exact .int 9
  refine ⟨by cbv, hq, hlate, hearly, hne, ?_⟩
  rcases (curry_in_stages p).2 _ q hq c params params' (by decide) (by decide) rfl with
    ⟨r, r', hr, hr', _, hbeq⟩ | ⟨e, he, _⟩
  · obtain rfl : r = late := Except.ok.inj (hr.symm.trans hlate)
    obtain rfl : r' = early := Except.ok.inj (hr'.symm.trans hearly)
    exact hbeq.mpr hfree
  · cases hlate.symm.trans he

theorem curried_nan_unequal :
    let nan : Value := .float (0.0 / 0.0)
    let p : Predicate := .new "eql?" ["left", "right"]
    let q : Predicate := { p with bound := [nan], fits := by decide }
    let c := Compiler.new .empty
    let params : List Param := [.unbound "left", .unbound "right"]
    let params' : List Param := [.bound "left" nan, .unbound "right"]
    let late : Rule := .predicate q.registered
    let early : Rule := .predicate q
    p.curry [nan] = .ok q ∧
      params'.filterMap Param.value = [nan] ++ params.filterMap Param.value ∧
      (c.extend [q]).visit (.predicate "eql?" params) = .ok late ∧
      (c.extend [p]).visit (.predicate "eql?" params') = .ok early ∧ (late == early) = false := by
  intro nan p q c params params' late early
  have hnan : ¬nan.NaNFree := fun h => absurd (Value.nanFree_float_iff.mp h) (by decide)
  have hsurface : q.registered.surface = q.surface := rfl
  have hbeq : (q.registered == q) = false :=
    Bool.eq_false_iff.mpr fun h =>
      hnan ((beq_iff_of_surface_eq hsurface).mp h nan List.mem_cons_self)
  exact ⟨rfl, rfl, by cbv, by cbv, hbeq⟩

end Predicate

end RuleLogic
