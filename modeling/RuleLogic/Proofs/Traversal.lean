import Mathlib.Data.List.Forall2

namespace RuleLogic.Traversal

variable {α β γ ε ε' : Type}

theorem exists_mem_of_forall₂ {R : α → β → Prop} {xs : List α} {ys : List β}
    (h : List.Forall₂ R xs ys) : ∀ x ∈ xs, ∃ y ∈ ys, R x y := by
  induction h with
  | nil => exact fun _ hx => by cases hx
  | @cons x y xs ys hxy _ ih =>
    intro z hz
    rcases List.mem_cons.mp hz with rfl | hz
    · exact ⟨y, List.mem_cons_self, hxy⟩
    · obtain ⟨w, hw, hzw⟩ := ih z hz
      exact ⟨w, List.mem_cons_of_mem y hw, hzw⟩

theorem forall_mem_congr_of_forall₂ {p : α → Prop} {q : β → Prop} {xs : List α} {ys : List β}
    (h : List.Forall₂ (fun x y => p x ↔ q y) xs ys) : (∀ x ∈ xs, p x) ↔ ∀ y ∈ ys, q y := by
  induction h with
  | nil => simp
  | cons hxy _ ih => rw [List.forall_mem_cons, List.forall_mem_cons, hxy, ih]

theorem bind_eq_ok_iff {x : Except ε α} {k : α → Except ε β} {b : β} :
    (x >>= k) = .ok b ↔ ∃ a, x = .ok a ∧ k a = .ok b := by
  cases x with
  | error e => simp [bind, Except.bind]
  | ok a => simp [bind, Except.bind]

theorem bind_eq_error_iff {x : Except ε α} {k : α → Except ε β} {e : ε} :
    (x >>= k) = .error e ↔ x = .error e ∨ ∃ a, x = .ok a ∧ k a = .error e := by
  cases x with
  | error e' => simp [bind, Except.bind]
  | ok a => simp [bind, Except.bind]

theorem mapError_eq_ok_iff {x : Except ε α} {f : ε → ε'} {a : α} :
    x.mapError f = .ok a ↔ x = .ok a := by
  cases x with
  | error e => simp [Except.mapError]
  | ok b => simp [Except.mapError]

theorem mapError_eq_error_iff {x : Except ε α} {f : ε → ε'} {e' : ε'} :
    x.mapError f = .error e' ↔ ∃ e, x = .error e ∧ f e = e' := by
  cases x with
  | error e => simp [Except.mapError]
  | ok b => simp [Except.mapError]

theorem bind_mapError (x : Except ε α) (k : α → Except ε β) (f : ε → ε') :
    (x >>= k).mapError f = x.mapError f >>= fun a => (k a).mapError f := by
  cases x <;> rfl

def failure? : Except ε α → Option ε
  | .ok _ => none
  | .error e => some e

theorem failure?_eq_none_iff {x : Except ε α} : failure? x = none ↔ ∃ a, x = .ok a := by
  cases x <;> simp [failure?]

theorem failure?_eq_some_iff {x : Except ε α} {e : ε} : failure? x = some e ↔ x = .error e := by
  cases x <;> simp [failure?]

theorem failure?_bind_ok (x : Except ε α) (k : α → β) :
    failure? (x >>= fun a => .ok (k a)) = failure? x := by
  cases x <;> rfl

theorem failure?_map (f : α → β) (x : Except ε α) : failure? (x.map f) = failure? x := by
  cases x <;> rfl

theorem failure?_mapError (f : ε → ε') (x : Except ε α) :
    failure? (x.mapError f) = (failure? x).map f := by
  cases x <;> rfl

theorem failure?_mapM (f : α → Except ε β) (xs : List α) :
    failure? (xs.mapM f) = xs.findSome? fun x => failure? (f x) := by
  induction xs with
  | nil => rfl
  | cons x xs ih =>
    rw [List.mapM_cons, List.findSome?_cons, ← ih]
    cases f x with
    | error e => rfl
    | ok y => cases xs.mapM f <;> rfl

def FailsFirst (f : α → Except ε β) (xs : List α) (e : ε) : Prop :=
  ∃ before x after, xs = before ++ x :: after ∧ (∀ y ∈ before, ∃ z, f y = .ok z) ∧ f x = .error e

theorem mapM_eq_error_iff {f : α → Except ε β} {xs : List α} {e : ε} :
    xs.mapM f = .error e ↔ FailsFirst f xs e := by
  rw [← failure?_eq_some_iff, failure?_mapM, List.findSome?_eq_some_iff, FailsFirst]
  simp only [failure?_eq_some_iff, failure?_eq_none_iff]
  constructor
  · rintro ⟨before, x, after, hxs, hx, hbefore⟩
    exact ⟨before, x, after, hxs, hbefore, hx⟩
  · rintro ⟨before, x, after, hxs, hbefore, hx⟩
    exact ⟨before, x, after, hxs, hx, hbefore⟩

theorem mapM_eq_ok_iff {f : α → Except ε β} {xs : List α} {ys : List β} :
    xs.mapM f = .ok ys ↔ List.Forall₂ (fun x y => f x = .ok y) xs ys := by
  induction xs generalizing ys with
  | nil =>
    rw [List.mapM_nil, List.forall₂_nil_left_iff]
    constructor
    · rintro ⟨⟩
      rfl
    · rintro rfl
      rfl
  | cons x xs ih =>
    rw [List.mapM_cons, bind_eq_ok_iff, List.forall₂_cons_left_iff]
    simp only [bind_eq_ok_iff, ih]
    constructor
    · rintro ⟨y, hy, ys', hys, ⟨⟩⟩
      exact ⟨y, ys', hy, hys, rfl⟩
    · rintro ⟨y, ys', hy, hys, rfl⟩
      exact ⟨y, hy, ys', hys, rfl⟩

theorem mapM_congr {f g : α → Except ε β} {xs : List α} (h : ∀ x ∈ xs, f x = g x) :
    xs.mapM f = xs.mapM g := by
  induction xs with
  | nil => rfl
  | cons x xs ih =>
    obtain ⟨hx, hxs⟩ := List.forall_mem_cons.mp h
    rw [List.mapM_cons, List.mapM_cons, hx, ih hxs]

theorem mapM_map_eq_ok {f : β → Except ε γ} {g : α → β} {h : α → γ} {xs : List α}
    (hf : ∀ x ∈ xs, f (g x) = .ok (h x)) : (xs.map g).mapM f = .ok (xs.map h) := by
  rw [mapM_eq_ok_iff, List.forall₂_map_left_iff, List.forall₂_map_right_iff, List.forall₂_same]
  exact hf

theorem map_eq_map_of_mapM_eq_ok {f : α → Except ε β} {g : β → γ} {h : α → γ} {xs : List α}
    {ys : List β} (hgh : ∀ x ∈ xs, ∀ y, f x = .ok y → g y = h x) (hm : xs.mapM f = .ok ys) :
    ys.map g = xs.map h := by
  have hall := mapM_eq_ok_iff.mp hm
  clear hm
  induction hall with
  | nil => rfl
  | @cons x y xs ys hy _ ih =>
    have hxs := ih fun z hz => hgh z (List.mem_cons_of_mem x hz)
    rw [List.map_cons, List.map_cons, hgh x List.mem_cons_self y hy, hxs]

theorem mapM_append_eq_ok_iff {f : α → Except ε β} {xs xs' : List α} {zs : List β} :
    (xs ++ xs').mapM f = .ok zs ↔
      ∃ ys ys', xs.mapM f = .ok ys ∧ xs'.mapM f = .ok ys' ∧ zs = ys ++ ys' := by
  simp only [List.mapM_append, bind_eq_ok_iff]
  constructor
  · rintro ⟨ys, hys, ys', hys', ⟨⟩⟩
    exact ⟨ys, ys', hys, hys', rfl⟩
  · rintro ⟨ys, ys', hys, hys', rfl⟩
    exact ⟨ys, hys, ys', hys', rfl⟩

theorem mapM_mapError (f : α → Except ε β) (g : ε → ε') (xs : List α) :
    (xs.mapM fun x => (f x).mapError g) = (xs.mapM f).mapError g := by
  induction xs with
  | nil => rfl
  | cons x xs ih =>
    rw [List.mapM_cons, List.mapM_cons, ih]
    cases f x with
    | error e => rfl
    | ok y => cases xs.mapM f <;> rfl

theorem foldlM_eq_error_iff {f : β → α → Except ε β} {b : β} {xs : List α} {e : ε} :
    xs.foldlM f b = .error e ↔
      ∃ before x after c, xs = before ++ x :: after ∧ before.foldlM f b = .ok c ∧
        f c x = .error e := by
  induction xs generalizing b with
  | nil => simp [pure, Except.pure]
  | cons x xs ih =>
    rw [List.foldlM_cons, bind_eq_error_iff]
    constructor
    · rintro (hx | ⟨c, hx, hxs⟩)
      · exact ⟨[], x, xs, b, rfl, rfl, hx⟩
      · obtain ⟨before, y, after, d, rfl, hbefore, hy⟩ := ih.mp hxs
        refine ⟨x :: before, y, after, d, rfl, ?_, hy⟩
        rw [List.foldlM_cons, bind_eq_ok_iff]
        exact ⟨c, hx, hbefore⟩
    · rintro ⟨before, y, after, d, hxs, hbefore, hy⟩
      cases before with
      | nil =>
        cases hxs
        cases hbefore
        exact .inl hy
      | cons z before =>
        cases hxs
        rw [List.foldlM_cons, bind_eq_ok_iff] at hbefore
        obtain ⟨c, hx, hbefore⟩ := hbefore
        exact .inr ⟨c, hx, ih.mpr ⟨before, y, after, d, rfl, hbefore, hy⟩⟩

theorem exists_of_mem_of_mapM_eq_ok {f : α → Except ε β} {xs : List α} {ys : List β} {y : β}
    (hm : xs.mapM f = .ok ys) (hy : y ∈ ys) : ∃ x ∈ xs, f x = .ok y :=
  exists_mem_of_forall₂ (mapM_eq_ok_iff.mp hm).flip y hy

theorem exists_of_mapM_eq_error {f : α → Except ε β} {xs : List α} {e : ε}
    (h : xs.mapM f = .error e) : ∃ x ∈ xs, f x = .error e := by
  obtain ⟨before, x, after, rfl, _, hx⟩ := mapM_eq_error_iff.mp h
  exact ⟨x, List.mem_append_cons_self, hx⟩

theorem exists_mapM_eq_ok_iff {f : α → Except ε β} {xs : List α} :
    (∃ ys, xs.mapM f = .ok ys) ↔ ∀ x ∈ xs, ∃ y, f x = .ok y := by
  constructor
  · rintro ⟨ys, h⟩ x hx
    obtain ⟨y, _, hy⟩ := exists_mem_of_forall₂ (mapM_eq_ok_iff.mp h) x hx
    exact ⟨y, hy⟩
  · intro h
    cases hxs : xs.mapM f with
    | ok ys => exact ⟨ys, rfl⟩
    | error e =>
      obtain ⟨x, hx, he⟩ := exists_of_mapM_eq_error hxs
      obtain ⟨y, hy⟩ := h x hx
      cases he.symm.trans hy

theorem mapM_eq_ite {f : α → Except ε β} {p : β → Prop} [DecidablePred p] {e : ε}
    {xs : List α} {ys : List β}
    (h : List.Forall₂ (fun x y => f x = if p y then .ok y else .error e) xs ys) :
    xs.mapM f = if ∀ y ∈ ys, p y then .ok ys else .error e := by
  induction h with
  | nil => rfl
  | @cons x y xs ys hx _ ih =>
    rw [List.mapM_cons, hx, ih]
    by_cases hy : p y
    · by_cases hys : ∀ z ∈ ys, p z
      · rw [if_pos hy, if_pos hys, if_pos (List.forall_mem_cons.mpr ⟨hy, hys⟩)]
        rfl
      · rw [if_pos hy, if_neg hys, if_neg fun hall => hys (List.forall_mem_cons.mp hall).2]
        rfl
    · rw [if_neg hy, if_neg fun hall => hy (List.forall_mem_cons.mp hall).1]
      rfl

theorem mapM_cut {f g : α → Except ε β} {e : ε} {xs : List α}
    (h : ∀ x ∈ xs, f x = .error e ∨ f x = g x) :
    xs.mapM f = .error e ∨ xs.mapM f = xs.mapM g := by
  induction xs with
  | nil => exact .inr rfl
  | cons x xs ih =>
    have hxs := ih fun y hy => h y (List.mem_cons_of_mem x hy)
    rw [List.mapM_cons, List.mapM_cons]
    rcases h x List.mem_cons_self with hx | hx
    · rw [hx]
      exact .inl rfl
    · rw [hx]
      cases hg : g x with
      | error e' => exact .inr rfl
      | ok y =>
        rcases hxs with hcut | heq
        · rw [hcut]
          exact .inl rfl
        · rw [heq]
          exact .inr rfl

-- `x` is the result within the smaller of two limits, and `e` says that this limit is exceeded.
structure IsCut (e e' : ε) (x x' : Except ε α) : Prop where
  of_exceeded : x' = .error e' → x = .error e
  of_not_exceeded : x' ≠ .error e' → x = x' ∨ x = .error e
  ok_of_ok : ∀ a, x = .ok a → x' = .ok a
  error_of_error : ∀ f, f ≠ e → x = .error f → x' = .error f

theorem isCut_of_cut {e e' : ε} {x x' : Except ε α} (hcut : x = .error e ∨ x = x')
    (hown : x = .error e' → e' = e) : IsCut e e' x x' where
  of_exceeded h := by
    rcases hcut with hx | hx
    · exact hx
    · have hx' := hx.trans h
      rw [hx', hown hx']
  of_not_exceeded _ := hcut.symm
  ok_of_ok a h := by
    rcases hcut with hx | hx
    · cases hx.symm.trans h
    · exact hx.symm.trans h
  error_of_error f hf h := by
    rcases hcut with hx | hx
    · exact absurd (Except.error.inj (h.symm.trans hx)) hf
    · exact hx.symm.trans h

theorem findSome?_flatMap (f : β → Option γ) (g : α → List β) (xs : List α) :
    (xs.flatMap g).findSome? f = xs.findSome? fun x => (g x).findSome? f := by
  simp only [← List.head?_filterMap, List.filterMap_flatMap, List.head?_flatMap]

theorem findSome?_preorder (f : β → Option γ) (g : α → List β) (y : β) (xs : List α) :
    (y :: xs.flatMap g).findSome? f = (f y).or (xs.findSome? fun x => (g x).findSome? f) := by
  rw [List.findSome?_cons, findSome?_flatMap]
  cases f y <;> rfl

end RuleLogic.Traversal
