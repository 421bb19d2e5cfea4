import Mathlib.Data.List.Basic

namespace RuleLogic.Delimited

theorem intercalate_cons {α : Type} (separator first : List α) (others : List (List α)) :
    separator.intercalate (first :: others) = first ++ others.flatMap (separator ++ ·) := by
  induction others generalizing first with
  | nil => rw [List.intercalate_singleton, List.flatMap_nil, List.append_nil]
  | cons second others ih =>
    rw [List.intercalate_cons_cons, ih, List.flatMap_cons, List.append_assoc, List.append_assoc]

section Breaks

variable {p : Char → Bool} {xs ys rest rest' : List Char}

theorem append_inj_of_forall (hxs : ∀ c ∈ xs, p c = true) (hys : ∀ c ∈ ys, p c = true)
    (hrest : ∀ c ∈ rest.head?, p c = false) (hrest' : ∀ c ∈ rest'.head?, p c = false)
    (h : xs ++ rest = ys ++ rest') : xs = ys ∧ rest = rest' := by
  induction xs generalizing ys with
  | nil =>
    cases ys with
    | nil => exact ⟨rfl, h⟩
    | cons y ys =>
      have hhead : y ∈ rest.head? := congrArg List.head? h
      exact absurd (hys y List.mem_cons_self) (Bool.eq_false_iff.mp (hrest y hhead))
  | cons x xs ih =>
    obtain ⟨hx, hxs⟩ := List.forall_mem_cons.mp hxs
    cases ys with
    | nil =>
      have hhead : x ∈ rest'.head? := congrArg List.head? h.symm
      exact absurd hx (Bool.eq_false_iff.mp (hrest' x hhead))
    | cons y ys =>
      obtain ⟨rfl, htail⟩ := List.cons.inj h
      obtain ⟨rfl, hrest⟩ := ih hxs (List.forall_mem_cons.mp hys).2 htail
      exact ⟨rfl, hrest⟩

def inWord (c : Char) : Bool := c.isAlphanum || c = '_' || c = '?' || c = '-'

def IsWord (cs : List Char) : Prop := ∀ c ∈ cs, inWord c = true

instance (cs : List Char) : Decidable (IsWord cs) := List.decidableBAll _ cs

def Breaks (rest : List Char) : Prop := ∀ c ∈ rest.head?, inWord c = false

theorem breaks_cons {c : Char} (h : inWord c = false) (rest : List Char) : Breaks (c :: rest) := by
  rintro _ ⟨⟩
  exact h

theorem word_append_inj (hxs : IsWord xs) (hys : IsWord ys) (hrest : Breaks rest)
    (hrest' : Breaks rest') (h : xs ++ rest = ys ++ rest') : xs = ys ∧ rest = rest' :=
  append_inj_of_forall hxs hys hrest hrest' h

theorem word_append_ne (hxs : IsWord xs) (hne : xs ≠ []) {c : Char} (hc : inWord c = false)
    (rest rest' : List Char) : xs ++ rest ≠ c :: rest' := by
  cases xs with
  | nil => exact absurd rfl hne
  | cons x xs =>
    intro h
    obtain ⟨rfl, _⟩ := List.cons.inj h
    exact absurd (hxs _ List.mem_cons_self) (Bool.eq_false_iff.mp hc)

end Breaks

section Items

variable {α β : Type} {P : α → Prop} {text : α → List Char} {f : α → β}

-- Where the text of `x` starts, no other text of `P` that shows something else can be read.
def Reads (P : α → Prop) (text : α → List Char) (f : α → β) (x : α) : Prop :=
  ∀ y, P y → ∀ rest rest', Breaks rest → Breaks rest' → text x ++ rest = text y ++ rest' →
    f x = f y ∧ rest = rest'

theorem Reads.before {x y : α} {c : Char} {rest rest' : List Char} (h : Reads P text f x) (hy : P y)
    (hc : inWord c = false) (heq : text x ++ c :: rest = text y ++ c :: rest') :
    f x = f y ∧ rest = rest' := by
  obtain ⟨hf, hrests⟩ := h y hy _ _ (breaks_cons hc _) (breaks_cons hc _) heq
  exact ⟨hf, (List.cons.inj hrests).2⟩

theorem Reads.symm {x y : α} {rest rest' : List Char} (h : Reads P text f x) (hy : P y)
    (hrest : Breaks rest) (hrest' : Breaks rest') (heq : text y ++ rest = text x ++ rest') :
    f y = f x ∧ rest = rest' := by
  obtain ⟨hf, hrests⟩ := h y hy rest' rest hrest' hrest heq.symm
  exact ⟨hf.symm, hrests.symm⟩

def separator : List Char := [',', ' ']

theorem intercalate_cons_map (x : α) (xs : List α) :
    separator.intercalate ((x :: xs).map text) = text x ++ xs.flatMap (separator ++ text ·) := by
  rw [List.map_cons, intercalate_cons, List.flatMap_map]

variable {close : Char} {xs ys : List α} {rest rest' : List Char}

theorem breaks_flatMap_append (hclose : inWord close = false) :
    Breaks (xs.flatMap (separator ++ text ·) ++ close :: rest) := by
  cases xs with
  | nil => exact breaks_cons hclose _
  | cons x xs => exact breaks_cons (by decide) _

theorem flatMap_append_inj (hclose : inWord close = false) (hcomma : close ≠ ',')
    (hxs : ∀ x ∈ xs, Reads P text f x) (hys : ∀ y ∈ ys, P y)
    (h : xs.flatMap (separator ++ text ·) ++ close :: rest =
      ys.flatMap (separator ++ text ·) ++ close :: rest') :
    xs.map f = ys.map f ∧ rest = rest' := by
  induction xs generalizing ys with
  | nil =>
    cases ys with
    | nil => exact ⟨rfl, (List.cons.inj h).2⟩
    | cons y ys => exact absurd (List.cons.inj h).1 hcomma
  | cons x xs ih =>
    cases ys with
    | nil => exact absurd (List.cons.inj h).1.symm hcomma
    | cons y ys =>
      obtain ⟨hx, hxs⟩ := List.forall_mem_cons.mp hxs
      obtain ⟨hy, hys⟩ := List.forall_mem_cons.mp hys
      simp only [List.flatMap_cons, List.append_assoc, List.append_cancel_left_eq] at h
      obtain ⟨hxy, h⟩ := hx y hy _ _ (breaks_flatMap_append hclose) (breaks_flatMap_append hclose) h
      obtain ⟨hmap, hrest⟩ := ih hxs hys h
      exact ⟨by rw [List.map_cons, List.map_cons, hxy, hmap], hrest⟩

theorem items_append_inj (hclose : inWord close = false) (hcomma : close ≠ ',')
    (hstart : ∀ x, P x → ∀ rest rest', text x ++ rest ≠ close :: rest')
    (hPxs : ∀ x ∈ xs, P x) (hxs : ∀ x ∈ xs, Reads P text f x) (hys : ∀ y ∈ ys, P y)
    (h : separator.intercalate (xs.map text) ++ close :: rest =
      separator.intercalate (ys.map text) ++ close :: rest') :
    xs.map f = ys.map f ∧ rest = rest' := by
  cases xs with
  | nil =>
    cases ys with
    | nil => exact ⟨rfl, (List.cons.inj h).2⟩
    | cons y ys =>
      rw [intercalate_cons_map, List.append_assoc] at h
      exact absurd h.symm (hstart y (hys y List.mem_cons_self) _ _)
  | cons x xs =>
    cases ys with
    | nil =>
      rw [intercalate_cons_map, List.append_assoc] at h
      exact absurd h (hstart x (hPxs x List.mem_cons_self) _ _)
    | cons y ys =>
      rw [intercalate_cons_map, intercalate_cons_map] at h
      refine flatMap_append_inj hclose hcomma hxs hys ?_
      rw [List.append_assoc, List.append_assoc] at h
      simp only [List.flatMap_cons, List.append_assoc, h]

end Items

end RuleLogic.Delimited
