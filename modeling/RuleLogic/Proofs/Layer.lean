import RuleLogic.Proofs.Traversal
import RuleLogic.Wire.Document

namespace RuleLogic

namespace Shape

open Traversal

variable {α β γ ε ε' : Type}

def map (f : α → β) : Shape α → Shape β
  | .predicate name params => .predicate name params
  | .check name keys body => .check name keys (f body)
  | .focused scope name body => .focused scope name (f body)
  | .modified modifier body => .modified modifier (f body)
  | .set members => .set (members.map f)
  | .joined connective left right => .joined connective (f left) (f right)

def frame (s : Shape α) : Shape Unit := s.map fun _ => ()

@[simp] theorem children_map (f : α → β) (s : Shape α) :
    (s.map f).children = s.children.map f := by
  cases s <;> rfl

@[simp] theorem frame_map (f : α → β) (s : Shape α) : (s.map f).frame = s.frame := by
  cases s with
  | set members => simp only [map, frame, List.map_map, Function.comp_def]
  | _ => rfl

theorem eq_of_frame_of_children {s t : Shape α} (hf : s.frame = t.frame)
    (hc : s.children = t.children) : s = t := by
  cases s <;> cases t <;> simp_all [frame, map, children]

theorem mapM_eq_error_iff {f : α → Except ε β} {s : Shape α} {e : ε} :
    s.mapM f = .error e ↔ s.children.mapM f = .error e := by
  cases s with
  | predicate name params => simp [mapM, children, pure, Except.pure]
  | set members => simp [mapM, children, bind_eq_error_iff]
  | _ => simp [mapM, children, bind_eq_error_iff, pure, Except.pure]

theorem frame_children_of_mapM {f : α → Except ε β} {s : Shape α} {t : Shape β}
    (h : s.mapM f = .ok t) : s.frame = t.frame ∧ s.children.mapM f = .ok t.children := by
  cases s with
  | predicate name params =>
    cases h
    exact ⟨rfl, rfl⟩
  | set members =>
    obtain ⟨ms, hms, ⟨⟩⟩ := bind_eq_ok_iff.mp h
    have hlen := (Traversal.mapM_eq_ok_iff.mp hms).length_eq
    exact ⟨by simp [frame, map, List.map_const', hlen], hms⟩
  | joined connective left right =>
    obtain ⟨l, hl, h⟩ := bind_eq_ok_iff.mp h
    obtain ⟨r, hr, ⟨⟩⟩ := bind_eq_ok_iff.mp h
    exact ⟨rfl, Traversal.mapM_eq_ok_iff.mpr (.cons hl (.cons hr .nil))⟩
  | _ =>
    obtain ⟨b, hb, ⟨⟩⟩ := bind_eq_ok_iff.mp h
    exact ⟨rfl, Traversal.mapM_eq_ok_iff.mpr (.cons hb .nil)⟩

theorem mapM_eq_ok_iff {f : α → Except ε β} {s : Shape α} {t : Shape β} :
    s.mapM f = .ok t ↔ s.frame = t.frame ∧ s.children.mapM f = .ok t.children := by
  constructor
  · exact frame_children_of_mapM
  · rintro ⟨hf, hc⟩
    -- The walk does not fail, and what it gives has the frame and the children of `t`.
    cases h : s.mapM f with
    | error e =>
      rw [mapM_eq_error_iff.mp h] at hc
      cases hc
    | ok u =>
      obtain ⟨hfu, hcu⟩ := frame_children_of_mapM h
      have hut : u.children = t.children := Except.ok.inj (hcu.symm.trans hc)
      rw [eq_of_frame_of_children (hfu.symm.trans hf) hut]

theorem mapM_map_eq_ok {f : β → Except ε γ} {g : α → β} {h : α → γ} {s : Shape α}
    (hf : ∀ a ∈ s.children, f (g a) = .ok (h a)) : (s.map g).mapM f = .ok (s.map h) := by
  rw [mapM_eq_ok_iff, frame_map, frame_map, children_map, children_map]
  exact ⟨rfl, Traversal.mapM_map_eq_ok hf⟩

theorem map_eq_map_of_mapM_eq_ok {f : α → Except ε β} {g : β → γ} {h : α → γ} {s : Shape α}
    {t : Shape β} (hgh : ∀ a ∈ s.children, ∀ b, f a = .ok b → g b = h a) (hm : s.mapM f = .ok t) :
    t.map g = s.map h := by
  obtain ⟨hframe, hchildren⟩ := mapM_eq_ok_iff.mp hm
  apply eq_of_frame_of_children
  · rw [frame_map, frame_map, hframe]
  · rw [children_map, children_map, Traversal.map_eq_map_of_mapM_eq_ok hgh hchildren]

theorem exists_mapM_eq_ok_iff {f : α → Except ε β} {s : Shape α} :
    (∃ t, s.mapM f = .ok t) ↔ ∀ a ∈ s.children, ∃ b, f a = .ok b := by
  rw [← Traversal.exists_mapM_eq_ok_iff]
  constructor
  · rintro ⟨t, h⟩
    exact ⟨t.children, (mapM_eq_ok_iff.mp h).2⟩
  · rintro ⟨bs, h⟩
    cases hs : s.mapM f with
    | ok t => exact ⟨t, rfl⟩
    | error e => cases (mapM_eq_error_iff.mp hs).symm.trans h

theorem mapM_eq_ite {f : α → Except ε β} {p : β → Prop} [DecidablePred p] {e : ε}
    {s : Shape α} {t : Shape β} (hf : s.frame = t.frame)
    (hc : List.Forall₂ (fun a b => f a = if p b then .ok b else .error e) s.children t.children) :
    s.mapM f = if ∀ b ∈ t.children, p b then .ok t else .error e := by
  have hm := Traversal.mapM_eq_ite hc
  by_cases hall : ∀ b ∈ t.children, p b
  · rw [if_pos hall] at hm ⊢
    exact mapM_eq_ok_iff.mpr ⟨hf, hm⟩
  · rw [if_neg hall] at hm ⊢
    exact mapM_eq_error_iff.mpr hm

theorem mapM_mapError (f : α → Except ε β) (g : ε → ε') (s : Shape α) :
    (s.mapM fun a => (f a).mapError g) = (s.mapM f).mapError g := by
  have hchildren := Traversal.mapM_mapError f g s.children
  cases hs : s.mapM f with
  | error e =>
    refine mapM_eq_error_iff.mpr ?_
    rw [hchildren, mapM_eq_error_iff.mp hs]
    rfl
  | ok t =>
    obtain ⟨hframe, hm⟩ := mapM_eq_ok_iff.mp hs
    refine mapM_eq_ok_iff.mpr ⟨hframe, ?_⟩
    rw [hchildren, hm]
    rfl

theorem mapM_congr {f g : α → Except ε β} {s : Shape α}
    (h : s.children.mapM f = s.children.mapM g) : s.mapM f = s.mapM g := by
  cases hs : s.mapM g with
  | error e => rw [mapM_eq_error_iff, h, ← mapM_eq_error_iff, hs]
  | ok t => rw [mapM_eq_ok_iff, h, ← mapM_eq_ok_iff, hs]

theorem failure?_mapM (f : α → Except ε β) (s : Shape α) :
    failure? (s.mapM f) = s.children.findSome? fun a => failure? (f a) := by
  rw [← Traversal.failure?_mapM]
  ext e
  rw [failure?_eq_some_iff, failure?_eq_some_iff, mapM_eq_error_iff]

theorem mapM_cut {f g : α → Except ε β} {e : ε} {s : Shape α}
    (h : ∀ a ∈ s.children, f a = .error e ∨ f a = g a) :
    s.mapM f = .error e ∨ s.mapM f = s.mapM g := by
  rcases Traversal.mapM_cut h with hcut | heq
  · exact .inl (mapM_eq_error_iff.mpr hcut)
  · exact .inr (mapM_congr heq)

end Shape

namespace Node

open Traversal

def shape : Node → Shape Node
  | .predicate name params => .predicate name params
  | .check name keys body => .check name keys body
  | .focused scope name body => .focused scope name body
  | .modified modifier body => .modified modifier body
  | .set members => .set members
  | .joined connective left right => .joined connective left right

@[simp] theorem toNode_shape (n : Node) : n.shape.toNode = n := by
  cases n <;> rfl

@[simp] theorem shape_toNode (s : Shape Node) : s.toNode.shape = s := by
  cases s <;> rfl

theorem induction {motive : Node → Prop}
    (step : ∀ n, (∀ c ∈ n.shape.children, motive c) → motive n) : ∀ n, motive n
  | .predicate name params => step (.predicate name params) (List.forall_mem_nil motive)
  | .check name keys body =>
    step (.check name keys body) (List.forall_mem_singleton.mpr (Node.induction step body))
  | .focused scope name body =>
    step (.focused scope name body) (List.forall_mem_singleton.mpr (Node.induction step body))
  | .modified modifier body =>
    step (.modified modifier body) (List.forall_mem_singleton.mpr (Node.induction step body))
  | .set members => step (.set members) fun c (_ : c ∈ members) => Node.induction step c
  | .joined connective left right =>
    have hright := List.forall_mem_singleton.mpr (Node.induction step right)
    step (.joined connective left right)
      (List.forall_mem_cons.mpr ⟨Node.induction step left, hright⟩)

theorem ofJsonWithin_succ_eq_ok_iff {limit room : Nat} {j : Json} {n : Node} :
    ofJsonWithin limit (room + 1) j = .ok n ↔
      ∃ s, Shape.ofJson j = .ok s ∧ s.mapM (ofJsonWithin limit room) = .ok n.shape := by
  simp only [ofJsonWithin, bind_eq_ok_iff]
  constructor
  · rintro ⟨s, hs, t, ht, ⟨⟩⟩
    rw [shape_toNode]
    exact ⟨s, hs, ht⟩
  · rintro ⟨s, hs, ht⟩
    exact ⟨s, hs, n.shape, ht, by rw [toNode_shape]⟩

theorem ofJsonWithin_succ_eq_error_iff {limit room : Nat} {j : Json} {e : DecodeError} :
    ofJsonWithin limit (room + 1) j = .error e ↔
      Shape.ofJson j = .error e ∨
        ∃ s, Shape.ofJson j = .ok s ∧ s.mapM (ofJsonWithin limit room) = .error e := by
  simp only [ofJsonWithin, bind_eq_error_iff]
  constructor
  · rintro (hs | ⟨s, hs, ht | ⟨t, _, ⟨⟩⟩⟩)
    · exact .inl hs
    · exact .inr ⟨s, hs, ht⟩
  · rintro (hs | ⟨s, hs, ht⟩)
    · exact .inl hs
    · exact .inr ⟨s, hs, .inl ht⟩

theorem toJson_eq (n : Node) : n.toJson = (n.shape.map toJson).toJson := by
  cases n with
  | set members => rw [toJson, membersToJson_eq_map]; rfl
  | _ => rfl

end Node

end RuleLogic
