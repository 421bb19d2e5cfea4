import RuleLogic.Proofs.Layer

namespace RuleLogic

namespace Json

inductive ObjectFree : Json → Prop
  | null : ObjectFree .null
  | bool (b : Bool) : ObjectFree (.bool b)
  | int (n : Int64) : ObjectFree (.int n)
  | float (x : FiniteFloat) : ObjectFree (.float x)
  | str (s : String) : ObjectFree (.str s)
  | array {items : List Json} (h : ∀ j ∈ items, ObjectFree j) : ObjectFree (.array items)

inductive IsParam : Json → Prop
  | unbound (name : String) : IsParam (.array [.str name])
  | bound (name : String) {value : Json} (h : ObjectFree value) :
    IsParam (.array [.str name, value])

inductive IsPayload : (word : String) → (payload : Json) → (children : List Json) → Prop
  | predicate (name : String) {params : List Json} (h : ∀ p ∈ params, IsParam p) :
    IsPayload "predicate" (.array [.str name, .array params]) []
  | check (name : String) (node : Json) :
    IsPayload "check" (.array [.str name, node]) [node]
  | checkNull (name : String) (node : Json) :
    IsPayload "check" (.array [.str name, node, .null]) [node]
  | checkKeys (name : String) (node : Json) (keys : List String) :
    IsPayload "check" (.array [.str name, node, .array (keys.map .str)]) [node]
  | named {word : String} (h : word ∈ ["key", "attr"]) (name : String) (node : Json) :
    IsPayload word (.array [.str name, node]) [node]
  | bare {word : String} (h : word ∈ ["not", "val", "each"]) (node : Json) :
    IsPayload word node [node]
  | set (nodes : List Json) : IsPayload "set" (.array nodes) nodes
  | sides {word : String} (h : word ∈ ["and", "or", "xor", "implication"]) (left right : Json) :
    IsPayload word (.array [left, right]) [left, right]

inductive IsNode (limit : Nat) : Nat → Json → Prop
  | intro {depth : Nat} {word : String} {payload : Json} {children : List Json}
    (hdepth : depth ≤ limit) (hpayload : IsPayload word payload children)
    (hchildren : ∀ c ∈ children, IsNode limit (depth + 1) c) :
    IsNode limit depth (.array [.str word, payload])

end Json

namespace Value

open Json

mutual

theorem exists_ofJson?_iff (j : Json) : (∃ v, ofJson? j = some v) ↔ ObjectFree j := by
  cases j with
  | null => exact ⟨fun _ => .null, fun _ => ⟨_, rfl⟩⟩
  | bool b => exact ⟨fun _ => .bool b, fun _ => ⟨_, rfl⟩⟩
  | int n => exact ⟨fun _ => .int n, fun _ => ⟨_, rfl⟩⟩
  | float x => exact ⟨fun _ => .float x, fun _ => ⟨_, rfl⟩⟩
  | str s => exact ⟨fun _ => .str s, fun _ => ⟨_, rfl⟩⟩
  | object members =>
    constructor
    · rintro ⟨v, ⟨⟩⟩
    · rintro ⟨⟩
  | array items =>
    constructor
    · rintro ⟨v, hv⟩
      obtain ⟨vs, hvs, _⟩ := Option.map_eq_some_iff.mp hv
      exact .array ((exists_itemsOfJson?_iff items).mp ⟨vs, hvs⟩)
    · rintro (_ | _ | _ | _ | _ | hitems)
      obtain ⟨vs, hvs⟩ := (exists_itemsOfJson?_iff items).mpr hitems
      exact ⟨.list vs, Option.map_eq_some_iff.mpr ⟨vs, hvs, rfl⟩⟩

theorem exists_itemsOfJson?_iff (js : List Json) :
    (∃ vs, itemsOfJson? js = some vs) ↔ ∀ j ∈ js, ObjectFree j := by
  cases js with
  | nil =>
    constructor
    · intro _ j hj
      cases hj
    · intro _
      exact ⟨[], rfl⟩
  | cons j js =>
    rw [List.forall_mem_cons, ← exists_ofJson?_iff j, ← exists_itemsOfJson?_iff js]
    constructor
    · rintro ⟨ws, h⟩
      rw [itemsOfJson?] at h
      split at h
      · rename_i v vs hv hvs
        exact ⟨⟨v, hv⟩, ⟨vs, hvs⟩⟩
      · cases h
    · rintro ⟨⟨v, hv⟩, ⟨vs, hvs⟩⟩
      exact ⟨v :: vs, by rw [itemsOfJson?, hv, hvs]⟩

end

end Value

namespace Param

open Json

theorem exists_ofJson_iff (predicate : String) {j : Json} :
    (∃ p, ofJson predicate j = .ok p) ↔ IsParam j := by
  constructor
  · rintro ⟨p, h⟩
    unfold ofJson at h
    split at h
    · exact .unbound _
    · rename_i name value
      split at h
      · rename_i v hv
        exact .bound name ((Value.exists_ofJson?_iff value).mp ⟨v, hv⟩)
      · cases h
    · cases h
  · intro h
    cases h with
    | unbound name => exact ⟨.unbound name, rfl⟩
    | @bound name value hvalue =>
      obtain ⟨v, hv⟩ := (Value.exists_ofJson?_iff value).mpr hvalue
      exact ⟨.bound name v, by simp only [ofJson, hv]⟩

end Param

namespace Shape

open Json Traversal

theorem header_eq_ok_iff {j payload : Json} {tag : Tag} :
    header j = .ok (tag, payload) ↔ j = .array [.str tag.word, payload] := by
  constructor
  · intro h
    unfold header at h
    split at h
    · cases h
    · split at h
      · cases h
      · rename_i tag' htag
        split at h
        · cases h
          rw [Tag.ofWord?_eq_some_iff.mp htag]
        · cases h
    · cases h
    · cases h
  · rintro rfl
    simp only [header, Tag.ofWord?_word]

theorem ofJson_eq_ok_iff {j : Json} {s : Shape Json} :
    ofJson j = .ok s ↔
      ∃ tag payload, j = .array [.str (Tag.word tag), payload] ∧ ofPayload tag payload = .ok s := by
  constructor
  · intro h
    obtain ⟨⟨tag, payload⟩, hheader, hpayload⟩ := bind_eq_ok_iff.mp h
    exact ⟨tag, payload, header_eq_ok_iff.mp hheader, hpayload⟩
  · rintro ⟨tag, payload, rfl, hpayload⟩
    exact bind_eq_ok_iff.mpr ⟨(tag, payload), header_eq_ok_iff.mpr rfl, hpayload⟩

theorem mapM_keyOfJson_eq_ok_iff {items : List Json} {keys : List String} :
    items.mapM keyOfJson = .ok keys ↔ items = keys.map .str := by
  rw [Traversal.mapM_eq_ok_iff]
  constructor
  · intro h
    induction h with
    | nil => rfl
    | @cons item key items keys hitem _ ih =>
      unfold keyOfJson at hitem
      split at hitem
      · cases hitem
        rw [List.map_cons, ih]
      · cases hitem
  · rintro rfl
    rw [List.forall₂_map_left_iff, List.forall₂_same]
    exact fun _ _ => rfl

theorem isPayload_of_ofPayload {tag : Tag} {payload : Json} {s : Shape Json}
    (h : ofPayload tag payload = .ok s) : IsPayload tag.word payload s.children := by
  unfold ofPayload at h
  split at h
  · obtain ⟨ps, hps, ⟨⟩⟩ := bind_eq_ok_iff.mp h
    have hall := Traversal.exists_mapM_eq_ok_iff.mp ⟨ps, hps⟩
    exact .predicate _ fun p hp => (Param.exists_ofJson_iff _).mp (hall p hp)
  · cases h
  · cases h
    exact .check _ _
  · obtain ⟨keys, hkeys, ⟨⟩⟩ := bind_eq_ok_iff.mp h
    unfold keysOfJson at hkeys
    split at hkeys
    · exact .checkNull _ _
    · obtain ⟨ks, hks, ⟨⟩⟩ := bind_eq_ok_iff.mp hkeys
      rw [mapM_keyOfJson_eq_ok_iff.mp hks]
      exact .checkKeys _ _ ks
    · cases hkeys
  · cases h
  · rename_i scope name body
    cases h
    exact .named (by cases scope <;> decide) name body
  · cases h
  · rename_i modifier
    cases h
    exact .bare (by cases modifier <;> decide) payload
  · cases h
    exact .set _
  · cases h
  · rename_i connective left right
    cases h
    exact .sides (by cases connective <;> decide) left right
  · cases h

theorem ofPayload_of_isPayload {word : String} {payload : Json} {cs : List Json}
    (h : IsPayload word payload cs) :
    ∃ tag s, word = tag.word ∧ ofPayload tag payload = .ok s ∧ s.children = cs := by
  cases h with
  | predicate name hparams =>
    have hall := fun p hp => (Param.exists_ofJson_iff name).mpr (hparams p hp)
    obtain ⟨ps, hps⟩ := Traversal.exists_mapM_eq_ok_iff.mpr hall
    exact ⟨.predicate, .predicate name ps, rfl, bind_eq_ok_iff.mpr ⟨ps, hps, rfl⟩, rfl⟩
  | check name node => exact ⟨.check, .check name none node, rfl, rfl, rfl⟩
  | checkNull name node => exact ⟨.check, .check name none node, rfl, rfl, rfl⟩
  | checkKeys name node keys =>
    have hks := mapM_keyOfJson_eq_ok_iff.mpr (rfl : keys.map Json.str = keys.map Json.str)
    have hkeys : keysOfJson (.array (keys.map .str)) = .ok (some keys) :=
      bind_eq_ok_iff.mpr ⟨keys, hks, rfl⟩
    refine ⟨.check, .check name (some keys) node, rfl, ?_, rfl⟩
    exact bind_eq_ok_iff.mpr ⟨some keys, hkeys, rfl⟩
  | named hword name node =>
    rcases List.mem_pair.mp hword with rfl | rfl
    · exact ⟨.scope .key, .focused .key name node, rfl, rfl, rfl⟩
    · exact ⟨.scope .attr, .focused .attr name node, rfl, rfl, rfl⟩
  | bare hword =>
    simp only [List.mem_cons, List.not_mem_nil, or_false] at hword
    rcases hword with rfl | rfl | rfl
    · exact ⟨.modifier .not, .modified .not payload, rfl, rfl, rfl⟩
    · exact ⟨.modifier .val, .modified .val payload, rfl, rfl, rfl⟩
    · exact ⟨.modifier .each, .modified .each payload, rfl, rfl, rfl⟩
  | set => exact ⟨.set, .set cs, rfl, rfl, rfl⟩
  | sides hword left right =>
    simp only [List.mem_cons, List.not_mem_nil, or_false] at hword
    rcases hword with rfl | rfl | rfl | rfl
    · exact ⟨.connective .and, .joined .and left right, rfl, rfl, rfl⟩
    · exact ⟨.connective .or, .joined .or left right, rfl, rfl, rfl⟩
    · exact ⟨.connective .xor, .joined .xor left right, rfl, rfl, rfl⟩
    · exact ⟨.connective .implication, .joined .implication left right, rfl, rfl, rfl⟩

theorem exists_ofJson_iff {j : Json} {cs : List Json} :
    (∃ s, ofJson j = .ok s ∧ s.children = cs) ↔
      ∃ word payload, j = .array [.str word, payload] ∧ IsPayload word payload cs := by
  constructor
  · rintro ⟨s, h, rfl⟩
    obtain ⟨⟨tag, payload⟩, hheader, hpayload⟩ := bind_eq_ok_iff.mp h
    exact ⟨tag.word, payload, header_eq_ok_iff.mp hheader, isPayload_of_ofPayload hpayload⟩
  · rintro ⟨word, payload, rfl, hpayload⟩
    obtain ⟨tag, s, rfl, hs, hcs⟩ := ofPayload_of_isPayload hpayload
    exact ⟨s, bind_eq_ok_iff.mpr ⟨(tag, payload), header_eq_ok_iff.mpr rfl, hs⟩, hcs⟩

end Shape

namespace Node

open Json Traversal

theorem exists_ofJsonWithin_iff {limit room depth : Nat} {j : Json}
    (hroom : depth + room = limit + 1) :
    (∃ n, ofJsonWithin limit room j = .ok n) ↔ IsNode limit depth j := by
  induction room generalizing depth j with
  | zero =>
    constructor
    · rintro ⟨n, ⟨⟩⟩
    · rintro ⟨hdepth, _, _⟩
      omega
  | succ room ih =>
    have hnext : depth + 1 + room = limit + 1 := by omega
    constructor
    · rintro ⟨n, h⟩
      obtain ⟨s, hs, hn⟩ := ofJsonWithin_succ_eq_ok_iff.mp h
      obtain ⟨word, payload, rfl, hpayload⟩ := Shape.exists_ofJson_iff.mp ⟨s, hs, rfl⟩
      have hall := Shape.exists_mapM_eq_ok_iff.mp ⟨n.shape, hn⟩
      exact .intro (by omega) hpayload fun c hc => (ih hnext).mp (hall c hc)
    · rintro ⟨hdepth, hpayload, hchildren⟩
      obtain ⟨s, hs, rfl⟩ := Shape.exists_ofJson_iff.mpr ⟨_, _, rfl, hpayload⟩
      have hall := fun c hc => (ih hnext).mpr (hchildren c hc)
      obtain ⟨t, ht⟩ := Shape.exists_mapM_eq_ok_iff.mpr hall
      rw [← shape_toNode t] at ht
      exact ⟨t.toNode, ofJsonWithin_succ_eq_ok_iff.mpr ⟨s, hs, ht⟩⟩

end Node

theorem Document.readable_iff_isNode (limit : Nat) (j : Json) :
    (∃ d, Document.ofJson limit j = .ok d) ↔
      ∃ items, j = .array items ∧ ∀ item ∈ items, Json.IsNode limit 1 item := by
  have hnode := fun item => Node.exists_ofJsonWithin_iff (j := item) (Nat.add_comm 1 limit)
  constructor
  · rintro ⟨d, h⟩
    cases j with
    | array items =>
      have hall := Traversal.exists_mapM_eq_ok_iff.mp ⟨d, h⟩
      exact ⟨items, rfl, fun item hitem => (hnode item).mp (hall item hitem)⟩
    | _ => cases h
  · rintro ⟨items, rfl, hitems⟩
    have hall := fun item hitem => (hnode item).mpr (hitems item hitem)
    exact Traversal.exists_mapM_eq_ok_iff.mpr hall

end RuleLogic
