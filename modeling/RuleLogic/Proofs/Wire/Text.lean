import RuleLogic.Proofs.Json.RoundTrip
import RuleLogic.Proofs.Wire.Arguments

namespace RuleLogic

namespace Value

inductive FloatFree : Value → Prop
  | null : FloatFree .null
  | int (n : Int64) : FloatFree (.int n)
  | bool (b : Bool) : FloatFree (.bool b)
  | str (s : String) : FloatFree (.str s)
  | list {items : List Value} (h : ∀ v ∈ items, FloatFree v) : FloatFree (.list items)

mutual

def nesting : Value → Nat
  | .list items => nestingOfItems items + 1
  | _ => 0

def nestingOfItems : List Value → Nat
  | [] => 0
  | v :: vs => max (nesting v) (nestingOfItems vs)

end

theorem floatFree_toJson {v : Value} (h : v.FloatFree) : v.toJson.FloatFree := by
  induction h with
  | null => exact .null
  | int n => exact .int n
  | bool b => exact .bool b
  | str s => exact .str s
  | list h ih =>
    rw [toJson, itemsToJson_eq_map]
    exact .array (List.forall_mem_map.mpr ih)

theorem nullNonFinite_of_floatFree {v : Value} (h : v.FloatFree) : v.nullNonFinite = v := by
  induction h with
  | list h ih => rw [nullNonFinite, nullNonFiniteItems_eq_map, List.map_congr_left ih, List.map_id']
  | _ => rfl

mutual

theorem nesting_toJson (v : Value) : v.toJson.nesting = v.nesting := by
  cases v with
  | float x =>
    rw [toJson]
    cases finite? x <;> rfl
  | list items => rw [toJson, Json.nesting, nestingOfItems_itemsToJson items, nesting]
  | _ => rfl

theorem nestingOfItems_itemsToJson (vs : List Value) :
    Json.nestingOfItems (itemsToJson vs) = nestingOfItems vs := by
  cases vs with
  | nil => rfl
  | cons v vs =>
    rw [itemsToJson, Json.nestingOfItems, nesting_toJson v, nestingOfItems_itemsToJson vs,
      nestingOfItems]

end

end Value

theorem Json.nestingOfItems_map_str (keys : List String) : nestingOfItems (keys.map .str) = 0 := by
  induction keys with
  | nil => rfl
  | cons key keys ih =>
    rw [List.map_cons, nestingOfItems, ih]
    rfl

theorem Json.nesting_named (name : String) (j : Json) :
    nesting (.array [.str name, j]) = j.nesting + 1 := by
  simp [nesting, nestingOfItems]

theorem Json.nesting_pair (a b : Json) :
    nesting (.array [a, b]) = max a.nesting b.nesting + 1 := by
  simp [nesting, nestingOfItems]

namespace Param

theorem floatFree_toJson {p : Param} (h : ∀ v, p.value = some v → v.FloatFree) :
    p.toJson.FloatFree := by
  obtain ⟨name, value⟩ := p
  have hname : Json.FloatFree (.str name) := .str name
  cases value with
  | none => exact .array (List.forall_mem_singleton.mpr hname)
  | some v =>
    have hv := Value.floatFree_toJson (h v rfl)
    exact .array (List.forall_mem_cons.mpr ⟨hname, List.forall_mem_singleton.mpr hv⟩)

theorem nesting_toJson (p : Param) :
    p.toJson.nesting = Value.nestingOfItems p.value.toList + 1 := by
  obtain ⟨name, value⟩ := p
  cases value with
  | none => rfl
  | some v =>
    have hjson : toJson ⟨name, some v⟩ = .array [.str name, v.toJson] := rfl
    rw [hjson, Json.nesting_named, Value.nesting_toJson, Option.toList_some, Value.nestingOfItems,
      Value.nestingOfItems, Nat.max_zero]

theorem nestingOfItems_map_toJson {params : List Param} (h : params ≠ []) :
    Json.nestingOfItems (params.map toJson) =
      Value.nestingOfItems (params.filterMap Param.value) + 1 := by
  induction params with
  | nil => exact absurd rfl h
  | cons p params ih =>
    have hargs : Value.nestingOfItems ((p :: params).filterMap Param.value) =
        max (Value.nestingOfItems p.value.toList)
          (Value.nestingOfItems (params.filterMap Param.value)) := by
      obtain ⟨name, value⟩ := p
      cases value with
      | none => exact (Nat.zero_max _).symm
      | some v => simp [Value.nestingOfItems]
    rw [List.map_cons, Json.nestingOfItems, nesting_toJson, hargs]
    cases params with
    | nil => simp [Json.nestingOfItems, Value.nestingOfItems]
    | cons q params =>
      have htail := ih (List.cons_ne_nil q params)
      rw [htail]
      omega

end Param

theorem Shape.nesting_tagged (tag : Tag) (payload : Json) :
    (tagged tag payload).nesting = payload.nesting + 1 :=
  Json.nesting_named tag.word payload

namespace Node

mutual

def nesting : Node → Nat
  | .predicate _ [] => 3
  | .predicate _ params => 4 + Value.nestingOfItems (params.filterMap Param.value)
  | .check _ _ body => 2 + nesting body
  | .focused _ _ body => 2 + nesting body
  | .modified _ body => 1 + nesting body
  | .set members => 2 + nestingOfMembers members
  | .joined _ left right => 2 + max (nesting left) (nesting right)

def nestingOfMembers : List Node → Nat
  | [] => 0
  | n :: ns => max (nesting n) (nestingOfMembers ns)

end

theorem nesting_pos (n : Node) : 0 < n.nesting := by
  cases n with
  | predicate name params =>
    cases params with
    | nil => exact Nat.succ_pos 2
    | cons p params => exact Nat.add_pos_left (Nat.succ_pos 3) _
  | _ =>
    rw [nesting]
    omega

theorem nesting_predicate (name : String) (params : List Param) :
    (predicate name params).toJson.nesting = (predicate name params).nesting := by
  rw [toJson, Shape.toJson, Shape.nesting_tagged, Json.nesting_named, Json.nesting]
  cases params with
  | nil => rfl
  | cons p params =>
    have hparams := Param.nestingOfItems_map_toJson (List.cons_ne_nil p params)
    have hnode : nesting (.predicate name (p :: params)) =
        4 + Value.nestingOfItems ((p :: params).filterMap Param.value) := rfl
    rw [hparams, hnode]
    omega

mutual

theorem nesting_toJson (n : Node) : n.toJson.nesting = n.nesting := by
  cases n with
  | predicate name params => exact nesting_predicate name params
  | check name keys body =>
    cases keys with
    | none =>
      rw [toJson, Shape.toJson, Shape.nesting_tagged, Json.nesting_named, nesting_toJson body,
        nesting]
      omega
    | some keys =>
      have hpos := nesting_pos body
      simp only [toJson, Shape.toJson, Shape.nesting_tagged, Json.nesting, Json.nestingOfItems,
        Json.nestingOfItems_map_str, nesting_toJson body, nesting]
      omega
  | focused scope name body =>
    rw [toJson, Shape.toJson, Shape.nesting_tagged, Json.nesting_named, nesting_toJson body,
      nesting]
    omega
  | modified modifier body =>
    rw [toJson, Shape.toJson, Shape.nesting_tagged, nesting_toJson body, nesting, Nat.add_comm]
  | set members =>
    rw [toJson, Shape.toJson, Shape.nesting_tagged, Json.nesting,
      nestingOfItems_membersToJson members, nesting]
    omega
  | joined connective left right =>
    rw [toJson, Shape.toJson, Shape.nesting_tagged, Json.nesting_pair, nesting_toJson left,
      nesting_toJson right, nesting]
    omega

theorem nestingOfItems_membersToJson (ns : List Node) :
    Json.nestingOfItems (membersToJson ns) = nestingOfMembers ns := by
  cases ns with
  | nil => rfl
  | cons n ns =>
    rw [membersToJson, Json.nestingOfItems, nesting_toJson n, nestingOfItems_membersToJson ns,
      nestingOfMembers]

end

theorem ofJsonWithin_toJson_of_nesting_lt {limit room : Nat} {n : Node}
    (h : n.toJson.nesting < room) :
    ofJsonWithin limit room n.toJson = .ok (n.mapArgs Value.nullNonFinite) := by
  -- The node is read if the limit is its depth, so here it is read or else the limit is exceeded.
  have hread := @ofJsonWithin_toJson n.depth n.depth n (Nat.le_refl n.depth)
  have hite := ofJsonWithin_eq_ite hread limit room
  by_cases hdepth : (n.mapArgs Value.nullNonFinite).depth ≤ room
  · rwa [if_pos hdepth] at hite
  · rw [if_neg hdepth] at hite
    exact absurd hite (ofJsonWithin_ne_depthLimitExceeded h)

end Node

namespace Json

theorem floatFree_pair {a b : Json} (ha : a.FloatFree) (hb : b.FloatFree) :
    FloatFree (.array [a, b]) :=
  .array (List.forall_mem_cons.mpr ⟨ha, List.forall_mem_singleton.mpr hb⟩)

theorem floatFree_map_str (keys : List String) : FloatFree (.array (keys.map .str)) :=
  .array (List.forall_mem_map.mpr fun key _ => .str key)

end Json

namespace Shape

open Json

theorem floatFree_tagged (tag : Tag) {payload : Json} (h : payload.FloatFree) :
    (tagged tag payload).FloatFree :=
  floatFree_pair (.str tag.word) h

theorem floatFree_toJson {s : Shape Json} (hargs : ∀ v ∈ s.args, v.FloatFree)
    (hchildren : ∀ c ∈ s.children, c.FloatFree) : s.toJson.FloatFree := by
  cases s with
  | predicate name params =>
    have hparams : ∀ p ∈ params, p.toJson.FloatFree := fun p hp =>
      Param.floatFree_toJson fun v hv => hargs v (List.mem_filterMap.mpr ⟨p, hp, hv⟩)
    exact floatFree_tagged _ (floatFree_pair (.str name) (.array (List.forall_mem_map.mpr hparams)))
  | check name keys body =>
    have hbody := List.forall_mem_singleton.mp hchildren
    cases keys with
    | none => exact floatFree_tagged _ (floatFree_pair (.str name) hbody)
    | some keys =>
      have hkeys := List.forall_mem_singleton.mpr (floatFree_map_str keys)
      have hrest := List.forall_mem_cons.mpr ⟨hbody, hkeys⟩
      exact floatFree_tagged _ (.array (List.forall_mem_cons.mpr ⟨.str name, hrest⟩))
  | focused scope name body =>
    exact floatFree_tagged _ (floatFree_pair (.str name) (List.forall_mem_singleton.mp hchildren))
  | modified modifier body =>
    exact floatFree_tagged _ (List.forall_mem_singleton.mp hchildren)
  | set members => exact floatFree_tagged _ (.array hchildren)
  | joined connective left right => exact floatFree_tagged _ (.array hchildren)

end Shape

namespace Node

theorem floatFree_toJson {n : Node} (h : ∀ v ∈ n.args, v.FloatFree) : n.toJson.FloatFree := by
  induction n using Node.induction with
  | step n ih =>
    rw [toJson_eq]
    apply Shape.floatFree_toJson
    · rw [Shape.args_map]
      exact fun v hv => h v (mem_args_iff.mpr (.inl hv))
    · rw [Shape.children_map, List.forall_mem_map]
      exact fun c hc => ih c hc fun v hv => h v (mem_args_iff.mpr (.inr ⟨c, hc, hv⟩))

theorem mapArgs_of_floatFree {n : Node} (h : ∀ v ∈ n.args, v.FloatFree) :
    n.mapArgs Value.nullNonFinite = n :=
  mapArgs_eq_self fun v hv => Value.nullNonFinite_of_floatFree (h v hv)

theorem ofText_toText {n : Node} (h : ∀ v ∈ n.args, v.FloatFree) :
    ofText n.toText = if n.nesting ≤ 127 then .ok n else .error .notJson := by
  rw [ofText, toText, Json.readFirst_text_eq_ite (floatFree_toJson h), nesting_toJson]
  by_cases hnesting : n.nesting ≤ textNesting
  · have hread : ofJson n.toJson = .ok n := by
      have hlt : n.toJson.nesting < defaultDepth := by
        rw [nesting_toJson]
        exact Nat.lt_succ_of_le hnesting
      rw [ofJson, ofJsonWithin_toJson_of_nesting_lt hlt, mapArgs_of_floatFree h]
    rw [if_pos hnesting, if_pos (show n.nesting ≤ 127 from hnesting)]
    simp only [hread]
    rfl
  · rw [if_neg hnesting, if_neg (show ¬n.nesting ≤ 127 from hnesting)]

end Node

namespace Document

theorem nesting_toJson (d : Document) : (toJson d).nesting = 1 + Node.nestingOfMembers d := by
  rw [toJson, ← Node.membersToJson_eq_map, Json.nesting, Node.nestingOfItems_membersToJson,
    Nat.add_comm]

theorem floatFree_toJson {d : Document} (h : ∀ n ∈ d, ∀ v ∈ n.args, v.FloatFree) :
    (toJson d).FloatFree :=
  .array (List.forall_mem_map.mpr fun n hn => Node.floatFree_toJson (h n hn))

theorem ofText_toJson_text {d : Document} (h : ∀ n ∈ d, ∀ v ∈ n.args, v.FloatFree) :
    ofText (toJson d).text =
      if 1 + Node.nestingOfMembers d ≤ 127 then .ok d else .error .notJson := by
  rw [ofText, Json.read_text_eq_ite (floatFree_toJson h), nesting_toJson]
  by_cases hnesting : 1 + Node.nestingOfMembers d ≤ textNesting
  · have hnodes : ∀ n ∈ d, Node.ofJsonWithin defaultDepth defaultDepth n.toJson = .ok (id n) := by
      intro n hn
      have hlt : n.toJson.nesting < (toJson d).nesting :=
        Json.nesting_lt_of_mem (List.mem_map_of_mem hn)
      have hroom : n.toJson.nesting < defaultDepth := by
        rw [nesting_toJson] at hlt
        exact Nat.lt_trans hlt (Nat.lt_succ_of_le hnesting)
      rw [Node.ofJsonWithin_toJson_of_nesting_lt hroom, Node.mapArgs_of_floatFree (h n hn), id]
    have hread : ofJson defaultDepth (toJson d) = .ok d := by
      have hall := Traversal.mapM_map_eq_ok hnodes
      rwa [List.map_id] at hall
    rw [if_pos hnesting, if_pos (show 1 + Node.nestingOfMembers d ≤ 127 from hnesting)]
    simp only [hread]
    rfl
  · rw [if_neg hnesting, if_neg (show ¬1 + Node.nestingOfMembers d ≤ 127 from hnesting)]

theorem ofText_text_eq_ite :
    (∀ n : Node, n.toJson.nesting = n.nesting) ∧
      (∀ n : Node, (∀ v ∈ n.args, v.FloatFree) →
        Node.ofText n.toText = if n.nesting ≤ 127 then .ok n else .error .notJson) ∧
      ∀ d : Document, (∀ n ∈ d, ∀ v ∈ n.args, v.FloatFree) →
        ofText (toJson d).text =
          if 1 + Node.nestingOfMembers d ≤ 127 then .ok d else .error .notJson := by
  refine ⟨Node.nesting_toJson, ?_, ?_⟩
  · exact fun n h => Node.ofText_toText h
  · exact fun d h => ofText_toJson_text h

theorem ofText_text_nested_keys :
    let leaf : Node := .predicate "p?" [.bound "x" (.list [.str "\""]), .unbound "y"]
    let keys (count : Nat) : Node := Nat.repeat (Node.key "a") count leaf
    Node.ofText (keys 61).toText = .ok (keys 61) ∧
      Node.ofText (keys 62).toText = .error .notJson ∧
      ofText (toJson [keys 60]).text = .ok [keys 60] ∧
      ofText (toJson [keys 61]).text = .error .notJson := by
  intro leaf keys
  have hlist : Value.FloatFree (.list [.str "\""]) :=
    .list (List.forall_mem_singleton.mpr (.str "\""))
  have hnode (count : Nat) : ∀ v ∈ (keys count).args, v.FloatFree := by
    induction count with
    | zero => exact List.forall_mem_singleton.mpr hlist
    | succ count ih => exact ih
  have hdocument (count : Nat) : ∀ n ∈ [keys count], ∀ v ∈ n.args, v.FloatFree :=
    List.forall_mem_singleton.mpr (hnode count)
  have hnesting (count : Nat) : (keys count).nesting = 2 * count + 5 := by
    induction count with
    | zero => rfl
    | succ count ih =>
      have hstep : (keys (count + 1)).nesting = 2 + (keys count).nesting := rfl
      omega
  have hnestings (count : Nat) : Node.nestingOfMembers [keys count] = 2 * count + 5 := by
    rw [Node.nestingOfMembers, hnesting, Node.nestingOfMembers, Nat.max_zero]
  obtain ⟨_, node, document⟩ := ofText_text_eq_ite
  refine ⟨?_, ?_, ?_, ?_⟩
  · rw [node _ (hnode 61), hnesting, if_pos (by decide)]
  · rw [node _ (hnode 62), hnesting, if_neg (by decide)]
  · rw [document _ (hdocument 60), hnestings, if_pos (by decide)]
  · rw [document _ (hdocument 61), hnestings, if_neg (by decide)]

end Document

end RuleLogic
