import RuleLogic.Proofs.Wire.Grammar

namespace RuleLogic

namespace Json

mutual

def holdsObject : Json → Bool
  | .array items => anyHoldsObject items
  | .object _ => true
  | _ => false

def anyHoldsObject : List Json → Bool
  | [] => false
  | j :: js => holdsObject j || anyHoldsObject js

end

def isString : Json → Bool
  | .str _ => true
  | _ => false

def depthFault? (limit depth : Nat) : Option DecodeError :=
  if depth ≤ limit then none else some (.depthLimitExceeded limit)

def arrayFault? : Json → Option DecodeError
  | .array _ => none
  | j => some (.expectedNode j.kind)

def tagFault? : Json → Option DecodeError
  | .array [] => some (.expectedTag none)
  | .array (j :: _) => if j.isString then none else some (.expectedTag (some j.kind))
  | _ => none

def wordFault? : Json → Option DecodeError
  | .array (.str word :: _) => if word ∈ Tag.all.map Tag.word then none else some (.unknownTag word)
  | _ => none

def lengthFault? : Json → Option DecodeError
  | .array (.str word :: rest) =>
    if rest.length = 1 then none
    else (Tag.ofWord? word).map fun tag => .malformed tag (.pair (rest.length + 1))
  | _ => none

def paramFault? (predicate : String) : Json → Option DecodeError
  | .array [.str _] => none
  | .array [.str _, value] =>
    if value.holdsObject then some (.malformed .predicate .argument) else none
  | _ => some (.malformed .predicate (.param predicate))

def keysFault? : Json → Option DecodeError
  | .null => none
  | .array keys => if keys.all isString then none else some (.malformed .check .keyStrings)
  | _ => some (.malformed .check .keyArray)

end Json

namespace Tag

theorem ofWord?_eq_none_iff {word : String} : ofWord? word = none ↔ word ∉ all.map Tag.word := by
  simp [ofWord?]

def payloadFault? : Tag → Json → Option DecodeError
  | .predicate, .array [.str name, .array params] => params.findSome? (Json.paramFault? name)
  | .predicate, _ => some (.malformed .predicate .namedParams)
  | .check, .array [.str _, _] => none
  | .check, .array [.str _, _, keys] => keys.keysFault?
  | .check, _ => some (.malformed .check .checkedNode)
  | .scope _, .array [.str _, _] => none
  | .scope s, _ => some (.malformed (.scope s) .namedNode)
  | .modifier _, _ => none
  | .set, .array _ => none
  | .set, _ => some (.malformed .set .nodes)
  | .connective _, .array [_, _] => none
  | .connective c, _ => some (.malformed (.connective c) .sides)

def payloadNodes : Tag → Json → List Json
  | .check, .array (_ :: node :: _) => [node]
  | .scope _, .array (_ :: node :: _) => [node]
  | .modifier _, node => [node]
  | .set, .array nodes => nodes
  | .connective _, .array sides => sides
  | _, _ => []

end Tag

namespace Json

def payloadFault? : Json → Option DecodeError
  | .array [.str word, payload] => (Tag.ofWord? word).bind fun tag => tag.payloadFault? payload
  | _ => none

def childNodes : Json → List Json
  | .array [.str word, payload] =>
    (Tag.ofWord? word).elim [] fun tag => tag.payloadNodes payload
  | _ => []

def layerFault? (j : Json) : Option DecodeError :=
  j.arrayFault?.or <| j.tagFault?.or <| j.wordFault?.or <| j.lengthFault?.or j.payloadFault?

def fault? (limit : Nat) : Nat × Json → Option DecodeError
  | (depth, j) => (depthFault? limit depth).or j.layerFault?

theorem depth_le_of_fault?_eq_none {limit depth : Nat} {j : Json}
    (h : fault? limit (depth, j) = none) : depth ≤ limit := by
  rw [fault?, Option.or_eq_none_iff, depthFault?] at h
  by_contra hdeep
  rw [if_neg hdeep] at h
  cases h.1

def positions (limit depth : Nat) (j : Json) : List (Nat × Json) :=
  -- The children of a position with a fault are never looked at.
  (depth, j) ::
    if h : fault? limit (depth, j) = none then j.childNodes.flatMap (positions limit (depth + 1))
    else []
termination_by limit + 1 - depth
decreasing_by
  have hdepth := depth_le_of_fault?_eq_none h
  omega

end Json

namespace Value

open Json

mutual

theorem ofJson?_eq_none_iff (j : Json) : ofJson? j = none ↔ j.holdsObject = true := by
  cases j with
  | array items =>
    rw [ofJson?, Option.map_eq_none_iff, holdsObject, itemsOfJson?_eq_none_iff items]
  | _ => simp [ofJson?, holdsObject]

theorem itemsOfJson?_eq_none_iff (js : List Json) :
    itemsOfJson? js = none ↔ anyHoldsObject js = true := by
  cases js with
  | nil => simp [itemsOfJson?, anyHoldsObject]
  | cons j js =>
    rw [anyHoldsObject, Bool.or_eq_true, ← ofJson?_eq_none_iff j, ← itemsOfJson?_eq_none_iff js,
      itemsOfJson?]
    cases ofJson? j <;> cases itemsOfJson? js <;> simp

end

end Value

open Traversal

theorem Param.failure?_ofJson (predicate : String) (j : Json) :
    failure? (ofJson predicate j) = j.paramFault? predicate := by
  fun_cases Json.paramFault? predicate j with
  | case1 name => rfl
  | case2 name value h => simp only [ofJson, (Value.ofJson?_eq_none_iff value).mpr h, failure?]
  | case3 name value h =>
    rw [← Value.ofJson?_eq_none_iff, ← ne_eq, Option.ne_none_iff_exists'] at h
    obtain ⟨v, hv⟩ := h
    simp only [ofJson, hv, failure?]
  | case4 => simp only [ofJson, failure?]

namespace Shape

open Json

theorem failure?_mapM_keyOfJson (keys : List Json) :
    failure? (keys.mapM keyOfJson) =
      if keys.all isString then none else some (.malformed .check .keyStrings) := by
  rw [Traversal.failure?_mapM]
  induction keys with
  | nil => rfl
  | cons j js ih =>
    rw [List.findSome?_cons, ih]
    cases j <;> rfl

theorem failure?_keysOfJson (j : Json) : failure? (keysOfJson j) = j.keysFault? := by
  cases j with
  | array keys =>
    rw [keysFault?, ← failure?_mapM_keyOfJson]
    exact failure?_bind_ok _ _
  | _ => rfl

theorem failure?_ofPayload (tag : Tag) (payload : Json) :
    failure? (ofPayload tag payload) = tag.payloadFault? payload := by
  fun_cases Tag.payloadFault? tag payload with
  | case1 name params =>
    have hparams := Traversal.failure?_mapM (Param.ofJson name) params
    simp only [Param.failure?_ofJson] at hparams
    exact (failure?_bind_ok _ _).trans hparams
  | case4 name body keys =>
    exact (failure?_bind_ok _ _).trans (failure?_keysOfJson keys)
  | _ => simp only [ofPayload, failure?]

theorem children_of_ofPayload {tag : Tag} {payload : Json} {s : Shape Json}
    (h : ofPayload tag payload = .ok s) : s.children = tag.payloadNodes payload := by
  unfold ofPayload at h
  split at h
  · obtain ⟨_, _, ⟨⟩⟩ := bind_eq_ok_iff.mp h
    rfl
  · cases h
  · cases h
    rfl
  · obtain ⟨_, _, ⟨⟩⟩ := bind_eq_ok_iff.mp h
    rfl
  · cases h
  · cases h
    rfl
  · cases h
  · cases h
    rfl
  · cases h
    rfl
  · cases h
  · cases h
    rfl
  · cases h

theorem children_of_ofJson {j : Json} {s : Shape Json} (h : ofJson j = .ok s) :
    s.children = j.childNodes := by
  obtain ⟨tag, payload, rfl, hpayload⟩ := ofJson_eq_ok_iff.mp h
  rw [childNodes, Tag.ofWord?_word]
  exact children_of_ofPayload hpayload

theorem failure?_header (j : Json) :
    failure? (header j) =
      (j.arrayFault?.or <| j.tagFault?.or <| j.wordFault?.or j.lengthFault?) := by
  cases j with
  | array items =>
    rcases items with _ | ⟨j, rest⟩
    · rfl
    · cases j with
      | str word =>
        cases hword : Tag.ofWord? word with
        | none =>
          have hunknown := Tag.ofWord?_eq_none_iff.mp hword
          simp [header, hword, arrayFault?, tagFault?, isString, wordFault?, hunknown, failure?]
        | some tag =>
          obtain rfl := Tag.ofWord?_eq_some_iff.mp hword
          rcases rest with _ | ⟨payload, _ | ⟨_, _⟩⟩
          all_goals
            simp [header, hword, arrayFault?, tagFault?, isString, wordFault?, lengthFault?,
              Tag.mem_all, failure?]
      | _ => rfl
  | _ => rfl

theorem failure?_ofJson (j : Json) : failure? (ofJson j) = j.layerFault? := by
  have hlayer : j.layerFault? = (failure? (header j)).or j.payloadFault? := by
    rw [failure?_header, Option.or_assoc, Option.or_assoc, Option.or_assoc, layerFault?]
  rw [hlayer, ofJson]
  cases hheader : header j with
  | error e => rfl
  | ok p =>
    obtain ⟨tag, payload⟩ := p
    rw [header_eq_ok_iff.mp hheader, payloadFault?, Tag.ofWord?_word]
    exact failure?_ofPayload tag payload

end Shape

namespace Json

theorem positions_of_fault? {limit depth : Nat} {j : Json} {e : DecodeError}
    (h : fault? limit (depth, j) = some e) : j.positions limit depth = [(depth, j)] := by
  rw [positions, dif_neg (by rw [h]; exact Option.some_ne_none e)]

theorem positions_of_fault?_eq_none {limit depth : Nat} {j : Json}
    (h : fault? limit (depth, j) = none) :
    j.positions limit depth = (depth, j) :: j.childNodes.flatMap (positions limit (depth + 1)) := by
  rw [positions, dif_pos h]

theorem fault?_of_limit_lt {limit depth : Nat} (h : limit < depth) (j : Json) :
    fault? limit (depth, j) = some (.depthLimitExceeded limit) := by
  rw [fault?, depthFault?, if_neg (Nat.not_le.mpr h)]
  rfl

theorem fault?_of_depth_le {limit depth : Nat} (h : depth ≤ limit) (j : Json) :
    fault? limit (depth, j) = failure? (Shape.ofJson j) := by
  rw [fault?, depthFault?, if_pos h, Shape.failure?_ofJson]
  rfl

end Json

namespace Node

open Json

theorem failure?_ofJsonWithin {limit depth room : Nat} {j : Json}
    (hroom : depth + room = limit + 1) :
    failure? (ofJsonWithin limit room j) = (j.positions limit depth).findSome? (fault? limit) := by
  induction room generalizing depth j with
  | zero =>
    have hlimit : limit < depth := by omega
    have hdeep := fault?_of_limit_lt hlimit j
    rw [positions_of_fault? hdeep, List.findSome?_singleton, hdeep]
    rfl
  | succ room ih =>
    have hdepth : depth ≤ limit := by omega
    have hown := fault?_of_depth_le hdepth j
    have hnext : depth + 1 + room = limit + 1 := by omega
    cases hs : Shape.ofJson j with
    | error e =>
      rw [hs] at hown
      rw [positions_of_fault? hown, List.findSome?_singleton, hown, ofJsonWithin, hs]
      rfl
    | ok s =>
      rw [hs] at hown
      have hchildren : failure? (ofJsonWithin limit (room + 1) j) =
          j.childNodes.findSome? fun c => failure? (ofJsonWithin limit room c) := by
        rw [ofJsonWithin, hs, ← Shape.children_of_ofJson hs, ← Shape.failure?_mapM]
        exact failure?_bind_ok _ _
      rw [hchildren, positions_of_fault?_eq_none hown, findSome?_preorder, hown]
      simp only [ih hnext]
      rfl

theorem ofJsonWithin_of_fault? {limit depth room : Nat} {j : Json} {e : DecodeError}
    (hroom : depth + room = limit + 1) (h : fault? limit (depth, j) = some e) :
    ofJsonWithin limit room j = .error e := by
  rw [← failure?_eq_some_iff, failure?_ofJsonWithin hroom, positions_of_fault? h,
    List.findSome?_singleton, h]

end Node

theorem Document.ofJson_first_fault (limit : Nat) (items : List Json) :
    ((∃ d, ofJson limit (.array items) = .ok d) ↔
        ∀ p ∈ items.flatMap (Json.positions limit 1), Json.fault? limit p = none) ∧
      (∀ e, ofJson limit (.array items) = .error e ↔
        (items.flatMap (Json.positions limit 1)).findSome? (Json.fault? limit) = some e) ∧
      (∀ depth room j e, depth + room = limit + 1 → Json.fault? limit (depth, j) = some e →
        Node.ofJsonWithin limit room j = .error e) ∧
      ∀ room name body keys e, Json.keysFault? keys = some e →
        Node.ofJsonWithin limit (room + 1)
          (.array [.str "check", .array [.str name, body, keys]]) = .error e := by
  have hfirst : failure? (ofJson limit (.array items)) =
      (items.flatMap (Json.positions limit 1)).findSome? (Json.fault? limit) := by
    rw [findSome?_flatMap, ofJson, failure?_mapM]
    simp only [Node.failure?_ofJsonWithin (Nat.add_comm 1 limit)]
  refine ⟨?_, fun e => ?_, fun depth room j e => Node.ofJsonWithin_of_fault?, ?_⟩
  · rw [← failure?_eq_none_iff, hfirst, List.findSome?_eq_none_iff]
  · rw [← failure?_eq_some_iff, hfirst]
  · intro room name body keys e hkeys
    have hpayload := Shape.failure?_ofPayload .check (.array [.str name, body, keys])
    exact Node.ofJsonWithin_succ_eq_error_iff.mpr
      (.inl (failure?_eq_some_iff.mp (hpayload.trans hkeys)))

theorem Document.ofJson_first_fault_in_check :
    let check : Json := .array [.str "check", .array [.str "age", .array [.str "nope"], .bool true]]
    let both : Json := .array [.str "and", .array [check, .null]]
    let empty : Json := .array [.str "set", .array []]
    [both, .null].flatMap (Json.positions 2 1) = [(1, both), (2, check), (2, .null), (1, .null)] ∧
      ofJson 2 (.array [both, .null]) = .error (.malformed .check .keyArray) ∧
      (∀ p ∈ [empty].flatMap (Json.positions 2 1), Json.fault? 2 p = none) ∧
      (∃ d, ofJson 2 (.array [empty]) = .ok d) ∧
      Json.fault? 1 (2, check) = some (.depthLimitExceeded 1) ∧
      Node.ofJsonWithin 1 0 check = .error (.depthLimitExceeded 1) ∧
      Json.keysFault? (.bool true) = some (.malformed .check .keyArray) ∧
      Node.ofJsonWithin 2 1 check = .error (.malformed .check .keyArray) := by
  intro check both empty
  have hboth : Json.fault? 2 (1, both) = none := rfl
  have hcheck : Json.fault? 2 (2, check) = some (.malformed .check .keyArray) := rfl
  have hnull : Json.fault? 2 (2, .null) = some (.expectedNode .null) := rfl
  have hlast : Json.fault? 2 (1, .null) = some (.expectedNode .null) := rfl
  have hempty : Json.fault? 2 (1, empty) = none := rfl
  have hpositions : [both, .null].flatMap (Json.positions 2 1) =
      [(1, both), (2, check), (2, .null), (1, .null)] := by
    rw [List.flatMap_cons, Json.positions_of_fault?_eq_none hboth, List.flatMap_singleton,
      Json.positions_of_fault? hlast,
      show both.childNodes = [check, .null] from rfl, List.flatMap_cons, List.flatMap_singleton,
      Json.positions_of_fault? hcheck, Json.positions_of_fault? hnull]
    rfl
  have hfine : ∀ p ∈ [empty].flatMap (Json.positions 2 1), Json.fault? 2 p = none := by
    rw [List.flatMap_singleton, Json.positions_of_fault?_eq_none hempty]
    exact List.forall_mem_singleton.mpr hempty
  obtain ⟨_, hfirst, _, hkeys⟩ := ofJson_first_fault 2 [both, .null]
  obtain ⟨hok, _, _, _⟩ := ofJson_first_fault 2 [empty]
  obtain ⟨_, _, hwithin, _⟩ := ofJson_first_fault 1 [empty]
  refine ⟨hpositions, (hfirst _).mpr ?_, hfine, hok.mpr hfine, rfl, hwithin 2 0 check _ rfl rfl,
    rfl, hkeys 0 _ _ _ _ rfl⟩
  rw [hpositions]
  rfl

end RuleLogic
