import RuleLogic.Proofs.Wire.Arguments

namespace RuleLogic

namespace Json

mutual

def canonical : Json → Json
  | .array [.str "check", .array [name, body, .null]] =>
    .array [.str "check", .array [name, canonical body]]
  | .array [.str "check", .array (name :: body :: keys)] =>
    .array [.str "check", .array (name :: canonical body :: keys)]
  | .array [.str "key", .array [name, body]] => .array [.str "key", .array [name, canonical body]]
  | .array [.str "attr", .array [name, body]] => .array [.str "attr", .array [name, canonical body]]
  | .array [.str "not", body] => .array [.str "not", canonical body]
  | .array [.str "val", body] => .array [.str "val", canonical body]
  | .array [.str "each", body] => .array [.str "each", canonical body]
  | .array [.str "set", .array members] => .array [.str "set", .array (canonicalItems members)]
  | .array [.str "and", .array [left, right]] =>
    .array [.str "and", .array [canonical left, canonical right]]
  | .array [.str "or", .array [left, right]] =>
    .array [.str "or", .array [canonical left, canonical right]]
  | .array [.str "xor", .array [left, right]] =>
    .array [.str "xor", .array [canonical left, canonical right]]
  | .array [.str "implication", .array [left, right]] =>
    .array [.str "implication", .array [canonical left, canonical right]]
  | j => j

def canonicalItems : List Json → List Json
  | [] => []
  | j :: js => canonical j :: canonicalItems js

end

def canonicalDocument : Json → Json
  | .array items => .array (canonicalItems items)
  | j => j

theorem canonicalItems_eq_map (js : List Json) : canonicalItems js = js.map canonical := by
  induction js with
  | nil => rfl
  | cons j js ih => rw [canonicalItems, ih, List.map_cons]

end Json

namespace Shape

open Json Traversal

theorem canonical_of_ofJson {j : Json} {s : Shape Json} (h : ofJson j = .ok s) :
    j.canonical = (s.map canonical).toJson := by
  obtain ⟨tag, payload, rfl, hpayload⟩ := ofJson_eq_ok_iff.mp h
  unfold ofPayload at hpayload
  split at hpayload
  · rename_i name items
    obtain ⟨ps, hps, ⟨⟩⟩ := bind_eq_ok_iff.mp hpayload
    have hparams := Traversal.map_eq_map_of_mapM_eq_ok (h := id)
      (fun item _ p hp => Param.toJson_of_ofJson hp) hps
    rw [map, toJson, hparams, List.map_id]
    rfl
  · cases hpayload
  · cases hpayload
    rfl
  · obtain ⟨keys, hkeys, ⟨⟩⟩ := bind_eq_ok_iff.mp hpayload
    unfold keysOfJson at hkeys
    split at hkeys
    · cases hkeys
      rfl
    · obtain ⟨ks, hks, ⟨⟩⟩ := bind_eq_ok_iff.mp hkeys
      rw [mapM_keyOfJson_eq_ok_iff.mp hks]
      rfl
    · cases hkeys
  · cases hpayload
  · rename_i scope name body
    cases hpayload
    cases scope <;> rfl
  · cases hpayload
  · rename_i modifier
    cases hpayload
    cases modifier <;> rfl
  · cases hpayload
    rw [map, toJson, ← canonicalItems_eq_map]
    rfl
  · cases hpayload
  · rename_i connective left right
    cases hpayload
    cases connective <;> rfl
  · cases hpayload

end Shape

namespace Node

theorem toJson_of_ofJsonWithin {limit room : Nat} {j : Json} {n : Node}
    (h : ofJsonWithin limit room j = .ok n) : n.toJson = j.canonical := by
  induction room generalizing j n with
  | zero => cases h
  | succ room ih =>
    obtain ⟨s, hs, hn⟩ := ofJsonWithin_succ_eq_ok_iff.mp h
    have hchildren := Shape.map_eq_map_of_mapM_eq_ok (fun item _ c hc => ih hc) hn
    rw [toJson_eq, hchildren, Shape.canonical_of_ofJson hs]

end Node

namespace Document

open Traversal

theorem toJson_of_ofJson {limit : Nat} {j : Json} {d : Document} (h : ofJson limit j = .ok d) :
    toJson d = j.canonicalDocument := by
  cases j with
  | array items =>
    have hnodes := map_eq_map_of_mapM_eq_ok (fun item _ n hn => Node.toJson_of_ofJsonWithin hn) h
    rw [toJson, hnodes, Json.canonicalDocument, Json.canonicalItems_eq_map]
  | _ => cases h

theorem ofJson_toJson_of_ofJson {limit : Nat} {j : Json} {d : Document}
    (h : ofJson limit j = .ok d) : ofJson limit (toJson d) = .ok d := by
  have hagain := ofJson_toJson_of_depth_le (depth_le_of_ofJson h)
  rwa [mapArgs_eq_self_of_ofJson h] at hagain

theorem toJson_injective_of_ofJson {limit limit' : Nat} {j j' : Json} {d d' : Document}
    (h : ofJson limit j = .ok d) (h' : ofJson limit' j' = .ok d') (hjson : toJson d = toJson d') :
    d = d' := by
  have hd := ofJson_eq_ite (ofJson_toJson_of_ofJson h) limit'
  rw [hjson, ofJson_toJson_of_ofJson h'] at hd
  by_cases hdepth : depth d ≤ limit'
  · rw [if_pos hdepth] at hd
    exact (Except.ok.inj hd).symm
  · rw [if_neg hdepth] at hd
    cases hd

theorem toJson_eq_canonicalDocument {limit : Nat} {j : Json} {d : Document}
    (h : ofJson limit j = .ok d) :
    toJson d = j.canonicalDocument ∧ ofJson limit (toJson d) = .ok d ∧
      ∀ limit' j' d', ofJson limit' j' = .ok d' →
        (d = d' ↔ j.canonicalDocument = j'.canonicalDocument) := by
  refine ⟨toJson_of_ofJson h, ofJson_toJson_of_ofJson h, ?_⟩
  intro limit' j' d' h'
  have hd := toJson_of_ofJson h
  have hd' := toJson_of_ofJson h'
  constructor
  · rintro rfl
    exact hd.symm.trans hd'
  · intro hcanonical
    apply toJson_injective_of_ofJson h h'
    rw [hd, hd', hcanonical]

theorem canonicalDocument_null_keys :
    let leaf : Json := .array [.str "predicate", .array [.str "p?",
      .array [.array [.str "x", .float ⟨-0.0, rfl⟩], .array [.str "y", .null]]]]
    let long (body : Json) : Json := .array [.str "check", .array [.str "c", body, .null]]
    let short (body : Json) : Json := .array [.str "check", .array [.str "c", body]]
    let d : Document := [.check "c" none (.check "c" none
      (.predicate "p?" [.bound "x" (.float (-0.0)), .bound "y" .null]))]
    ofJson 3 (.array [long (long leaf)]) = .ok d ∧
      toJson d = .array [short (short leaf)] ∧
      ofJson 3 (.array [short (short leaf)]) = .ok d ∧
      Json.canonicalDocument (.array [long (long leaf)]) =
        Json.canonicalDocument (.array [long (short leaf)]) := by
  intro leaf long short d
  have hlong : ofJson 3 (.array [long (long leaf)]) = .ok d := rfl
  have hmixed : ofJson 3 (.array [long (short leaf)]) = .ok d := rfl
  obtain ⟨hjson, hagain, hsame⟩ := toJson_eq_canonicalDocument hlong
  exact ⟨hlong, hjson, hagain, (hsame 3 _ d hmixed).mp rfl⟩

end Document

end RuleLogic
