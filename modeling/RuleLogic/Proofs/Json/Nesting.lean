import RuleLogic.Json.Text

namespace RuleLogic.Json

theorem nestingOfItems_le_iff {js : List Json} {k : Nat} :
    nestingOfItems js ≤ k ↔ ∀ j ∈ js, j.nesting ≤ k := by
  induction js with
  | nil => simp [nestingOfItems]
  | cons j js ih => rw [nestingOfItems, Nat.max_le, List.forall_mem_cons, ih]

theorem nestingOfMembers_le_iff {ms : List (String × Json)} {k : Nat} :
    nestingOfMembers ms ≤ k ↔ ∀ m ∈ ms, m.2.nesting ≤ k := by
  induction ms with
  | nil => simp [nestingOfMembers]
  | cons m ms ih =>
    obtain ⟨key, j⟩ := m
    rw [nestingOfMembers, Nat.max_le, List.forall_mem_cons, ih]

theorem nesting_array_le_iff {items : List Json} {k : Nat} :
    (array items).nesting ≤ k ↔ 0 < k ∧ ∀ j ∈ items, j.nesting < k := by
  cases k with
  | zero => simp [nesting]
  | succ k =>
    rw [nesting, Nat.add_le_add_iff_right, nestingOfItems_le_iff]
    simp only [Nat.lt_succ_iff, Nat.zero_le, true_and]

theorem nesting_object_le_iff {members : List (String × Json)} {k : Nat} :
    (object members).nesting ≤ k ↔ 0 < k ∧ ∀ m ∈ members, m.2.nesting < k := by
  cases k with
  | zero => simp [nesting]
  | succ k =>
    rw [nesting, Nat.add_le_add_iff_right, nestingOfMembers_le_iff]
    simp only [Nat.lt_succ_iff, Nat.zero_le, true_and]

theorem nesting_lt_of_mem {items : List Json} {j : Json} (h : j ∈ items) :
    j.nesting < (array items).nesting :=
  (nesting_array_le_iff.mp (Nat.le_refl _)).2 j h

theorem nesting_lt_of_mem_object {members : List (String × Json)} {m : String × Json}
    (h : m ∈ members) : m.2.nesting < (object members).nesting :=
  (nesting_object_le_iff.mp (Nat.le_refl _)).2 m h

namespace Reading

def Step.proceed (limit : Option Nat) (rest : List Char) : Step → Option (Json × List Char)
  | .stuck => none
  | .done j => some (j, rest)
  | .more next => run limit next rest

theorem run_of_next? {limit : Option Nat} {state : State} {cs rest : List Char} {t : Token}
    (h : Token.next? cs = some (t, rest)) :
    run limit state cs = (step limit state t).proceed limit rest := by
  rw [run_eq, h]
  rfl

def Frame.parts : Frame → List Json
  | .array items => items
  | .object members _ => members.map Prod.snd

def State.parts : State → List (List Json)
  | .value stack => stack.map Frame.parts
  | .firstItem stack => [] :: stack.map Frame.parts
  | .afterItem items stack => items :: stack.map Frame.parts
  | .firstKey stack => [] :: stack.map Frame.parts
  | .key members stack => members.map Prod.snd :: stack.map Frame.parts
  | .colon members _ stack => members.map Prod.snd :: stack.map Frame.parts
  | .afterMember members stack => members.map Prod.snd :: stack.map Frame.parts

def Within (limit : Nat) : List (List Json) → Prop
  | [] => True
  | parts :: outer =>
    outer.length < limit ∧ (∀ j ∈ parts, j.nesting + outer.length < limit) ∧ Within limit outer

def Step.Within (limit : Nat) : Step → Prop
  | .stuck => True
  | .done j => j.nesting ≤ limit
  | .more state => Reading.Within limit state.parts

variable {limit : Nat} {stack : List Frame}

theorem length_le_of_within (h : Within limit (stack.map Frame.parts)) : stack.length ≤ limit := by
  cases stack with
  | nil => exact Nat.zero_le limit
  | cons frame stack =>
    obtain ⟨hlen, _, _⟩ := h
    rwa [List.length_map] at hlen

theorem deliver_within {j : Json} (hj : j.nesting + stack.length ≤ limit)
    (h : Within limit (stack.map Frame.parts)) : (deliver j stack).Within limit := by
  cases stack with
  | nil => exact hj
  | cons frame stack =>
    obtain ⟨hlen, hparts, houter⟩ := h
    have hnew : j.nesting + (stack.map Frame.parts).length < limit := by
      rw [List.length_map]
      exact hj
    cases frame with
    | array items => exact ⟨hlen, List.forall_mem_cons.mpr ⟨hnew, hparts⟩, houter⟩
    | object members key => exact ⟨hlen, List.forall_mem_cons.mpr ⟨hnew, hparts⟩, houter⟩

theorem start_within (stack : List Frame) (t : Token) (h : Within limit (stack.map Frame.parts)) :
    (start (some limit) stack t).Within limit := by
  have hscalar {j : Json} (hj : j.nesting = 0) : (deliver j stack).Within limit := by
    have hlen := length_le_of_within h
    exact deliver_within (by omega) h
  have hopen (hroom : hasRoom (some limit) stack = true) :
      Within limit ([] :: stack.map Frame.parts) := by
    have hlt : stack.length < limit := of_decide_eq_true hroom
    refine ⟨?_, List.forall_mem_nil _, h⟩
    rwa [List.length_map]
  unfold start
  split
  · split
    · exact hopen ‹_›
    · trivial
  · split
    · exact hopen ‹_›
    · trivial
  · exact hscalar rfl
  · exact hscalar rfl
  · exact hscalar rfl
  · exact hscalar rfl
  · exact hscalar rfl
  · trivial

theorem close_within {parts : List Json} {whole : Json}
    (hwhole : ∀ k, 0 < k → (∀ j ∈ parts, j.nesting < k) → whole.nesting ≤ k)
    (h : Within limit (parts :: stack.map Frame.parts)) : (deliver whole stack).Within limit := by
  obtain ⟨hlen, hparts, houter⟩ := h
  rw [List.length_map] at hlen hparts
  have hroom : ∀ j ∈ parts, j.nesting < limit - stack.length := by
    intro j hj
    have hpart := hparts j hj
    omega
  have hnesting := hwhole (limit - stack.length) (by omega) hroom
  exact deliver_within (by omega) houter

theorem closeArray_within {items : List Json}
    (h : Within limit (items :: stack.map Frame.parts)) :
    (deliver (.array items.reverse) stack).Within limit := by
  refine close_within (fun k hk hitems => nesting_array_le_iff.mpr ⟨hk, ?_⟩) h
  exact fun j hj => hitems j (List.mem_reverse.mp hj)

theorem closeObject_within (members : List (String × Json))
    (h : Within limit (members.map Prod.snd :: stack.map Frame.parts)) :
    (deliver (.object members.reverse) stack).Within limit := by
  refine close_within (fun k hk hmembers => nesting_object_le_iff.mpr ⟨hk, ?_⟩) h
  exact fun m hm => hmembers m.2 (List.mem_map_of_mem (List.mem_reverse.mp hm))

theorem step_within {state : State} (t : Token) (h : Within limit state.parts) :
    (step (some limit) state t).Within limit := by
  unfold step
  split
  · exact start_within _ _ h
  · exact closeArray_within h
  · exact start_within (.array [] :: _) _ h
  · exact h
  · exact closeArray_within h
  · exact h
  · exact closeObject_within [] h
  · exact h
  · exact h
  · exact h
  · exact closeObject_within _ h
  · trivial

theorem nesting_le_of_run {state : State} {cs rest : List Char} {j : Json}
    (h : run (some limit) state cs = some (j, rest)) (hstate : Within limit state.parts) :
    j.nesting ≤ limit := by
  fun_induction run (some limit) state cs with
  | case1 => cases h
  | case2 => cases h
  | case3 state cs t tail hnext hlt value hstep =>
    cases h
    have hvalue := step_within t hstate
    rwa [hstep] at hvalue
  | case4 state cs t tail hnext hlt next hstep ih =>
    have hmore := step_within t hstate
    rw [hstep] at hmore
    exact ih h hmore

theorem start_cut (limit : Option Nat) (stack : List Frame) (t : Token) :
    start limit stack t = .stuck ∨ start limit stack t = start none stack t := by
  cases t with
  | openArray =>
    by_cases hroom : hasRoom limit stack = true
    · right
      rw [start, if_pos hroom]
      rfl
    · left
      rw [start, if_neg hroom]
  | openObject =>
    by_cases hroom : hasRoom limit stack = true
    · right
      rw [start, if_pos hroom]
      rfl
    · left
      rw [start, if_neg hroom]
  | _ => exact .inr rfl

theorem step_cut (limit : Option Nat) (state : State) (t : Token) :
    step limit state t = .stuck ∨ step limit state t = step none state t := by
  unfold step
  split
  · exact start_cut limit _ _
  · exact .inr rfl
  · exact start_cut limit _ _
  all_goals exact .inr rfl

theorem run_none_of_run {limit : Option Nat} {state : State} {cs : List Char}
    {r : Json × List Char} (h : run limit state cs = some r) : run none state cs = some r := by
  fun_induction run limit state cs with
  | case1 => cases h
  | case2 => cases h
  | case3 state cs t tail hnext hlt value hstep =>
    rcases step_cut limit state t with hstuck | hsame
    · cases hstep.symm.trans hstuck
    · rw [run_of_next? hnext, ← hsame, hstep]
      exact h
  | case4 state cs t tail hnext hlt next hstep ih =>
    rcases step_cut limit state t with hstuck | hsame
    · cases hstep.symm.trans hstuck
    · rw [run_of_next? hnext, ← hsame, hstep]
      exact ih h

end Reading

theorem nesting_le_of_readFirst {limit : Nat} {cs rest : List Char} {j : Json}
    (h : readFirst (some limit) cs = some (j, rest)) : j.nesting ≤ limit :=
  Reading.nesting_le_of_run h trivial

theorem readFirst_none_of_readFirst {limit : Option Nat} {cs : List Char} {r : Json × List Char}
    (h : readFirst limit cs = some r) : readFirst none cs = some r :=
  Reading.run_none_of_run h

theorem readFirst_eq_none_of_lt_nesting {limit : Nat} {cs rest : List Char} {j : Json}
    (h : readFirst none cs = some (j, rest)) (hdeep : limit < j.nesting) :
    readFirst (some limit) cs = none := by
  cases hread : readFirst (some limit) cs with
  | none => rfl
  | some r =>
    have hsame := (readFirst_none_of_readFirst hread).symm.trans h
    rw [Option.some.inj hsame] at hread
    exact absurd (nesting_le_of_readFirst hread) (Nat.not_le.mpr hdeep)

theorem read_eq_some_iff {limit : Option Nat} {text : String} {j : Json} :
    read limit text = some j ↔
      ∃ rest, readFirst limit text.toList = some (j, rest) ∧ rest.all Token.isBlank = true := by
  unfold read
  split
  · rename_i value rest hvalue
    by_cases hblank : rest.all Token.isBlank = true
    · rw [if_pos hblank]
      constructor
      · rintro ⟨⟩
        exact ⟨rest, hvalue, hblank⟩
      · rintro ⟨rest', hread, _⟩
        cases hvalue.symm.trans hread
        rfl
    · rw [if_neg hblank]
      constructor
      · rintro ⟨⟩
      · rintro ⟨rest', hread, hall⟩
        cases hvalue.symm.trans hread
        exact absurd hall hblank
  · rename_i hnone
    constructor
    · rintro ⟨⟩
    · rintro ⟨rest', hread, _⟩
      cases hnone.symm.trans hread

theorem nesting_le_of_read {limit : Nat} {text : String} {j : Json}
    (h : read (some limit) text = some j) : j.nesting ≤ limit := by
  obtain ⟨rest, hread, _⟩ := read_eq_some_iff.mp h
  exact nesting_le_of_readFirst hread

theorem read_eq_none_of_lt_nesting {limit : Nat} {text : String} {j : Json}
    (h : read none text = some j) (hdeep : limit < j.nesting) : read (some limit) text = none := by
  obtain ⟨rest, hread, _⟩ := read_eq_some_iff.mp h
  rw [read, readFirst_eq_none_of_lt_nesting hread hdeep]

end RuleLogic.Json
