import RuleLogic.Proofs.Layer
import RuleLogic.Rule

namespace RuleLogic

theorem depth_eq_of_le_succ_iff {a b : Nat} (ha : 0 < a) (hb : 0 < b)
    (h : ∀ k, a ≤ k + 1 ↔ b ≤ k + 1) : a = b := by
  have hab := h (a - 1)
  have hba := h (b - 1)
  omega

namespace Node

mutual

def depth : Node → Nat
  | .predicate _ _ => 1
  | .check _ _ body => depth body + 1
  | .focused _ _ body => depth body + 1
  | .modified _ body => depth body + 1
  | .set members => depthOfMembers members + 1
  | .joined _ left right => max (depth left) (depth right) + 1

def depthOfMembers : List Node → Nat
  | [] => 0
  | n :: ns => max (depth n) (depthOfMembers ns)

end

theorem depthOfMembers_le_iff {ns : List Node} {k : Nat} :
    depthOfMembers ns ≤ k ↔ ∀ n ∈ ns, n.depth ≤ k := by
  induction ns with
  | nil => simp [depthOfMembers]
  | cons n ns ih => rw [depthOfMembers, Nat.max_le, List.forall_mem_cons, ih]

theorem depth_pos (n : Node) : 0 < n.depth := by
  cases n <;> simp [depth]

theorem depth_le_succ_iff {n : Node} {k : Nat} :
    n.depth ≤ k + 1 ↔ ∀ c ∈ n.shape.children, c.depth ≤ k := by
  cases n with
  | set members => rw [depth, Nat.add_le_add_iff_right, depthOfMembers_le_iff]; rfl
  | joined connective left right =>
    rw [depth, Nat.add_le_add_iff_right, Nat.max_le, shape, Shape.children, List.forall_mem_cons,
      List.forall_mem_singleton]
  | _ => simp [depth, shape, Shape.children]

end Node

def Document.depth (d : Document) : Nat := Node.depthOfMembers d

theorem Document.depth_le_iff {d : Document} {k : Nat} :
    depth d ≤ k ↔ ∀ n ∈ d, n.depth ≤ k :=
  Node.depthOfMembers_le_iff

namespace Rule

def children : Rule → List Rule
  | .predicate _ => []
  | .check _ _ rule => [rule]
  | .focused _ _ rule => [rule]
  | .modified _ rule => [rule]
  | .set rules => rules
  | .joined _ left right => [left, right]

mutual

def depth : Rule → Nat
  | .predicate _ => 1
  | .check _ _ rule => depth rule + 1
  | .focused _ _ rule => depth rule + 1
  | .modified _ rule => depth rule + 1
  | .set rules => depthOfRules rules + 1
  | .joined _ left right => max (depth left) (depth right) + 1

def depthOfRules : List Rule → Nat
  | [] => 0
  | r :: rs => max (depth r) (depthOfRules rs)

end

theorem depthOfRules_le_iff {rs : List Rule} {k : Nat} :
    depthOfRules rs ≤ k ↔ ∀ r ∈ rs, r.depth ≤ k := by
  induction rs with
  | nil => simp [depthOfRules]
  | cons r rs ih => rw [depthOfRules, Nat.max_le, List.forall_mem_cons, ih]

theorem depth_pos (r : Rule) : 0 < r.depth := by
  cases r <;> simp [depth]

theorem depth_le_succ_iff {r : Rule} {k : Nat} :
    r.depth ≤ k + 1 ↔ ∀ c ∈ r.children, c.depth ≤ k := by
  cases r with
  | set rules => rw [depth, Nat.add_le_add_iff_right, depthOfRules_le_iff]; rfl
  | joined connective left right =>
    rw [depth, Nat.add_le_add_iff_right, Nat.max_le, children, List.forall_mem_cons,
      List.forall_mem_singleton]
  | _ => simp [depth, children]

end Rule

end RuleLogic
