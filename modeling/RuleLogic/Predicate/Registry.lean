import RuleLogic.Predicate.Basic
import Std.Data.ExtTreeMap

namespace RuleLogic

structure Registry where
  signatures : Std.ExtTreeMap String Signature

namespace Registry

def empty : Registry := ⟨∅⟩

def insert (r : Registry) (p : Predicate) : Registry := ⟨r.signatures.insert p.name p.toEntry⟩

def register (r : Registry) (name : String) (params : List String) : Registry :=
  r.insert (.new name params)

def ofList (ps : List Predicate) : Registry := ps.foldl insert empty

def lookup (r : Registry) (name : String) : Option Predicate :=
  r.signatures[name]?.map (Predicate.ofSignature name)

def contains (r : Registry) (name : String) : Bool := r.signatures.contains name

def size (r : Registry) : Nat := r.signatures.size

def isEmpty (r : Registry) : Bool := r.signatures.isEmpty

def names (r : Registry) : List String := r.signatures.keys

def display (r : Registry) : String := "Predicates(" ++ toString r.size ++ " registered)"

theorem lookup_insert (r : Registry) (p : Predicate) (name : String) :
    (r.insert p).lookup name =
      if p.name = name then some (.ofSignature name p.toEntry) else r.lookup name := by
  simp only [lookup, insert, Std.ExtTreeMap.getElem?_insert, Std.LawfulEqCmp.compare_eq_iff_eq]
  split <;> rfl

theorem name_of_lookup {r : Registry} {name : String} {p : Predicate}
    (h : r.lookup name = some p) : p.name = name := by
  simp only [lookup, Option.map_eq_some_iff] at h
  obtain ⟨s, _, rfl⟩ := h
  rfl

end Registry

end RuleLogic
