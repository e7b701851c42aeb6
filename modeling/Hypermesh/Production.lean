import Hypermesh.Hypergraph

/-!
A production replaces what matches its left side. It may refuse a match, and it answers an accepted one
with a right side. Both see the matched region, keyed by the labels of the left side.
-/

namespace Hypermesh

/-- One side of a production, or the reason why it cannot be assembled. -/
abbrev Side := Except RuleError Hypergraph

/-- A side that cannot be assembled counts as empty. -/
def Side.graph : Side → Hypergraph
  | .ok g => g
  | .error _ => ∅

structure Production where
  name : String
  left : Side
  accepts : Hypergraph → Bool := fun _ => true
  right : (region : Hypergraph) → (index : Nat) → Side

def Production.leftSide (P : Production) : Hypergraph := P.left.graph

def Production.rightSide (P : Production) (region : Hypergraph) (index : Nat) : Hypergraph :=
  (P.right region index).graph

namespace Hypergraph

variable {region : Hypergraph} {key : Label}

def requireNode (region : Hypergraph) (key : Label) : Except RuleError Node :=
  match region.node? key with
  | some n => .ok n
  | none => .error (.missingVertex key)

def requireHyperedge (region : Hypergraph) (key : Label) : Except RuleError Hyperedge :=
  match region.hyperedge? key with
  | some e => .ok e
  | none => .error (.missingVertex key)

theorem requireNode_eq_ok {n : Node} : region.requireNode key = .ok n ↔ region.node? key = some n := by
  unfold requireNode
  cases region.node? key <;> simp

theorem requireHyperedge_eq_ok {e : Hyperedge} :
    region.requireHyperedge key = .ok e ↔ region.hyperedge? key = some e := by
  unfold requireHyperedge
  cases region.hyperedge? key <;> simp

end Hypergraph

end Hypermesh
