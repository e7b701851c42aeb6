import Hypermesh.Coord
import Hypermesh.Label

/-!
A node is a vertex of the mesh. Its label alone is its identity. A node that stands for a hyperedge is
the surrogate of that hyperedge in the incidence graph.
-/

namespace Hypermesh

structure Node where
  x : Coord
  y : Coord
  label : Label
  hanging : Bool := false
  standsFor : Option Label := none
  deriving DecidableEq

namespace Node

def isSurrogate (n : Node) : Bool := n.standsFor.isSome

def regular (n : Node) : Node := { n with standsFor := none }

/-- The same vertex: labels agree, whatever the coordinates and flags. -/
def Same (a b : Node) : Prop := a.label = b.label

instance (a b : Node) : Decidable (Same a b) := inferInstanceAs (Decidable (_ = _))

def midpoint (a b : Node) : Node where
  x := (a.x + b.x) / 2
  y := (a.y + b.y) / 2
  label := .midpoint a.label b.label

@[simp] theorem label_regular (n : Node) : n.regular.label = n.label := rfl

@[simp] theorem standsFor_regular (n : Node) : n.regular.standsFor = none := rfl

@[simp] theorem label_midpoint (a b : Node) :
    (midpoint a b).label = .midpoint a.label b.label := rfl

@[refl] theorem Same.refl (n : Node) : Same n n := rfl

theorem Same.symm {a b : Node} (h : Same a b) : Same b a := Eq.symm h

theorem Same.trans {a b c : Node} (h : Same a b) (h' : Same b c) : Same a c := Eq.trans h h'

end Node

end Hypermesh
