import Hypermesh.Error
import Hypermesh.Node

/-!
A hyperedge is a tagged relation over two or more nodes, of which it keeps its own copies. Its label
spells the tag and the members in order; its identity is the tag and the set of members.
-/

namespace Hypermesh

structure Attributes where
  boundary : Option Bool := none
  deriving DecidableEq

def Attributes.onBoundary (a : Attributes) : Bool := a.boundary.getD false

structure Hyperedge where
  members : List Node
  tag : String
  mark : UInt8 := 0
  attributes : Attributes := {}
  two_le_length : 2 ≤ members.length
  deriving DecidableEq

/-- Changes to the mark and the attributes of a hyperedge, made in this order. -/
structure Revision where
  mark : Option UInt8 := none
  boundary : Option Bool := none
  attributes : Option Attributes := none
  deriving DecidableEq

namespace Hyperedge

def ofMembers (members : List Node) (tag : String) : Except GraphError Hyperedge :=
  if h : 2 ≤ members.length then .ok { members, tag, two_le_length := h }
  else .error (.tooFewMembers tag members.length)

def join (a b : Node) (tag : String) : Hyperedge where
  members := [a, b]
  tag := tag
  two_le_length := Nat.le_refl 2

def withMark (e : Hyperedge) (mark : UInt8) : Hyperedge := { e with mark }

def withBoundary (e : Hyperedge) (boundary : Bool) : Hyperedge :=
  { e with attributes := { e.attributes with boundary := some boundary } }

def withAttributes (e : Hyperedge) (attributes : Attributes) : Hyperedge := { e with attributes }

def revise (e : Hyperedge) (r : Revision) : Hyperedge :=
  let e := (r.mark.map e.withMark).getD e
  let e := (r.boundary.map e.withBoundary).getD e
  (r.attributes.map e.withAttributes).getD e

def memberLabels (e : Hyperedge) : List Label := e.members.map Node.label

def label (e : Hyperedge) : Label := .hyperedge e.tag e.memberLabels

def onBoundary (e : Hyperedge) : Bool := e.attributes.onBoundary

/-- The mean of the members' coordinates, summed in order from zero. -/
def centroid (e : Hyperedge) : Coord × Coord :=
  let sum := e.members.foldl (fun (x, y) n => (x + n.x, y + n.y)) (Coord.zero, Coord.zero)
  (sum.1 / e.members.length, sum.2 / e.members.length)

def surrogate (e : Hyperedge) (key : Label) : Node where
  x := e.centroid.1
  y := e.centroid.2
  label := e.label
  standsFor := some key

def centre (e : Hyperedge) : Node where
  x := e.centroid.1
  y := e.centroid.2
  label := .centre e.label

/-- The same relation: tags agree, and so do the members as sets. -/
def Same (a b : Hyperedge) : Prop :=
  a.tag = b.tag ∧ (∀ l ∈ a.memberLabels, l ∈ b.memberLabels) ∧
    ∀ l ∈ b.memberLabels, l ∈ a.memberLabels

instance (a b : Hyperedge) : Decidable (Same a b) := inferInstanceAs (Decidable (_ ∧ _))

@[simp] theorem memberLabels_withMark (e : Hyperedge) (mark : UInt8) :
    (e.withMark mark).memberLabels = e.memberLabels := rfl

@[simp] theorem label_withMark (e : Hyperedge) (mark : UInt8) :
    (e.withMark mark).label = e.label := rfl

@[simp] theorem label_withBoundary (e : Hyperedge) (boundary : Bool) :
    (e.withBoundary boundary).label = e.label := rfl

@[simp] theorem label_withAttributes (e : Hyperedge) (attributes : Attributes) :
    (e.withAttributes attributes).label = e.label := rfl

@[simp] theorem standsFor_surrogate (e : Hyperedge) (key : Label) :
    (e.surrogate key).standsFor = some key := rfl

@[simp] theorem label_surrogate (e : Hyperedge) (key : Label) :
    (e.surrogate key).label = e.label := rfl

@[refl] theorem Same.refl (e : Hyperedge) : Same e e := ⟨rfl, fun _ h => h, fun _ h => h⟩

theorem Same.symm {a b : Hyperedge} (h : Same a b) : Same b a := ⟨h.1.symm, h.2.2, h.2.1⟩

theorem Same.trans {a b c : Hyperedge} (h : Same a b) (h' : Same b c) : Same a c :=
  ⟨h.1.trans h'.1, fun l hl => h'.2.1 l (h.2.1 l hl), fun l hl => h.2.2 l (h'.2.2 l hl)⟩

end Hyperedge

end Hypermesh
