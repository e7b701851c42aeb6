import Hypermesh.Element
import Hypermesh.Production

/-!
Patterns in the shape of a polygon: corners on the unit circle, a ring of sides around them, and an
element hyperedge over some of the corners. In a split polygon every side has a node halfway.
-/

namespace Hypermesh.Rules

def corner (i : Nat) : Label := "n" ++ toString (i + 1)

structure Outline where
  tag : String
  sides : Nat
  spanned : List Nat

namespace Outline

def full (tag : String) (sides : Nat) : Outline := ⟨tag, sides, List.range sides⟩

def quad : Outline := full quadTag 4

def pentagon : Outline := full "P" 5

def hexagon : Outline := full "S" 6

/-- The element of a heptagon leaves out its fifth corner. -/
def heptagon : Outline := ⟨"T", 7, [0, 1, 2, 3, 5, 6]⟩

variable (o : Outline)

def elementKey : Label := .hyperedge o.tag (o.spanned.map corner)

/-- A node of a pattern at the `i`-th of `count` points of the unit circle. -/
def place (label : Label) (i count : Nat) : Node :=
  let (x, y) := Coord.onCircle i count
  { x, y, label }

def cornerNode (i : Nat) : Node := place (corner i) i o.sides

def whole (elementMark sideMark : UInt8) : Except GraphError Hypergraph := do
  let g ← (∅ : Hypergraph).addRing ((List.range o.sides).map o.cornerNode) (·.withMark sideMark)
  g.addElement (o.spanned.map o.cornerNode) o.tag elementMark

/-- The keys of a split polygon: each corner and the node halfway to the next one. -/
def splitKeys : List (Label × Label) :=
  (List.range o.sides).map fun i => (corner i, corner (o.sides + i))

def splitCorner (i : Nat) : Node := place (corner i) (2 * i) (2 * o.sides)

def splitMiddle (i : Nat) : Node := place (corner (o.sides + i)) (2 * i + 1) (2 * o.sides)

def split (elementMark : UInt8) : Except GraphError Hypergraph := do
  let ring := (List.range o.sides).flatMap fun i => [o.splitCorner i, o.splitMiddle i]
  let g ← (∅ : Hypergraph).addRing ring (·.withMark 0)
  g.addElement (o.spanned.map o.splitCorner) o.tag elementMark

end Outline

end Hypermesh.Rules
