import Hypermesh.Element

/-!
A mesh of one polygonal element whose sides all lie on the boundary.
-/

namespace Hypermesh.Mesh

/-- The `i`-th corner: a point of the unit circle around the origin, labelled by stem and number. -/
def polygonNode (stem : String) (sides : Nat) (origin : Coord × Coord) (i : Nat) : Node where
  x := origin.1 + (Coord.onCircle i sides).1
  y := origin.2 + (Coord.onCircle i sides).2
  label := stem ++ toString i

def polygon (stem : String) (sides : Nat) (tag : String) (mark : UInt8) (origin : Coord × Coord) :
    Except GraphError Hypergraph := do
  let corners := (List.range sides).map (polygonNode stem sides origin)
  let g ← (∅ : Hypergraph).addRing corners (·.withBoundary true)
  g.addElement corners tag mark

end Hypermesh.Mesh
