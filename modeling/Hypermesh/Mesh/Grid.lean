import Hypermesh.Element

/-!
A rectangular mesh of unit quads. A side of the mesh lies on the boundary if it is part of the outline.
-/

namespace Hypermesh.Mesh

variable (stem : String) (width height : Nat)

def gridNode (column row : Nat) : Node where
  x := .ofNat column
  y := .ofNat row
  label := stem ++ toString column ++ "_" ++ toString row

def positions (columns rows : Nat) : List (Nat × Nat) :=
  (List.range rows).flatMap fun row => (List.range columns).map fun column => (column, row)

/-- The side that leaves a node to the right, if there is a column there, and the one that goes up. -/
def gridSides (column row : Nat) : List Hyperedge :=
  let here := gridNode stem column row
  (if column < width then
    [(Hyperedge.side here (gridNode stem (column + 1) row)).withBoundary
      (row = 0 || row = height)]
  else []) ++
  (if row < height then
    [(Hyperedge.side here (gridNode stem column (row + 1))).withBoundary
      (column = 0 || column = width)]
  else [])

/-- The quad whose lowest corner is in a column and a row, counter-clockwise. -/
def gridQuad (column row : Nat) : Hyperedge :=
  (Hyperedge.quad (gridNode stem column row) (gridNode stem (column + 1) row)
    (gridNode stem (column + 1) (row + 1)) (gridNode stem column (row + 1))).withBoundary false

def grid : Except GraphError Hypergraph :=
  let nodes := (positions (width + 1) (height + 1)).map fun (c, r) => gridNode stem c r
  let sides := (positions (width + 1) (height + 1)).flatMap fun (c, r) =>
    gridSides stem width height c r
  let quads := (positions width height).map fun (c, r) => gridQuad stem c r
  (sides ++ quads).foldlM Hypergraph.addHyperedge ((∅ : Hypergraph).addNodes nodes)

end Hypermesh.Mesh
