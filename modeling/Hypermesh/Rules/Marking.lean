import Hypermesh.Rules.Outline

/-!
Rules that only set marks. An element of a mesh is marked for refinement when all of its sides are
unmarked; a marked pentagon hands its mark on to its sides.
-/

namespace Hypermesh.Rules

def sides (region : Hypergraph) : List Hyperedge :=
  region.hyperedges.values.filter (·.tag = sideTag)

def keepSides (region : Hypergraph) : Hypergraph :=
  (sides region).foldl Hypergraph.insertHyperedge ∅

def markElement (name : String) (o : Outline) : Production where
  name := name
  left := (o.whole 0 0).mapError .graph
  right := fun region _ => do
    let element ← region.requireHyperedge o.elementKey
    return (keepSides region).insertHyperedge (element.withMark 1)

def markQuad : Production := markElement "quad/mark" .quad

def markHexagon : Production := markElement "hexagon/mark" .hexagon

def markHeptagon : Production := markElement "heptagon/mark" .heptagon

def markPentagonSides : Production where
  name := "pentagon/mark-edges"
  left := (Outline.pentagon.whole 1 0).mapError .graph
  right := fun region _ => do
    let element ← region.requireHyperedge Outline.pentagon.elementKey
    return (sides region).foldl (fun g e => g.insertHyperedge (e.withMark 1))
      ((∅ : Hypergraph).insertHyperedge element)

end Hypermesh.Rules
