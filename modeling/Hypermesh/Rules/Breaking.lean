import Hypermesh.Rules.Marking

/-!
Rules that break a marked element with split sides into quads around a new centre, one quad for each
corner. The element goes, the halves of its sides stay.
-/

namespace Hypermesh.Rules

/-- Adds a spoke from the centre to the next midpoint and the quad of one corner. -/
def addSlice (centre : Node) (out : Hypergraph) (slice : (Node × Node) × Node) : Hypergraph :=
  let ((corner, next), previous) := slice
  (out.insertHyperedge ((Hyperedge.side next centre).withBoundary false)).insertHyperedge
    ((Hyperedge.quad corner next centre previous).withBoundary false)

/-- Adds the centre of an element and a slice for each corner, given with the midpoint after it. -/
def addSlices (element : Hyperedge) (ring : List (Node × Node)) (out : Hypergraph) : Hypergraph :=
  (ring.zip ((ring.map Prod.snd).rotateRight 1)).foldl (addSlice element.centre)
    (out.addNode element.centre)

def breakElement (name : String) (o : Outline) : Production where
  name := name
  left := (o.split 1).mapError .graph
  right := fun region _ => do
    let element ← region.requireHyperedge o.elementKey
    let ring ← o.splitKeys.mapM fun (a, b) =>
      return (← region.requireNode a, ← region.requireNode b)
    return addSlices element ring (keepSides region)

def breakPentagon : Production := breakElement "pentagon/break" .pentagon

def breakHexagon : Production := breakElement "hexagon/break" .hexagon

end Hypermesh.Rules
