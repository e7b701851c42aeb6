import Hypermesh.Rules.Outline

/-!
Rules that split a marked side in half. The midpoint of a side inside the domain hangs: the element
beyond it has not been refined yet.
-/

namespace Hypermesh.Rules

def sideKey : Label := .hyperedge sideTag [corner 0, corner 1]

def markedSide : Except GraphError Hypergraph :=
  let a : Node := ⟨.ofNat 0, .ofNat 0, corner 0, false, none⟩
  let b : Node := ⟨.ofNat 1, .ofNat 0, corner 1, false, none⟩
  ((∅ : Hypergraph).addNodes [a, b]).addHyperedge ((Hyperedge.side a b).withMark 1)

/-- The midpoint and two unmarked halves that keep the attributes of the side. -/
def halves (hanging : Hyperedge → Bool) (region : Hypergraph) : Side := do
  let side ← region.requireHyperedge sideKey
  let a ← region.requireNode (corner 0)
  let b ← region.requireNode (corner 1)
  let middle := { Node.midpoint a b with hanging := hanging side }
  let half := fun (p q : Node) => (Hyperedge.side p q).withAttributes side.attributes
  return (((∅ : Hypergraph).addNode middle).insertHyperedge (half a middle)).insertHyperedge
    (half middle b)

def splitSide : Production where
  name := "edge/split"
  left := markedSide.mapError .graph
  right := fun region _ => halves (fun side => !side.onBoundary) region

def splitBoundarySide : Production where
  name := "edge/break-boundary"
  left := markedSide.mapError .graph
  accepts := fun region => (region.hyperedge? sideKey).any Hyperedge.onBoundary
  right := fun region _ => halves (fun _ => false) region

end Hypermesh.Rules
