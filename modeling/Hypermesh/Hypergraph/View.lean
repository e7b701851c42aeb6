import Hypermesh.Hypergraph

/-!
A summary of a hypergraph for drawing and inspection: every record under its storage key, in insertion
order, with the defaults filled in.
-/

namespace Hypermesh

structure NodeView where
  label : Label
  x : Coord
  y : Coord
  hanging : Bool
  deriving DecidableEq

structure HyperedgeView where
  label : Label
  tag : String
  mark : UInt8
  boundary : Bool
  members : List Label
  deriving DecidableEq

namespace Hypergraph

def nodeViews (g : Hypergraph) : List NodeView :=
  g.nodes.entries.map fun (label, n) => ⟨label, n.x, n.y, n.hanging⟩

def hyperedgeViews (g : Hypergraph) : List HyperedgeView :=
  g.hyperedges.entries.map fun (label, e) =>
    ⟨label, e.tag, e.mark, e.onBoundary, e.memberLabels⟩

@[simp] theorem length_nodeViews (g : Hypergraph) : g.nodeViews.length = g.counts.regular := by
  simp [nodeViews, counts, Table.size]

@[simp] theorem length_hyperedgeViews (g : Hypergraph) :
    g.hyperedgeViews.length = g.counts.hyper := by
  simp [hyperedgeViews, counts, Table.size]

end Hypergraph

end Hypermesh
