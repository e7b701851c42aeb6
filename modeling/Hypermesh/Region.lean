import Hypermesh.Embedding

/-!
The region of a host that an embedding selects: the host's records under the pattern's labels, linked as
in the pattern. A production replaces the hyperedges of a region and leaves its nodes in place.
-/

namespace Hypermesh

namespace Hypergraph

/-- Copies the host's record under the image of `key`; fails with a label that has nothing stored. -/
def copyVertex (pattern host : Hypergraph) (m : Embedding) (region : Hypergraph) (key : Label) :
    Except Label Hypergraph :=
  match m.find? key with
  | none => .error key
  | some target =>
    if key ∈ pattern.hyperedges then
      match host.hyperedge? target with
      | none => .error target
      | some e => .ok (region.putHyperedge key e)
    else
      match host.node? target with
      | none => .error target
      | some n => .ok (region.putNode key n)

def linkLike (pattern region : Hypergraph) (key : Label) : Hypergraph :=
  (pattern.neighbours key).foldl (·.link key ·) region

def region (pattern host : Hypergraph) (m : Embedding) : Except Label Hypergraph :=
  (pattern.vertices.keys.foldlM (copyVertex pattern host m) ∅).map fun copied =>
    pattern.hyperedges.keys.foldl (linkLike pattern) copied

def removeMatched (host pattern : Hypergraph) (m : Embedding) : Hypergraph :=
  (pattern.hyperedges.keys.filterMap m.find?).foldl remove host

def addNewNode (g : Hypergraph) (node : Node) : Hypergraph :=
  if node.label ∈ g.nodes then g else g.addNode node

/-- Adds the nodes of `other` that are new and then all of its hyperedges. -/
def overlay (g other : Hypergraph) : Hypergraph :=
  other.hyperedges.values.foldl insertHyperedge (other.nodes.values.foldl addNewNode g)

/-- One replacement step: the matched hyperedges give way to the replacement. -/
def replace (host pattern : Hypergraph) (m : Embedding) (replacement : Hypergraph) : Hypergraph :=
  (host.removeMatched pattern m).overlay replacement

end Hypergraph

end Hypermesh
