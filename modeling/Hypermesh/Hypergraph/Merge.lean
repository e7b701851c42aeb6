import Hypermesh.Hypergraph

/-!
Merging copies all nodes of one hypergraph into another and then its hyperedges, up to the first one
with an unknown member. What was copied before that stays.
-/

namespace Hypermesh

namespace Hypergraph

def addAll (g : Hypergraph) : List Hyperedge → Hypergraph × Except GraphError Unit
  | [] => (g, .ok ())
  | e :: es =>
    match g.addHyperedge e with
    | .ok g => g.addAll es
    | .error error => (g, .error error)

def merge (g other : Hypergraph) : Hypergraph × Except GraphError Unit :=
  (other.nodes.values.foldl addNode g).addAll other.hyperedges.values

end Hypergraph

end Hypermesh
