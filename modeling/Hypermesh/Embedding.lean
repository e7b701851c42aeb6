import Hypermesh.Embedding.Search
import Hypermesh.InOrder

/-!
An embedding sends the vertices of a pattern to those of a host, one to one, in a way that keeps the
kinds and keeps links and their absence. The embeddings of a pattern come in the order of the host
labels they select.
-/

namespace Hypermesh

/-- The host label under each pattern label, in the pattern's vertex order. -/
abbrev Embedding := Table Label

namespace Hypergraph

/-- A search takes place only for a pattern that has vertices, and no more than the host has. -/
def Fits (pattern host : Hypergraph) : Prop :=
  0 < pattern.vertices.size ∧ pattern.vertices.size ≤ host.vertices.size

instance (pattern host : Hypergraph) : Decidable (pattern.Fits host) :=
  inferInstanceAs (Decidable (_ ∧ _))

def selections (pattern host : Hypergraph) : List (List Label) :=
  let h := host.incidence
  inOrder Label.seqLe ((pattern.incidence.assignments h).map (·.map h.label.get))

def embeddings (pattern host : Hypergraph) : List Embedding :=
  if pattern.Fits host then (pattern.selections host).map pattern.vertices.withValues else []

end Hypergraph

end Hypermesh
