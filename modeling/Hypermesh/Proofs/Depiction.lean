import Hypermesh.Proofs.Consistency
import Hypermesh.Proofs.Region

/-!
What a production can tell from the region it is shown, whatever the host: the records have the kinds of
the pattern's, different nodes have different labels, and nodes linked in the pattern are members.
-/

namespace Hypermesh

namespace Hypergraph

variable {pattern host region : Hypergraph} {m : Embedding} {key : Label} {node : Node}
  {edge : Hyperedge}

theorem kindOf_eq_surrogate_iff {g : Hypergraph} {tag : String} {mark : UInt8} :
    g.kindOf key = .surrogate tag mark ↔
      ∃ edge, g.hyperedge? key = some edge ∧ edge.tag = tag ∧ edge.mark = mark := by
  unfold kindOf
  cases g.hyperedge? key <;> simp [Hyperedge.kind]

theorem kindOf_eq_regular_iff {g : Hypergraph} : g.kindOf key = .regular ↔ ¬ key ∈ g.hyperedges := by
  rw [← Table.find?_eq_none_iff, ← hyperedge?]
  unfold kindOf
  cases g.hyperedge? key <;> simp [Hyperedge.kind]

/-- The region has a record of the pattern's kind under every key of the pattern. -/
structure Shows (pattern region : Hypergraph) : Prop where
  kind : ∀ key, region.kindOf key = pattern.kindOf key
  node : ∀ key, key ∈ pattern → pattern.kindOf key = .regular → ∃ node, region.node? key = some node

/-- The region has the kinds of the pattern and shows its nodes one to one, as members where the pattern
links them. -/
structure Depicts (pattern region : Hypergraph) : Prop where
  kind : ∀ key, region.kindOf key = pattern.kindOf key
  node : ∀ key, key ∈ pattern → pattern.kindOf key = .regular → ∃ node, region.node? key = some node
  injective : ∀ k k' node node', region.node? k = some node → region.node? k' = some node' →
    node.label = node'.label → k = k'
  member : ∀ k key node edge, region.node? k = some node → region.hyperedge? key = some edge →
    k ∈ pattern.neighbours key → node.label ∈ edge.memberLabels

theorem Depicts.shows (depicts : pattern.Depicts region) : pattern.Shows region :=
  ⟨depicts.kind, depicts.node⟩

theorem Shows.exists_nodes (shows : pattern.Shows region) :
    ∃ node : Label → Node, ∀ key, key ∈ pattern → pattern.kindOf key = .regular →
      region.node? key = some (node key) := by
  refine ⟨fun key => (region.node? key).getD { x := .zero, y := .zero, label := key }, ?_⟩
  intro key vertex regular
  obtain ⟨node, found⟩ := shows.node key vertex regular
  simp only [found, Option.getD_some]

/-- The region has the kinds of the pattern, whatever the labels of the records are. -/
theorem Embeds.kindOf_region (embeds : pattern.Embeds host m) (p : pattern.Coherent)
    (eq : pattern.region host m = .ok region) (key : Label) : region.kindOf key = pattern.kindOf key := by
  by_cases stored : key ∈ pattern.hyperedges
  · obtain ⟨edge, found⟩ := mem_hyperedges_iff.1 stored
    rw [kindOf_eq_surrogate_iff.2 ⟨edge, found, rfl, rfl⟩]
    exact kindOf_eq_surrogate_iff.2 (embeds.exists_edge p eq found)
  · rw [kindOf_eq_regular_iff.2 stored, kindOf_eq_regular_iff]
    intro mem
    obtain ⟨edge, found⟩ := mem_hyperedges_iff.1 mem
    exact stored (edge_of_region p eq found).1

/-- Whatever the labels of the records are, none is missing. -/
theorem Embeds.shows (embeds : pattern.Embeds host m) (p : pattern.Coherent) (c : host.Coherent)
    (eq : pattern.region host m = .ok region) : pattern.Shows region := by
  refine ⟨embeds.kindOf_region p eq, fun key vertex regular => ?_⟩
  rw [kindOf_eq_regular_iff] at regular
  obtain ⟨t, image⟩ := embeds.exists_image vertex
  obtain ⟨node, found⟩ := mem_nodes_iff.1 (embeds.node_image c regular image)
  exact ⟨node, by rw [node?_region eq, if_pos ⟨vertex, regular⟩, image, Option.bind_some, found]⟩

theorem Labelled.depicts (h : host.Labelled) (p : pattern.Coherent) (mem : m ∈ pattern.embeddings host)
    (eq : pattern.region host m = .ok region) : pattern.Depicts region := by
  have embeds := ((mem_embeddings p h.coherent).1 mem).2
  have image {k : Label} {node : Node} (found : region.node? k = some node) :
      ¬ k ∈ pattern.hyperedges ∧ m.find? k = some node.label := by
    obtain ⟨regular, t, image, found⟩ := node_of_region eq found
    rw [h.node_label t node found]
    exact ⟨regular, image⟩
  have shows := embeds.shows p h.coherent eq
  refine ⟨shows.kind, shows.node, ?injective, ?member⟩
  case injective =>
    intro k k' node node' found found' same
    exact embeds.injective k k' node.label (image found).2 (same ▸ (image found').2)
  case member =>
    intro k key node edge found found' linked
    obtain ⟨-, t, image', stored⟩ := edge_of_region p eq found'
    obtain ⟨regular, image⟩ := image found
    rcases h.listed _ _ ((embeds.incident key k t node.label image' image).1 linked) with lists | lists
    · obtain ⟨edge', found, member⟩ := lists
      rw [stored] at found
      cases found
      exact member
    · -- A regular vertex is not the image of a hyperedge, so it lists nothing.
      exact absurd lists.stored (embeds.regular k node.label image regular)

end Hypergraph

end Hypermesh
