import Hypermesh.Proofs.Coherence
import Hypermesh.Proofs.Matching.Embedding
import Hypermesh.Proofs.Merging

/-!
Removal takes back an insertion. What comes in last stands last: in its table, among the vertices, and among
the links of every member. Taken out again it leaves everything in its place. Nothing else depends on it, as
a label without a vertex is in no table and in no list of links.
-/

universe u

namespace Hypermesh

theorem filter_ne_append_singleton {labels : List Label} {key : Label} (fresh : ¬ key ∈ labels) :
    (labels ++ [key]).filter (· ≠ key) = labels := by
  have rest : labels.filter (· ≠ key) = labels := by
    apply List.filter_eq_self.2
    intro label mem
    exact decide_eq_true (ne_of_mem_of_not_mem mem fresh)
  rw [List.filter_append, rest, List.filter_singleton]
  simp

namespace Table

variable {β : Type u}

theorem erase_insert {t : Table β} {key : Label} (fresh : ¬ key ∈ t) (value : β) :
    (t.insert key value).erase key = t := by
  apply ext_find?
  · rw [keys_erase, keys_insert, if_neg fresh, filter_ne_append_singleton fresh]
  · intro other mem
    have ne : other ≠ key := (mem_erase.1 mem).1
    rw [find?_erase, if_neg ne, find?_insert, if_neg ne]

end Table

theorem LabelSet.ext_keys {s t : LabelSet} (keys : s.keys = t.keys) : s = t := by
  apply Table.ext_find? keys
  intro label mem
  obtain ⟨_, found⟩ := Table.mem_iff.1 mem
  obtain ⟨_, found'⟩ := Table.mem_iff.1 (keys ▸ mem : label ∈ t.keys)
  rw [found, found']

namespace Hypergraph

variable {g h : Hypergraph} {key l : Label} {members : List Node} {member : Node} {e : Hyperedge}

/-- A hypergraph is what is stored in it, the order of its vertices, and what each vertex shows. -/
theorem ext_lookup (nodes : g.nodes = h.nodes) (hyperedges : g.hyperedges = h.hyperedges)
    (keys : g.vertices.keys = h.vertices.keys) (surrogate : ∀ l, g.surrogate? l = h.surrogate? l)
    (neighbours : ∀ l, g.neighbours l = h.neighbours l) : g = h := by
  have vertex (l : Label) : g.vertex l = h.vertex l :=
    congrArg₂ Vertex.mk (surrogate l) (LabelSet.ext_keys (neighbours l))
  have vertices : g.vertices = h.vertices := by
    apply Table.ext_find? keys
    intro l mem
    obtain ⟨v, found⟩ := Table.mem_iff.1 mem
    obtain ⟨v', found'⟩ := Table.mem_iff.1 (keys ▸ mem : l ∈ h.vertices.keys)
    have same := vertex l
    rw [Hypergraph.vertex, Hypergraph.vertex, found, found', Option.getD_some, Option.getD_some] at same
    rw [found, found', same]
  change Hypergraph.mk g.nodes g.hyperedges g.vertices = Hypergraph.mk h.nodes h.hyperedges h.vertices
  rw [nodes, hyperedges, vertices]

/-! ### Members that are stored -/

theorem nodes_attach_of_mem (stored : member.label ∈ g.nodes) : (g.attach key member).nodes = g.nodes := by
  rw [attach, if_pos stored, nodes_link]

theorem vertices_keys_attach_of_mem (covered : g.Covered) (stored : member.label ∈ g.nodes) :
    (g.attach key member).vertices.keys = g.vertices.keys := by
  rw [vertices_keys_attach covered, if_pos (covered _ stored)]

/-- Stored members bring in neither nodes nor vertices. -/
theorem attachAll_of_known (covered : g.Covered) (known : ∀ n ∈ members, n.label ∈ g.nodes) :
    (g.attachAll key members).nodes = g.nodes ∧
      (g.attachAll key members).vertices.keys = g.vertices.keys := by
  induction members generalizing g with
  | nil => exact ⟨rfl, rfl⟩
  | cons member members ih =>
    obtain ⟨first, rest⟩ := List.forall_mem_cons.1 known
    have nodes : (g.attach key member).nodes = g.nodes := nodes_attach_of_mem first
    obtain ⟨nodes', keys'⟩ := ih (covered.attach key member) (nodes ▸ rest)
    rw [attachAll_cons, nodes', keys', nodes, vertices_keys_attach_of_mem covered first]
    exact ⟨rfl, rfl⟩

theorem members_mem_putHyperedge (known : ∀ k ∈ e.memberLabels, k ∈ g.nodes) :
    ∀ n ∈ e.members, n.label ∈ (g.putHyperedge e.label e).nodes := by
  rw [nodes_putHyperedge]
  exact fun n mem => known _ (List.mem_map_of_mem mem)

theorem nodes_insertHyperedge_of_known (covered : g.Covered) (known : ∀ k ∈ e.memberLabels, k ∈ g.nodes) :
    (g.insertHyperedge e).nodes = g.nodes := by
  have stored := members_mem_putHyperedge known
  rw [insertHyperedge_eq, (attachAll_of_known (covered.putHyperedge _ _) stored).1, nodes_putHyperedge]

theorem vertices_keys_insertHyperedge_of_known (covered : g.Covered)
    (known : ∀ k ∈ e.memberLabels, k ∈ g.nodes) :
    (g.insertHyperedge e).vertices.keys =
      if e.label ∈ g then g.vertices.keys else g.vertices.keys ++ [e.label] := by
  have stored := members_mem_putHyperedge known
  rw [insertHyperedge_eq, (attachAll_of_known (covered.putHyperedge _ _) stored).2,
    vertices_keys_putHyperedge]

/-! ### Taking a hyperedge back -/

/-- A label without a vertex is linked to nothing. -/
theorem Coherent.not_mem_neighbours (c : g.Coherent) (fresh : ¬ key ∈ g) (l : Label) :
    ¬ key ∈ g.neighbours l := fun linked => fresh (mem_of_mem_neighbours (c.symmetric l key linked))

/-- The links of a label before the hyperedge came in, with those to the hyperedge at the end. -/
theorem neighbours_insertHyperedge_of_fresh (c : g.Coherent) (fresh : ¬ e.label ∈ g) (ne : l ≠ e.label) :
    (g.insertHyperedge e).neighbours l =
      if l ∈ e.memberLabels then g.neighbours l ++ [e.label] else g.neighbours l := by
  have cleared : g.cleared e.label l = g.neighbours l := by
    rw [Hypergraph.cleared, if_neg fun stored => fresh ((c.mem_iff _).2 (Or.inr stored))]
  have unlinked := c.not_mem_neighbours fresh l
  rw [neighbours_insertHyperedge c.symmetric c.covered, if_neg ne, cleared]
  simp only [unlinked, not_false_eq_true, and_true]

theorem remove_insertHyperedge (c : g.Coherent) (fresh : ¬ e.label ∈ g)
    (known : ∀ k ∈ e.memberLabels, k ∈ g.nodes) : (g.insertHyperedge e).remove e.label = g := by
  have no_node : ¬ e.label ∈ g.nodes := fun stored => fresh ((c.mem_iff _).2 (Or.inl stored))
  have no_edge : ¬ e.label ∈ g.hyperedges := fun stored => fresh ((c.mem_iff _).2 (Or.inr stored))
  apply ext_lookup
  case nodes =>
    rw [nodes_remove, nodes_insertHyperedge_of_known c.covered known, Table.erase_of_not_mem no_node]
  case hyperedges => rw [hyperedges_remove, hyperedges_insertHyperedge, Table.erase_insert no_edge]
  case keys =>
    rw [vertices_keys_remove, vertices_keys_insertHyperedge_of_known c.covered known, if_neg fresh,
      filter_ne_append_singleton fresh]
  case surrogate =>
    intro l
    rw [surrogate?_remove, surrogate?_insertHyperedge]
    split
    · next eq => rw [eq, surrogate?, vertex_of_not_mem fresh]
    · rfl
  case neighbours =>
    intro l
    rw [neighbours_remove (c.insertHyperedge e).symmetric]
    split
    · next eq => rw [eq, neighbours_of_not_mem fresh]
    · next ne =>
      have unlinked := c.not_mem_neighbours fresh l
      rw [neighbours_insertHyperedge_of_fresh c fresh ne]
      split
      · exact filter_ne_append_singleton unlinked
      · exact List.filter_eq_self.2 fun k mem => decide_eq_true (ne_of_mem_of_not_mem mem unlinked)

/-- A hyperedge over stored nodes comes in under a label that is not in use, and its removal restores all
three tables and all links, in their order. -/
theorem addHyperedge_undone (g : Hypergraph) (reachable : g.Reachable) (e : Hyperedge)
    (fresh : ¬ e.label ∈ g) (known : ∀ k ∈ e.memberLabels, k ∈ g.nodes) :
    ∃ h, g.addHyperedge e = .ok h ∧ h.hyperedge? e.label = some e ∧ h.remove e.label = g := by
  refine ⟨g.insertHyperedge e, addHyperedge_of_known known, ?_, ?_⟩
  · rw [hyperedge?_insertHyperedge, if_pos rfl]
  · exact remove_insertHyperedge reachable.coherent fresh known

theorem addHyperedge_undone_repeated :
    let g := Operation.build (chain ["a", "b", "c"])
    let node (label : Label) : Node := { x := .zero, y := .zero, label }
    let e : Hyperedge := ⟨[node "b", node "a", node "b"], "T", 1, {}, by decide⟩
    g.Reachable ∧ ¬ e.label ∈ g ∧ (∀ k ∈ e.memberLabels, k ∈ g.nodes) ∧
      ∃ h, g.addHyperedge e = .ok h ∧ h.neighbours "b" = ["E_a_b", "E_b_c", "T_b_a_b"] ∧
        h.remove "T_b_a_b" = g := by
  intro g node e
  have fresh : ¬ e.label ∈ g := by decide +kernel
  have known : ∀ k ∈ e.memberLabels, k ∈ g.nodes := by decide +kernel
  obtain ⟨h, added, -, undone⟩ := addHyperedge_undone g (.build _) e fresh known
  have links : (g.insertHyperedge e).neighbours "b" = ["E_a_b", "E_b_c", "T_b_a_b"] := by decide +kernel
  refine ⟨.build _, fresh, known, h, added, ?_, undone⟩
  rwa [addHyperedge_eq_ok added]

end Hypergraph

end Hypermesh
