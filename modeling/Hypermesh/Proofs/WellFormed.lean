import Hypermesh.Proofs.Unambiguous

/-!
Well-formed hypergraphs: records lie under their own labels, labels name one thing, members are stored
nodes, and the links are the memberships. Such a hypergraph stays so under every mutation that makes no
label ambiguous and removes no node.
-/

namespace Hypermesh

namespace Hypergraph

variable {g : Hypergraph} {a b l label : Label} {node : Node} {edge : Hyperedge}

structure WellFormed (g : Hypergraph) : Prop where
  node_label : ∀ l node, g.node? l = some node → node.label = l
  hyperedge_label : ∀ l edge, g.hyperedge? l = some edge → edge.label = l
  unambiguous : g.Unambiguous
  member : ∀ a b, g.Lists a b → ∃ node, g.node? b = some node ∧ node.standsFor = none
  incident : ∀ a b, b ∈ g.neighbours a ↔ g.Lists a b ∨ g.Lists b a

/-- What is still to be shown where links are known to come from memberships. -/
theorem Labelled.wellFormed (h : g.Labelled)
    (hyperedge_label : ∀ l edge, g.hyperedge? l = some edge → edge.label = l) (u : g.Unambiguous)
    (member : ∀ a b, g.Lists a b → b ∈ g.nodes)
    (linked : ∀ a b, g.Lists a b → b ∈ g.neighbours a) : g.WellFormed where
  node_label := h.node_label
  hyperedge_label := hyperedge_label
  unambiguous := u
  member a b lists := by
    obtain ⟨node, found⟩ := mem_nodes_iff.1 (member a b lists)
    exact ⟨node, found, h.coherent.regular b node found⟩
  incident a b := by
    constructor
    · exact h.listed a b
    · rintro (lists | lists)
      · exact linked a b lists
      · exact h.coherent.symmetric b a (linked b a lists)

namespace WellFormed

theorem empty : WellFormed ∅ := by
  have none (a b : Label) : ¬ (∅ : Hypergraph).Lists a b := by
    rintro ⟨edge, found, -⟩
    cases found
  apply Labelled.empty.wellFormed
  · intro l edge found
    cases found
  · intro l mem
    cases mem
  · exact fun a b lists => absurd lists (none a b)
  · exact fun a b lists => absurd lists (none a b)

theorem labelled (w : g.WellFormed) (c : g.Coherent) : g.Labelled where
  coherent := c
  listed a b := (w.incident a b).1
  node_label := w.node_label

theorem mem_nodes (w : g.WellFormed) (lists : g.Lists a b) : b ∈ g.nodes := by
  obtain ⟨node, found, -⟩ := w.member a b lists
  exact mem_nodes_iff.2 ⟨node, found⟩

theorem linked (w : g.WellFormed) (lists : g.Lists a b) : b ∈ g.neighbours a :=
  (w.incident a b).2 (Or.inl lists)

theorem addNode (w : g.WellFormed) (c : g.Coherent) (node : Node)
    (u : (g.addNode node).Unambiguous) : (g.addNode node).WellFormed := by
  apply ((w.labelled c).addNode node).wellFormed
  · intro l edge found
    exact w.hyperedge_label l edge found
  · exact u
  · intro a b lists
    exact (within_addNode g node).nodes b (w.mem_nodes lists)
  · intro a b lists
    rw [neighbours_addNode]
    exact w.linked lists

theorem insertHyperedge (w : g.WellFormed) (c : g.Coherent) (edge : Hyperedge)
    (u : (g.insertHyperedge edge).Unambiguous) : (g.insertHyperedge edge).WellFormed := by
  apply ((w.labelled c).insertHyperedge edge).wellFormed
  · intro l other found
    rw [hyperedge?_insertHyperedge] at found
    split at found
    · next eq =>
      cases found
      exact eq.symm
    · exact w.hyperedge_label l other found
  · exact u
  · intro a b lists
    rw [lists_insertHyperedge] at lists
    rw [mem_nodes_insertHyperedge]
    split at lists
    · exact Or.inr lists
    · exact Or.inl (w.mem_nodes lists)
  · intro a b lists
    rw [lists_insertHyperedge] at lists
    rw [mem_neighbours_insertHyperedge c.symmetric c.covered]
    split at lists
    · next eq => exact Or.inl (Or.inl ⟨eq, lists⟩)
    · next ne =>
      -- An old member is a node, so the new label is not its label and no old link is dropped.
      refine Or.inr ⟨fun _ => ⟨ne, ?_⟩, w.linked lists⟩
      rintro rfl
      exact u.hyperedge_fresh (w.mem_nodes lists)

theorem remove (w : g.WellFormed) (c : g.Coherent) (apart : ¬ label ∈ g.nodes) :
    (g.remove label).WellFormed := by
  have ne {a b : Label} (lists : g.Lists a b) : b ≠ label := by
    rintro rfl
    exact apart (w.mem_nodes lists)
  apply ((w.labelled c).remove label).wellFormed
  · intro l edge found
    rw [hyperedge?_remove] at found
    split at found
    · cases found
    · exact w.hyperedge_label l edge found
  · intro l mem stored
    rw [nodes_remove] at mem
    rw [hyperedges_remove] at stored
    exact w.unambiguous l (Table.mem_erase.1 mem).2 (Table.mem_erase.1 stored).2
  · intro a b lists
    rw [lists_remove] at lists
    exact Table.mem_erase.2 ⟨ne lists.2, w.mem_nodes lists.2⟩
  · intro a b lists
    rw [lists_remove] at lists
    rw [mem_neighbours_remove c.symmetric]
    exact ⟨lists.1, ne lists.2, w.linked lists.2⟩

theorem kept : KeptApart fun g => g.Coherent ∧ g.WellFormed where
  addNode node h u := ⟨h.1.addNode node, h.2.addNode h.1 node u⟩
  insertHyperedge edge h u := ⟨h.1.insertHyperedge edge, h.2.insertHyperedge h.1 edge u⟩
  remove h apart := ⟨h.1.remove _, h.2.remove h.1 apart⟩

theorem build (os : List Operation) (clean : Operation.AllClean ∅ os) :
    (Operation.build os).WellFormed :=
  (kept.performAll os ⟨Coherent.empty, empty⟩ unambiguous_empty clean).1.2

end WellFormed

end Hypergraph

end Hypermesh
