import Hypermesh.Proofs.Coherence

/-!
What every sequence of operations from the empty hypergraph on leaves in the three tables, also where a
label names a node and a hyperedge at once. Each link joins a stored hyperedge to one of its members;
that every member is linked holds only as long as labels name one thing.
-/

namespace Hypermesh

namespace Hypergraph

variable {g : Hypergraph} {a b l k : Label} {node : Node} {edge : Hyperedge}

/-- A hyperedge is stored under `a`, and `b` is the label of one of its members. -/
def Lists (g : Hypergraph) (a b : Label) : Prop :=
  ∃ edge, g.hyperedge? a = some edge ∧ b ∈ edge.memberLabels

theorem Lists.stored (h : g.Lists a b) : a ∈ g.hyperedges := by
  obtain ⟨edge, found, -⟩ := h
  exact mem_hyperedges_iff.2 ⟨edge, found⟩

theorem lists_addNode : (g.addNode node).Lists a b ↔ g.Lists a b := Iff.rfl

theorem lists_remove {label : Label} : (g.remove label).Lists a b ↔ a ≠ label ∧ g.Lists a b := by
  unfold Lists
  rw [hyperedge?_remove]
  by_cases eq : a = label <;> simp [eq]

theorem lists_insertHyperedge :
    (g.insertHyperedge edge).Lists a b ↔
      if a = edge.label then b ∈ edge.memberLabels else g.Lists a b := by
  unfold Lists
  rw [hyperedge?_insertHyperedge]
  by_cases eq : a = edge.label <;> simp [eq]

/-- A vertex stands for a hyperedge exactly where one is stored, and shows its label, key and centroid.
Links join different stored labels, both ways, and each comes from a membership. -/
structure Consistent (g : Hypergraph) : Prop where
  mem_vertices_iff : ∀ l, l ∈ g.vertices ↔ l ∈ g.nodes ∨ l ∈ g.hyperedges
  surrogate_iff : ∀ l, (g.surrogate? l).isSome ↔ l ∈ g.hyperedges
  surrogate_eq : ∀ l edge s, g.hyperedge? l = some edge → g.surrogate? l = some s →
    s.label = edge.label ∧ s.standsFor = some l ∧ (s.x, s.y) = edge.centroid
  symmetric : ∀ a b, b ∈ g.neighbours a → a ∈ g.neighbours b
  irreflexive : ∀ a, ¬ a ∈ g.neighbours a
  ends : ∀ a b, b ∈ g.neighbours a → a ∈ g.vertices ∧ b ∈ g.vertices
  listed : ∀ a b, b ∈ g.neighbours a → g.Lists a b ∨ g.Lists b a
  node_label : ∀ l node, g.node? l = some node → node.label = l ∧ node.standsFor = none

/-- The part of consistency that goes beyond coherence. -/
structure Labelled (g : Hypergraph) : Prop where
  coherent : g.Coherent
  listed : ∀ a b, b ∈ g.neighbours a → g.Lists a b ∨ g.Lists b a
  node_label : ∀ l node, g.node? l = some node → node.label = l

namespace Labelled

theorem empty : Labelled ∅ where
  coherent := Coherent.empty
  listed _ _ h := by cases h
  node_label _ _ h := by cases h

theorem addNode (h : g.Labelled) (node : Node) : (g.addNode node).Labelled where
  coherent := h.coherent.addNode node
  listed a b := by
    rw [neighbours_addNode, lists_addNode, lists_addNode]
    exact h.listed a b
  node_label l other eq := by
    rw [node?_addNode] at eq
    split at eq
    · next same =>
      cases eq
      exact same.symm
    · exact h.node_label l other eq

theorem insertHyperedge (h : g.Labelled) (edge : Hyperedge) : (g.insertHyperedge edge).Labelled where
  coherent := h.coherent.insertHyperedge edge
  listed a b mem := by
    rw [mem_neighbours_insertHyperedge h.coherent.symmetric h.coherent.covered] at mem
    rw [lists_insertHyperedge, lists_insertHyperedge]
    rcases mem with (⟨rfl, member⟩ | ⟨rfl, member⟩) | ⟨apart, linked⟩
    · exact Or.inl (by rwa [if_pos rfl])
    · exact Or.inr (by rwa [if_pos rfl])
    · -- An older link stays only where the hyperedge that it comes from stays.
      have keeps {c : Label} (stored : c ∈ g.hyperedges) (end' : c = a ∨ c = b) :
          c ≠ edge.label := by
        rintro rfl
        rcases end' with rfl | rfl
        · exact (apart stored).1 rfl
        · exact (apart stored).2 rfl
      rcases h.listed a b linked with lists | lists
      · exact Or.inl (by rwa [if_neg (keeps lists.stored (Or.inl rfl))])
      · exact Or.inr (by rwa [if_neg (keeps lists.stored (Or.inr rfl))])
  node_label l node eq := by
    rw [node?_insertHyperedge] at eq
    cases old : g.node? l with
    | some other =>
      rw [old] at eq
      cases eq
      exact h.node_label l node old
    | none =>
      rw [old, Option.orElse_eq_orElse, Option.orElse_none] at eq
      obtain ⟨member, found, rfl⟩ := Option.map_eq_some_iff.1 eq
      have named := List.find?_some found
      simpa using named

theorem remove (h : g.Labelled) (label : Label) : (g.remove label).Labelled where
  coherent := h.coherent.remove label
  listed a b mem := by
    rw [mem_neighbours_remove h.coherent.symmetric] at mem
    rw [lists_remove, lists_remove]
    rcases h.listed a b mem.2.2 with lists | lists
    · exact Or.inl ⟨mem.1, lists⟩
    · exact Or.inr ⟨mem.2.1, lists⟩
  node_label l node eq := by
    rw [node?_remove] at eq
    split at eq
    · cases eq
    · exact h.node_label l node eq

theorem kept : Kept Labelled where
  addNode node h := h.addNode node
  insertHyperedge edge h := h.insertHyperedge edge
  remove label h := h.remove label

theorem consistent (h : g.Labelled) : g.Consistent where
  mem_vertices_iff := h.coherent.mem_iff
  surrogate_iff l := by
    rw [h.coherent.surrogate, Option.isSome_map, hyperedge?, Table.isSome_find?]
  surrogate_eq l edge s found eq := by
    rw [h.coherent.surrogate, found] at eq
    cases eq
    exact ⟨rfl, rfl, rfl⟩
  symmetric := h.coherent.symmetric
  irreflexive := h.coherent.irreflexive
  ends a b mem := ⟨mem_of_mem_neighbours mem, mem_of_mem_neighbours (h.coherent.symmetric a b mem)⟩
  listed := h.listed
  node_label l node found := ⟨h.node_label l node found, h.coherent.regular l node found⟩

end Labelled

theorem consistent_build (os : List Operation) : (Operation.build os).Consistent :=
  (Labelled.kept.performAll os Labelled.empty).consistent

end Hypergraph

end Hypermesh
