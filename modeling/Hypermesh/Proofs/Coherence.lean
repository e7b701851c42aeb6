import Hypermesh.Proofs.Insertion
import Hypermesh.Proofs.Operation

/-!
The tables of a hypergraph agree: there is one vertex for each node and each hyperedge, the surrogates
are those of the stored hyperedges, and links go both ways between different labels. This holds of
every hypergraph that the operations can build, and of the regions that productions are shown.
-/

namespace Hypermesh

namespace Hypergraph

variable {g pattern host : Hypergraph} {a b key label l k : Label} {node : Node} {edge : Hyperedge}

structure Coherent (g : Hypergraph) : Prop where
  mem_iff : ∀ l, l ∈ g ↔ l ∈ g.nodes ∨ l ∈ g.hyperedges
  surrogate : ∀ l, g.surrogate? l = (g.hyperedge? l).map (·.surrogate l)
  symmetric : g.Symmetric
  irreflexive : ∀ l, ¬ l ∈ g.neighbours l
  regular : ∀ l node, g.node? l = some node → node.standsFor = none

theorem Coherent.covered (c : g.Coherent) : g.Covered := fun l h => (c.mem_iff l).2 (Or.inl h)

/-! ### What keeps the tables in agreement -/

namespace Coherent

theorem empty : Coherent ∅ where
  mem_iff l := by
    constructor
    · intro h
      cases h
    · rintro (h | h) <;> cases h
  surrogate _ := rfl
  symmetric _ _ h := by cases h
  irreflexive _ h := by cases h
  regular _ _ h := by cases h

theorem putNode (c : g.Coherent) (key : Label) (h : node.standsFor = none) :
    (g.putNode key node).Coherent where
  mem_iff l := by
    rw [mem_putNode, c.mem_iff]
    change _ ↔ l ∈ g.nodes.insert key node ∨ l ∈ g.hyperedges
    rw [Table.mem_insert, or_assoc]
  surrogate l := by rw [surrogate?_putNode, hyperedge?_putNode, c.surrogate]
  symmetric a b := by
    rw [neighbours_putNode, neighbours_putNode]
    exact c.symmetric a b
  irreflexive l := by
    rw [neighbours_putNode]
    exact c.irreflexive l
  regular l other eq := by
    rw [node?_putNode] at eq
    split at eq
    · cases eq
      exact h
    · exact c.regular l other eq

theorem addNode (c : g.Coherent) (node : Node) : (g.addNode node).Coherent :=
  c.putNode node.label node.standsFor_regular

theorem link (c : g.Coherent) (ne : a ≠ b) : (g.link a b).Coherent := by
  by_cases h : a ∈ g ∧ b ∈ g
  · constructor
    · intro l
      rw [mem_link, c.mem_iff, nodes_link, hyperedges_link]
    · intro l
      rw [surrogate?_link, hyperedge?_link, c.surrogate]
    · intro l k mem
      rw [mem_neighbours_link h.1 h.2 ne] at mem ⊢
      rcases mem with mem | ⟨rfl, rfl⟩ | ⟨rfl, rfl⟩
      · exact Or.inl (c.symmetric l k mem)
      · exact Or.inr (Or.inr ⟨rfl, rfl⟩)
      · exact Or.inr (Or.inl ⟨rfl, rfl⟩)
    · intro l mem
      rw [mem_neighbours_link h.1 h.2 ne] at mem
      rcases mem with mem | ⟨rfl, rfl⟩ | ⟨rfl, rfl⟩
      · exact c.irreflexive l mem
      · exact ne rfl
      · exact ne rfl
    · intro l node eq
      rw [node?_link] at eq
      exact c.regular l node eq
  · rw [Hypergraph.link, if_neg h]
    exact c

theorem putHyperedge (c : g.Coherent) (key : Label) (edge : Hyperedge) :
    (g.putHyperedge key edge).Coherent where
  mem_iff l := by
    rw [mem_putHyperedge, c.mem_iff, nodes_putHyperedge, hyperedges_putHyperedge, Table.mem_insert,
      or_left_comm]
  surrogate l := by
    rw [surrogate?_putHyperedge, hyperedge?_putHyperedge]
    by_cases eq : l = key
    · rw [if_pos eq, if_pos eq, eq, Option.map_some]
    · rw [if_neg eq, if_neg eq, c.surrogate]
  symmetric l k mem := by
    rw [mem_neighbours_putHyperedge c.symmetric] at mem ⊢
    exact ⟨fun stored => (mem.1 stored).symm, c.symmetric l k mem.2⟩
  irreflexive l mem := by
    rw [mem_neighbours_putHyperedge c.symmetric] at mem
    exact c.irreflexive l mem.2
  regular l node eq := by
    rw [node?_putHyperedge] at eq
    exact c.regular l node eq

theorem attach (c : g.Coherent) (ne : key ≠ node.label) : (g.attach key node).Coherent := by
  unfold Hypergraph.attach
  split
  · exact c.link ne
  · exact (c.addNode node).link ne

theorem insertHyperedge (c : g.Coherent) (edge : Hyperedge) : (g.insertHyperedge edge).Coherent := by
  apply List.foldlRecOn _ _ (c.putHyperedge edge.label edge)
  intro g c member mem
  apply c.attach
  intro eq
  exact edge.label_not_mem_memberLabels (eq ▸ List.mem_map_of_mem mem)

theorem remove (c : g.Coherent) (label : Label) : (g.remove label).Coherent where
  mem_iff l := by
    rw [mem_remove, c.mem_iff, nodes_remove, hyperedges_remove, Table.mem_erase, Table.mem_erase,
      and_or_left]
  surrogate l := by
    rw [surrogate?_remove, hyperedge?_remove]
    by_cases eq : l = label
    · rw [if_pos eq, if_pos eq, Option.map_none]
    · rw [if_neg eq, if_neg eq, c.surrogate]
  symmetric l k mem := by
    rw [mem_neighbours_remove c.symmetric] at mem ⊢
    exact ⟨mem.2.1, mem.1, c.symmetric l k mem.2.2⟩
  irreflexive l mem := by
    rw [mem_neighbours_remove c.symmetric] at mem
    exact c.irreflexive l mem.2.2
  regular l node eq := by
    rw [node?_remove] at eq
    split at eq
    · cases eq
    · exact c.regular l node eq

theorem kept : Kept Coherent where
  addNode node c := c.addNode node
  insertHyperedge edge c := c.insertHyperedge edge
  remove label c := c.remove label

/-! ### Regions -/

theorem copyVertex {m : Embedding} {region copied : Hypergraph} (c : region.Coherent)
    (h : host.Coherent) (eq : pattern.copyVertex host m region key = .ok copied) :
    copied.Coherent := by
  unfold Hypergraph.copyVertex at eq
  split at eq
  · cases eq
  · next target _ =>
    split at eq
    · split at eq
      · cases eq
      · cases eq
        exact c.putHyperedge ..
    · split at eq
      · cases eq
      · next node found =>
        cases eq
        exact c.putNode key (h.regular target node found)

theorem linkLike (c : g.Coherent) (p : pattern.Coherent) (key : Label) :
    (pattern.linkLike g key).Coherent := by
  apply List.foldlRecOn _ _ c
  intro g c other mem
  apply c.link
  rintro rfl
  exact p.irreflexive key mem

theorem region {m : Embedding} {region : Hypergraph} (p : pattern.Coherent) (h : host.Coherent)
    (eq : pattern.region host m = .ok region) : region.Coherent := by
  rw [Hypergraph.region] at eq
  cases copies : pattern.vertices.keys.foldlM (pattern.copyVertex host m) ∅ with
  | error label =>
    rw [copies] at eq
    cases eq
  | ok copied =>
    rw [copies] at eq
    cases eq
    have c : copied.Coherent := by
      apply foldlM_keeps _ Coherent.empty copies
      intro region key _ copied c
      exact c.copyVertex h
    apply List.foldlRecOn _ _ c
    intro g c key _
    exact c.linkLike p key

end Coherent

/-- What a caller can come to hold: hypergraphs made by operations from the empty one, the regions that
productions are shown, and what operations make of those. -/
inductive Reachable : Hypergraph → Prop
  | empty : Reachable ∅
  | perform {g : Hypergraph} (o : Operation) : Reachable g → Reachable (o.perform g)
  | region {pattern host region : Hypergraph} {m : Embedding} : Reachable pattern → Reachable host →
      m ∈ pattern.embeddings host → pattern.region host m = .ok region → Reachable region

theorem Reachable.coherent (h : g.Reachable) : g.Coherent := by
  induction h with
  | empty => exact Coherent.empty
  | perform o _ ih => exact Coherent.kept.perform o ih
  | region _ _ _ eq ihp ihh => exact ihp.region ihh eq

theorem Reachable.build (os : List Operation) : (Operation.build os).Reachable := by
  apply List.foldlRecOn _ _ Reachable.empty
  intro g h o _
  exact h.perform o

end Hypergraph

end Hypermesh
