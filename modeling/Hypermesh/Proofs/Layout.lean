import Hypermesh.Mesh.Polygon
import Hypermesh.Proofs.Covering
import Hypermesh.Proofs.Merging

/-!
How a mesh is laid out: first its nodes, then the hyperedges over them. Nothing fails on the way as long as
all members are known, and in the end the mesh holds just what was laid out.
-/

namespace Hypermesh

open scoped List

namespace Hypergraph

variable {g : Hypergraph} {nodes : List Node} {edges : List Hyperedge} {l : Label} {e : Hyperedge}

def layOut (nodes : List Node) (edges : List Hyperedge) : Hypergraph :=
  edges.foldl insertHyperedge ((∅ : Hypergraph).addNodes nodes)

theorem grows_layOut (nodes : List Node) (edges : List Hyperedge) : Grows ∅ (layOut nodes edges) :=
  (grows_addNodes ∅ nodes).trans (.foldl grows_insertHyperedge edges _)

/-- Nodes and hyperedges with labels of their own, all members among the nodes. -/
structure Layout (nodes : List Node) (edges : List Hyperedge) : Prop where
  nodes_nodup : (nodes.map Node.label).Nodup
  edges_nodup : (edges.map Hyperedge.label).Nodup
  apart : ∀ e ∈ edges, ¬ e.label ∈ nodes.map Node.label
  known : ∀ e ∈ edges, ∀ k ∈ e.memberLabels, k ∈ nodes.map Node.label

theorem node?_addNodes (nodup : (nodes.map Node.label).Nodup) (l : Label) :
    ((∅ : Hypergraph).addNodes nodes).node? l = (nodes.find? (·.label = l)).map Node.regular := by
  rw [addNodes, foldl_addNode_eq nodup fun _ _ => Table.not_mem_empty _, node?_foldl node?_addNewNode]
  rfl

theorem hyperedge?_addNodes (nodup : (nodes.map Node.label).Nodup) (l : Label) :
    ((∅ : Hypergraph).addNodes nodes).hyperedge? l = none := by
  rw [addNodes, foldl_addNode_eq nodup fun _ _ => Table.not_mem_empty _, hyperedge?_addNewNodes]
  rfl

theorem mem_addNodes (nodup : (nodes.map Node.label).Nodup) :
    l ∈ ((∅ : Hypergraph).addNodes nodes).nodes ↔ l ∈ nodes.map Node.label := by
  rw [mem_nodes_iff, node?_addNodes nodup, ← Option.isSome_iff_exists, Option.isSome_map, List.find?_isSome,
    List.mem_map]
  simp only [decide_eq_true_eq]

theorem coherent_layOut (nodes : List Node) (edges : List Hyperedge) : (layOut nodes edges).Coherent :=
  Coherent.kept.grows (grows_layOut nodes edges) Coherent.empty

namespace Layout

variable (layout : Layout nodes edges)
include layout

theorem mem_nodes : l ∈ (layOut nodes edges).nodes ↔ l ∈ nodes.map Node.label := by
  rw [layOut, mem_nodes_insertAll, mem_addNodes layout.nodes_nodup]
  refine or_iff_left_of_imp ?_
  rintro ⟨e, mem, member⟩
  exact layout.known e mem l member

theorem mem_hyperedges : l ∈ (layOut nodes edges).hyperedges ↔ l ∈ edges.map Hyperedge.label := by
  have none : ¬ l ∈ ((∅ : Hypergraph).addNodes nodes).hyperedges := by
    rw [← Table.find?_eq_none_iff, ← hyperedge?, hyperedge?_addNodes layout.nodes_nodup]
  rw [layOut, mem_hyperedges_insertAll, or_iff_right none, List.mem_map]
  exact exists_congr fun e => and_congr_right fun _ => eq_comm

theorem wellFormed : (layOut nodes edges).WellFormed := by
  apply (grows_layOut nodes edges).wellFormed
  intro l mem stored
  rw [← Table.mem_def, layout.mem_nodes] at mem
  obtain ⟨e, mem', rfl⟩ := List.mem_map.1 (layout.mem_hyperedges.1 stored)
  exact layout.apart e mem' mem

theorem keys_nodes_perm : (layOut nodes edges).nodes.keys ~ nodes.map Node.label :=
  (List.perm_ext_iff_of_nodup (Table.nodup _) layout.nodes_nodup).2 fun _ => layout.mem_nodes

theorem keys_hyperedges_perm : (layOut nodes edges).hyperedges.keys ~ edges.map Hyperedge.label :=
  (List.perm_ext_iff_of_nodup (Table.nodup _) layout.edges_nodup).2 fun _ => layout.mem_hyperedges

theorem nodes_perm : (layOut nodes edges).nodes.values ~ nodes.map Node.regular := by
  have labels : (nodes.map Node.regular).map Node.label = nodes.map Node.label := by
    rw [List.map_map]
    rfl
  apply Table.values_perm_of_find? layout.wellFormed.node_label (labels ▸ layout.nodes_nodup)
  intro n
  have known : ∀ e ∈ edges, ∀ k ∈ e.memberLabels, k ∈ ((∅ : Hypergraph).addNodes nodes).nodes := by
    simpa only [mem_addNodes layout.nodes_nodup] using layout.known
  rw [← node?, layOut, node?_insertAll known, node?_addNodes layout.nodes_nodup, Option.map_eq_some_iff,
    List.mem_map]
  constructor
  · rintro ⟨n', found, rfl⟩
    exact ⟨n', List.mem_of_find?_eq_some found, rfl⟩
  · rintro ⟨n', mem, rfl⟩
    exact ⟨n', (find?_name_eq_some_iff layout.nodes_nodup).2 ⟨mem, rfl⟩, rfl⟩

theorem hyperedges_perm : (layOut nodes edges).hyperedges.values ~ edges := by
  apply Table.values_perm_of_find? layout.wellFormed.hyperedge_label layout.edges_nodup
  intro e
  have kept (found : Option Hyperedge) : (found <|> none) = found := by cases found <;> rfl
  rw [← hyperedge?, layOut, hyperedge?_insertAll layout.edges_nodup,
    hyperedge?_addNodes layout.nodes_nodup, kept, find?_name_eq_some_iff layout.edges_nodup]
  exact and_iff_left rfl

end Layout

/-! ### Rings and elements -/

theorem foldlM_addHyperedge (known : ∀ e ∈ edges, ∀ k ∈ e.memberLabels, k ∈ g.nodes) :
    edges.foldlM addHyperedge g = .ok (edges.foldl insertHyperedge g) := by
  induction edges generalizing g with
  | nil => rfl
  | cons e edges ih =>
    rw [List.foldlM_cons, addHyperedge_of_known (known e List.mem_cons_self)]
    apply ih
    intro e' mem k member
    exact (within_insertHyperedge g e).nodes k (known e' (List.mem_cons_of_mem _ mem) k member)

/-- The sides from each node to the next. -/
def ringEdges (f : Hyperedge → Hyperedge) (nodes : List Node) : List Hyperedge :=
  (pairs nodes).map fun k => f (.side k.1 k.2)

theorem addRing_eq (f : Hyperedge → Hyperedge) (nodup : (nodes.map Node.label).Nodup)
    (known : ∀ e ∈ ringEdges f nodes, ∀ k ∈ e.memberLabels, k ∈ nodes.map Node.label) :
    (∅ : Hypergraph).addRing nodes f = .ok (layOut nodes (ringEdges f nodes)) := by
  have known' : ∀ e ∈ ringEdges f nodes, ∀ k ∈ e.memberLabels,
      k ∈ ((∅ : Hypergraph).addNodes nodes).nodes := by
    simpa only [mem_addNodes nodup] using known
  rw [layOut, ← foldlM_addHyperedge known', ringEdges, List.foldlM_map]
  rfl

theorem addElement_eq {members : List Node} (tag : String) (mark : UInt8) (two : 2 ≤ members.length)
    (known : ∀ n ∈ members, n.label ∈ g.nodes) :
    g.addElement members tag mark = .ok (g.insertHyperedge
      { members := members, tag := tag, mark := mark, two_le_length := two }) := by
  have made : Hyperedge.ofMembers members tag = .ok { members, tag, two_le_length := two } := dif_pos two
  rw [addElement, made]
  exact addHyperedge_of_known fun k member => by
    obtain ⟨n, mem, rfl⟩ := List.mem_map.1 member
    exact known n mem

end Hypergraph

end Hypermesh
