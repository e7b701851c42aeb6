import Hypermesh.Hypergraph.View
import Hypermesh.Proofs.Lists
import Hypermesh.Table.Lemmas

/-!
What is looked up in a hypergraph after each operation: its nodes, hyperedges and surrogates under a
label, and the links of a label in order. A view shows what is looked up under its label.
-/

universe u

namespace Hypermesh

namespace Vertex

theorem leave_leave (v : Vertex) (key : Label) : (v.leave key).leave key = v.leave key := by
  simp [leave]

theorem getD_map_leave (v? : Option Vertex) (key : Label) :
    (v?.map (·.leave key)).getD {} = (v?.getD {}).leave key := by
  cases v? with
  | none => rfl
  | some v => rfl

theorem keys_incident_leave (v : Vertex) (key : Label) :
    (v.leave key).incident.keys = v.incident.keys.filter (· ≠ key) := Table.keys_erase ..

end Vertex

theorem Hyperedge.label_not_mem_memberLabels (e : Hyperedge) : ¬ e.label ∈ e.memberLabels := by
  intro mem
  obtain ⟨front, back, eq⟩ := List.append_of_mem mem
  have length : e.label.toList.length = (Label.hyperedge e.tag e.memberLabels).toList.length := rfl
  rw [Label.toList_hyperedge, eq] at length
  simp only [List.flatMap_append, List.flatMap_cons, List.length_append, List.length_cons] at length
  omega

namespace Hypergraph

variable {g : Hypergraph} {a b key label l k : Label} {node member : Node} {edge : Hyperedge}

/-- Links go both ways. -/
def Symmetric (g : Hypergraph) : Prop := ∀ a b, b ∈ g.neighbours a → a ∈ g.neighbours b

theorem mem_def : l ∈ g ↔ l ∈ g.vertices := Iff.rfl

theorem mem_nodes_iff : l ∈ g.nodes ↔ ∃ node, g.node? l = some node := Table.mem_iff

theorem mem_hyperedges_iff : l ∈ g.hyperedges ↔ ∃ edge, g.hyperedge? l = some edge := Table.mem_iff

theorem vertex_of_not_mem (h : ¬ l ∈ g) : g.vertex l = {} := by
  rw [vertex, Table.find?_eq_none_iff.2 h, Option.getD_none]

theorem neighbours_of_not_mem (h : ¬ l ∈ g) : g.neighbours l = [] := by
  rw [neighbours, vertex_of_not_mem h]
  rfl

theorem mem_of_mem_neighbours (h : k ∈ g.neighbours l) : l ∈ g := by
  by_cases present : l ∈ g
  · exact present
  · rw [neighbours_of_not_mem present] at h
    cases h

theorem nodup_neighbours (g : Hypergraph) (l : Label) : (g.neighbours l).Nodup := Table.nodup _

/-! ### Nodes -/

@[simp] theorem mem_putNode : l ∈ g.putNode key node ↔ l = key ∨ l ∈ g := Table.mem_insert

@[simp] theorem vertex_putNode (g : Hypergraph) (key : Label) (node : Node) (l : Label) :
    (g.putNode key node).vertex l = g.vertex l := by
  unfold vertex putNode
  rw [Table.find?_insert]
  by_cases h : l = key
  · simp [h, vertex]
  · simp [h]

@[simp] theorem neighbours_putNode (g : Hypergraph) (key : Label) (node : Node) (l : Label) :
    (g.putNode key node).neighbours l = g.neighbours l := by rw [neighbours, vertex_putNode, neighbours]

@[simp] theorem surrogate?_putNode (g : Hypergraph) (key : Label) (node : Node) (l : Label) :
    (g.putNode key node).surrogate? l = g.surrogate? l := by rw [surrogate?, vertex_putNode, surrogate?]

theorem node?_putNode (g : Hypergraph) (key : Label) (node : Node) (l : Label) :
    (g.putNode key node).node? l = if l = key then some node else g.node? l :=
  Table.find?_insert ..

@[simp] theorem hyperedge?_putNode (g : Hypergraph) (key : Label) (node : Node) (l : Label) :
    (g.putNode key node).hyperedge? l = g.hyperedge? l := rfl

@[simp] theorem mem_addNode : l ∈ g.addNode node ↔ l = node.label ∨ l ∈ g := mem_putNode

@[simp] theorem neighbours_addNode (g : Hypergraph) (node : Node) (l : Label) :
    (g.addNode node).neighbours l = g.neighbours l := neighbours_putNode ..

@[simp] theorem surrogate?_addNode (g : Hypergraph) (node : Node) (l : Label) :
    (g.addNode node).surrogate? l = g.surrogate? l := surrogate?_putNode ..

theorem node?_addNode (g : Hypergraph) (node : Node) (l : Label) :
    (g.addNode node).node? l = if l = node.label then some node.regular else g.node? l :=
  node?_putNode ..

@[simp] theorem hyperedge?_addNode (g : Hypergraph) (node : Node) (l : Label) :
    (g.addNode node).hyperedge? l = g.hyperedge? l := rfl

/-! ### Links -/

@[simp] theorem vertices_keys_link (g : Hypergraph) (a b : Label) :
    (g.link a b).vertices.keys = g.vertices.keys := by
  unfold link
  split
  · rw [Table.keys_modify, Table.keys_modify]
  · rfl

@[simp] theorem mem_link : l ∈ g.link a b ↔ l ∈ g := by
  rw [mem_def, Table.mem_def, vertices_keys_link, mem_def, Table.mem_def]

@[simp] theorem node?_link (g : Hypergraph) (a b l : Label) : (g.link a b).node? l = g.node? l := by
  rw [node?, nodes_link, node?]

@[simp] theorem hyperedge?_link (g : Hypergraph) (a b l : Label) :
    (g.link a b).hyperedge? l = g.hyperedge? l := by rw [hyperedge?, hyperedges_link, hyperedge?]

theorem vertex_modify {f : Vertex → Vertex} (h : key ∈ g) :
    ({ g with vertices := g.vertices.modify key f } : Hypergraph).vertex l =
      if l = key then f (g.vertex l) else g.vertex l := by
  obtain ⟨v, hv⟩ := Table.mem_iff.1 h
  unfold vertex
  rw [Table.find?_modify]
  by_cases eq : l = key
  · simp [eq, hv]
  · simp [eq]

theorem vertex_link (ha : a ∈ g) (hb : b ∈ g) :
    (g.link a b).vertex l =
      if l = b then (if l = a then (g.vertex l).meet b else g.vertex l).meet a
      else if l = a then (g.vertex l).meet b else g.vertex l := by
  have hb' : b ∈ ({ g with vertices := g.vertices.modify a (·.meet b) } : Hypergraph) :=
    Table.mem_modify.2 hb
  rw [link, if_pos ⟨ha, hb⟩]
  exact (vertex_modify hb').trans (by rw [vertex_modify ha])

@[simp] theorem surrogate?_link (g : Hypergraph) (a b l : Label) :
    (g.link a b).surrogate? l = g.surrogate? l := by
  by_cases h : a ∈ g ∧ b ∈ g
  · rw [surrogate?, vertex_link h.1 h.2]
    split <;> split <;> rfl
  · rw [link, if_neg h]

theorem neighbours_link (ha : a ∈ g) (hb : b ∈ g) (ne : a ≠ b) :
    (g.link a b).neighbours l =
      if l = a then if b ∈ g.neighbours a then g.neighbours a else g.neighbours a ++ [b]
      else if l = b then if a ∈ g.neighbours b then g.neighbours b else g.neighbours b ++ [a]
      else g.neighbours l := by
  rw [neighbours, vertex_link ha hb]
  by_cases hla : l = a
  · subst hla
    rw [if_neg ne, if_pos rfl, if_pos rfl]
    exact LabelSet.keys_add ..
  · by_cases hlb : l = b
    · subst hlb
      rw [if_pos rfl, if_neg hla, if_neg hla, if_pos rfl]
      exact LabelSet.keys_add ..
    · rw [if_neg hlb, if_neg hla, if_neg hla, if_neg hlb, neighbours]

theorem mem_neighbours_link (ha : a ∈ g) (hb : b ∈ g) (ne : a ≠ b) :
    k ∈ (g.link a b).neighbours l ↔
      k ∈ g.neighbours l ∨ (l = a ∧ k = b ∨ l = b ∧ k = a) := by
  rw [neighbours_link ha hb ne]
  by_cases hla : l = a
  · subst hla
    simp [Table.mem_ite_append, ne, or_comm]
  · by_cases hlb : l = b
    · subst hlb
      simp [Table.mem_ite_append, hla, or_comm]
    · simp [hla, hlb]

/-! ### Dropping links -/

theorem find?_leaveAll (key : Label) (others : List Label) (t : Table Vertex) (l : Label) :
    (leaveAll key others t).find? l =
      if l ∈ others then (t.find? l).map (·.leave key) else t.find? l := by
  induction others generalizing t with
  | nil => rfl
  | cons other others ih =>
    rw [leaveAll, List.foldl_cons]
    change (leaveAll key others _).find? l = _
    rw [ih, Table.find?_modify]
    by_cases eq : l = other
    · subst eq
      by_cases mem : l ∈ others
      · simp [mem, Function.comp_def, Vertex.leave_leave]
      · simp [mem]
    · simp [eq]

@[simp] theorem keys_leaveAll (key : Label) (others : List Label) (t : Table Vertex) :
    (leaveAll key others t).keys = t.keys := by
  induction others generalizing t with
  | nil => rfl
  | cons other others ih => exact (ih _).trans (Table.keys_modify ..)

@[simp] theorem vertices_keys_unlink (g : Hypergraph) (key : Label) :
    (g.unlink key).vertices.keys = g.vertices.keys := by
  rw [unlink, keys_leaveAll, Table.keys_modify]

@[simp] theorem mem_unlink : l ∈ g.unlink key ↔ l ∈ g := by
  rw [mem_def, Table.mem_def, vertices_keys_unlink, mem_def, Table.mem_def]

theorem vertex_unlink (g : Hypergraph) (key l : Label) :
    (g.unlink key).vertex l =
      if l = key then { g.vertex l with incident := ∅ }
      else if l ∈ g.neighbours key then (g.vertex l).leave key else g.vertex l := by
  rw [vertex, unlink, find?_leaveAll, Table.find?_modify]
  by_cases eq : l = key
  · subst eq
    rw [if_pos rfl, if_pos rfl, vertex]
    cases g.vertices.find? l with
    | none => split <;> rfl
    | some v => split <;> rfl
  · rw [if_neg eq, if_neg eq]
    split
    · rw [Vertex.getD_map_leave, vertex]
    · rw [vertex]

@[simp] theorem surrogate?_unlink (g : Hypergraph) (key l : Label) :
    (g.unlink key).surrogate? l = g.surrogate? l := by
  rw [surrogate?, vertex_unlink]
  split
  · rfl
  · split <;> rfl

theorem filter_neighbours_of_not_mem (h : ¬ l ∈ g.neighbours key) (sym : g.Symmetric) :
    (g.neighbours l).filter (· ≠ key) = g.neighbours l := by
  apply List.filter_eq_self.2
  intro k mem
  simp only [ne_eq, decide_eq_true_eq]
  rintro rfl
  exact h (sym _ _ mem)

theorem neighbours_unlink (sym : g.Symmetric) (key l : Label) :
    (g.unlink key).neighbours l = if l = key then [] else (g.neighbours l).filter (· ≠ key) := by
  rw [neighbours, vertex_unlink]
  by_cases eq : l = key
  · rw [if_pos eq, if_pos eq]
    rfl
  · rw [if_neg eq, if_neg eq]
    by_cases mem : l ∈ g.neighbours key
    · rw [if_pos mem, Vertex.keys_incident_leave, neighbours]
    · rw [if_neg mem, filter_neighbours_of_not_mem mem sym, neighbours]

theorem mem_neighbours_unlink (sym : g.Symmetric) :
    k ∈ (g.unlink key).neighbours l ↔ l ≠ key ∧ k ≠ key ∧ k ∈ g.neighbours l := by
  rw [neighbours_unlink sym]
  by_cases eq : l = key
  · simp [eq]
  · simp [eq, and_comm]

/-! ### Removal -/

theorem vertices_keys_remove (g : Hypergraph) (label : Label) :
    (g.remove label).vertices.keys = g.vertices.keys.filter (· ≠ label) := by
  rw [remove, keys_leaveAll, Table.keys_erase]

@[simp] theorem mem_remove : l ∈ g.remove label ↔ l ≠ label ∧ l ∈ g := by
  rw [mem_def, Table.mem_def, vertices_keys_remove, mem_def, Table.mem_def, List.mem_filter]
  simp [and_comm]

theorem node?_remove (g : Hypergraph) (label l : Label) :
    (g.remove label).node? l = if l = label then none else g.node? l := Table.find?_erase ..

theorem hyperedge?_remove (g : Hypergraph) (label l : Label) :
    (g.remove label).hyperedge? l = if l = label then none else g.hyperedge? l :=
  Table.find?_erase ..

theorem vertex_remove (g : Hypergraph) (label l : Label) :
    (g.remove label).vertex l =
      if l = label then {}
      else if l ∈ g.neighbours label then (g.vertex l).leave label else g.vertex l := by
  rw [vertex, remove, find?_leaveAll, Table.find?_erase]
  by_cases eq : l = label
  · rw [if_pos eq, if_pos eq]
    split <;> rfl
  · rw [if_neg eq, if_neg eq]
    split
    · rw [Vertex.getD_map_leave, vertex]
    · rw [vertex]

theorem surrogate?_remove (g : Hypergraph) (label l : Label) :
    (g.remove label).surrogate? l = if l = label then none else g.surrogate? l := by
  rw [surrogate?, vertex_remove]
  split
  · rfl
  · split <;> rfl

theorem neighbours_remove (sym : g.Symmetric) (label l : Label) :
    (g.remove label).neighbours l =
      if l = label then [] else (g.neighbours l).filter (· ≠ label) := by
  rw [neighbours, vertex_remove]
  by_cases eq : l = label
  · rw [if_pos eq, if_pos eq]
    rfl
  · rw [if_neg eq, if_neg eq]
    by_cases mem : l ∈ g.neighbours label
    · rw [if_pos mem, Vertex.keys_incident_leave, neighbours]
    · rw [if_neg mem, filter_neighbours_of_not_mem mem sym, neighbours]

theorem mem_neighbours_remove (sym : g.Symmetric) :
    k ∈ (g.remove label).neighbours l ↔ l ≠ label ∧ k ≠ label ∧ k ∈ g.neighbours l := by
  rw [neighbours_remove sym]
  by_cases eq : l = label
  · simp [eq]
  · simp [eq, and_comm]

theorem lookup_removeAll {α : Type u} {f : Hypergraph → Label → Option α}
    (step : ∀ g label l, f (g.remove label) l = if l = label then none else f g l)
    (g : Hypergraph) (labels : List Label) (l : Label) :
    f (labels.foldl remove g) l = if l ∈ labels then none else f g l := by
  induction labels generalizing g with
  | nil => rfl
  | cons label labels ih =>
    rw [List.foldl_cons, ih, step]
    by_cases eq : l = label <;> simp [eq]

/-! ### Hyperedges -/

theorem vertices_keys_putHyperedge (g : Hypergraph) (key : Label) (edge : Hyperedge) :
    (g.putHyperedge key edge).vertices.keys =
      if key ∈ g then g.vertices.keys else g.vertices.keys ++ [key] := by
  unfold putHyperedge
  split
  · rw [Table.keys_insert, vertices_keys_unlink]
    congr 1
    exact propext mem_unlink
  · exact Table.keys_insert ..

@[simp] theorem mem_putHyperedge : l ∈ g.putHyperedge key edge ↔ l = key ∨ l ∈ g := by
  rw [mem_def, Table.mem_def, vertices_keys_putHyperedge]
  exact Table.mem_ite_append

@[simp] theorem node?_putHyperedge (g : Hypergraph) (key : Label) (edge : Hyperedge) (l : Label) :
    (g.putHyperedge key edge).node? l = g.node? l := by rw [node?, nodes_putHyperedge, node?]

theorem hyperedge?_putHyperedge (g : Hypergraph) (key : Label) (edge : Hyperedge) (l : Label) :
    (g.putHyperedge key edge).hyperedge? l = if l = key then some edge else g.hyperedge? l := by
  rw [hyperedge?, hyperedges_putHyperedge, Table.find?_insert, hyperedge?]

theorem vertex_putHyperedge (g : Hypergraph) (key : Label) (edge : Hyperedge) (l : Label) :
    (g.putHyperedge key edge).vertex l =
      let v := (if key ∈ g.hyperedges then g.unlink key else g).vertex l
      if l = key then { v with surrogate := some (edge.surrogate key) } else v := by
  unfold putHyperedge
  rw [vertex, Table.find?_insert]
  by_cases eq : l = key
  · subst eq
    rw [if_pos rfl, if_pos rfl, Option.getD_some]
  · rw [if_neg eq, if_neg eq]
    rfl

theorem surrogate?_putHyperedge (g : Hypergraph) (key : Label) (edge : Hyperedge) (l : Label) :
    (g.putHyperedge key edge).surrogate? l =
      if l = key then some (edge.surrogate key) else g.surrogate? l := by
  rw [surrogate?, vertex_putHyperedge]
  by_cases eq : l = key
  · rw [if_pos eq, if_pos eq]
  · rw [if_neg eq, if_neg eq]
    split
    · exact surrogate?_unlink ..
    · rfl

theorem neighbours_putHyperedge (g : Hypergraph) (key : Label) (edge : Hyperedge) (l : Label) :
    (g.putHyperedge key edge).neighbours l =
      (if key ∈ g.hyperedges then g.unlink key else g).neighbours l := by
  rw [neighbours, vertex_putHyperedge, neighbours]
  by_cases eq : l = key
  · rw [if_pos eq]
  · rw [if_neg eq]

theorem mem_neighbours_putHyperedge (sym : g.Symmetric) :
    k ∈ (g.putHyperedge key edge).neighbours l ↔
      (key ∈ g.hyperedges → l ≠ key ∧ k ≠ key) ∧ k ∈ g.neighbours l := by
  rw [neighbours_putHyperedge]
  split
  · next stored => rw [mem_neighbours_unlink sym]; simp [stored, and_assoc]
  · next fresh => simp [fresh]

/-! ### Views -/

theorem mem_nodeViews {v : NodeView} :
    v ∈ g.nodeViews ↔ ∃ n, g.node? v.label = some n ∧ v = ⟨v.label, n.x, n.y, n.hanging⟩ := by
  simp only [nodeViews, List.mem_map, Prod.exists, node?, Table.find?_eq_some_iff]
  constructor
  · rintro ⟨label, n, mem, rfl⟩
    exact ⟨n, mem, rfl⟩
  · rintro ⟨n, mem, eq⟩
    exact ⟨v.label, n, mem, eq.symm⟩

theorem mem_hyperedgeViews {v : HyperedgeView} :
    v ∈ g.hyperedgeViews ↔ ∃ e, g.hyperedge? v.label = some e ∧
      v = ⟨v.label, e.tag, e.mark, e.onBoundary, e.memberLabels⟩ := by
  simp only [hyperedgeViews, List.mem_map, Prod.exists, hyperedge?, Table.find?_eq_some_iff]
  constructor
  · rintro ⟨label, e, mem, rfl⟩
    exact ⟨e, mem, rfl⟩
  · rintro ⟨e, mem, eq⟩
    exact ⟨v.label, e, mem, eq.symm⟩

end Hypergraph

end Hypermesh
