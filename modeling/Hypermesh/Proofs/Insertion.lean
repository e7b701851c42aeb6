import Hypermesh.Proofs.Lookup
import Hypermesh.Region

/-!
Storing a hyperedge under its label. Its links become its members in order, later repeats dropped;
each member gains the hyperedge; every other label keeps its links, up to the place of the hyperedge
that was stored under the same label before.
-/

namespace Hypermesh

namespace Hypergraph

variable {g : Hypergraph} {key l k : Label} {member : Node} {members : List Node} {edge : Hyperedge}

/-- Every node has its vertex. -/
def Covered (g : Hypergraph) : Prop := ∀ l, l ∈ g.nodes → l ∈ g

theorem node?_addNewNode (g : Hypergraph) (node : Node) (l : Label) :
    (g.addNewNode node).node? l =
      (g.node? l <|> if l = node.label then some node.regular else none) := by
  rw [addNewNode]
  split
  · next stored =>
    obtain ⟨other, found⟩ := mem_nodes_iff.1 stored
    by_cases eq : l = node.label
    · simp [eq, found]
    · simp [eq]
  · next fresh =>
    rw [node?_addNode]
    by_cases eq : l = node.label
    · have none : g.node? l = none := Table.find?_eq_none_iff.2 (eq ▸ fresh)
      simp [eq, eq ▸ none]
    · simp [eq]

@[simp] theorem hyperedges_addNewNode (g : Hypergraph) (node : Node) :
    (g.addNewNode node).hyperedges = g.hyperedges := by
  unfold addNewNode
  split <;> rfl

@[simp] theorem hyperedge?_addNewNode (g : Hypergraph) (node : Node) (l : Label) :
    (g.addNewNode node).hyperedge? l = g.hyperedge? l := by
  rw [hyperedge?, hyperedges_addNewNode, hyperedge?]

@[simp] theorem neighbours_addNewNode (g : Hypergraph) (node : Node) (l : Label) :
    (g.addNewNode node).neighbours l = g.neighbours l := by
  unfold addNewNode
  split
  · rfl
  · exact neighbours_addNode g node l

theorem attach_eq (g : Hypergraph) (key : Label) (member : Node) :
    g.attach key member = (g.addNewNode member).link key member.label := rfl

theorem node?_attach (g : Hypergraph) (key : Label) (member : Node) (l : Label) :
    (g.attach key member).node? l =
      (g.node? l <|> if l = member.label then some member.regular else none) := by
  rw [attach_eq, node?_link, node?_addNewNode]

@[simp] theorem hyperedge?_attach (g : Hypergraph) (key : Label) (member : Node) (l : Label) :
    (g.attach key member).hyperedge? l = g.hyperedge? l := by
  rw [hyperedge?, hyperedges_attach, hyperedge?]

@[simp] theorem surrogate?_attach (g : Hypergraph) (key : Label) (member : Node) (l : Label) :
    (g.attach key member).surrogate? l = g.surrogate? l := by
  rw [attach, surrogate?_link]
  split
  · rfl
  · exact surrogate?_addNode ..

theorem vertices_keys_attach (covered : g.Covered) (key : Label) (member : Node) :
    (g.attach key member).vertices.keys =
      if member.label ∈ g then g.vertices.keys else g.vertices.keys ++ [member.label] := by
  rw [attach, vertices_keys_link]
  split
  · next stored => rw [if_pos (covered _ stored)]
  · exact Table.keys_insert ..

theorem mem_attach (covered : g.Covered) : l ∈ g.attach key member ↔ l = member.label ∨ l ∈ g := by
  rw [mem_def, Table.mem_def, vertices_keys_attach covered]
  exact Table.mem_ite_append

theorem neighbours_attach (covered : g.Covered) (hk : key ∈ g) (ne : key ≠ member.label) :
    (g.attach key member).neighbours l =
      if l = key then
        if member.label ∈ g.neighbours key then g.neighbours key
        else g.neighbours key ++ [member.label]
      else if l = member.label then
        if key ∈ g.neighbours l then g.neighbours l else g.neighbours l ++ [key]
      else g.neighbours l := by
  have unfolded {h : Hypergraph} (same : ∀ l, h.neighbours l = g.neighbours l) (hk : key ∈ h)
      (hm : member.label ∈ h) : (h.link key member.label).neighbours l = _ :=
    (neighbours_link hk hm ne).trans (by rw [same, same, same])
  rw [attach]
  split
  · next stored =>
    rw [unfolded (fun _ => rfl) hk (covered _ stored)]
    by_cases eq : l = member.label <;> simp [eq]
  · rw [unfolded (neighbours_addNode g member) (mem_addNode.2 (Or.inr hk)) (by simp)]
    by_cases eq : l = member.label <;> simp [eq]

theorem Covered.attach (covered : g.Covered) (key : Label) (member : Node) :
    (g.attach key member).Covered := by
  intro l h
  rw [mem_nodes_iff, node?_attach] at h
  rw [mem_attach covered]
  by_cases eq : l = member.label
  · exact Or.inl eq
  · right
    simp only [eq, if_false, Option.orElse_eq_orElse] at h
    exact covered l (mem_nodes_iff.2 (by simpa using h))

/-- Links the hyperedge under `key` to one member after the other. -/
def attachAll (g : Hypergraph) (key : Label) (members : List Node) : Hypergraph :=
  members.foldl (·.attach key ·) g

theorem attachAll_cons (g : Hypergraph) (key : Label) (member : Node) (members : List Node) :
    g.attachAll key (member :: members) = (g.attach key member).attachAll key members := rfl

theorem insertHyperedge_eq (g : Hypergraph) (edge : Hyperedge) :
    g.insertHyperedge edge = (g.putHyperedge edge.label edge).attachAll edge.label edge.members := rfl

theorem mem_labels_cons : l ∈ (member :: members).map Node.label ↔
    l = member.label ∨ l ∈ members.map Node.label := by
  rw [List.map_cons, List.mem_cons]

/-- Of nodes that come in one by one where they are new, the first of a label stays. -/
theorem node?_foldl {f : Hypergraph → Node → Hypergraph}
    (step : ∀ g node l, (f g node).node? l =
      (g.node? l <|> if l = node.label then some node.regular else none))
    (nodes : List Node) (g : Hypergraph) (l : Label) :
    (nodes.foldl f g).node? l =
      (g.node? l <|> (nodes.find? (·.label = l)).map Node.regular) := by
  induction nodes generalizing g with
  | nil => simp
  | cons node nodes ih =>
    rw [List.foldl_cons, ih, step]
    by_cases eq : node.label = l
    · cases g.node? l with
      | none => simp [eq]
      | some other => simp
    · have eq' : ¬ l = node.label := fun e => eq e.symm
      simp [eq, eq']

theorem node?_attachAll (g : Hypergraph) (key : Label) (members : List Node) (l : Label) :
    (g.attachAll key members).node? l =
      (g.node? l <|> (members.find? (·.label = l)).map Node.regular) :=
  node?_foldl (fun g member => node?_attach g key member) members g l

@[simp] theorem hyperedge?_attachAll (g : Hypergraph) (key : Label) (members : List Node) (l : Label) :
    (g.attachAll key members).hyperedge? l = g.hyperedge? l :=
  foldl_unchanged (q := (hyperedge? · l)) (fun _ _ => hyperedge?_attach ..) members g

@[simp] theorem surrogate?_attachAll (g : Hypergraph) (key : Label) (members : List Node) (l : Label) :
    (g.attachAll key members).surrogate? l = g.surrogate? l :=
  foldl_unchanged (q := (surrogate? · l)) (fun _ _ => surrogate?_attach ..) members g

theorem neighbours_attachAll_self (covered : g.Covered) (hk : key ∈ g)
    (ne : ¬ key ∈ members.map Node.label) :
    (g.attachAll key members).neighbours key =
      (g.neighbours key ++ members.map Node.label).eraseDups := by
  induction members generalizing g with
  | nil => simp [attachAll, eraseDups_of_nodup (nodup_neighbours g key)]
  | cons member members ih =>
    rw [mem_labels_cons, not_or] at ne
    have hk' : key ∈ g.attach key member := (mem_attach covered).2 (Or.inr hk)
    rw [attachAll_cons, ih (covered.attach key member) hk' ne.2,
      neighbours_attach covered hk ne.1, if_pos rfl, List.map_cons,
      eraseDups_append_cons (nodup_neighbours g key)]

theorem neighbours_attachAll_of_ne (covered : g.Covered) (hk : key ∈ g)
    (ne : ¬ key ∈ members.map Node.label) (hl : l ≠ key) :
    (g.attachAll key members).neighbours l =
      if l ∈ members.map Node.label ∧ ¬ key ∈ g.neighbours l then g.neighbours l ++ [key]
      else g.neighbours l := by
  induction members generalizing g with
  | nil => simp [attachAll]
  | cons member members ih =>
    rw [mem_labels_cons, not_or] at ne
    have hk' : key ∈ g.attach key member := (mem_attach covered).2 (Or.inr hk)
    rw [attachAll_cons, ih (covered.attach key member) hk' ne.2,
      neighbours_attach covered hk ne.1, if_neg hl]
    simp only [mem_labels_cons]
    by_cases eq : l = member.label
    · subst eq
      by_cases linked : key ∈ g.neighbours member.label <;> simp [linked]
    · simp [eq]

/-! ### The whole insertion -/

theorem Covered.putHyperedge (covered : g.Covered) (key : Label) (edge : Hyperedge) :
    (g.putHyperedge key edge).Covered := by
  intro l h
  rw [nodes_putHyperedge] at h
  exact mem_putHyperedge.2 (Or.inr (covered l h))

theorem node?_insertHyperedge (g : Hypergraph) (edge : Hyperedge) (l : Label) :
    (g.insertHyperedge edge).node? l =
      (g.node? l <|> (edge.members.find? (·.label = l)).map Node.regular) := by
  rw [insertHyperedge_eq, node?_attachAll, node?_putHyperedge]

theorem hyperedge?_insertHyperedge (g : Hypergraph) (edge : Hyperedge) (l : Label) :
    (g.insertHyperedge edge).hyperedge? l = if l = edge.label then some edge else g.hyperedge? l := by
  rw [insertHyperedge_eq, hyperedge?_attachAll, hyperedge?_putHyperedge]

theorem surrogate?_insertHyperedge (g : Hypergraph) (edge : Hyperedge) (l : Label) :
    (g.insertHyperedge edge).surrogate? l =
      if l = edge.label then some (edge.surrogate edge.label) else g.surrogate? l := by
  rw [insertHyperedge_eq, surrogate?_attachAll, surrogate?_putHyperedge]

/-- The links of a label before the members of a new hyperedge under `key` are linked. -/
def cleared (g : Hypergraph) (key l : Label) : List Label :=
  if key ∈ g.hyperedges then if l = key then [] else (g.neighbours l).filter (· ≠ key)
  else g.neighbours l

theorem neighbours_putHyperedge_of_symmetric (sym : g.Symmetric) (key : Label) (edge : Hyperedge)
    (l : Label) : (g.putHyperedge key edge).neighbours l = g.cleared key l := by
  rw [neighbours_putHyperedge, cleared]
  split
  · exact neighbours_unlink sym key l
  · rfl

theorem neighbours_insertHyperedge (sym : g.Symmetric) (covered : g.Covered) :
    (g.insertHyperedge edge).neighbours l =
      if l = edge.label then (g.cleared l l ++ edge.memberLabels).eraseDups
      else if l ∈ edge.memberLabels ∧ ¬ edge.label ∈ g.cleared edge.label l then
        g.cleared edge.label l ++ [edge.label]
      else g.cleared edge.label l := by
  have covered' := covered.putHyperedge edge.label edge
  have stored : edge.label ∈ g.putHyperedge edge.label edge := mem_putHyperedge.2 (Or.inl rfl)
  rw [insertHyperedge_eq]
  by_cases eq : l = edge.label
  · rw [if_pos eq, eq, neighbours_attachAll_self covered' stored edge.label_not_mem_memberLabels,
      neighbours_putHyperedge_of_symmetric sym, Hyperedge.memberLabels]
  · rw [if_neg eq, neighbours_attachAll_of_ne covered' stored edge.label_not_mem_memberLabels eq,
      neighbours_putHyperedge_of_symmetric sym, Hyperedge.memberLabels]

theorem mem_neighbours_insertHyperedge (sym : g.Symmetric) (covered : g.Covered) :
    k ∈ (g.insertHyperedge edge).neighbours l ↔
      (l = edge.label ∧ k ∈ edge.memberLabels ∨ k = edge.label ∧ l ∈ edge.memberLabels) ∨
        (edge.label ∈ g.hyperedges → l ≠ edge.label ∧ k ≠ edge.label) ∧ k ∈ g.neighbours l := by
  have own := edge.label_not_mem_memberLabels
  have old : k ∈ g.cleared edge.label l ↔
      (edge.label ∈ g.hyperedges → l ≠ edge.label ∧ k ≠ edge.label) ∧ k ∈ g.neighbours l := by
    rw [← neighbours_putHyperedge_of_symmetric sym _ edge, mem_neighbours_putHyperedge sym]
  rw [neighbours_insertHyperedge sym covered, ← old]
  by_cases eq : l = edge.label
  · subst eq
    simp [own, or_comm]
  · by_cases linked : edge.label ∈ g.cleared edge.label l
    · rw [if_neg eq, if_neg (fun h => h.2 linked)]
      constructor
      · exact Or.inr
      · rintro ((⟨eq', -⟩ | ⟨rfl, -⟩) | h)
        · exact absurd eq' eq
        · exact linked
        · exact h
    · by_cases member : l ∈ edge.memberLabels
      · simp [eq, linked, member, or_comm]
      · simp [eq, member]

end Hypergraph

end Hypermesh
