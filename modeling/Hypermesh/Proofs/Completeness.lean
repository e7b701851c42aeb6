import Hypermesh.Proofs.Rewriting

/-!
As long as labels name one thing, the incidence view is complete. A hyperedge lists its members in
order, a node is listed by all hyperedges that it is a member of, and the vertices come in the orders of
the nodes and of the hyperedges.
-/

namespace Hypermesh

namespace Hypergraph

variable {g : Hypergraph} {a b key l label : Label} {node member : Node} {members : List Node}
  {edge : Hyperedge}

/-! ### Orders -/

/-- The vertices of nodes come in the order of the nodes, those of hyperedges in theirs. -/
structure Arranged (g : Hypergraph) : Prop where
  nodes : g.nodes.keys.Sublist g.vertices.keys
  hyperedges : g.hyperedges.keys.Sublist g.vertices.keys

namespace Arranged

theorem empty : Arranged ∅ := ⟨List.Sublist.slnil, List.Sublist.slnil⟩

theorem covered (h : g.Arranged) : g.Covered := fun _ mem => h.nodes.subset mem

theorem addNode (h : g.Arranged) (only : node.label ∈ g → node.label ∈ g.nodes) :
    (g.addNode node).Arranged := by
  have vertices : (g.addNode node).vertices.keys =
      if node.label ∈ g then g.vertices.keys else g.vertices.keys ++ [node.label] :=
    Table.keys_insert ..
  constructor
  · rw [vertices, nodes_addNode, Table.keys_insert]
    by_cases stored : node.label ∈ g.nodes
    · rw [if_pos stored, if_pos (h.covered _ stored)]
      exact h.nodes
    · rw [if_neg stored, if_neg (fun mem => stored (only mem))]
      exact h.nodes.append_right _
  · rw [vertices, hyperedges_addNode]
    split
    · exact h.hyperedges
    · exact List.sublist_append_of_sublist_left h.hyperedges

theorem putHyperedge (h : g.Arranged) (only : key ∈ g → key ∈ g.hyperedges) :
    (g.putHyperedge key edge).Arranged := by
  constructor
  · rw [vertices_keys_putHyperedge, nodes_putHyperedge]
    split
    · exact h.nodes
    · exact List.sublist_append_of_sublist_left h.nodes
  · rw [vertices_keys_putHyperedge, hyperedges_putHyperedge, Table.keys_insert]
    by_cases stored : key ∈ g.hyperedges
    · have vertex : key ∈ g := h.hyperedges.subset stored
      rw [if_pos stored, if_pos vertex]
      exact h.hyperedges
    · rw [if_neg stored, if_neg (fun mem => stored (only mem))]
      exact h.hyperedges.append_right _

theorem attach (h : g.Arranged) (only : member.label ∈ g → member.label ∈ g.nodes) :
    (g.attach key member).Arranged := by
  have link {g : Hypergraph} (h : g.Arranged) (a b : Label) : (g.link a b).Arranged := by
    constructor
    · rw [nodes_link, vertices_keys_link]
      exact h.nodes
    · rw [hyperedges_link, vertices_keys_link]
      exact h.hyperedges
  unfold Hypergraph.attach
  split
  · exact link h _ _
  · exact link (h.addNode only) _ _

theorem attachAll (h : g.Arranged)
    (only : ∀ member ∈ members, member.label ∈ g → member.label ∈ g.nodes) :
    (g.attachAll key members).Arranged := by
  induction members generalizing g with
  | nil => exact h
  | cons member members ih =>
    apply ih (h.attach (only member List.mem_cons_self))
    intro other mem vertex
    rw [mem_attach h.covered] at vertex
    rw [mem_nodes_iff, node?_attach]
    rcases vertex with eq | vertex
    · rw [if_pos eq]
      cases g.node? other.label with
      | none => exact ⟨_, rfl⟩
      | some node => exact ⟨node, rfl⟩
    · obtain ⟨node, found⟩ := mem_nodes_iff.1 (only other (List.mem_cons_of_mem _ mem) vertex)
      rw [found]
      exact ⟨node, rfl⟩

theorem insertHyperedge (h : g.Arranged) (c : g.Coherent) (u : (g.insertHyperedge edge).Unambiguous) :
    (g.insertHyperedge edge).Arranged := by
  have put : (g.putHyperedge edge.label edge).Arranged := by
    apply h.putHyperedge
    intro vertex
    rcases (c.mem_iff _).1 vertex with mem | mem
    · exact absurd mem u.hyperedge_fresh
    · exact mem
  rw [insertHyperedge_eq]
  apply put.attachAll
  intro member mem vertex
  have listed : member.label ∈ edge.memberLabels := List.mem_map_of_mem mem
  rw [nodes_putHyperedge]
  rcases mem_putHyperedge.1 vertex with eq | vertex
  · exact absurd (eq ▸ listed) edge.label_not_mem_memberLabels
  · rcases (c.mem_iff _).1 vertex with node | hyperedge
    · exact node
    · exact absurd hyperedge (u.members_fresh listed)

theorem remove (h : g.Arranged) (label : Label) : (g.remove label).Arranged := by
  constructor
  · rw [vertices_keys_remove, nodes_remove, Table.keys_erase]
    exact h.nodes.filter _
  · rw [vertices_keys_remove, hyperedges_remove, Table.keys_erase]
    exact h.hyperedges.filter _

end Arranged

/-! ### Members in order -/

/-- The links of a hyperedge are its members in order, later repeats dropped. -/
def Spelled (g : Hypergraph) : Prop :=
  ∀ l edge, g.hyperedge? l = some edge → g.neighbours l = edge.memberLabels.eraseDups

theorem Spelled.insertHyperedge (h : g.Spelled) (c : g.Coherent) (w : g.WellFormed)
    (u : (g.insertHyperedge edge).Unambiguous) : (g.insertHyperedge edge).Spelled := by
  have apart {k : Label} (mem : k ∈ g.nodes) : k ≠ edge.label := by
    rintro rfl
    exact u.hyperedge_fresh mem
  intro l other found
  rw [neighbours_insertHyperedge c.symmetric c.covered]
  rw [hyperedge?_insertHyperedge] at found
  split at found
  · next eq =>
    cases found
    have none : g.cleared edge.label edge.label = [] := by
      rw [cleared]
      split
      · exact if_pos rfl
      · next fresh =>
        apply List.eq_nil_iff_forall_not_mem.2
        intro k linked
        rcases (w.incident _ k).1 linked with lists | lists
        · exact fresh lists.stored
        · exact apart (w.mem_nodes lists) rfl
    rw [if_pos eq, eq, none, List.nil_append]
  · next ne =>
    have unlisted : ¬ l ∈ edge.memberLabels := fun listed =>
      u.members_fresh listed (mem_hyperedges_iff.2 ⟨other, found⟩)
    have same : g.cleared edge.label l = g.neighbours l := by
      rw [cleared, if_neg ne]
      split
      · rw [h l other found, List.filter_eq_self]
        intro k mem
        have node := w.mem_nodes ⟨other, found, List.mem_eraseDups.1 mem⟩
        simpa using apart node
      · rfl
    rw [if_neg ne, if_neg (fun both => unlisted both.1), same, h l other found]

theorem Spelled.remove (h : g.Spelled) (c : g.Coherent) (w : g.WellFormed)
    (apart : ¬ label ∈ g.nodes) : (g.remove label).Spelled := by
  intro l edge found
  rw [neighbours_remove c.symmetric]
  rw [hyperedge?_remove] at found
  split at found
  · cases found
  · next ne =>
    rw [if_neg ne, h l edge found, List.filter_eq_self]
    intro k mem
    simp only [ne_eq, decide_eq_true_eq]
    rintro rfl
    exact apart (w.mem_nodes ⟨edge, found, List.mem_eraseDups.1 mem⟩)

/-! ### The incidence view -/

/-- What the incidence view shows of the nodes and the hyperedges. -/
structure Complete (g : Hypergraph) : Prop where
  hyperedge : ∀ l edge, g.hyperedge? l = some edge → g.neighbours l = edge.memberLabels.eraseDups
  node : ∀ l, l ∈ g.nodes → (g.neighbours l).Nodup ∧ ∀ k, k ∈ g.neighbours l ↔ g.Lists k l
  member : ∀ a b, g.Lists a b → ∃ node, g.node? b = some node ∧ node.standsFor = none
  once : (g.incidenceOrder.map Node.label).Nodup
  regular : g.incidenceOrder.filter (!·.isSurrogate) = g.nodes.values
  surrogates : g.incidenceOrder.filter (·.isSurrogate) =
    g.hyperedges.entries.map fun (key, edge) => edge.surrogate key

/-- The node that the incidence view shows for a vertex. -/
def shown (g : Hypergraph) (key : Label) : Option Node :=
  (g.hyperedge? key).map (·.surrogate key) <|> g.node? key

theorem incidenceOrder_eq (c : g.Coherent) : g.incidenceOrder = g.vertices.keys.filterMap g.shown := by
  rw [incidenceOrder, Table.keys, List.filterMap_map]
  apply List.filterMap_congr
  rintro ⟨key, v⟩ mem
  have vertex : g.vertex key = v := by
    rw [vertex, Table.find?_eq_some_iff.2 mem]
    rfl
  change _ = g.shown key
  rw [shown, ← c.surrogate, surrogate?, vertex]

theorem label_shown (c : g.Coherent) (w : g.WellFormed) (mem : l ∈ g) :
    (g.shown l).map Node.label = some l := by
  rw [shown]
  cases hyperedge : g.hyperedge? l with
  | some edge =>
    rw [Option.map_some, Option.orElse_eq_orElse, Option.orElse_some, Option.map_some,
      Hyperedge.label_surrogate, w.hyperedge_label l edge hyperedge]
  | none =>
    rcases (c.mem_iff l).1 mem with node | stored
    · obtain ⟨node, found⟩ := mem_nodes_iff.1 node
      rw [found, Option.map_none, Option.orElse_eq_orElse, Option.orElse_none, Option.map_some,
        w.node_label l node found]
    · exact absurd stored (Table.find?_eq_none_iff.1 hyperedge)

/-- Everything that the incidence view shows is shown under its key. -/
theorem labels_incidenceOrder (c : g.Coherent) (w : g.WellFormed) :
    g.incidenceOrder.map Node.label = g.vertices.keys := by
  rw [incidenceOrder_eq c, List.map_filterMap]
  have same : g.vertices.keys.filterMap (fun key => (g.shown key).map Node.label) =
      g.vertices.keys.filterMap some :=
    List.filterMap_congr fun key mem => label_shown c w mem
  rw [same, List.filterMap_some]

theorem regular_incidenceOrder (c : g.Coherent) (w : g.WellFormed) (h : g.Arranged) :
    g.incidenceOrder.filter (!·.isSurrogate) = g.nodes.values := by
  have shown (key : Label) :
      (g.shown key).filter (!·.isSurrogate) = (g.nodes.find? key).map fun node => node := by
    rw [shown]
    cases hyperedge : g.hyperedge? key with
    | some edge =>
      have fresh := w.unambiguous.not_mem_nodes (mem_hyperedges_iff.2 ⟨edge, hyperedge⟩)
      rw [Table.find?_eq_none_iff.2 fresh]
      rfl
    | none =>
      cases found : g.node? key with
      | none => rw [node?] at found; rw [found]; rfl
      | some node =>
        have regular := c.regular key node found
        rw [node?] at found
        rw [found]
        simp [Node.isSurrogate, regular]
  rw [incidenceOrder_eq c, List.filter_filterMap]
  simp only [shown]
  rw [filterMap_of_sublist h.nodes g.vertices.nodup, Table.filterMap_keys]
  · rfl
  · intro key _ absent
    rw [Table.find?_eq_none_iff.2 absent]
    rfl

theorem surrogates_incidenceOrder (c : g.Coherent) (h : g.Arranged) :
    g.incidenceOrder.filter (·.isSurrogate) =
      g.hyperedges.entries.map fun (key, edge) => edge.surrogate key := by
  have shown (key : Label) :
      (g.shown key).filter (·.isSurrogate) = (g.hyperedges.find? key).map (·.surrogate key) := by
    rw [shown, hyperedge?]
    cases hyperedge : g.hyperedges.find? key with
    | some edge => rfl
    | none =>
      cases found : g.node? key with
      | none => rfl
      | some node =>
        have regular := c.regular key node found
        simp [Node.isSurrogate, regular]
  rw [incidenceOrder_eq c, List.filter_filterMap]
  simp only [shown]
  rw [filterMap_of_sublist h.hyperedges g.vertices.nodup]
  · exact Table.filterMap_keys g.hyperedges fun key edge => edge.surrogate key
  · intro key _ absent
    rw [Table.find?_eq_none_iff.2 absent]
    rfl

/-- What operations keep as long as no label is ambiguous. -/
structure Settled (g : Hypergraph) : Prop where
  coherent : g.Coherent
  wellFormed : g.WellFormed
  arranged : g.Arranged
  spelled : g.Spelled

namespace Settled

theorem empty : Settled ∅ := by
  refine ⟨Coherent.empty, WellFormed.empty, Arranged.empty, ?_⟩
  intro l edge found
  cases found

theorem kept : KeptApart Settled where
  addNode {g} node h u := by
    refine ⟨h.coherent.addNode node, h.wellFormed.addNode h.coherent node u, ?arranged, ?spelled⟩
    case arranged =>
      apply h.arranged.addNode
      intro vertex
      rcases (h.coherent.mem_iff _).1 vertex with mem | stored
      · exact mem
      · exact absurd stored u.node_fresh
    case spelled =>
      intro l edge found
      rw [neighbours_addNode]
      exact h.spelled l edge found
  insertHyperedge edge h u :=
    ⟨h.coherent.insertHyperedge edge, h.wellFormed.insertHyperedge h.coherent edge u,
      h.arranged.insertHyperedge h.coherent u, h.spelled.insertHyperedge h.coherent h.wellFormed u⟩
  remove h apart :=
    ⟨h.coherent.remove _, h.wellFormed.remove h.coherent apart, h.arranged.remove _,
      h.spelled.remove h.coherent h.wellFormed apart⟩

theorem complete (h : g.Settled) : g.Complete where
  hyperedge := h.spelled
  node l mem := by
    refine ⟨nodup_neighbours g l, ?_⟩
    intro k
    rw [h.wellFormed.incident]
    constructor
    · rintro (lists | lists)
      · exact absurd lists.stored (h.wellFormed.unambiguous l mem)
      · exact lists
    · exact Or.inr
  member := h.wellFormed.member
  once := by
    rw [labels_incidenceOrder h.coherent h.wellFormed]
    exact g.vertices.nodup
  regular := regular_incidenceOrder h.coherent h.wellFormed h.arranged
  surrogates := surrogates_incidenceOrder h.coherent h.arranged

end Settled

/-- What is merged and what productions answer may be any hypergraphs. -/
theorem complete_build (os : List Operation) (clean : Operation.AllClean ∅ os) :
    (Operation.build os).Complete :=
  (Settled.kept.performAll os Settled.empty unambiguous_empty clean).1.complete

/-- Operations of every kind. The second large hyperedge takes the label of the first, but not its
members, and one of its own members comes twice. -/
def mixture : List Operation :=
  let node (label : Label) : Node := { x := .zero, y := .zero, label }
  chain ["a", "b", "c"] ++
    [.addHyperedge ⟨["a", "b", "c", "a", "b"].map node, "Q", 0, {}, by decide⟩ true,
      .addHyperedge ⟨["a_b", "c", "a_b"].map node, "Q", 0, {}, by decide⟩ false,
      .remove "E_a_b", .merge (Operation.build (chain ["c", "d"])), .apply detour {} 1]

theorem complete_build_mixture :
    (Operation.build mixture).hyperedges.keys = ["Q_a_b_c_a_b", "E_c_d", "E_a_c", "E_c_b"] ∧
      (Operation.build mixture).neighbours "Q_a_b_c_a_b" = ["a_b", "c"] ∧
      (Operation.build mixture).Complete := by
  refine ⟨?_, ?_, complete_build mixture ?_⟩ <;> decide +kernel

end Hypergraph

end Hypermesh
