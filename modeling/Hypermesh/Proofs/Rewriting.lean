import Hypermesh.Proofs.WellFormed

/-!
A replacement step in terms of what is stored: two maps from labels, to nodes and to hyperedges. For
well-formed hypergraphs all three tables follow from these maps, before the step and after it.
-/

namespace Hypermesh

/-- The two maps that a hypergraph stores. -/
structure Records where
  node : Label → Option Node
  hyperedge : Label → Option Hyperedge

namespace Records

def surrogate? (r : Records) (l : Label) : Option Node := (r.hyperedge l).map (·.surrogate l)

/-- One label is that of a hyperedge, the other that of one of its members. -/
def Incident (r : Records) (a b : Label) : Prop :=
  (∃ e, r.hyperedge a = some e ∧ b ∈ e.memberLabels) ∨
    ∃ e, r.hyperedge b = some e ∧ a ∈ e.memberLabels

/-- The matched hyperedges go and those of the replacement are written over the rest. A node that is
stored wins over a node of the replacement. -/
def rewrite (r : Records) (matched : List Label) (replacement : Records) : Records where
  node l := r.node l <|> replacement.node l
  hyperedge l := replacement.hyperedge l <|> if l ∈ matched then none else r.hyperedge l

end Records

namespace Hypergraph

variable {g host pattern replacement other : Hypergraph} {a b l : Label} {labels : List Label}
  {nodes : List Node} {edges : List Hyperedge} {m : Embedding}

def records (g : Hypergraph) : Records := ⟨g.node?, g.hyperedge?⟩

/-- The three tables are those that follow from the two maps. -/
structure Represents (g : Hypergraph) (r : Records) : Prop where
  records : g.records = r
  vertex : ∀ l, l ∈ g.vertices ↔ (r.node l).isSome ∨ (r.hyperedge l).isSome
  surrogate : ∀ l, g.surrogate? l = r.surrogate? l
  incident : ∀ a b, b ∈ g.neighbours a ↔ r.Incident a b

theorem WellFormed.represents (w : g.WellFormed) (c : g.Coherent) : g.Represents g.records where
  records := rfl
  vertex l := by
    rw [← mem_def, c.mem_iff, ← Table.isSome_find?, ← Table.isSome_find?]
    rfl
  surrogate := c.surrogate
  incident := w.incident

/-! ### The maps after a removal and after insertions -/

theorem hyperedge?_addNewNodes (g : Hypergraph) (nodes : List Node) (l : Label) :
    (nodes.foldl addNewNode g).hyperedge? l = g.hyperedge? l :=
  foldl_unchanged (q := (hyperedge? · l)) (fun _ _ => hyperedge?_addNewNode ..) nodes g

/-- Members that are stored already come in with no hyperedge. -/
theorem node?_insertAll (stored : ∀ edge ∈ edges, ∀ k ∈ edge.memberLabels, k ∈ g.nodes) (l : Label) :
    (edges.foldl insertHyperedge g).node? l = g.node? l := by
  induction edges generalizing g with
  | nil => rfl
  | cons edge edges ih =>
    have same : (g.insertHyperedge edge).node? l = g.node? l := by
      rw [node?_insertHyperedge]
      cases found : g.node? l with
      | some node => rfl
      | none =>
        have fresh : ¬ l ∈ edge.memberLabels := fun mem =>
          Table.find?_eq_none_iff.1 found (stored edge List.mem_cons_self l mem)
        have absent : edge.members.find? (·.label = l) = none := by
          rw [List.find?_eq_none]
          intro member mem eq
          exact fresh (List.mem_map.2 ⟨member, mem, by simpa using eq⟩)
        rw [absent]
        rfl
    rw [List.foldl_cons, ih, same]
    intro other mem k member
    exact (within_insertHyperedge g edge).nodes k (stored other (List.mem_cons_of_mem _ mem) k member)

theorem hyperedge?_insertAll (nodup : (edges.map Hyperedge.label).Nodup) (l : Label) :
    (edges.foldl insertHyperedge g).hyperedge? l =
      (edges.find? (·.label = l) <|> g.hyperedge? l) := by
  induction edges generalizing g with
  | nil => rfl
  | cons edge edges ih =>
    obtain ⟨fresh, nodup⟩ := List.nodup_cons.1 nodup
    rw [List.foldl_cons, ih nodup, hyperedge?_insertHyperedge]
    by_cases eq : edge.label = l
    · have absent : edges.find? (·.label = l) = none := by
        rw [List.find?_eq_none]
        intro other mem eq'
        exact fresh (List.mem_map.2 ⟨other, mem, (by simpa using eq' : other.label = l).trans eq.symm⟩)
      simp [eq, absent]
    · have eq' : ¬ l = edge.label := fun e => eq e.symm
      simp [eq, eq']

theorem Coherent.regular_node? (c : g.Coherent) (l : Label) :
    (g.node? l).map Node.regular = g.node? l := by
  cases found : g.node? l with
  | none => rfl
  | some node =>
    have regular : node.standsFor = none := c.regular l node found
    rw [Option.map_some, Node.regular, ← regular]

theorem hyperedge?_overlay (w : other.WellFormed) (l : Label) :
    (g.overlay other).hyperedge? l = (other.hyperedge? l <|> g.hyperedge? l) := by
  have nodup : (other.hyperedges.values.map Hyperedge.label).Nodup := by
    rw [Table.map_values w.hyperedge_label]
    exact other.hyperedges.nodup
  rw [overlay, hyperedge?_insertAll nodup, hyperedge?_addNewNodes,
    Table.find?_values w.hyperedge_label]
  rfl

theorem node?_addNewNodes (w : other.WellFormed) (c : other.Coherent) (l : Label) :
    (other.nodes.values.foldl addNewNode g).node? l = (g.node? l <|> other.node? l) := by
  rw [node?_foldl node?_addNewNode, Table.find?_values w.node_label]
  exact congrArg (g.node? l <|> ·) (c.regular_node? l)

/-- By the time the hyperedges come in, their members are stored. -/
theorem members_addNewNodes (w : other.WellFormed) (c : other.Coherent) :
    ∀ edge ∈ other.hyperedges.values, ∀ k ∈ edge.memberLabels,
      k ∈ (other.nodes.values.foldl addNewNode g).nodes := by
  intro edge mem k member
  obtain ⟨key, found⟩ := Table.mem_values.1 mem
  obtain ⟨node, found'⟩ := mem_nodes_iff.1 (w.mem_nodes ⟨edge, found, member⟩)
  rw [mem_nodes_iff, node?_addNewNodes w c, found']
  cases g.node? k with
  | none => exact ⟨node, rfl⟩
  | some node' => exact ⟨node', rfl⟩

theorem node?_overlay (w : other.WellFormed) (c : other.Coherent) (l : Label) :
    (g.overlay other).node? l = (g.node? l <|> other.node? l) := by
  rw [overlay, node?_insertAll (members_addNewNodes w c), node?_addNewNodes w c]

/-- No label is that of a node here and of a hyperedge there. -/
def Apart (g h : Hypergraph) : Prop :=
  ∀ l, (l ∈ g.nodes → ¬ l ∈ h.hyperedges) ∧ (l ∈ h.nodes → ¬ l ∈ g.hyperedges)

/-- What is made of two that are apart names nothing twice that neither of them names twice. -/
theorem Apart.unambiguous (apart : g.Apart other) (first : g.Unambiguous) (second : other.Unambiguous)
    {whole : Hypergraph} (nodes : ∀ l ∈ whole.nodes, l ∈ g.nodes ∨ l ∈ other.nodes)
    (hyperedges : ∀ l ∈ whole.hyperedges, l ∈ g.hyperedges ∨ l ∈ other.hyperedges) : whole.Unambiguous := by
  intro l mem stored
  rcases nodes l mem with node | node <;> rcases hyperedges l stored with edge | edge
  · exact first l node edge
  · exact (apart l).1 node edge
  · exact (apart l).2 node edge
  · exact second l node edge

theorem unambiguous_overlay (u : g.Unambiguous) (w : other.WellFormed) (c : other.Coherent)
    (apart : g.Apart other) : (g.overlay other).Unambiguous := by
  apply apart.unambiguous u w.unambiguous
  · intro l mem
    rw [mem_nodes_iff, node?_overlay w c] at mem
    rw [mem_nodes_iff, mem_nodes_iff]
    cases found : g.node? l <;> simp_all
  · intro l mem
    rw [mem_hyperedges_iff, hyperedge?_overlay w] at mem
    rw [mem_hyperedges_iff, mem_hyperedges_iff]
    cases found : other.hyperedge? l <;> simp_all

/-! ### The replacement step -/

theorem node?_replace (w : host.WellFormed) (w' : replacement.WellFormed)
    (c' : replacement.Coherent) (mem : m ∈ pattern.embeddings host) (l : Label) :
    (host.replace pattern m replacement).node? l = (host.node? l <|> replacement.node? l) := by
  have kept : (host.removeMatched pattern m).node? l = host.node? l := by
    refine (lookup_removeAll node?_remove host (pattern.matched m) l).trans ?_
    split
    · next selected =>
      have stored := mem_hyperedges_of_mem_matched mem selected
      exact (Table.find?_eq_none_iff.2 (w.unambiguous.not_mem_nodes stored)).symm
    · rfl
  rw [replace, node?_overlay w' c', kept]

theorem hyperedge?_replace (w' : replacement.WellFormed) (l : Label) :
    (host.replace pattern m replacement).hyperedge? l =
      (replacement.hyperedge? l <|> if l ∈ pattern.matched m then none else host.hyperedge? l) := by
  rw [replace, hyperedge?_overlay w']
  exact congrArg (replacement.hyperedge? l <|> ·)
    (lookup_removeAll hyperedge?_remove host (pattern.matched m) l)

theorem records_replace (w : host.WellFormed) (w' : replacement.WellFormed)
    (c' : replacement.Coherent) (mem : m ∈ pattern.embeddings host) :
    (host.replace pattern m replacement).records =
      host.records.rewrite (pattern.matched m) replacement.records := by
  have node := funext (node?_replace w w' c' mem)
  have hyperedge : (host.replace pattern m replacement).hyperedge? = _ :=
    funext (hyperedge?_replace w')
  rw [records, node, hyperedge]
  rfl

theorem unambiguous_replace (w : host.WellFormed) (w' : replacement.WellFormed)
    (c' : replacement.Coherent) (apart : host.Apart replacement) :
    (host.replace pattern m replacement).Unambiguous := by
  have within : (host.removeMatched pattern m).Within host := removeAll_within host _
  apply unambiguous_overlay (within.unambiguous w.unambiguous) w' c'
  intro l
  constructor
  · exact fun mem => (apart l).1 (within.nodes l mem)
  · exact fun mem stored => (apart l).2 mem (within.hyperedges l stored)

/-- A step that applies a match rewrites the two maps, and its result is again well-formed and has the
tables that follow from them. -/
theorem round_refines (P : Production) (s : Settings) (host : Hypergraph) (index : Nat) (m : Embedding)
    (region : Hypergraph)
    (chosen : (P.choose s P.leftSide host 0 (P.leftSide.embeddings host)).1 = .selected m region)
    (reachable : host.Reachable) (reachable' : (P.rightSide region index).Reachable)
    (w : host.WellFormed) (w' : (P.rightSide region index).WellFormed)
    (apart : host.Apart (P.rightSide region index)) :
    ∃ host', (P.round s P.leftSide host index).1 = .applied host' ∧
      host'.Represents
        (host.records.rewrite (P.leftSide.matched m) (P.rightSide region index).records) ∧
      host'.WellFormed := by
  have mem := (Production.choose_selected chosen).1
  have c := reachable.coherent
  have c' := reachable'.coherent
  have result := WellFormed.kept.replace (P.rightSide region index) ⟨c, w⟩ w.unambiguous mem
    (unambiguous_replace w w' c' apart)
  refine ⟨_, Production.round_of_selected index chosen, ?_, result.2⟩
  rw [← records_replace w w' c' mem]
  exact result.2.represents result.1

/-- Replaces a side by two sides through a new node. -/
def detour : Production where
  name := "detour"
  left := .ok (Operation.build (chain ["u", "v"]))
  right _ _ := .ok (Operation.build (chain ["a", "c", "b"]))

theorem round_refines_detour :
    let host := Operation.build (chain ["a", "b", "d"])
    ∃ m region host',
      (detour.choose {} detour.leftSide host 0 (detour.leftSide.embeddings host)).1 =
          .selected m region ∧
        (detour.round {} detour.leftSide host 0).1 = .applied host' ∧
        host'.Represents
          (host.records.rewrite (detour.leftSide.matched m) (detour.rightSide region 0).records) ∧
        host'.WellFormed := by
  let host := Operation.build (chain ["a", "b", "d"])
  have selects : ∃ m region,
      (detour.choose {} detour.leftSide host 0 (detour.leftSide.embeddings host)).1 =
        .selected m region := by
    have some : (match (detour.choose {} detour.leftSide host 0 (detour.leftSide.embeddings host)).1 with
        | .selected .. => true
        | _ => false) = true := by decide +kernel
    split at some
    · next m region eq => exact ⟨m, region, eq⟩
    · cases some
  obtain ⟨m, region, chosen⟩ := selects
  let side := Operation.build (chain ["a", "c", "b"])
  have nodes : ∀ l ∈ host.nodes.keys, ¬ l ∈ side.hyperedges := by decide +kernel
  have nodes' : ∀ l ∈ side.nodes.keys, ¬ l ∈ host.hyperedges := by decide +kernel
  have apart : host.Apart side := fun l => ⟨nodes l, nodes' l⟩
  obtain ⟨host', applied, represents, w⟩ :=
    round_refines detour {} host 0 m region chosen (Reachable.build _) (Reachable.build _)
      (WellFormed.build _ (by decide +kernel)) (WellFormed.build _ (by decide +kernel)) apart
  exact ⟨m, region, host', chosen, applied, represents, w⟩

end Hypergraph

end Hypermesh
