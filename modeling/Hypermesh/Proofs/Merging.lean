import Hypermesh.Proofs.Rewriting
import Hypermesh.Proofs.Union

/-!
Merging a well-formed hypergraph into one that shares no label with it. Every member is stored by the
time it is asked for, so the merge succeeds, and the result is made of the two as they are.
-/

namespace Hypermesh

namespace Hypergraph

variable {g other : Hypergraph} {a b l : Label} {nodes : List Node} {edge : Hyperedge}
  {edges : List Hyperedge}

/-! ### Merging as writing over -/

theorem foldl_addNode_eq (nodup : (nodes.map Node.label).Nodup)
    (fresh : ∀ node ∈ nodes, ¬ node.label ∈ g.nodes) :
    nodes.foldl addNode g = nodes.foldl addNewNode g := by
  induction nodes generalizing g with
  | nil => rfl
  | cons node nodes ih =>
    obtain ⟨once, nodup⟩ := List.nodup_cons.1 nodup
    have new : g.addNewNode node = g.addNode node := if_neg (fresh node List.mem_cons_self)
    rw [List.foldl_cons, List.foldl_cons, new]
    apply ih nodup
    intro other mem stored
    rcases Table.mem_insert.1 stored with eq | old
    · exact once (eq ▸ List.mem_map_of_mem mem)
    · exact fresh other (List.mem_cons_of_mem _ mem) old

theorem addHyperedge_of_known (known : ∀ k ∈ edge.memberLabels, k ∈ g.nodes) :
    g.addHyperedge edge = .ok (g.insertHyperedge edge) := by
  have none : edge.memberLabels.find? (· ∉ g.nodes) = none := by simpa using known
  rw [addHyperedge, none]

theorem addAll_eq (stored : ∀ edge ∈ edges, ∀ k ∈ edge.memberLabels, k ∈ g.nodes) :
    g.addAll edges = (edges.foldl insertHyperedge g, .ok ()) := by
  induction edges generalizing g with
  | nil => rfl
  | cons edge edges ih =>
    rw [addAll, addHyperedge_of_known (stored edge List.mem_cons_self)]
    apply ih
    intro other mem k member
    exact (within_insertHyperedge g edge).nodes k (stored other (List.mem_cons_of_mem _ mem) k member)

/-- Merging adds every node, writing over those of the same labels, and then every hyperedge. Where no
label is in use already, that is the same as leaving the nodes that are there. -/
theorem merge_eq_overlay (w : other.WellFormed) (c : other.Coherent)
    (fresh : ∀ l ∈ other.nodes.keys, ¬ l ∈ g.nodes) :
    g.merge other = (g.overlay other, .ok ()) := by
  have labels := Table.map_values w.node_label
  have nodes : other.nodes.values.foldl addNode g = other.nodes.values.foldl addNewNode g := by
    apply foldl_addNode_eq
    · rw [labels]
      exact other.nodes.nodup
    · intro node mem
      exact fresh node.label (labels ▸ List.mem_map_of_mem mem)
  rw [merge, nodes, addAll_eq (members_addNewNodes w c), overlay]

/-! ### The result -/

theorem lists_overlay (w : other.WellFormed) (apart : g.Separate other) (c : g.Coherent)
    (c' : other.Coherent) : (g.overlay other).Lists a b ↔ g.Lists a b ∨ other.Lists a b := by
  unfold Lists
  rw [hyperedge?_overlay w]
  by_cases mem : a ∈ g
  · rw [c'.hyperedge?_eq_none (apart a mem)]
    simp
  · rw [c.hyperedge?_eq_none mem]
    simp

theorem Separate.apart (apart : g.Separate other) (c : g.Coherent) (c' : other.Coherent) :
    g.Apart other := fun l =>
  ⟨fun mem mem' => apart l ((c.mem_iff l).2 (Or.inl mem)) ((c'.mem_iff l).2 (Or.inr mem')),
    fun mem mem' => apart l ((c.mem_iff l).2 (Or.inr mem')) ((c'.mem_iff l).2 (Or.inl mem))⟩

theorem wellFormed_overlay (w : g.WellFormed) (w' : other.WellFormed) (c : g.Coherent)
    (c' : other.Coherent) (apart : g.Separate other) :
    (g.overlay other).Coherent ∧ (g.overlay other).WellFormed :=
  WellFormed.kept.grows (grows_overlay g other) ⟨c, w⟩
    (unambiguous_overlay w.unambiguous w' c' (apart.apart c c'))

theorem overlay_unionOf (w : g.WellFormed) (w' : other.WellFormed) (c : g.Coherent)
    (c' : other.Coherent) (apart : g.Separate other) : (g.overlay other).UnionOf g other := by
  obtain ⟨whole, wellFormed⟩ := wellFormed_overlay w w' c c' apart
  refine ⟨whole, c, c', node?_overlay w' c', ?hyperedge, ?incident⟩
  case hyperedge =>
    intro l
    rw [hyperedge?_overlay w']
    by_cases mem : l ∈ g
    · rw [c'.hyperedge?_eq_none (apart l mem)]
      cases g.hyperedge? l <;> rfl
    · rw [c.hyperedge?_eq_none mem]
      cases other.hyperedge? l <;> rfl
  case incident =>
    intro a b
    rw [wellFormed.incident, w.incident, w'.incident, lists_overlay w' apart c c',
      lists_overlay w' apart c c']
    exact or_or_or_comm

theorem merge_eq_of_separate (w' : other.WellFormed) (c : g.Coherent) (c' : other.Coherent)
    (apart : g.Separate other) : g.merge other = (g.overlay other, .ok ()) := by
  apply merge_eq_overlay w' c'
  intro l mem stored
  exact apart l ((c.mem_iff l).2 (Or.inl stored)) ((c'.mem_iff l).2 (Or.inl mem))

/-- Two well-formed hypergraphs that share no label can be merged, and nothing is lost of either. -/
theorem merge_unionOf (w : g.WellFormed) (w' : other.WellFormed) (c : g.Coherent)
    (c' : other.Coherent) (apart : g.Separate other) :
    (g.merge other).2 = .ok () ∧ (g.merge other).1.UnionOf g other := by
  rw [merge_eq_of_separate w' c c' apart]
  exact ⟨rfl, overlay_unionOf w w' c c' apart⟩

end Hypergraph

end Hypermesh
