import Hypermesh.Proofs.Revising

/-!
Steps that exchange one hyperedge for others. The rest of the matched hyperedges come back as they were,
and a node and hyperedges come in whose labels were not in use. So nothing is written over, and the host
after the step can be listed: what it held, without the one hyperedge, and what came in.
-/

namespace Hypermesh

open scoped List

namespace Hypergraph

variable {g h pattern host region : Hypergraph} {l : Label} {m : Embedding} {n node : Node}
  {old e : Hyperedge} {edges back new : List Hyperedge}

/-! ### Lists of hyperedges -/

theorem mem_nodes_insertAll :
    l ∈ (edges.foldl insertHyperedge g).nodes ↔ l ∈ g.nodes ∨ ∃ e ∈ edges, l ∈ e.memberLabels := by
  induction edges generalizing g with
  | nil => simp
  | cons e edges ih =>
    rw [List.foldl_cons, ih, mem_nodes_insertHyperedge, or_assoc]
    simp

theorem mem_hyperedges_insertAll :
    l ∈ (edges.foldl insertHyperedge g).hyperedges ↔ l ∈ g.hyperedges ∨ ∃ e ∈ edges, l = e.label := by
  induction edges generalizing g with
  | nil => simp
  | cons e edges ih =>
    rw [List.foldl_cons, ih, mem_hyperedges_insertHyperedge, or_comm (a := l = e.label), or_assoc]
    simp

theorem node?_insertAll_of_some (found : g.node? l = some n) :
    (edges.foldl insertHyperedge g).node? l = some n := by
  induction edges generalizing g with
  | nil => exact found
  | cons e edges ih =>
    apply ih
    rw [node?_insertHyperedge, found]
    rfl

/-- How many hyperedges have one of the tags. -/
def tally (tags : List String) (g : Hypergraph) : Nat := g.hyperedges.values.countP (·.tag ∈ tags)

/-! ### The exchange -/

/-- A node and hyperedges over it and stored nodes, under different labels that are not in use. -/
structure Supplies (g : Hypergraph) (node : Node) (new : List Hyperedge) : Prop where
  node_fresh : ¬ node.label ∈ g
  fresh : ∀ e ∈ new, ¬ e.label ∈ g
  apart : ∀ e ∈ new, e.label ≠ node.label
  nodup : (new.map Hyperedge.label).Nodup
  members : ∀ e ∈ new, ∀ l ∈ e.memberLabels, l = node.label ∨ l ∈ g.nodes

/-- The hyperedge `old` goes, and the node and the hyperedges `new` come in. The rest is as it was. -/
structure Exchanged (old : Hyperedge) (node : Node) (new : List Hyperedge) (g h : Hypergraph) : Prop where
  supplies : g.Supplies node new
  stored : old ∈ g.hyperedges.values
  coherent : h.Coherent
  wellFormed : h.WellFormed
  nodes : h.nodes.values ~ node.regular :: g.nodes.values
  hyperedges : old :: h.hyperedges.values ~ new ++ g.hyperedges.values

/-- A right side: the hyperedges that come back, then a node, then the hyperedges that are new. -/
def assemble (back : List Hyperedge) (node : Node) (new : List Hyperedge) : Hypergraph :=
  new.foldl insertHyperedge ((back.foldl insertHyperedge ∅).addNode node)

theorem assemble_pair (node : Node) (e e' : Hyperedge) :
    assemble [] node [e, e'] = (((∅ : Hypergraph).addNode node).insertHyperedge e).insertHyperedge e' :=
  rfl

theorem mem_nodes_assemble : l ∈ (assemble back node new).nodes ↔
    l = node.label ∨ (∃ e ∈ back, l ∈ e.memberLabels) ∨ ∃ e ∈ new, l ∈ e.memberLabels := by
  rw [assemble, mem_nodes_insertAll, nodes_addNode, Table.mem_insert, mem_nodes_insertAll, or_assoc]
  have none : ¬ l ∈ (∅ : Hypergraph).nodes := nofun
  simp only [none, false_or]

theorem mem_hyperedges_assemble : l ∈ (assemble back node new).hyperedges ↔
    (∃ e ∈ back, l = e.label) ∨ ∃ e ∈ new, l = e.label := by
  rw [assemble, mem_hyperedges_insertAll, hyperedges_addNode, mem_hyperedges_insertAll]
  have none : ¬ l ∈ (∅ : Hypergraph).hyperedges := nofun
  simp only [none, false_or]

theorem node?_assemble (back : List Hyperedge) (node : Node) (new : List Hyperedge) :
    (assemble back node new).node? node.label = some node.regular := by
  apply node?_insertAll_of_some
  rw [node?_addNode, if_pos rfl]

theorem hyperedge?_assemble (nodup : (back.map Hyperedge.label).Nodup)
    (nodup' : (new.map Hyperedge.label).Nodup) (l : Label) :
    (assemble back node new).hyperedge? l =
      (new.find? (·.label = l) <|> back.find? (·.label = l)) := by
  rw [assemble, hyperedge?_insertAll nodup', hyperedge?_addNode, hyperedge?_insertAll nodup]
  have none : (∅ : Hypergraph).hyperedge? l = Option.none := rfl
  rw [none]
  cases back.find? (·.label = l) <;> rfl

theorem coherent_assemble (back : List Hyperedge) (node : Node) (new : List Hyperedge) :
    (assemble back node new).Coherent ∧
      ((assemble back node new).Unambiguous → (assemble back node new).WellFormed) := by
  have growth : Grows ∅ (assemble back node new) :=
    ((Grows.foldl grows_insertHyperedge back ∅).addNode node).trans
      (.foldl grows_insertHyperedge new _)
  exact ⟨Coherent.kept.grows growth .empty,
    fun u => (WellFormed.kept.grows growth ⟨.empty, .empty⟩ u).2⟩

namespace Supplies

variable (supplies : host.Supplies node new)
include supplies

/-- What the right side stores is the host's, or comes in. -/
theorem assemble_nodes (w : host.WellFormed) (stored : back ⊆ host.hyperedges.values)
    (mem : l ∈ (assemble back node new).nodes) : l = node.label ∨ l ∈ host.nodes := by
  rcases mem_nodes_assemble.1 mem with eq | ⟨e, mem, member⟩ | ⟨e, mem, member⟩
  · exact Or.inl eq
  · exact Or.inr (w.mem_nodes ⟨e, w.mem_values_iff.1 (stored mem), member⟩)
  · exact supplies.members e mem l member

theorem assemble_hyperedges (w : host.WellFormed) (c : host.Coherent)
    (stored : back ⊆ host.hyperedges.values) (mem : l ∈ (assemble back node new).hyperedges) :
    l ≠ node.label ∧ ¬ l ∈ host.nodes := by
  rcases mem_hyperedges_assemble.1 mem with ⟨e, comes, rfl⟩ | ⟨e, comes, rfl⟩
  · have source := mem_hyperedges_iff.2 ⟨e, w.mem_values_iff.1 (stored comes)⟩
    refine ⟨fun same => supplies.node_fresh ?_, w.unambiguous.not_mem_nodes source⟩
    exact same ▸ (c.mem_iff _).2 (Or.inr source)
  · refine ⟨supplies.apart e comes, fun node => supplies.fresh e comes ?_⟩
    exact (c.mem_iff _).2 (Or.inl node)

theorem apart_assemble (w : host.WellFormed) (c : host.Coherent)
    (stored : back ⊆ host.hyperedges.values) : host.Apart (assemble back node new) := by
  intro l
  constructor
  · exact fun node stored' => (supplies.assemble_hyperedges w c stored stored').2 node
  · intro mem source
    rcases supplies.assemble_nodes w stored mem with rfl | node
    · exact supplies.node_fresh ((c.mem_iff _).2 (Or.inr source))
    · exact w.unambiguous l node source

theorem unambiguous_assemble (w : host.WellFormed) (c : host.Coherent)
    (stored : back ⊆ host.hyperedges.values) : (assemble back node new).Unambiguous := by
  intro l mem source
  obtain ⟨ne, fresh⟩ := supplies.assemble_hyperedges w c stored source
  exact (supplies.assemble_nodes w stored mem).elim ne fresh

end Supplies

/-- A hyperedge that comes in lies under no label of a stored one. -/
theorem Supplies.not_stored (supplies : host.Supplies node new) (c : host.Coherent) (mem : e ∈ new) :
    ¬ ∃ e', host.hyperedge? e.label = some e' := fun stored =>
  supplies.fresh e mem ((c.mem_iff _).2 (Or.inr (mem_hyperedges_iff.2 stored)))

/-- What is found under a label after the step: what comes in, or what was there and is not `old`. -/
theorem Supplies.found_iff (supplies : host.Supplies node new) (c : host.Coherent) (w : host.WellFormed)
    {matched : List Label} (holds : host.Holds matched (old :: back)) :
    ((new.find? (·.label = e.label) <|> back.find? (·.label = e.label)) <|>
        if e.label ∈ matched then none else host.hyperedge? e.label) = some e ↔
      e ∈ new ∨ e ≠ old ∧ e ∈ host.hyperedges.values := by
  rw [w.mem_values_iff]
  cases first : new.find? (·.label = e.label) with
  | some e' =>
    obtain ⟨mem, same⟩ := (find?_name_eq_some_iff supplies.nodup).1 first
    have absent : ¬ host.hyperedge? e.label = some e := fun found =>
      supplies.not_stored c mem ⟨e, same ▸ found⟩
    have comes := find?_name_eq_some_iff (v := e) (l := e.label) supplies.nodup
    rw [first, and_iff_left rfl] at comes
    simp [absent, comes]
  | none =>
    have stays : ¬ e ∈ new := fun mem => by simpa using List.find?_eq_none.1 first e mem
    rw [or_iff_right stays]
    cases second : back.find? (·.label = e.label) with
    | some e' =>
      obtain ⟨mem, same⟩ := (find?_name_eq_some_iff holds.nodup_rest).1 second
      have source := w.mem_values_iff.1 (holds.rest mem)
      rw [same] at source
      rw [source]
      constructor
      · rintro ⟨⟩
        exact ⟨holds.ne_first mem, rfl⟩
      · rintro ⟨-, eq⟩
        exact eq
    | none =>
      have unmatched := holds.mem_keys_iff second
      by_cases same : e.label = old.label
      · rw [if_pos (unmatched.2 same), same, w.mem_values_iff.1 holds.first]
        simp [eq_comm]
      · rw [if_neg (mt unmatched.1 same)]
        have ne : e ≠ old := fun eq => same (congrArg Hyperedge.label eq)
        simp [ne]

section Replace

variable (c : host.Coherent) (w : host.WellFormed) (mem : m ∈ pattern.embeddings host)
  (supplies : host.Supplies node new)
include c w mem supplies

theorem wellFormed_exchange (stored : back ⊆ host.hyperedges.values) :
    (host.replace pattern m (assemble back node new)).Coherent ∧
      (host.replace pattern m (assemble back node new)).WellFormed := by
  obtain ⟨c', w'⟩ := coherent_assemble back node new
  have w' := w' (supplies.unambiguous_assemble w c stored)
  exact WellFormed.kept.replace (assemble back node new) ⟨c, w⟩ w.unambiguous mem
    (unambiguous_replace w w' c' (supplies.apart_assemble w c stored))

theorem nodes_exchange (stored : back ⊆ host.hyperedges.values) :
    (host.replace pattern m (assemble back node new)).nodes.values ~ node.regular :: host.nodes.values := by
  obtain ⟨c', w'⟩ := coherent_assemble back node new
  have w' := w' (supplies.unambiguous_assemble w c stored)
  have fresh : ¬ node.label ∈ host.nodes := fun mem =>
    supplies.node_fresh ((c.mem_iff _).2 (Or.inl mem))
  apply Table.values_perm_of_find? (wellFormed_exchange c w mem supplies stored).2.node_label
  · rw [List.map_cons, Node.label_regular, Table.map_values w.node_label, List.nodup_cons]
    exact ⟨fresh, host.nodes.nodup⟩
  · intro n
    rw [List.mem_cons, w.mem_node_values_iff, ← node?, node?_replace w w' c' mem]
    cases found : host.node? n.label with
    | some n' =>
      have old : n ≠ node.regular := by
        rintro rfl
        exact fresh (mem_nodes_iff.2 ⟨n', found⟩)
      exact (or_iff_right old).symm
    | none =>
      rw [or_iff_left (Option.some_ne_none n).symm]
      constructor
      · intro shown
        have fresh' := Table.find?_eq_none_iff.1 found
        have same := (supplies.assemble_nodes w stored (mem_nodes_iff.2 ⟨n, shown⟩)).resolve_right fresh'
        have shown' := node?_assemble back node new
        rw [← same] at shown'
        exact Option.some.inj (shown.symm.trans shown')
      · rintro rfl
        exact node?_assemble back node new

theorem hyperedges_exchange (holds : host.Holds (pattern.matched m) (old :: back)) :
    (host.replace pattern m (assemble back node new)).hyperedges.values ~
      new ++ host.hyperedges.values.erase old := by
  have w' := (coherent_assemble back node new).2 (supplies.unambiguous_assemble w c holds.rest)
  have once : host.hyperedges.values.Nodup := .of_map _ w.labels_nodup
  apply Table.values_perm_of_find? (wellFormed_exchange c w mem supplies holds.rest).2.hyperedge_label
  · rw [List.map_append, List.nodup_append]
    refine ⟨supplies.nodup, w.labels_nodup.sublist (List.erase_sublist.map _), ?_⟩
    rintro _ label _ label' rfl
    obtain ⟨e, comes, rfl⟩ := List.mem_map.1 label
    obtain ⟨e', stays, same⟩ := List.mem_map.1 label'
    have source := w.mem_values_iff.1 (List.mem_of_mem_erase stays)
    exact supplies.not_stored c comes ⟨e', same ▸ source⟩
  · intro e
    rw [← hyperedge?, hyperedge?_replace w', hyperedge?_assemble holds.nodup_rest supplies.nodup,
      List.mem_append, once.mem_erase_iff]
    exact supplies.found_iff c w holds

end Replace

/-- A step that writes all matched hyperedges back but one. -/
theorem exchanged_replace (p : pattern.Coherent) (c : host.Coherent) (w : host.WellFormed)
    (mem : m ∈ pattern.embeddings host) (eq : pattern.region host m = .ok region)
    (values : region.hyperedges.values ~ old :: back) (supplies : host.Supplies node new) :
    Exchanged old node new host (host.replace pattern m (assemble back node new)) := by
  have holds := holds_of_region p w ((mem_embeddings p c).1 mem).2 eq values
  obtain ⟨coherent, wellFormed⟩ := wellFormed_exchange c w mem supplies holds.rest
  refine ⟨supplies, holds.first, coherent, wellFormed, nodes_exchange c w mem supplies holds.rest, ?_⟩
  calc
    old :: (host.replace pattern m (assemble back node new)).hyperedges.values ~
        old :: (new ++ host.hyperedges.values.erase old) :=
      (hyperedges_exchange c w mem supplies holds).cons old
    _ ~ new ++ old :: host.hyperedges.values.erase old := List.perm_middle.symm
    _ ~ new ++ host.hyperedges.values := (List.perm_cons_erase holds.first).symm.append_left new

theorem Supplies.perm {new' : List Hyperedge} (supplies : g.Supplies node new) (perm : new ~ new') :
    g.Supplies node new' where
  node_fresh := supplies.node_fresh
  fresh e mem := supplies.fresh e (perm.mem_iff.2 mem)
  apart e mem := supplies.apart e (perm.mem_iff.2 mem)
  nodup := (perm.map _).nodup_iff.1 supplies.nodup
  members e mem := supplies.members e (perm.mem_iff.2 mem)

namespace Exchanged

theorem perm {new' : List Hyperedge} (x : Exchanged old node new g h) (perm : new ~ new') :
    Exchanged old node new' g h where
  supplies := x.supplies.perm perm
  stored := x.stored
  coherent := x.coherent
  wellFormed := x.wellFormed
  nodes := x.nodes
  hyperedges := x.hyperedges.trans (perm.append_right _)

variable (x : Exchanged old node new g h)
include x

theorem mem_values_iff (w : g.WellFormed) (c : g.Coherent) :
    e ∈ h.hyperedges.values ↔ e ∈ new ∨ e ∈ g.hyperedges.values ∧ e ≠ old := by
  have once : (old :: h.hyperedges.values).Nodup := by
    refine x.hyperedges.nodup_iff.2 (.append (.of_map _ x.supplies.nodup) (.of_map _ w.labels_nodup) ?_)
    exact fun e mem mem' => x.supplies.not_stored c mem ⟨e, w.mem_values_iff.1 mem'⟩
  have gone := (List.nodup_cons.1 once).1
  have shown := x.hyperedges.mem_iff (a := e)
  rw [List.mem_cons, List.mem_append] at shown
  constructor
  · intro mem
    rcases shown.1 (Or.inr mem) with mem' | mem'
    · exact Or.inl mem'
    · exact Or.inr ⟨mem', fun same => gone (same ▸ mem)⟩
  · rintro (mem | ⟨mem, ne⟩)
    · have ne : e ≠ old := by
        rintro rfl
        exact x.supplies.not_stored c mem ⟨e, w.mem_values_iff.1 x.stored⟩
      exact (shown.2 (Or.inl mem)).resolve_left ne
    · exact (shown.2 (Or.inr mem)).resolve_left ne

theorem mem_nodes_iff (w : g.WellFormed) : l ∈ h.nodes ↔ l = node.label ∨ l ∈ g.nodes := by
  have keys := x.nodes.map Node.label
  rw [Table.map_values x.wellFormed.node_label, List.map_cons, Table.map_values w.node_label] at keys
  rw [Table.mem_def, keys.mem_iff, List.mem_cons]
  rfl

theorem mem_hyperedges_iff (w : g.WellFormed) (c : g.Coherent) : l ∈ h.hyperedges ↔
    (∃ e ∈ new, e.label = l) ∨ l ∈ g.hyperedges ∧ l ≠ old.label := by
  rw [Table.mem_def, ← Table.map_values x.wellFormed.hyperedge_label, List.mem_map, Table.mem_def,
    ← Table.map_values w.hyperedge_label, List.mem_map]
  simp only [x.mem_values_iff w c]
  constructor
  · rintro ⟨e, mem | ⟨mem, ne⟩, rfl⟩
    · exact Or.inl ⟨e, mem, rfl⟩
    · refine Or.inr ⟨⟨e, mem, rfl⟩, fun same => ne ?_⟩
      exact List.inj_on_of_nodup_map w.labels_nodup mem x.stored same
  · rintro (⟨e, mem, rfl⟩ | ⟨⟨e, mem, rfl⟩, ne⟩)
    · exact ⟨e, Or.inl mem, rfl⟩
    · exact ⟨e, Or.inr ⟨mem, fun same => ne (congrArg _ same)⟩, rfl⟩

/-- The labels that are new are those of what came in. -/
theorem new_iff (w : g.WellFormed) (c : g.Coherent) :
    l ∈ h ∧ ¬ l ∈ g ↔ l ∈ node.label :: new.map Hyperedge.label := by
  rw [x.coherent.mem_iff, x.mem_nodes_iff w, x.mem_hyperedges_iff w c, List.mem_cons, List.mem_map]
  constructor
  · rintro ⟨(eq | old) | comes | ⟨old, -⟩, fresh⟩
    · exact Or.inl eq
    · exact absurd ((c.mem_iff l).2 (Or.inl old)) fresh
    · exact Or.inr comes
    · exact absurd ((c.mem_iff l).2 (Or.inr old)) fresh
  · rintro (rfl | ⟨e, mem, rfl⟩)
    · exact ⟨Or.inl (Or.inl rfl), x.supplies.node_fresh⟩
    · exact ⟨Or.inr (Or.inl ⟨e, mem, rfl⟩), x.supplies.fresh e mem⟩

/-- The hyperedge that goes leaves nothing under its label. -/
theorem not_mem (w : g.WellFormed) (c : g.Coherent) : ¬ old.label ∈ h := by
  have source : old.label ∈ g.hyperedges := Hypergraph.mem_hyperedges_iff.2 ⟨old, w.mem_values_iff.1 x.stored⟩
  have known : old.label ∈ g := (c.mem_iff _).2 (Or.inr source)
  rw [x.coherent.mem_iff, x.mem_nodes_iff w, x.mem_hyperedges_iff w c]
  rintro ((same | node) | ⟨e, mem, same⟩ | ⟨-, ne⟩)
  · exact x.supplies.node_fresh (same ▸ known)
  · exact w.unambiguous _ node source
  · exact x.supplies.fresh e mem (same ▸ known)
  · exact ne rfl

theorem node?_of_ne (w : g.WellFormed) (ne : l ≠ node.label) : h.node? l = g.node? l := by
  have shown (n : Node) : h.node? l = some n ↔ g.node? l = some n := by
    constructor <;> intro found
    · have named : n.label = l := x.wellFormed.node_label l n found
      have stored := x.nodes.mem_iff.1 (x.wellFormed.mem_node_values_iff.2 (named ▸ found))
      rcases List.mem_cons.1 stored with rfl | stored
      · exact absurd named.symm ne
      · exact named ▸ w.mem_node_values_iff.1 stored
    · have named : n.label = l := w.node_label l n found
      have stored := x.nodes.mem_iff.2 (List.mem_cons_of_mem _ (w.mem_node_values_iff.2 (named ▸ found)))
      exact named ▸ x.wellFormed.mem_node_values_iff.1 stored
  exact Option.ext shown

theorem hyperedge?_of_ne (w : g.WellFormed) (c : g.Coherent) (ne : l ≠ old.label)
    (other : ¬ l ∈ new.map Hyperedge.label) : h.hyperedge? l = g.hyperedge? l := by
  have shown (e : Hyperedge) : h.hyperedge? l = some e ↔ g.hyperedge? l = some e := by
    constructor <;> intro found
    · have named : e.label = l := x.wellFormed.hyperedge_label l e found
      rcases (x.mem_values_iff w c).1 (x.wellFormed.mem_values_iff.2 (named ▸ found)) with mem | ⟨mem, -⟩
      · exact absurd (named ▸ List.mem_map_of_mem mem) other
      · exact named ▸ w.mem_values_iff.1 mem
    · have named : e.label = l := w.hyperedge_label l e found
      have stays : e ∈ h.hyperedges.values := (x.mem_values_iff w c).2
        (Or.inr ⟨w.mem_values_iff.2 (named ▸ found), fun same => ne (same ▸ named).symm⟩)
      exact named ▸ x.wellFormed.mem_values_iff.1 stays
  exact Option.ext shown

/-- Links between labels that neither come nor go are those there were. -/
theorem incident (w : g.WellFormed) (c : g.Coherent) {k : Label}
    (old_label : ∀ t ∈ [k, l], t ≠ old.label ∧ ¬ t ∈ new.map Hyperedge.label) :
    k ∈ h.neighbours l ↔ k ∈ g.neighbours l := by
  have lists (s t : Label) (mem : s ∈ [k, l]) : h.Lists s t ↔ g.Lists s t := by
    obtain ⟨ne, other⟩ := old_label s mem
    rw [Lists, x.hyperedge?_of_ne w c ne other, Lists]
  rw [x.wellFormed.incident, w.incident, lists l k (by simp), lists k l (by simp)]

/-- Under labels that neither come nor go all is as it was. -/
theorem unchanged (w : g.WellFormed) (c : g.Coherent)
    (out : ¬ l ∈ old.label :: node.label :: new.map Hyperedge.label) :
    h.node? l = g.node? l ∧ h.hyperedge? l = g.hyperedge? l ∧
      ∀ k, ¬ k ∈ old.label :: node.label :: new.map Hyperedge.label →
        (k ∈ h.neighbours l ↔ k ∈ g.neighbours l) := by
  simp only [List.mem_cons, not_or] at out ⊢
  obtain ⟨ne, fresh, other⟩ := out
  refine ⟨x.node?_of_ne w fresh, x.hyperedge?_of_ne w c ne other, fun k ⟨ne', _, other'⟩ => ?_⟩
  apply x.incident w c
  exact List.forall_mem_cons.2 ⟨⟨ne', other'⟩, List.forall_mem_singleton.2 ⟨ne, other⟩⟩

theorem size_nodes : h.nodes.size = g.nodes.size + 1 := by
  have length := x.nodes.length_eq
  rwa [List.length_cons, Table.length_values, Table.length_values] at length

theorem countP (p : Hyperedge → Bool) : [old].countP p + h.hyperedges.values.countP p =
    new.countP p + g.hyperedges.values.countP p := by
  rw [← List.countP_append, ← List.countP_append]
  exact x.hyperedges.countP_eq p

theorem tally (tags : List String) :
    [old.tag].countP (· ∈ tags) + h.tally tags =
      (new.map Hyperedge.tag).countP (· ∈ tags) + g.tally tags := by
  rw [List.countP_map]
  exact x.countP (·.tag ∈ tags)

end Exchanged

/-! ### Revised hyperedges -/

namespace Revised

variable {f : Label → Hyperedge → Hyperedge}

theorem values_perm (revised : Revised f g h) (w : g.WellFormed) (w' : h.WellFormed)
    (keeps : KeepsMembers f) :
    h.hyperedges.values ~ g.hyperedges.values.map fun e => f e.label e := by
  have labels : (g.hyperedges.values.map fun e => f e.label e).map Hyperedge.label =
      g.hyperedges.values.map Hyperedge.label := by
    rw [List.map_map]
    exact List.map_congr_left fun e _ => keeps.label e.label e
  apply Table.values_perm_of_find? w'.hyperedge_label
  · rw [labels]
    exact w.labels_nodup
  · intro e
    rw [← hyperedge?, revised.hyperedge, Option.map_eq_some_iff, List.mem_map]
    constructor
    · rintro ⟨e', found, eq⟩
      have same := w.hyperedge_label _ e' found
      rw [← same] at found eq
      exact ⟨e', w.mem_values_iff.2 found, eq⟩
    · rintro ⟨e', mem, rfl⟩
      refine ⟨e', ?_, by rw [keeps.label]⟩
      rw [keeps.label]
      exact w.mem_values_iff.1 mem

theorem tally (revised : Revised f g h) (w : g.WellFormed) (w' : h.WellFormed)
    (keeps : KeepsMembers f) (tags : List String) : h.tally tags = g.tally tags := by
  rw [Hypergraph.tally, (revised.values_perm w w' keeps).countP_eq, List.countP_map]
  apply List.countP_congr
  intro e _
  rw [Function.comp_apply, (keeps e.label e).1]

theorem nodes_perm (revised : Revised f g h) (w : g.WellFormed) (w' : h.WellFormed) :
    h.nodes.values ~ g.nodes.values := by
  apply Table.values_perm_of_find? w'.node_label
  · rw [Table.map_values w.node_label]
    exact g.nodes.nodup
  · intro n
    rw [← node?, revised.node, w.mem_node_values_iff]

end Revised

end Hypergraph

end Hypermesh
