import Hypermesh.Proofs.Merging
import Hypermesh.Proofs.OrderIndependence

/-!
Merging as an operation on what is stored. The hypergraph that is merged in wins wherever both store
something under a label, so that merging twice is merging once, and merging is associative. If it stops, it
does so at the first member that is known to neither, and what came before that stays.
-/

universe u

namespace Hypermesh

/-- What is found under a label after records have been stored one by one under their own labels. -/
def written? {β : Type u} (label : β → Label) (records : List β) (l : Label) : Option β :=
  records.reverse.find? (label · = l)

section

variable {β : Type u} {label : β → Label} {record : β} {records : List β} {l : Label}

@[simp] theorem written?_nil : written? label [] l = none := rfl

theorem written?_cons : written? label (record :: records) l =
    (written? label records l <|> if l = label record then some record else none) := by
  rw [written?, List.reverse_cons, List.find?_append, written?]
  simp [List.find?_singleton, eq_comm]

theorem isSome_written? : (written? label records l).isSome ↔ l ∈ records.map label := by
  rw [written?, List.find?_isSome, List.mem_map]
  simp only [List.mem_reverse, decide_eq_true_eq]

/-- A table whose records lie under their own labels is what storing them one by one makes. -/
theorem written?_values {t : Table β}
    (labelled : ∀ key value, t.find? key = some value → label value = key) :
    written? label t.values l = t.find? l := by
  cases found : written? label t.values l with
  | none =>
    have absent : ¬ l ∈ t := by
      rw [Table.mem_def, ← Table.map_values labelled, ← isSome_written?, found]
      nofun
    exact (Table.find?_eq_none_iff.2 absent).symm
  | some value =>
    obtain ⟨key, eq⟩ := Table.mem_values.1 (List.mem_reverse.1 (List.mem_of_find?_eq_some found))
    have same : label value = l := by simpa using List.find?_some found
    rw [← same, labelled key value eq, eq]

end

namespace Hypergraph

variable {g h t o p : Hypergraph} {l : Label} {edge : Hyperedge} {nodes : List Node}
  {edges before after : List Hyperedge} {front back : List Label}

/-! ### Storing one by one -/

theorem node?_addAllNodes (g : Hypergraph) (nodes : List Node) (l : Label) :
    (nodes.foldl addNode g).node? l = ((written? Node.label nodes l).map Node.regular <|> g.node? l) := by
  induction nodes generalizing g with
  | nil => rfl
  | cons node nodes ih =>
    rw [List.foldl_cons, ih, node?_addNode, written?_cons]
    cases written? Node.label nodes l with
    | some other => rfl
    | none => split <;> rfl

theorem mem_nodes_addAllNodes :
    l ∈ (nodes.foldl addNode g).nodes ↔ l ∈ nodes.map Node.label ∨ l ∈ g.nodes := by
  rw [mem_nodes_iff, mem_nodes_iff, node?_addAllNodes, ← isSome_written?]
  cases written? Node.label nodes l <;> simp

theorem hyperedge?_addAllNodes (g : Hypergraph) (nodes : List Node) (l : Label) :
    (nodes.foldl addNode g).hyperedge? l = g.hyperedge? l :=
  foldl_unchanged (q := (hyperedge? · l)) (fun _ _ => hyperedge?_addNode ..) nodes g

theorem hyperedge?_writeAll (g : Hypergraph) (edges : List Hyperedge) (l : Label) :
    (edges.foldl insertHyperedge g).hyperedge? l = (written? Hyperedge.label edges l <|> g.hyperedge? l) := by
  induction edges generalizing g with
  | nil => rfl
  | cons edge edges ih =>
    rw [List.foldl_cons, ih, hyperedge?_insertHyperedge, written?_cons]
    cases written? Hyperedge.label edges l with
    | some other => rfl
    | none => split <;> rfl

/-- Nodes and then hyperedges have been stored one by one. -/
structure Receives (t g : Hypergraph) (nodes : List Node) (edges : List Hyperedge) : Prop where
  node : ∀ l, g.node? l = (written? Node.label nodes l <|> t.node? l)
  hyperedge : ∀ l, g.hyperedge? l = (written? Hyperedge.label edges l <|> t.hyperedge? l)

theorem receives (c : o.Coherent)
    (known : ∀ edge ∈ edges, ∀ k ∈ edge.memberLabels, k ∈ (o.nodes.values.foldl addNode t).nodes) :
    t.Receives (edges.foldl insertHyperedge (o.nodes.values.foldl addNode t)) o.nodes.values edges where
  node l := by
    rw [node?_insertAll known, node?_addAllNodes]
    cases found : written? Node.label o.nodes.values l with
    | none => rfl
    | some node =>
      -- The nodes of the other one are regular, so that they come in as they are.
      obtain ⟨key, eq⟩ := Table.mem_values.1 (List.mem_reverse.1 (List.mem_of_find?_eq_some found))
      have regular : node.standsFor = none := c.regular key node eq
      rw [Option.map_some, Node.regular, ← regular]
  hyperedge l := by rw [hyperedge?_writeAll, hyperedge?_addAllNodes]

/-! ### Where a merge stops -/

/-- The label is not that of a node on either side. -/
def Unknown (t o : Hypergraph) (l : Label) : Prop := ¬ l ∈ t.nodes ∧ ¬ l ∈ o.nodes.values.map Node.label

instance (t o : Hypergraph) (l : Label) : Decidable (t.Unknown o l) := inferInstanceAs (Decidable (_ ∧ _))

theorem mem_of_not_unknown (known : ¬ t.Unknown o l) : l ∈ (o.nodes.values.foldl addNode t).nodes := by
  rw [mem_nodes_addAllNodes]
  by_contra absent
  rw [not_or] at absent
  exact known ⟨absent.2, absent.1⟩

theorem Unknown.not_mem (unknown : t.Unknown o l) : ¬ l ∈ (o.nodes.values.foldl addNode t).nodes := by
  rw [mem_nodes_addAllNodes, not_or]
  exact ⟨unknown.2, unknown.1⟩

/-- Nodes that lie under their own labels are known by where they lie. -/
theorem unknown_iff (labelled : ∀ l node, o.node? l = some node → node.label = l) :
    t.Unknown o l ↔ ¬ l ∈ t.nodes ∧ ¬ l ∈ o.nodes := by
  rw [Unknown, Table.map_values labelled]
  rfl

theorem addHyperedge_of_unknown (members : edge.memberLabels = front ++ l :: back)
    (known : ∀ k ∈ front, k ∈ g.nodes) (unknown : ¬ l ∈ g.nodes) :
    g.addHyperedge edge = .error (.unknownNode l) := by
  have first : edge.memberLabels.find? (· ∉ g.nodes) = some l := by
    rw [members, List.find?_append, List.find?_eq_none.2 (by simpa using known), Option.none_or]
    exact List.find?_cons_of_pos (by simpa using unknown)
  rw [addHyperedge, first]

/-- The hyperedges before the one with an unknown member come in, and no other does. -/
theorem addAll_of_unknown (stored : ∀ edge ∈ before, ∀ k ∈ edge.memberLabels, k ∈ g.nodes)
    (members : edge.memberLabels = front ++ l :: back) (known : ∀ k ∈ front, k ∈ g.nodes)
    (unknown : ¬ l ∈ g.nodes) :
    g.addAll (before ++ edge :: after) = (before.foldl insertHyperedge g, .error (.unknownNode l)) := by
  induction before generalizing g with
  | nil =>
    rw [List.nil_append, addAll, addHyperedge_of_unknown members known unknown]
    rfl
  | cons first before ih =>
    obtain ⟨head, tail⟩ := List.forall_mem_cons.1 stored
    have same {k : Label} : k ∈ (g.insertHyperedge first).nodes ↔ k ∈ g.nodes :=
      mem_nodes_insertHyperedge.trans (or_iff_left_of_imp (head k))
    rw [List.cons_append, addAll, addHyperedge_of_known head]
    exact ih (fun edge mem k member => same.2 (tail edge mem k member)) (fun k mem => same.2 (known k mem))
      fun mem => unknown (same.1 mem)

/-- Where the hyperedges of `o` get to when they are added one by one: the first member that is not known
is the label `l` of the hyperedge after those in `before`. -/
structure StopsAt (t o : Hypergraph) (before : List Hyperedge) (l : Label) : Prop where
  unknown : t.Unknown o l
  known : ∀ edge ∈ before, ∀ k ∈ edge.memberLabels, ¬ t.Unknown o k
  next : ∃ edge after front back, o.hyperedges.values = before ++ edge :: after ∧
    edge.memberLabels = front ++ l :: back ∧ ∀ k ∈ front, ¬ t.Unknown o k

theorem stopsAt_or_known (t o : Hypergraph) : (∃ before l, t.StopsAt o before l) ∨
    ∀ edge ∈ o.hyperedges.values, ∀ k ∈ edge.memberLabels, ¬ t.Unknown o k := by
  cases found : o.hyperedges.values.find? (·.memberLabels.any (t.Unknown o ·)) with
  | none => exact Or.inr (by simpa using found)
  | some edge =>
    obtain ⟨some, before, after, eq, known⟩ := List.find?_eq_some_iff_append.1 found
    obtain ⟨l, first⟩ := Option.isSome_iff_exists.1 (List.find?_isSome.2 (List.any_eq_true.1 some))
    obtain ⟨unknown, front, back, members, known'⟩ := List.find?_eq_some_iff_append.1 first
    exact Or.inl ⟨before, l, by simpa using unknown, by simpa using known,
      edge, after, front, back, eq, members, by simpa using known'⟩

theorem merge_of_known (known : ∀ edge ∈ o.hyperedges.values, ∀ k ∈ edge.memberLabels, ¬ t.Unknown o k) :
    t.merge o = (o.hyperedges.values.foldl insertHyperedge (o.nodes.values.foldl addNode t), .ok ()) :=
  addAll_eq fun edge mem k member => mem_of_not_unknown (known edge mem k member)

theorem StopsAt.merge_eq (stops : t.StopsAt o before l) :
    t.merge o = (before.foldl insertHyperedge (o.nodes.values.foldl addNode t), .error (.unknownNode l)) := by
  obtain ⟨unknown, known, edge, after, front, back, eq, members, known'⟩ := stops
  rw [merge, eq]
  apply addAll_of_unknown _ members _ unknown.not_mem
  · exact fun edge mem k member => mem_of_not_unknown (known edge mem k member)
  · exact fun k mem => mem_of_not_unknown (known' k mem)

/-! ### Well-formed hypergraphs -/

/-- `g` stores what `o` stores, and what `t` stores under the other labels. -/
structure Updates (g t o : Hypergraph) : Prop where
  node : ∀ l, g.node? l = (o.node? l <|> t.node? l)
  hyperedge : ∀ l, g.hyperedge? l = (o.hyperedge? l <|> t.hyperedge? l)

namespace Updates

theorem mem_nodes (updates : g.Updates t o) : l ∈ g.nodes ↔ l ∈ t.nodes ∨ l ∈ o.nodes := by
  rw [mem_nodes_iff, mem_nodes_iff, mem_nodes_iff, updates.node]
  cases o.node? l <;> simp

theorem mem_hyperedges (updates : g.Updates t o) :
    l ∈ g.hyperedges ↔ l ∈ t.hyperedges ∨ l ∈ o.hyperedges := by
  rw [mem_hyperedges_iff, mem_hyperedges_iff, mem_hyperedges_iff, updates.hyperedge]
  cases o.hyperedge? l <;> simp

theorem apart (updates : g.Updates t o) (first : t.Apart p) (second : o.Apart p) : g.Apart p := by
  intro l
  rw [updates.mem_nodes, updates.mem_hyperedges, not_or]
  exact ⟨fun mem => mem.elim (first l).1 (second l).1, fun mem => ⟨(first l).2 mem, (second l).2 mem⟩⟩

end Updates

instance (g h : Hypergraph) : Decidable (g.Apart h) :=
  decidable_of_iff ((∀ l ∈ g.nodes.keys, ¬ l ∈ h.hyperedges) ∧ ∀ l ∈ h.nodes.keys, ¬ l ∈ g.hyperedges)
    ⟨fun both l => ⟨both.1 l, both.2 l⟩, fun apart => ⟨fun l => (apart l).1, fun l => (apart l).2⟩⟩

theorem Apart.symm (apart : g.Apart h) : h.Apart g := fun l => ⟨(apart l).2, (apart l).1⟩

/-- The second one has been merged into the first one without an error. -/
structure Merges (t o g : Hypergraph) : Prop where
  eq : t.merge o = (g, .ok ())
  coherent : g.Coherent
  wellFormed : g.WellFormed
  updates : g.Updates t o

theorem exists_merges (c : t.Coherent) (c' : o.Coherent) (w : t.WellFormed) (w' : o.WellFormed)
    (apart : t.Apart o) : ∃ g, t.Merges o g := by
  have known : ∀ edge ∈ o.hyperedges.values, ∀ k ∈ edge.memberLabels, ¬ t.Unknown o k := by
    intro edge mem k member unknown
    obtain ⟨key, found⟩ := Table.mem_values.1 mem
    exact unknown.2 (Table.map_values w'.node_label ▸ w'.mem_nodes ⟨edge, found, member⟩)
  have receives := receives c' (t := t) fun edge mem k member => mem_of_not_unknown (known edge mem k member)
  have eq := merge_of_known known
  have updates : (t.merge o).1.Updates t o := by
    rw [eq]
    refine ⟨fun l => ?_, fun l => ?_⟩
    · rw [receives.node, written?_values w'.node_label]
      rfl
    · rw [receives.hyperedge, written?_values w'.hyperedge_label]
      rfl
  have u := apart.unambiguous w.unambiguous w'.unambiguous (fun _ => updates.mem_nodes.1)
    fun _ => updates.mem_hyperedges.1
  obtain ⟨coherent, wellFormed⟩ := WellFormed.kept.grows (grows_merge t o) ⟨c, w⟩ u
  exact ⟨_, Prod.ext rfl (by rw [eq]), coherent, wellFormed, updates⟩

namespace Merges

variable {left right rest : Hypergraph}

/-- What is stored already is not changed by storing it once more. -/
theorem again (merges : t.Merges o g) (c : o.Coherent) (w : o.WellFormed) (apart : t.Apart o) :
    ∃ h, g.Merges o h ∧ h.Alike g := by
  have self : o.Apart o := fun l => ⟨w.unambiguous l, w.unambiguous l⟩
  obtain ⟨h, merges'⟩ :=
    exists_merges merges.coherent c merges.wellFormed w (merges.updates.apart apart self)
  refine ⟨h, merges', merges'.wellFormed.alike merges.wellFormed (fun l => ?_) fun l => ?_⟩
  · rw [merges'.updates.node, merges.updates.node]
    cases o.node? l <;> rfl
  · rw [merges'.updates.hyperedge, merges.updates.hyperedge]
    cases o.hyperedge? l <;> rfl

theorem of_empty (merges : (∅ : Hypergraph).Merges o g) (w : o.WellFormed) : g.Alike o := by
  apply merges.wellFormed.alike w
  · intro l
    rw [merges.updates.node]
    cases o.node? l <;> rfl
  · intro l
    rw [merges.updates.hyperedge]
    cases o.hyperedge? l <;> rfl

/-- Without a common label neither one wins anywhere. -/
theorem comm (merges : t.Merges o g) (swapped : o.Merges t h) (c : t.Coherent) (c' : o.Coherent)
    (separate : t.Separate o) : h.Alike g := by
  apply swapped.wellFormed.alike merges.wellFormed
  · intro l
    rw [swapped.updates.node, merges.updates.node]
    by_cases mem : l ∈ t
    · rw [c'.node?_eq_none (separate l mem)]
      cases t.node? l <;> rfl
    · rw [c.node?_eq_none mem]
      cases o.node? l <;> rfl
  · intro l
    rw [swapped.updates.hyperedge, merges.updates.hyperedge]
    by_cases mem : l ∈ t
    · rw [c'.hyperedge?_eq_none (separate l mem)]
      cases t.hyperedge? l <;> rfl
    · rw [c.hyperedge?_eq_none mem]
      cases o.hyperedge? l <;> rfl

theorem assoc (merges : t.Merges o g) (first : g.Merges p left) (later : o.Merges p rest)
    (second : t.Merges rest right) : left.Alike right := by
  apply first.wellFormed.alike second.wellFormed
  · intro l
    rw [first.updates.node, merges.updates.node, second.updates.node, later.updates.node]
    cases p.node? l <;> rfl
  · intro l
    rw [first.updates.hyperedge, merges.updates.hyperedge, second.updates.hyperedge,
      later.updates.hyperedge]
    cases p.hyperedge? l <;> rfl

end Merges

/-- Merging well-formed hypergraphs of which none names a node by the label of a hyperedge of another one
stores what is in the second one over what is in the first one. So it does not matter whether that is done
once or twice, how three are put together, nor, if no label is shared, in which order. Any merge fails just
where a hyperedge has a member that is known to neither, with the first such member, and keeps all nodes
and the hyperedges up to there. Nodes are known by their labels, under which they lie but in a region. -/
theorem merge_laws (t o p : Hypergraph) (reachable : t.Reachable) (reachable' : o.Reachable)
    (reachable'' : p.Reachable) :
    (t.WellFormed → o.WellFormed → t.Apart o → ∃ g, t.merge o = (g, .ok ()) ∧ g.WellFormed ∧
        g.Updates t o ∧
        (∃ again, g.merge o = (again, .ok ()) ∧ again.Alike g) ∧
        (∃ alone, (∅ : Hypergraph).merge o = (alone, .ok ()) ∧ alone.Alike o) ∧
        (t.Separate o → ∃ swapped, o.merge t = (swapped, .ok ()) ∧ swapped.Alike g) ∧
        (p.WellFormed → t.Apart p → o.Apart p → ∃ rest left right, o.merge p = (rest, .ok ()) ∧
          g.merge p = (left, .ok ()) ∧ t.merge rest = (right, .ok ()) ∧ left.Alike right)) ∧
      ((t.merge o).2 = .ok () ↔ ∀ edge ∈ o.hyperedges.values, ∀ l ∈ edge.memberLabels, ¬ t.Unknown o l) ∧
      (∀ error, (t.merge o).2 = .error error → ∃ before l, error = .unknownNode l ∧ t.StopsAt o before l ∧
        t.Receives (t.merge o).1 o.nodes.values before) ∧
      ((∀ l node, o.node? l = some node → node.label = l) → ∀ l,
        (t.Unknown o l ↔ ¬ l ∈ t.nodes ∧ ¬ l ∈ o.nodes) ∧ written? Node.label o.nodes.values l = o.node? l) := by
  have c := reachable.coherent
  have c' := reachable'.coherent
  have c'' := reachable''.coherent
  refine ⟨?laws, ?succeeds, ?fails, fun labelled l => ⟨unknown_iff labelled, written?_values labelled⟩⟩
  case laws =>
    intro w w' apart
    obtain ⟨g, merges⟩ := exists_merges c c' w w' apart
    refine ⟨g, merges.eq, merges.wellFormed, merges.updates, ?again, ?alone, ?swapped, ?regrouped⟩
    case again =>
      obtain ⟨h, merges', alike⟩ := merges.again c' w' apart
      exact ⟨h, merges'.eq, alike⟩
    case alone =>
      have clear : (∅ : Hypergraph).Apart o := fun _ => ⟨nofun, fun _ => nofun⟩
      obtain ⟨h, merges'⟩ := exists_merges Coherent.empty c' WellFormed.empty w' clear
      exact ⟨h, merges'.eq, merges'.of_empty w'⟩
    case swapped =>
      intro separate
      obtain ⟨h, swapped⟩ := exists_merges c' c w' w apart.symm
      exact ⟨h, swapped.eq, merges.comm swapped c c' separate⟩
    case regrouped =>
      intro w'' first second
      obtain ⟨rest, later⟩ := exists_merges c' c'' w' w'' second
      obtain ⟨left, merges'⟩ :=
        exists_merges merges.coherent c'' merges.wellFormed w'' (merges.updates.apart first second)
      obtain ⟨right, merges''⟩ := exists_merges c later.coherent w later.wellFormed
        (later.updates.apart apart.symm first.symm).symm
      exact ⟨rest, left, right, later.eq, merges'.eq, merges''.eq, merges.assoc merges' later merges''⟩
  case succeeds =>
    rcases stopsAt_or_known t o with ⟨before, l, stops⟩ | known
    · refine iff_of_false (by rw [stops.merge_eq]; nofun) fun known => ?_
      obtain ⟨edge, after, front, back, eq, members, -⟩ := stops.next
      exact known edge (by simp [eq]) l (by simp [members]) stops.unknown
    · exact iff_of_true (by rw [merge_of_known known]) known
  case fails =>
    intro error failed
    rcases stopsAt_or_known t o with ⟨before, l, stops⟩ | known
    · have eq := stops.merge_eq
      rw [eq] at failed ⊢
      cases failed
      exact ⟨before, l, rfl, stops, receives c' fun edge mem k member =>
        mem_of_not_unknown (stops.known edge mem k member)⟩
    · rw [merge_of_known known] at failed
      cases failed

/-- The same sides with other marks are stored over. A node that has been removed stops the merge behind
the side that is stored before. -/
theorem merge_laws_marked :
    let t := Operation.build (chain ["b", "d", "f"])
    let o := Operation.build (chain ["b", "d", "f"] ++ [.apply Production.polish {} 3])
    let p := Operation.build (chain ["f", "h"])
    let q := Operation.build (chain ["f", "b", "d", "e"] ++ [.remove "d", .remove "e"])
    ((t.merge o).1.hyperedge? "E_d_f").map Hyperedge.mark = some 1 ∧
      (∃ g, t.merge o = (g, .ok ()) ∧ g.Updates t o ∧
        ∃ rest left right, o.merge p = (rest, .ok ()) ∧ g.merge p = (left, .ok ()) ∧
          t.merge rest = (right, .ok ()) ∧ left.Alike right) ∧
      q.hyperedges.keys = ["E_f_b", "E_b_d", "E_d_e"] ∧
      (p.merge q).1.hyperedges.keys = ["E_f_h", "E_f_b"] ∧
      ∃ before, (p.merge q).2 = .error (.unknownNode "d") ∧ p.StopsAt q before "d" ∧
        p.Receives (p.merge q).1 q.nodes.values before := by
  let t := Operation.build (chain ["b", "d", "f"])
  let o := Operation.build (chain ["b", "d", "f"] ++ [.apply Production.polish {} 3])
  let p := Operation.build (chain ["f", "h"])
  let q := Operation.build (chain ["f", "b", "d", "e"] ++ [.remove "d", .remove "e"])
  have w : t.WellFormed := WellFormed.build _ (by decide +kernel)
  have clean : Operation.AllClean ∅ (chain ["b", "d", "f"] ++ [.apply Production.polish {} 3]) := by
    decide +kernel
  have w' : o.WellFormed := WellFormed.build _ clean
  have w'' : p.WellFormed := WellFormed.build _ (by decide +kernel)
  obtain ⟨laws, -⟩ := merge_laws t o p (Reachable.build _) (Reachable.build _) (Reachable.build _)
  obtain ⟨g, eq, -, updates, -, -, -, regroup⟩ := laws w w' (by decide +kernel)
  have regrouped := regroup w'' (by decide +kernel) (by decide +kernel)
  obtain ⟨-, -, fails, -⟩ := merge_laws p q p (Reachable.build _) (Reachable.build _) (Reachable.build _)
  have failed : (p.merge q).2 = .error (.unknownNode "d") := by decide +kernel
  obtain ⟨before, l, same, stops, receives⟩ := fails _ failed
  obtain rfl : "d" = l := GraphError.unknownNode.inj same
  exact ⟨by decide +kernel, ⟨g, eq, updates, regrouped⟩, by decide +kernel, by decide +kernel, before, failed,
    stops, receives⟩

end Hypergraph

end Hypermesh
