import Hypermesh.Proofs.Consistency
import Hypermesh.Proofs.Matching.Embedding

/-!
Labels that name one thing. Insertions only add to what is stored, so a hypergraph without an ambiguous
label at the end of an insertion had none on the way. A matched hyperedge may be removed, for its label
names no node.
-/

namespace Hypermesh

namespace Hypergraph

variable {g h k other pattern host : Hypergraph} {l u t label : Label} {node : Node} {edge : Hyperedge}
  {m : Embedding}

/-- No label names a node and a hyperedge at once. -/
def Unambiguous (g : Hypergraph) : Prop := ∀ l ∈ g.nodes.keys, ¬ l ∈ g.hyperedges

instance (g : Hypergraph) : Decidable g.Unambiguous :=
  inferInstanceAs (Decidable (∀ l ∈ g.nodes.keys, _))

theorem unambiguous_empty : Unambiguous ∅ := by
  intro l mem
  cases mem

theorem Unambiguous.not_mem_nodes (u : g.Unambiguous) (stored : l ∈ g.hyperedges) : ¬ l ∈ g.nodes :=
  fun mem => u l mem stored

/-- What is stored in `g` is stored in `h` under the same label, with a value that may differ. -/
structure Within (g h : Hypergraph) : Prop where
  nodes : ∀ l, l ∈ g.nodes → l ∈ h.nodes
  hyperedges : ∀ l, l ∈ g.hyperedges → l ∈ h.hyperedges

theorem Within.refl (g : Hypergraph) : g.Within g := ⟨fun _ mem => mem, fun _ mem => mem⟩

theorem Within.trans (first : g.Within h) (second : h.Within k) : g.Within k where
  nodes l mem := second.nodes l (first.nodes l mem)
  hyperedges l mem := second.hyperedges l (first.hyperedges l mem)

theorem Within.unambiguous (within : g.Within h) (u : h.Unambiguous) : g.Unambiguous :=
  fun l mem stored => u l (within.nodes l mem) (within.hyperedges l stored)

theorem within_addNode (g : Hypergraph) (node : Node) : g.Within (g.addNode node) where
  nodes _ mem := Table.mem_insert.2 (Or.inr mem)
  hyperedges _ mem := mem

theorem remove_within (g : Hypergraph) (label : Label) : (g.remove label).Within g where
  nodes _ mem := (Table.mem_erase.1 mem).2
  hyperedges _ mem := (Table.mem_erase.1 mem).2

theorem removeAll_within (g : Hypergraph) (labels : List Label) :
    (labels.foldl remove g).Within g := by
  induction labels generalizing g with
  | nil => exact .refl g
  | cons label labels ih => exact (ih (g.remove label)).trans (remove_within g label)

theorem mem_nodes_insertHyperedge :
    l ∈ (g.insertHyperedge edge).nodes ↔ l ∈ g.nodes ∨ l ∈ edge.memberLabels := by
  have member : l ∈ edge.memberLabels ↔ ∃ n, edge.members.find? (·.label = l) = some n := by
    rw [← Option.isSome_iff_exists, List.find?_isSome, Hyperedge.memberLabels, List.mem_map]
    simp only [decide_eq_true_eq]
  rw [mem_nodes_iff, mem_nodes_iff, member, node?_insertHyperedge]
  cases g.node? l with
  | none => cases edge.members.find? (·.label = l) <;> simp
  | some n => simp

theorem mem_hyperedges_insertHyperedge :
    l ∈ (g.insertHyperedge edge).hyperedges ↔ l = edge.label ∨ l ∈ g.hyperedges := by
  rw [hyperedges_insertHyperedge, Table.mem_insert]

theorem within_insertHyperedge (g : Hypergraph) (edge : Hyperedge) :
    g.Within (g.insertHyperedge edge) where
  nodes _ mem := mem_nodes_insertHyperedge.2 (Or.inl mem)
  hyperedges _ mem := mem_hyperedges_insertHyperedge.2 (Or.inr mem)

theorem Grows.within (growth : g.Grows h) : g.Within h := by
  induction growth with
  | refl => exact .refl g
  | addNode node _ ih => exact ih.trans (within_addNode _ node)
  | insertHyperedge edge _ ih => exact ih.trans (within_insertHyperedge _ edge)

/-! ### Labels of what comes in -/

theorem label_mem_hyperedges (g : Hypergraph) (edge : Hyperedge) :
    edge.label ∈ (g.insertHyperedge edge).hyperedges := mem_hyperedges_insertHyperedge.2 (Or.inl rfl)

theorem Unambiguous.node_fresh (u : (g.addNode node).Unambiguous) : ¬ node.label ∈ g.hyperedges := by
  apply u node.label
  exact Table.mem_insert.2 (Or.inl rfl)

theorem Unambiguous.hyperedge_fresh (u : (g.insertHyperedge edge).Unambiguous) :
    ¬ edge.label ∈ g.nodes := fun mem =>
  u.not_mem_nodes (g.label_mem_hyperedges edge) ((within_insertHyperedge g edge).nodes _ mem)

theorem Unambiguous.members_fresh (u : (g.insertHyperedge edge).Unambiguous)
    (mem : l ∈ edge.memberLabels) : ¬ l ∈ g.hyperedges := fun stored =>
  u.not_mem_nodes ((within_insertHyperedge g edge).hyperedges l stored)
    (mem_nodes_insertHyperedge.2 (Or.inr mem))

/-! ### Matched hyperedges -/

/-- A surrogate is matched with a surrogate, whatever the two hypergraphs are. -/
theorem mem_hyperedges_of_mem_embeddings (mem : m ∈ pattern.embeddings host)
    (eq : m.find? u = some t) (stored : u ∈ pattern.hyperedges) : t ∈ host.hyperedges := by
  rw [embeddings] at mem
  split at mem
  · simp only [selections, List.mem_map, mem_inOrder] at mem
    obtain ⟨_, ⟨xs, mem, rfl⟩, rfl⟩ := mem
    obtain ⟨f, kind, rfl⟩ := Incidence.kind_of_mem_assignments mem
    obtain ⟨p, rfl, rfl⟩ := find?_relabel_eq_some_iff.1 eq
    obtain ⟨e, found⟩ := mem_hyperedges_iff.1 stored
    have same := kind p
    rw [kind_get, kind_get, kindOf_eq_iff] at same
    obtain ⟨e', found', -⟩ := same.1 e found
    exact mem_hyperedges_iff.2 ⟨e', found'⟩
  · cases mem

/-- The labels of the host's hyperedges that an embedding selects. -/
def matched (pattern : Hypergraph) (m : Embedding) : List Label :=
  pattern.hyperedges.keys.filterMap m.find?

theorem mem_hyperedges_of_mem_matched (mem : m ∈ pattern.embeddings host)
    (selected : t ∈ pattern.matched m) : t ∈ host.hyperedges := by
  obtain ⟨u, stored, eq⟩ := List.mem_filterMap.1 selected
  exact mem_hyperedges_of_mem_embeddings mem eq stored

end Hypergraph

/-! ### What is kept as long as labels name one thing -/

/-- An operation that makes no label ambiguous, nor any of its rounds, and removes hyperedges only. -/
def Operation.Clean (g : Hypergraph) : Operation → Prop
  | .addNode node => (g.addNode node).Unambiguous
  | .addHyperedge edge checked => ((Operation.addHyperedge edge checked).perform g).Unambiguous
  | .remove label => label ∈ g.hyperedges
  | .merge other => (g.merge other).1.Unambiguous
  | .apply P s rounds => ∀ r ≤ rounds, (P.run s r g).host.Unambiguous

instance (g : Hypergraph) (o : Operation) : Decidable (o.Clean g) :=
  match o with
  | .addNode _ => inferInstanceAs (Decidable (Hypergraph.Unambiguous _))
  | .addHyperedge _ _ => inferInstanceAs (Decidable (Hypergraph.Unambiguous _))
  | .remove _ => inferInstanceAs (Decidable (_ ∈ _))
  | .merge _ => inferInstanceAs (Decidable (Hypergraph.Unambiguous _))
  | .apply _ _ _ => inferInstanceAs (Decidable (∀ r ≤ _, _))

/-- A sequence of such operations, each on the result of those before it. -/
def Operation.AllClean (g : Hypergraph) : List Operation → Prop
  | [] => True
  | o :: os => o.Clean g ∧ AllClean (o.perform g) os

instance Operation.decidableAllClean (g : Hypergraph) (os : List Operation) :
    Decidable (AllClean g os) :=
  match os with
  | [] => inferInstanceAs (Decidable True)
  | o :: os =>
    have := decidableAllClean (o.perform g) os
    inferInstanceAs (Decidable (_ ∧ _))

/-- A property that the mutations of a hypergraph keep as long as no label becomes ambiguous and no node
is removed. -/
structure KeptApart (I : Hypergraph → Prop) : Prop where
  addNode : ∀ {g} (node : Node), I g → (g.addNode node).Unambiguous → I (g.addNode node)
  insertHyperedge : ∀ {g} (edge : Hyperedge), I g → (g.insertHyperedge edge).Unambiguous →
    I (g.insertHyperedge edge)
  remove : ∀ {g} {label : Label}, I g → ¬ label ∈ g.nodes → I (g.remove label)

namespace KeptApart

variable {I : Hypergraph → Prop} {g h pattern : Hypergraph} {m : Embedding}

/-- It is enough to look at the end of a sequence of insertions. -/
theorem grows (kept : KeptApart I) (growth : g.Grows h) (hg : I g) (u : h.Unambiguous) : I h := by
  induction growth with
  | refl => exact hg
  | @addNode h node _ ih =>
    have before := (Hypergraph.within_addNode h node).unambiguous u
    exact kept.addNode node (ih before) u
  | @insertHyperedge h edge _ ih =>
    have before := (Hypergraph.within_insertHyperedge h edge).unambiguous u
    exact kept.insertHyperedge edge (ih before) u

theorem removeAll (kept : KeptApart I) (labels : List Label) (hg : I g)
    (apart : ∀ l ∈ labels, ¬ l ∈ g.nodes) : I (labels.foldl Hypergraph.remove g) := by
  induction labels generalizing g with
  | nil => exact hg
  | cons label labels ih =>
    apply ih (kept.remove hg (apart label List.mem_cons_self))
    intro l mem stored
    exact apart l (List.mem_cons_of_mem _ mem) ((Hypergraph.remove_within g label).nodes l stored)

theorem replace (kept : KeptApart I) (replacement : Hypergraph) (hg : I g) (apart : g.Unambiguous)
    (mem : m ∈ pattern.embeddings g) (u : (g.replace pattern m replacement).Unambiguous) :
    I (g.replace pattern m replacement) := by
  apply kept.grows (Hypergraph.grows_overlay _ replacement) _ u
  apply kept.removeAll _ hg
  intro l selected
  exact apart.not_mem_nodes (Hypergraph.mem_hyperedges_of_mem_matched mem selected)

theorem run (kept : KeptApart I) (P : Production) (s : Settings) (rounds : Nat) (hg : I g)
    (u : ∀ r ≤ rounds, (P.run s r g).host.Unambiguous) : I (P.run s rounds g).host := by
  apply Production.runFrom_keeps _ rounds 0 hg u
  intro index g host hg apart eq u
  obtain ⟨m, region, chosen, rfl⟩ := Production.selected_of_round eq
  exact kept.replace _ hg apart (Production.choose_selected chosen).1 u

theorem perform (kept : KeptApart I) (o : Operation) (hg : I g) (apart : g.Unambiguous)
    (clean : o.Clean g) : I (o.perform g) ∧ (o.perform g).Unambiguous := by
  cases o with
  | addNode node => exact ⟨kept.addNode node hg clean, clean⟩
  | addHyperedge edge checked =>
    exact ⟨kept.grows (g.grows_performAddHyperedge edge checked) hg clean, clean⟩
  | remove label =>
    exact ⟨kept.remove hg (apart.not_mem_nodes clean),
      (Hypergraph.remove_within g label).unambiguous apart⟩
  | merge other => exact ⟨kept.grows (g.grows_merge other) hg clean, clean⟩
  | apply P s rounds => exact ⟨kept.run P s rounds hg clean, clean rounds (Nat.le_refl _)⟩

theorem performAll (kept : KeptApart I) (os : List Operation) (hg : I g) (apart : g.Unambiguous)
    (clean : Operation.AllClean g os) :
    I (os.foldl Operation.perform g) ∧ (os.foldl Operation.perform g).Unambiguous := by
  induction os generalizing g with
  | nil => exact ⟨hg, apart⟩
  | cons o os ih =>
    obtain ⟨hg, apart⟩ := kept.perform o hg apart clean.1
    exact ih hg apart clean.2

end KeptApart

end Hypermesh
