import Hypermesh.Proofs.Coherence
import Hypermesh.Proofs.Matching.Search

/-!
The embeddings of one hypergraph into another, in terms of labels. The search works on numbered
vertices; a label and its number determine each other, so that nothing is lost on the way.
-/

namespace Hypermesh

theorem Label.lt_of_seqLe {l m : List Label} (le : Label.seqLe l m) (ne : l ≠ m) : l < m := by
  induction l generalizing m with
  | nil =>
    cases m with
    | nil => exact absurd rfl ne
    | cons b m => exact List.nil_lt_cons b m
  | cons a l ih =>
    cases m with
    | nil => cases le
    | cons b m =>
      rw [List.cons_lt_cons_iff]
      by_cases eq : a = b
      · subst eq
        rw [seqLe, if_pos rfl] at le
        exact Or.inr ⟨rfl, ih le (fun eq => ne (congrArg (a :: ·) eq))⟩
      · rw [seqLe, if_neg eq, decide_eq_true_eq] at le
        exact Or.inl (Std.lt_of_le_of_ne le eq)

namespace Hypergraph

variable {g pattern host : Hypergraph} {m : Embedding} {l u t : Label}

/-! ### Numbers and labels -/

theorem label_get (g : Hypergraph) (i : Fin g.vertices.size) :
    g.incidence.label.get i = g.vertices.keys.get (i.cast g.vertices.length_keys.symm) := rfl

theorem label_injective (g : Hypergraph) : Function.Injective g.incidence.label.get := by
  intro i j eq
  rw [label_get, label_get] at eq
  exact Fin.cast_injective _ (List.nodup_iff_injective_get.1 g.vertices.nodup eq)

theorem mem_iff_label : l ∈ g ↔ ∃ i, g.incidence.label.get i = l := by
  rw [mem_def, Table.mem_def, List.mem_iff_get]
  constructor
  · rintro ⟨i, eq⟩
    exact ⟨i.cast g.vertices.length_keys, eq⟩
  · rintro ⟨i, eq⟩
    exact ⟨i.cast g.vertices.length_keys.symm, eq⟩

theorem kind_get (g : Hypergraph) (i : Fin g.vertices.size) :
    g.incidence.kind.get i = g.kindOf (g.incidence.label.get i) := by
  change (g.vertexKeys.map g.kindOf)[i.1] = _
  rw [Vector.getElem_map]
  rfl

theorem neighbours_get (g : Hypergraph) (i : Fin g.vertices.size) :
    g.incidence.neighbours.get i = (List.finRange _).filter fun j =>
      g.incidence.label.get j ∈ g.neighbours (g.incidence.label.get i) := by
  change (g.vertexKeys.map _)[i.1] = _
  rw [Vector.getElem_map]
  rfl

theorem adjacent_iff {i j : Fin g.vertices.size} :
    g.incidence.Adjacent i j ↔ g.incidence.label.get j ∈ g.neighbours (g.incidence.label.get i) := by
  rw [Incidence.Adjacent, neighbours_get, List.mem_filter, decide_eq_true_eq]
  exact and_iff_right (List.mem_finRange j)

theorem distinct_incidence (g : Hypergraph) : g.incidence.Distinct := by
  intro i
  rw [neighbours_get]
  exact (List.nodup_finRange _).filter _

theorem Coherent.simple (c : g.Coherent) : g.incidence.Simple where
  nodup := g.distinct_incidence
  symmetric i j adjacent := by
    rw [adjacent_iff] at adjacent ⊢
    exact c.symmetric _ _ adjacent
  irreflexive i adjacent := c.irreflexive _ (adjacent_iff.1 adjacent)

theorem kindOf_eq_iff :
    pattern.kindOf u = host.kindOf t ↔
      (∀ e, pattern.hyperedge? u = some e →
        ∃ e', host.hyperedge? t = some e' ∧ e'.tag = e.tag ∧ e'.mark = e.mark) ∧
      (¬ u ∈ pattern.hyperedges → ¬ t ∈ host.hyperedges) := by
  have stored {g : Hypergraph} {l : Label} : l ∈ g.hyperedges ↔ (g.hyperedge? l).isSome :=
    Table.isSome_find?.symm
  unfold kindOf
  rw [stored, stored]
  cases pattern.hyperedge? u with
  | none => cases host.hyperedge? t <;> simp [Hyperedge.kind]
  | some e => cases host.hyperedge? t <;> simp [Hyperedge.kind, eq_comm]

/-! ### Embeddings -/

/-- A map from the vertices of a pattern to those of a host, one to one. Surrogates go to surrogates of
the same tag and mark, other vertices to other vertices. Links and their absence are kept. -/
structure Embeds (pattern host : Hypergraph) (m : Embedding) : Prop where
  keys : m.keys = pattern.vertices.keys
  target : ∀ u t, m.find? u = some t → t ∈ host.vertices
  injective : ∀ u v t, m.find? u = some t → m.find? v = some t → u = v
  surrogate : ∀ u t e, m.find? u = some t → pattern.hyperedge? u = some e →
    ∃ e', host.hyperedge? t = some e' ∧ e'.tag = e.tag ∧ e'.mark = e.mark
  regular : ∀ u t, m.find? u = some t → ¬ u ∈ pattern.hyperedges → ¬ t ∈ host.hyperedges
  incident : ∀ u v s t, m.find? u = some s → m.find? v = some t →
    (v ∈ pattern.neighbours u ↔ t ∈ host.neighbours s)

/-- The labels that a map of numbers selects. -/
def selection (host : Hypergraph) {n : Nat} (f : Fin n → Fin host.vertices.size) : List Label :=
  (List.ofFn f).map host.incidence.label.get

/-- The label map that belongs to a map of numbers. -/
def relabel (pattern host : Hypergraph) (f : Fin pattern.vertices.size → Fin host.vertices.size) :
    Embedding :=
  pattern.vertices.withValues (host.selection f)

variable {f : Fin pattern.vertices.size → Fin host.vertices.size}

theorem length_selection {n : Nat} (f : Fin n → Fin host.vertices.size) :
    (host.selection f).length = n := by simp [selection]

theorem keys_relabel : (pattern.relabel host f).keys = pattern.vertices.keys :=
  Table.keys_withValues (length_selection f)

theorem find?_relabel (p : Fin pattern.vertices.size) :
    (pattern.relabel host f).find? (pattern.incidence.label.get p) =
      some (host.incidence.label.get (f p)) := by
  rw [Table.find?_eq_some_iff]
  apply List.mem_iff_getElem.2
  refine ⟨p, by simp [relabel, Table.withValues, length_selection], ?_⟩
  simp [relabel, Table.withValues, selection, label_get]

theorem find?_relabel_eq_some_iff :
    (pattern.relabel host f).find? u = some t ↔
      ∃ p, pattern.incidence.label.get p = u ∧ host.incidence.label.get (f p) = t := by
  constructor
  · intro eq
    have mem : u ∈ pattern := by
      rw [mem_def, Table.mem_def, ← keys_relabel (f := f)]
      exact Table.mem_iff.2 ⟨t, eq⟩
    obtain ⟨p, rfl⟩ := mem_iff_label.1 mem
    rw [find?_relabel] at eq
    exact ⟨p, rfl, Option.some.inj eq⟩
  · rintro ⟨p, rfl, rfl⟩
    exact find?_relabel p

theorem embeds_relabel_iff :
    pattern.Embeds host (pattern.relabel host f) ↔ pattern.incidence.Embeds host.incidence f := by
  constructor
  · intro h
    refine ⟨?injective, ?kind, ?adjacent⟩
    case injective =>
      intro p q eq
      have image := find?_relabel (f := f) p
      rw [eq] at image
      exact label_injective pattern (h.injective _ _ _ image (find?_relabel q))
    case kind =>
      intro p
      rw [kind_get, kind_get, kindOf_eq_iff]
      exact ⟨fun e => h.surrogate _ _ e (find?_relabel p), h.regular _ _ (find?_relabel p)⟩
    case adjacent =>
      intro p q
      rw [adjacent_iff, adjacent_iff]
      exact h.incident _ _ _ _ (find?_relabel p) (find?_relabel q)
  · intro h
    have kind (p : Fin pattern.vertices.size) := h.kind p
    simp only [kind_get, kindOf_eq_iff] at kind
    refine ⟨keys_relabel, ?target, ?injective, ?surrogate, ?regular, ?incident⟩ <;>
      simp only [find?_relabel_eq_some_iff]
    case target =>
      rintro u t ⟨p, rfl, rfl⟩
      exact mem_iff_label.2 ⟨f p, rfl⟩
    case injective =>
      rintro u v t ⟨p, rfl, rfl⟩ ⟨q, rfl, eq⟩
      rw [h.injective (label_injective host eq)]
    case surrogate =>
      rintro u t e ⟨p, rfl, rfl⟩
      exact (kind p).1 e
    case regular =>
      rintro u t ⟨p, rfl, rfl⟩
      exact (kind p).2
    case incident =>
      rintro u v s t ⟨p, rfl, rfl⟩ ⟨q, rfl, rfl⟩
      rw [← adjacent_iff, ← adjacent_iff]
      exact h.adjacent p q

theorem Embeds.exists_relabel (h : pattern.Embeds host m) : ∃ f, m = pattern.relabel host f := by
  have image (p : Fin pattern.vertices.size) :
      ∃ i, m.find? (pattern.incidence.label.get p) = some (host.incidence.label.get i) := by
    have mem : pattern.incidence.label.get p ∈ m := by
      rw [Table.mem_def, h.keys]
      exact mem_iff_label.2 ⟨p, rfl⟩
    obtain ⟨t, eq⟩ := Table.mem_iff.1 mem
    obtain ⟨i, rfl⟩ := mem_iff_label.1 (h.target _ t eq)
    exact ⟨i, eq⟩
  choose f image using image
  refine ⟨f, Table.ext_find? (h.keys.trans keys_relabel.symm) ?_⟩
  intro u mem
  obtain ⟨p, rfl⟩ := mem_iff_label.1 (h.keys ▸ mem : u ∈ pattern.vertices.keys)
  rw [image p, find?_relabel p]

/-! ### What is found -/

theorem Embeds.size_le (h : pattern.Embeds host m) : pattern.vertices.size ≤ host.vertices.size := by
  obtain ⟨f, rfl⟩ := h.exists_relabel
  have le := Fintype.card_le_of_injective f (embeds_relabel_iff.1 h).injective
  rwa [Fintype.card_fin, Fintype.card_fin] at le

theorem isEmpty_eq_false_iff : g.isEmpty = false ↔ 0 < g.vertices.size := by
  rw [isEmpty, Table.isEmpty, List.isEmpty_eq_false_iff, Table.size, List.length_pos_iff]

theorem mem_embeddings (p : pattern.Coherent) (h : host.Coherent) :
    m ∈ pattern.embeddings host ↔ pattern.isEmpty = false ∧ pattern.Embeds host m := by
  have found : m ∈ (pattern.selections host).map pattern.vertices.withValues ↔
      pattern.Embeds host m := by
    simp only [selections, List.mem_map, mem_inOrder,
      Incidence.mem_assignments p.simple h.simple]
    constructor
    · rintro ⟨_, ⟨_, ⟨f, embeds, rfl⟩, rfl⟩, rfl⟩
      exact embeds_relabel_iff.2 embeds
    · intro embeds
      obtain ⟨f, rfl⟩ := embeds.exists_relabel
      exact ⟨_, ⟨_, ⟨f, embeds_relabel_iff.1 embeds, rfl⟩, rfl⟩, rfl⟩
  rw [embeddings, isEmpty_eq_false_iff]
  split
  · next fits =>
    rw [found]
    exact (and_iff_right fits.1).symm
  · next fits =>
    constructor
    · intro mem
      cases mem
    · rintro ⟨pos, embeds⟩
      exact absurd ⟨pos, embeds.size_le⟩ fits

theorem pairwise_selections (p : pattern.Coherent) (h : host.Coherent) :
    (pattern.selections host).Pairwise (· < ·) := by
  have nodup : (pattern.selections host).Nodup := by
    rw [selections, (inOrder_perm _ _).nodup_iff]
    apply (Incidence.nodup_assignments p.simple h.simple).map
    exact List.map_injective_iff.2 (label_injective host)
  have sorted : (pattern.selections host).Pairwise (Label.seqLe · ·) :=
    pairwise_inOrder Label.seqLe_trans Label.seqLe_total _
  exact (sorted.and nodup).imp fun both => Label.lt_of_seqLe both.1 both.2

theorem length_of_mem_selections {labels : List Label} (mem : labels ∈ pattern.selections host) :
    labels.length = pattern.vertices.size := by
  simp only [selections, List.mem_map, mem_inOrder] at mem
  obtain ⟨xs, mem, rfl⟩ := mem
  obtain ⟨f, -, rfl⟩ := Incidence.kind_of_mem_assignments mem
  exact length_selection f

theorem pairwise_embeddings (p : pattern.Coherent) (h : host.Coherent) :
    (pattern.embeddings host).Pairwise (·.values < ·.values) := by
  rw [embeddings]
  split
  · rw [List.pairwise_map]
    apply (pairwise_selections p h).imp_of_mem
    intro l k meml memk lt
    rw [Table.values_withValues (length_of_mem_selections meml),
      Table.values_withValues (length_of_mem_selections memk)]
    exact lt
  · exact List.Pairwise.nil

theorem nodup_embeddings (p : pattern.Coherent) (h : host.Coherent) : (pattern.embeddings host).Nodup := by
  apply (pairwise_embeddings p h).imp
  rintro m m' lt rfl
  exact List.lt_irrefl _ lt

/-- Every embedding is found once, nothing else is, and the order is that of the selected labels. -/
theorem embeddings_exact (p : pattern.Reachable) (h : host.Reachable) :
    (pattern.isEmpty = false → ∀ m, m ∈ pattern.embeddings host ↔ pattern.Embeds host m) ∧
      (pattern.embeddings host).Nodup ∧
      (pattern.embeddings host).Pairwise (·.values < ·.values) ∧
      (pattern.isEmpty = true → pattern.embeddings host = []) := by
  refine ⟨?found, nodup_embeddings p.coherent h.coherent, pairwise_embeddings p.coherent h.coherent, ?empty⟩
  case found =>
    intro nonempty m
    rw [mem_embeddings p.coherent h.coherent]
    exact and_iff_right nonempty
  case empty =>
    intro empty
    apply List.eq_nil_iff_forall_not_mem.2
    intro m mem
    rw [mem_embeddings p.coherent h.coherent, empty] at mem
    cases mem.1

/-- The operations that lay out nodes in a chain, each joined to the next. -/
def chain (labels : List Label) : List Operation :=
  let nodes : List Node := labels.map fun label => { x := .zero, y := .zero, label }
  nodes.map .addNode ++
    (nodes.zip nodes.tail).map fun (a, b) => .addHyperedge (.join a b "E") true

theorem embeddings_exact_chain :
    let pattern := Operation.build (chain ["u", "v"])
    let host := Operation.build (chain ["a", "b", "c"])
    (pattern.embeddings host).map Table.values =
        [["a", "b", "E_a_b"], ["b", "a", "E_a_b"], ["b", "c", "E_b_c"], ["c", "b", "E_b_c"]] ∧
      ∀ m, m ∈ pattern.embeddings host ↔ pattern.Embeds host m := by
  constructor
  · decide +kernel
  · exact (embeddings_exact (Reachable.build _) (Reachable.build _)).1 (by decide +kernel)

end Hypergraph

end Hypermesh
