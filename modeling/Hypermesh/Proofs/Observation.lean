import Hypermesh.Proofs.Canonical
import Hypermesh.Proofs.Position
import Hypermesh.Proofs.WellFormed

/-!
What the canonical bytes tell of a hypergraph. They leave out links and the copies of members that
hyperedges keep: the labels of surrogates can be told from them all the same, links and embeddings where
the links are the memberships, the place of a surrogate where copies lie where the stored nodes do.
-/

namespace Hypermesh

namespace Hypergraph

open Canonical

variable {g h pattern : Hypergraph} {a b l : Label} {m : Embedding}

/-- The links of `a` are the memberships of stored nodes: its own members if it names a hyperedge, the
hyperedges that list it if it names a node. -/
def LinksMembers (g : Hypergraph) (a : Label) : Prop :=
  ∀ b, b ∈ g.neighbours a ↔ (g.Lists a b ∧ b ∈ g.nodes) ∨ (g.Lists b a ∧ a ∈ g.nodes)

theorem WellFormed.linksMembers (w : g.WellFormed) (a : Label) : g.LinksMembers a := by
  intro b
  rw [w.incident, and_iff_left_of_imp w.mem_nodes, and_iff_left_of_imp w.mem_nodes]

/-- A hyperedge under `l` keeps copies that lie where the nodes stored under their labels do. -/
def Faithful (g : Hypergraph) (l : Label) : Prop :=
  ∀ e, g.hyperedge? l = some e → ∀ n ∈ e.members, g.Agrees n

/-- Operations that bring each member in at one place only make a hyperedge faithful, as long as its
members stay stored. -/
theorem WellFormed.faithful {e : Hyperedge} (w : g.WellFormed) (c : g.Coherent)
    (found : g.hyperedge? l = some e) (lies : ∀ n ∈ e.members, g.LiesAt n.label n.position) :
    g.Faithful l := by
  intro e' found' n mem
  rw [found] at found'
  cases found'
  have member : n.label ∈ e.memberLabels := List.mem_map_of_mem mem
  exact (lies n mem).agrees (w.labelled c) (w.mem_nodes ⟨e, found, member⟩)

/-! ### What equal states share -/

namespace SameState

variable (same : g.SameState h)
include same

theorem symm : h.SameState g := ⟨fun l => (same.node l).symm, fun l => (same.hyperedge l).symm⟩

theorem mem_nodes : l ∈ g.nodes ↔ l ∈ h.nodes := by
  rw [← Table.isSome_find?, ← Table.isSome_find?, ← node?, ← node?,
    ← Option.isSome_map (f := recordOfNode), same.node, Option.isSome_map]

theorem mem_hyperedges : l ∈ g.hyperedges ↔ l ∈ h.hyperedges := by
  rw [← Table.isSome_find?, ← Table.isSome_find?, ← hyperedge?, ← hyperedge?,
    ← Option.isSome_map (f := recordOfHyperedge), same.hyperedge, Option.isSome_map]

theorem mem_iff (c : g.Coherent) (d : h.Coherent) : l ∈ g ↔ l ∈ h := by
  rw [c.mem_iff, d.mem_iff, same.mem_nodes, same.mem_hyperedges]

theorem counts : g.counts = h.counts := by
  have size {β : Type} {t u : Table β} (keys : ∀ l, l ∈ t ↔ l ∈ u) : t.size = u.size := by
    rw [← t.length_keys, ← u.length_keys]
    exact ((List.perm_ext_iff_of_nodup t.nodup u.nodup).2 keys).length_eq
  rw [Hypergraph.counts, Hypergraph.counts, size fun _ => same.mem_nodes,
    size fun _ => same.mem_hyperedges]

/-- A hyperedge in one state has its tag, mark, attributes and members in the other. -/
theorem exists_hyperedge {e : Hyperedge} (found : g.hyperedge? l = some e) :
    ∃ e', h.hyperedge? l = some e' ∧ e'.tag = e.tag ∧ e'.mark = e.mark ∧
      e'.memberLabels = e.memberLabels := by
  have eq := same.hyperedge l
  rw [found, Option.map_some, eq_comm, Option.map_eq_some_iff] at eq
  obtain ⟨e', found', record⟩ := eq
  simp only [recordOfHyperedge, Prod.mk.injEq] at record
  exact ⟨e', found', record.1, record.2.1, record.2.2.2⟩

theorem kindOf (l : Label) : g.kindOf l = h.kindOf l := by
  rw [kindOf_eq_iff]
  constructor
  · intro e found
    obtain ⟨e', found', tag, mark, -⟩ := same.exists_hyperedge found
    exact ⟨e', found', tag, mark⟩
  · exact fun absent stored => absent (same.mem_hyperedges.2 stored)

theorem lists_of {a b : Label} (lists : g.Lists a b) : h.Lists a b := by
  obtain ⟨e, found, member⟩ := lists
  obtain ⟨e', found', -, -, members⟩ := same.exists_hyperedge found
  exact ⟨e', found', members ▸ member⟩

theorem lists_iff (a b : Label) : g.Lists a b ↔ h.Lists a b := ⟨same.lists_of, same.symm.lists_of⟩

theorem incident (links : g.LinksMembers a) (links' : h.LinksMembers a) (b : Label) :
    b ∈ g.neighbours a ↔ b ∈ h.neighbours a := by
  rw [links, links', same.lists_iff, same.lists_iff, same.mem_nodes, same.mem_nodes]

/-- An embedding depends on the vertices that it selects, their kinds and their links alone. -/
theorem embeds_of (c : g.Coherent) (d : h.Coherent)
    (links : ∀ u t, m.find? u = some t → ∀ b, b ∈ g.neighbours t ↔ b ∈ h.neighbours t)
    (embeds : pattern.Embeds g m) : pattern.Embeds h m := by
  have kind (u t : Label) (image : m.find? u = some t) : pattern.kindOf u = h.kindOf t := by
    rw [← same.kindOf, kindOf_eq_iff]
    exact ⟨fun e => embeds.surrogate u t e image, embeds.regular u t image⟩
  simp only [kindOf_eq_iff] at kind
  exact
    { keys := embeds.keys
      target := fun u t image => (same.mem_iff c d).1 (embeds.target u t image)
      injective := embeds.injective
      surrogate := fun u t e image => (kind u t image).1 e
      regular := fun u t image => (kind u t image).2
      incident := fun u v s t image image' =>
        (embeds.incident u v s t image image').trans (links u s image t) }

theorem embeds_iff (c : g.Coherent) (d : h.Coherent)
    (links : ∀ u t, m.find? u = some t → g.LinksMembers t ∧ h.LinksMembers t) :
    pattern.Embeds g m ↔ pattern.Embeds h m := by
  have incident (u t : Label) (image : m.find? u = some t) (b : Label) :
      b ∈ g.neighbours t ↔ b ∈ h.neighbours t :=
    same.incident (links u t image).1 (links u t image).2 b
  exact ⟨same.embeds_of c d incident,
    same.symm.embeds_of d c fun u t image b => (incident u t image b).symm⟩

/-! ### Surrogates -/

theorem label_surrogate? (c : g.Coherent) (d : h.Coherent) (l : Label) :
    (g.surrogate? l).map Node.label = (h.surrogate? l).map Node.label := by
  rw [c.surrogate, d.surrogate]
  cases found : g.hyperedge? l with
  | none =>
    have absent := Table.find?_eq_none_iff.2 fun stored =>
      Table.find?_eq_none_iff.1 found (same.mem_hyperedges.2 stored)
    rw [hyperedge?, absent]
  | some e =>
    obtain ⟨e', found', tag, -, members⟩ := same.exists_hyperedge found
    simp only [found', Option.map_some, Hyperedge.label_surrogate, Hyperedge.label, tag, members]

theorem position_node? (l : Label) : (g.node? l).map Node.position = (h.node? l).map Node.position := by
  have eq := congrArg (Option.map fun r : UInt64 × UInt64 × Bool =>
    ((⟨r.1⟩, ⟨r.2.1⟩) : Coord × Coord)) (same.node l)
  rwa [Option.map_map, Option.map_map] at eq

theorem positions_eq {copies copies' : List Node} (agree : ∀ n ∈ copies, g.Agrees n)
    (agree' : ∀ n ∈ copies', h.Agrees n) (labels : copies.map Node.label = copies'.map Node.label) :
    copies.map Node.position = copies'.map Node.position := by
  have read {g : Hypergraph} {copies : List Node} (agree : ∀ n ∈ copies, g.Agrees n) :
      (copies.map Node.position).map some =
        (copies.map Node.label).map fun l => (g.node? l).map Node.position := by
    rw [List.map_map, List.map_map]
    exact List.map_congr_left fun n mem => (agree n mem).symm
  apply List.map_injective_iff.2 (Option.some_injective _)
  rw [read agree, read agree', labels]
  simp only [same.position_node?]

theorem surrogate?_eq (c : g.Coherent) (d : h.Coherent) (faithful : g.Faithful l)
    (faithful' : h.Faithful l) : g.surrogate? l = h.surrogate? l := by
  have label := same.label_surrogate? c d l
  rw [c.surrogate, d.surrogate] at label ⊢
  cases found : g.hyperedge? l with
  | none =>
    rw [found] at label
    exact (Option.map_eq_none_iff.1 label.symm).symm
  | some e =>
    obtain ⟨e', found', -, -, members⟩ := same.exists_hyperedge found
    have positions : e.members.map Node.position = e'.members.map Node.position :=
      same.positions_eq (faithful e found) (faithful' e' found') members.symm
    have centroid : e.centroid = e'.centroid := by
      rw [e.centroid_eq_mean, e'.centroid_eq_mean, positions]
    rw [found, found', Option.map_some, Option.map_some] at label
    have name : e.label = e'.label := Option.some.inj label
    rw [found', Option.map_some, Option.map_some, Hyperedge.surrogate, Hyperedge.surrogate, centroid,
      name]

end SameState

/-- Equal bytes tell of equal counts, vertices and labels of surrogates. They tell of equal links where
these are the memberships of stored nodes, of equal embeddings where it is so for all labels that they
select, and of equal surrogates where hyperedges keep copies that lie where the stored nodes do. -/
theorem canonicalBytes_determine (g h : Hypergraph) (reachable : g.Reachable) (reachable' : h.Reachable)
    (fits : g.Writable) (fits' : h.Writable) (eq : g.canonicalBytes = h.canonicalBytes) :
    g.counts = h.counts ∧ (∀ l, l ∈ g ↔ l ∈ h) ∧
      (∀ l, (g.surrogate? l).map Node.label = (h.surrogate? l).map Node.label) ∧
      (∀ a, g.LinksMembers a → h.LinksMembers a → ∀ b, b ∈ g.neighbours a ↔ b ∈ h.neighbours a) ∧
      (∀ pattern : Hypergraph, pattern.Reachable →
        (∀ m : Embedding, (∀ u t, m.find? u = some t → g.LinksMembers t ∧ h.LinksMembers t) →
          (m ∈ pattern.embeddings g ↔ m ∈ pattern.embeddings h)) ∧
        ((∀ a, g.LinksMembers a ∧ h.LinksMembers a) →
          pattern.embeddings g = pattern.embeddings h)) ∧
      ∀ l, g.Faithful l → h.Faithful l → g.surrogate? l = h.surrogate? l := by
  have c := reachable.coherent
  have d := reachable'.coherent
  have same := sameState_of_canonicalBytes fits fits' eq
  refine ⟨same.counts, fun _ => same.mem_iff c d, same.label_surrogate? c d, fun _ => same.incident, ?_,
    fun _ => same.surrogate?_eq c d⟩
  intro pattern p
  constructor
  · intro m links
    rw [mem_embeddings p.coherent c, mem_embeddings p.coherent d, same.embeds_iff c d links]
  · intro links
    exact embeddings_congr p.coherent c d fun _ => same.embeds_iff c d fun _ t _ => links t

/-- Chains that are laid out in different orders. -/
theorem canonicalBytes_determine_chains :
    let g := Operation.build (chain ["a", "b"])
    let h := Operation.build (chain ["b"] ++ chain ["a", "b"])
    let pattern := Operation.build (chain ["u", "v"])
    g.vertices.keys ≠ h.vertices.keys ∧ g.canonicalBytes = h.canonicalBytes ∧
      (∀ a b, b ∈ g.neighbours a ↔ b ∈ h.neighbours a) ∧
      (pattern.embeddings g).length = 2 ∧ pattern.embeddings g = pattern.embeddings h ∧
      ∀ l, g.surrogate? l = h.surrogate? l := by
  let g := Operation.build (chain ["a", "b"])
  let h := Operation.build (chain ["b"] ++ chain ["a", "b"])
  have w : g.WellFormed := .build _ (by decide +kernel)
  have w' : h.WellFormed := .build _ (by decide +kernel)
  have faithful {g : Hypergraph} (w : g.WellFormed) (c : g.Coherent)
      (lies : ∀ e ∈ g.hyperedges.values, ∀ n ∈ e.members, g.LiesAt n.label n.position) (l : Label) :
      g.Faithful l :=
    fun e found => w.faithful c found (lies e (Table.mem_values.2 ⟨l, found⟩)) e found
  have eq : g.canonicalBytes = h.canonicalBytes := by decide +kernel
  obtain ⟨-, -, -, links, found, surrogates⟩ := canonicalBytes_determine g h (Reachable.build _)
    (Reachable.build _) (by decide +kernel) (by decide +kernel) eq
  exact ⟨by decide +kernel, eq, fun a => links a (w.linksMembers a) (w'.linksMembers a),
    by decide +kernel, (found _ (Reachable.build _)).2 fun a => ⟨w.linksMembers a, w'.linksMembers a⟩,
    fun l => surrogates l (faithful w (Reachable.build _).coherent (by decide +kernel) l)
      (faithful w' (Reachable.build _).coherent (by decide +kernel) l)⟩

/-- A node that has been removed and comes back elsewhere leaves the bytes as they are where it was all
along, but it is not linked any more, is not matched, and leaves the surrogate where it was. -/
theorem not_canonicalBytes_determine_view :
    let a : Node := { x := .ofNat 4, y := .zero, label := "a" }
    let b : Node := { x := .ofNat 2, y := .zero, label := "b" }
    let before : Node := { x := .zero, y := .zero, label := "a" }
    let g := Operation.build [.addNode a, .addNode b, .addHyperedge (.join a b "E") true]
    let h := Operation.build [.addNode before, .addNode b, .addHyperedge (.join before b "E") true,
      .remove "a", .addNode a]
    let pattern := Operation.build (chain ["u", "v"])
    g.canonicalBytes = h.canonicalBytes ∧
      (g.neighbours "E_a_b" = ["a", "b"] ∧ h.neighbours "E_a_b" = ["b"]) ∧
      ((pattern.embeddings g).length = 2 ∧ (pattern.embeddings h).length = 0) ∧
      (g.surrogate? "E_a_b").map Node.position = some (.ofNat 3, .zero) ∧
      (h.surrogate? "E_a_b").map Node.position = some (.ofNat 1, .zero) := by
  decide +kernel

end Hypergraph

end Hypermesh
