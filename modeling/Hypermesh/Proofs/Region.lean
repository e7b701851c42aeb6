import Hypermesh.Proofs.Matching.Embedding

/-!
The region that an embedding selects. It can always be taken, it stores the host's records under the
labels that the pattern has for them, and it depends on the host only through the records at the images.
-/

namespace Hypermesh

namespace Hypergraph

variable {g h pattern host region copied : Hypergraph} {m : Embedding} {key l t u : Label}
  {keys : List Label}

/-! ### Copying -/

/-- What is copied under `key` is the record that the host stores under its image. -/
theorem copyVertex_eq_ok (eq : pattern.copyVertex host m g key = .ok copied) :
    (key ∈ pattern.hyperedges ∧
      ∃ e, (m.find? key).bind host.hyperedge? = some e ∧ copied = g.putHyperedge key e) ∨
    (¬ key ∈ pattern.hyperedges ∧
      ∃ n, (m.find? key).bind host.node? = some n ∧ copied = g.putNode key n) := by
  unfold copyVertex at eq
  split at eq
  · cases eq
  · next target image =>
    rw [image]
    split at eq
    · next stored =>
      split at eq
      · cases eq
      · next e found =>
        cases eq
        exact Or.inl ⟨stored, e, found, rfl⟩
    · next regular =>
      split at eq
      · cases eq
      · next n found =>
        cases eq
        exact Or.inr ⟨regular, n, found, rfl⟩

theorem exists_copyVertex (image : m.find? key = some t)
    (surrogate : key ∈ pattern.hyperedges → t ∈ host.hyperedges)
    (regular : ¬ key ∈ pattern.hyperedges → t ∈ host.nodes) (g : Hypergraph) :
    ∃ copied, pattern.copyVertex host m g key = .ok copied := by
  unfold copyVertex
  rw [image]
  by_cases stored : key ∈ pattern.hyperedges
  · obtain ⟨e, found⟩ := mem_hyperedges_iff.1 (surrogate stored)
    exact ⟨g.putHyperedge key e, by simp only [stored, if_true, found]⟩
  · obtain ⟨n, found⟩ := mem_nodes_iff.1 (regular stored)
    exact ⟨g.putNode key n, by simp only [stored, if_false, found]⟩

theorem hyperedge?_copies (eq : keys.foldlM (pattern.copyVertex host m) g = .ok copied) (l : Label) :
    copied.hyperedge? l =
      if l ∈ keys ∧ l ∈ pattern.hyperedges then (m.find? l).bind host.hyperedge?
      else g.hyperedge? l := by
  induction keys generalizing g with
  | nil =>
    cases eq
    simp
  | cons key keys ih =>
    obtain ⟨next, first, rest⟩ := foldlM_cons_eq_ok.1 eq
    rw [ih rest]
    rcases copyVertex_eq_ok first with ⟨stored, e, found, rfl⟩ | ⟨regular, n, -, rfl⟩
    · rw [hyperedge?_putHyperedge]
      by_cases same : l = key
      · subst same
        simp [stored, found]
      · simp [same]
    · rw [hyperedge?_putNode]
      by_cases same : l = key
      · subst same
        simp [regular]
      · simp [same]

theorem node?_copies (eq : keys.foldlM (pattern.copyVertex host m) g = .ok copied) (l : Label) :
    copied.node? l =
      if l ∈ keys ∧ ¬ l ∈ pattern.hyperedges then (m.find? l).bind host.node? else g.node? l := by
  induction keys generalizing g with
  | nil =>
    cases eq
    simp
  | cons key keys ih =>
    obtain ⟨next, first, rest⟩ := foldlM_cons_eq_ok.1 eq
    rw [ih rest]
    rcases copyVertex_eq_ok first with ⟨stored, e, -, rfl⟩ | ⟨regular, n, found, rfl⟩
    · rw [node?_putHyperedge]
      by_cases same : l = key
      · subst same
        simp [stored]
      · simp [same]
    · rw [node?_putNode]
      by_cases same : l = key
      · subst same
        simp [regular, found]
      · simp [same]

/-! ### Linking -/

theorem hyperedge?_linkLikes (pattern g : Hypergraph) (keys : List Label) (l : Label) :
    (keys.foldl (linkLike pattern) g).hyperedge? l = g.hyperedge? l :=
  foldl_unchanged (q := (hyperedge? · l))
    (fun _ _ => foldl_unchanged (q := (hyperedge? · l)) (fun _ _ => hyperedge?_link ..) _ _) keys g

theorem node?_linkLikes (pattern g : Hypergraph) (keys : List Label) (l : Label) :
    (keys.foldl (linkLike pattern) g).node? l = g.node? l :=
  foldl_unchanged (q := (node? · l))
    (fun _ _ => foldl_unchanged (q := (node? · l)) (fun _ _ => node?_link ..) _ _) keys g

/-! ### The whole region -/

theorem region_eq_ok (eq : pattern.region host m = .ok region) :
    ∃ copied, pattern.vertices.keys.foldlM (pattern.copyVertex host m) ∅ = .ok copied ∧
      region = pattern.hyperedges.keys.foldl (linkLike pattern) copied := by
  unfold Hypergraph.region at eq
  cases copies : pattern.vertices.keys.foldlM (pattern.copyVertex host m) ∅ with
  | error label =>
    rw [copies] at eq
    cases eq
  | ok copied =>
    rw [copies] at eq
    cases eq
    exact ⟨copied, rfl, rfl⟩

theorem hyperedge?_region (p : pattern.Coherent) (eq : pattern.region host m = .ok region)
    (l : Label) :
    region.hyperedge? l =
      if l ∈ pattern.hyperedges then (m.find? l).bind host.hyperedge? else none := by
  obtain ⟨copied, copies, rfl⟩ := region_eq_ok eq
  rw [hyperedge?_linkLikes, hyperedge?_copies copies]
  by_cases stored : l ∈ pattern.hyperedges
  · have vertex : l ∈ pattern.vertices.keys := (p.mem_iff l).2 (Or.inr stored)
    simp only [stored, vertex, and_self, if_true]
  · simp only [stored, and_false, if_false]
    rfl

theorem node?_region (eq : pattern.region host m = .ok region) (l : Label) :
    region.node? l =
      if l ∈ pattern ∧ ¬ l ∈ pattern.hyperedges then (m.find? l).bind host.node? else none := by
  obtain ⟨copied, copies, rfl⟩ := region_eq_ok eq
  rw [node?_linkLikes, node?_copies copies]
  rfl

theorem edge_of_region (p : pattern.Coherent) (eq : pattern.region host m = .ok region)
    {e : Hyperedge} (found : region.hyperedge? key = some e) :
    key ∈ pattern.hyperedges ∧ ∃ t, m.find? key = some t ∧ host.hyperedge? t = some e := by
  rw [hyperedge?_region p eq] at found
  split at found
  · next stored => exact ⟨stored, Option.bind_eq_some_iff.1 found⟩
  · cases found

theorem node_of_region (eq : pattern.region host m = .ok region) {n : Node}
    (found : region.node? key = some n) :
    ¬ key ∈ pattern.hyperedges ∧ ∃ t, m.find? key = some t ∧ host.node? t = some n := by
  rw [node?_region eq] at found
  split at found
  · next regular => exact ⟨regular.2, Option.bind_eq_some_iff.1 found⟩
  · cases found

/-! ### The region of an embedding -/

theorem Embeds.exists_image (embeds : pattern.Embeds host m) (vertex : key ∈ pattern) :
    ∃ t, m.find? key = some t := by
  rw [mem_def, Table.mem_def, ← embeds.keys] at vertex
  exact Table.mem_iff.1 vertex

/-- The host's hyperedge under a label of the pattern has the tag and the mark of the pattern's. -/
theorem Embeds.exists_edge (embeds : pattern.Embeds host m) (p : pattern.Coherent)
    (eq : pattern.region host m = .ok region) {e : Hyperedge}
    (found : pattern.hyperedge? key = some e) :
    ∃ e', region.hyperedge? key = some e' ∧ e'.tag = e.tag ∧ e'.mark = e.mark := by
  have stored : key ∈ pattern.hyperedges := mem_hyperedges_iff.2 ⟨e, found⟩
  obtain ⟨t, image⟩ := embeds.exists_image ((p.mem_iff key).2 (Or.inr stored))
  obtain ⟨e', found', kind⟩ := embeds.surrogate key t e image found
  exact ⟨e', by rw [hyperedge?_region p eq, if_pos stored, image, Option.bind_some, found'], kind⟩

theorem Embeds.node_image (embeds : pattern.Embeds host m) (c : host.Coherent)
    (regular : ¬ key ∈ pattern.hyperedges) (image : m.find? key = some t) : t ∈ host.nodes :=
  ((c.mem_iff t).1 (embeds.target key t image)).resolve_right (embeds.regular key t image regular)

/-- No embedding is stale. -/
theorem exists_region (p : pattern.Coherent) (c : host.Coherent) (mem : m ∈ pattern.embeddings host) :
    ∃ region, pattern.region host m = .ok region := by
  have embeds := ((mem_embeddings p c).1 mem).2
  have step (g : Hypergraph) (key : Label) (vertex : key ∈ pattern.vertices.keys) :
      ∃ copied, pattern.copyVertex host m g key = .ok copied := by
    obtain ⟨t, image⟩ := embeds.exists_image vertex
    apply exists_copyVertex image
    · intro stored
      obtain ⟨e, found⟩ := mem_hyperedges_iff.1 stored
      obtain ⟨e', found', -⟩ := embeds.surrogate key t e image found
      exact mem_hyperedges_iff.2 ⟨e', found'⟩
    · exact fun regular => embeds.node_image c regular image
  obtain ⟨copied, copies⟩ := foldlM_ok step ∅
  exact ⟨_, by rw [Hypergraph.region, copies]; rfl⟩

theorem region_congr (same : ∀ u t, m.find? u = some t →
      g.node? t = h.node? t ∧ g.hyperedge? t = h.hyperedge? t) :
    pattern.region g m = pattern.region h m := by
  have copy : pattern.copyVertex g m = pattern.copyVertex h m := by
    funext region key
    unfold copyVertex
    cases image : m.find? key with
    | none => rfl
    | some t => simp only [(same key t image).1, (same key t image).2]
  rw [Hypergraph.region, Hypergraph.region, copy]

end Hypergraph

end Hypermesh
