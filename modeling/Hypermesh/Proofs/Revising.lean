import Hypermesh.Proofs.Contents
import Hypermesh.Proofs.Rewriting
import Hypermesh.Proofs.Union

/-!
Steps that write every matched hyperedge back, perhaps with another mark or other attributes. Removing a
hyperedge and inserting it again leaves no trace but the order of the tables: no node and no link comes or
goes, so that the step revises hyperedges in place.
-/

namespace Hypermesh

open scoped List

/-- Tags and members stay, and with them labels and centroids. -/
def KeepsMembers (f : Label → Hyperedge → Hyperedge) : Prop :=
  ∀ l e, (f l e).tag = e.tag ∧ (f l e).members = e.members

namespace KeepsMembers

variable {f : Label → Hyperedge → Hyperedge}

theorem memberLabels (keeps : KeepsMembers f) (l : Label) (e : Hyperedge) :
    (f l e).memberLabels = e.memberLabels := congrArg (List.map Node.label) (keeps l e).2

theorem label (keeps : KeepsMembers f) (l : Label) (e : Hyperedge) : (f l e).label = e.label := by
  rw [Hyperedge.label, Hyperedge.label, keeps.memberLabels, (keeps l e).1]

theorem surrogate (keeps : KeepsMembers f) (l : Label) (e : Hyperedge) (key : Label) :
    (f l e).surrogate key = e.surrogate key := by
  simp only [Hyperedge.surrogate, Hyperedge.centroid, (keeps l e).2, keeps.label]

end KeepsMembers

namespace Hypergraph

variable {f f' : Label → Hyperedge → Hyperedge} {g h k pattern host region : Hypergraph} {l : Label}
  {m : Embedding} {old e : Hyperedge} {n : Node} {edges back : List Hyperedge}

/-- Every hyperedge is revised by `f` under its label. The rest is as it was. -/
structure Revised (f : Label → Hyperedge → Hyperedge) (g h : Hypergraph) : Prop where
  node : ∀ l, h.node? l = g.node? l
  hyperedge : ∀ l, h.hyperedge? l = (g.hyperedge? l).map (f l)
  incident : ∀ a b, b ∈ h.neighbours a ↔ b ∈ g.neighbours a

namespace Revised

theorem refl (same : ∀ l e, g.hyperedge? l = some e → f l e = e) : Revised f g g where
  node _ := rfl
  hyperedge l := ((Option.map_congr (same l)).trans Option.map_id').symm
  incident _ _ := Iff.rfl

theorem trans (first : Revised f g h) (second : Revised f' h k) :
    Revised (fun l e => f' l (f l e)) g k where
  node l := (second.node l).trans (first.node l)
  hyperedge l := by
    rw [second.hyperedge, first.hyperedge, Option.map_map]
    rfl
  incident a b := (second.incident a b).trans (first.incident a b)

/-- What comes after the first of two revisions is the second one. -/
theorem after (first : Revised f g h) (both : Revised (fun l e => f' l (f l e)) g k) : Revised f' h k where
  node l := (both.node l).trans (first.node l).symm
  hyperedge l := by
    rw [both.hyperedge, first.hyperedge, Option.map_map]
    rfl
  incident a b := (both.incident a b).trans (first.incident a b).symm

theorem congr (revised : Revised f g h) (same : ∀ l e, g.hyperedge? l = some e → f l e = f' l e) :
    Revised f' g h where
  node := revised.node
  hyperedge l := (revised.hyperedge l).trans (Option.map_congr (same l))
  incident := revised.incident

theorem mem_hyperedges (revised : Revised f g h) : l ∈ h.hyperedges ↔ l ∈ g.hyperedges := by
  rw [← Table.isSome_find?, ← Table.isSome_find?, ← hyperedge?, ← hyperedge?, revised.hyperedge,
    Option.isSome_map]

theorem mem_iff (revised : Revised f g h) (c : g.Coherent) (d : h.Coherent) : l ∈ h ↔ l ∈ g := by
  rw [c.mem_iff, d.mem_iff, revised.mem_hyperedges, mem_nodes_iff, mem_nodes_iff, revised.node]

theorem surrogate? (revised : Revised f g h) (c : g.Coherent) (d : h.Coherent)
    (keeps : KeepsMembers f) (l : Label) : h.surrogate? l = g.surrogate? l := by
  rw [c.surrogate, d.surrogate, revised.hyperedge, Option.map_map]
  congr 1
  funext e
  exact keeps.surrogate l e l

/-- A label shows the same as before where its hyperedge is not changed. -/
theorem sameAt (revised : Revised f g h) (c : g.Coherent) (d : h.Coherent)
    (same : ∀ e, g.hyperedge? l = some e → f l e = e) : g.SameAt h l where
  mem := (revised.mem_iff c d).symm
  node := (revised.node l).symm
  hyperedge := by
    rw [revised.hyperedge, Option.map_congr same, Option.map_id']
  incident k := (revised.incident l k).symm

/-- In well-formed hypergraphs the links follow from what is stored. -/
theorem of_stored (w : g.WellFormed) (w' : h.WellFormed) (keeps : KeepsMembers f)
    (node : ∀ l, h.node? l = g.node? l) (hyperedge : ∀ l, h.hyperedge? l = (g.hyperedge? l).map (f l)) :
    Revised f g h where
  node := node
  hyperedge := hyperedge
  incident a b := by
    have lists (a b : Label) : h.Lists a b ↔ g.Lists a b := by
      unfold Lists
      rw [hyperedge]
      cases g.hyperedge? a <;> simp [keeps.memberLabels]
    rw [w'.incident, w.incident, lists, lists]

end Revised

/-! ### Hyperedges under different labels -/

/-- Of values under different names, the one that is found under a name has it. -/
theorem find?_name_eq_some_iff {β : Type} {name : β → Label} {vs : List β} {v : β}
    (nodup : (vs.map name).Nodup) : vs.find? (name · = l) = some v ↔ v ∈ vs ∧ name v = l := by
  constructor
  · intro found
    exact ⟨List.mem_of_find?_eq_some found, by simpa using List.find?_some found⟩
  · rintro ⟨mem, rfl⟩
    obtain ⟨v', found⟩ : ∃ v', vs.find? (name · = name v) = some v' := by
      rw [← Option.isSome_iff_exists, List.find?_isSome]
      exact ⟨v, mem, decide_eq_true rfl⟩
    have same : name v' = name v := by simpa using List.find?_some found
    rw [found, List.inj_on_of_nodup_map nodup (List.mem_of_find?_eq_some found) mem same]

theorem WellFormed.mem_values_iff (w : g.WellFormed) :
    e ∈ g.hyperedges.values ↔ g.hyperedge? e.label = some e := by
  rw [Table.mem_values]
  constructor
  · rintro ⟨key, found⟩
    rw [w.hyperedge_label key e found]
    exact found
  · exact fun found => ⟨_, found⟩

theorem WellFormed.mem_node_values_iff (w : g.WellFormed) :
    n ∈ g.nodes.values ↔ g.node? n.label = some n := by
  rw [Table.mem_values]
  constructor
  · rintro ⟨key, found⟩
    rw [w.node_label key n found]
    exact found
  · exact fun found => ⟨_, found⟩

theorem WellFormed.labels_nodup (w : g.WellFormed) : (g.hyperedges.values.map Hyperedge.label).Nodup := by
  rw [Table.map_values w.hyperedge_label]
  exact g.hyperedges.nodup

/-- The hyperedges that a host stores under different labels. -/
structure Holds (g : Hypergraph) (keys : List Label) (edges : List Hyperedge) : Prop where
  stored : ∀ e ∈ edges, e ∈ g.hyperedges.values
  labels : edges.map Hyperedge.label ~ keys
  nodup : keys.Nodup

namespace Holds

variable {keys : List Label}

theorem perm {edges' : List Hyperedge} (holds : g.Holds keys edges) (perm : edges ~ edges') :
    g.Holds keys edges' where
  stored e mem := holds.stored e (perm.mem_iff.2 mem)
  labels := (perm.map _).symm.trans holds.labels
  nodup := holds.nodup

variable (holds : g.Holds keys (old :: back))
include holds

theorem first : old ∈ g.hyperedges.values := holds.stored old List.mem_cons_self

theorem rest : back ⊆ g.hyperedges.values := fun e mem => holds.stored e (List.mem_cons_of_mem _ mem)

theorem nodup_rest : (back.map Hyperedge.label).Nodup :=
  (List.nodup_cons.1 (holds.labels.nodup_iff.2 holds.nodup)).2

theorem label_ne_first (mem : e ∈ back) : e.label ≠ old.label := fun same =>
  (List.nodup_cons.1 (holds.labels.nodup_iff.2 holds.nodup)).1 (same ▸ List.mem_map_of_mem mem)

theorem ne_first (mem : e ∈ back) : e ≠ old := fun same => holds.label_ne_first mem (congrArg _ same)

theorem mem_keys_iff (missing : back.find? (·.label = l) = none) : l ∈ keys ↔ l = old.label := by
  rw [← holds.labels.mem_iff, List.map_cons, List.mem_cons]
  refine or_iff_left fun mem => ?_
  obtain ⟨e, known, rfl⟩ := List.mem_map.1 mem
  simpa using List.find?_eq_none.1 missing e known

end Holds

/-! ### The step -/

/-- The matched labels are those of the hyperedges in the region. -/
theorem labels_region (p : pattern.Coherent) (w : host.WellFormed) (embeds : pattern.Embeds host m)
    (eq : pattern.region host m = .ok region) :
    region.hyperedges.values.map Hyperedge.label ~ pattern.matched m := by
  have named : ((pattern.matched m).filterMap host.hyperedge?).map Hyperedge.label =
      (pattern.matched m).filterMap some := by
    rw [List.map_filterMap]
    apply List.filterMap_congr
    intro t selected
    obtain ⟨key, stored, image⟩ := List.mem_filterMap.1 selected
    obtain ⟨e, found⟩ := mem_hyperedges_iff.1 stored
    obtain ⟨e', found', -⟩ := embeds.surrogate key t e image found
    rw [found', Option.map_some, w.hyperedge_label t e' found']
  rw [List.filterMap_some] at named
  exact ((values_region p embeds eq).map Hyperedge.label).trans (.of_eq named)

/-- A hyperedge of the region is that of the host under its own label. -/
theorem hyperedge?_of_mem_region (p : pattern.Coherent) (w : host.WellFormed)
    (eq : pattern.region host m = .ok region) {e : Hyperedge} (mem : e ∈ region.hyperedges.values) :
    host.hyperedge? e.label = some e := by
  obtain ⟨key, found⟩ := Table.mem_values.1 mem
  obtain ⟨-, t, -, source⟩ := edge_of_region p eq found
  rw [w.hyperedge_label t e source, source]

theorem mem_values_of_mem_region (p : pattern.Coherent) (w : host.WellFormed)
    (eq : pattern.region host m = .ok region) {e : Hyperedge} (mem : e ∈ region.hyperedges.values) :
    e ∈ host.hyperedges.values := w.mem_values_iff.2 (hyperedge?_of_mem_region p w eq mem)

/-- What is matched is what the region shows. -/
theorem holds_of_region (p : pattern.Coherent) (w : host.WellFormed) (embeds : pattern.Embeds host m)
    (eq : pattern.region host m = .ok region) (values : region.hyperedges.values ~ edges) :
    host.Holds (pattern.matched m) edges where
  stored _ mem := mem_values_of_mem_region p w eq (values.mem_iff.2 mem)
  labels := (values.map Hyperedge.label).symm.trans (labels_region p w embeds eq)
  nodup := nodup_matched embeds

theorem nodup_values_region (p : pattern.Coherent) (w : host.WellFormed) (embeds : pattern.Embeds host m)
    (eq : pattern.region host m = .ok region) : region.hyperedges.values.Nodup :=
  .of_map Hyperedge.label ((labels_region p w embeds eq).nodup_iff.2 (nodup_matched embeds))

theorem insertAll_within (within : g.Within host)
    (stored : ∀ e ∈ edges, e.label ∈ host.hyperedges ∧ ∀ k ∈ e.memberLabels, k ∈ host.nodes) :
    (edges.foldl insertHyperedge g).Within host := by
  induction edges generalizing g with
  | nil => exact within
  | cons e edges ih =>
    obtain ⟨⟨label, members⟩, rest⟩ := List.forall_mem_cons.1 stored
    refine ih ⟨fun l mem => ?_, fun l mem => ?_⟩ rest
    · rcases mem_nodes_insertHyperedge.1 mem with old | new
      · exact within.nodes l old
      · exact members l new
    · rcases mem_hyperedges_insertHyperedge.1 mem with rfl | old
      · exact label
      · exact within.hyperedges l old

/-- A step that writes each matched hyperedge back, revised but over the same members. -/
theorem revised_replace (c : host.Coherent) (w : host.WellFormed) (mem : m ∈ pattern.embeddings host)
    (keeps : KeepsMembers f) (holds : host.Holds (pattern.matched m) edges)
    (others : ∀ l e, ¬ l ∈ pattern.matched m → f l e = e) :
    let h := host.replace pattern m ((edges.map fun e => f e.label e).foldl insertHyperedge ∅)
    Revised f host h ∧ h.Coherent ∧ h.WellFormed := by
  intro h
  have within : ((edges.map fun e => f e.label e).foldl insertHyperedge ∅).Within host := by
    apply insertAll_within ⟨by nofun, by nofun⟩
    intro e written
    obtain ⟨e, known, rfl⟩ := List.mem_map.1 written
    have found := w.mem_values_iff.1 (holds.stored e known)
    rw [keeps.label, keeps.memberLabels]
    exact ⟨mem_hyperedges_iff.2 ⟨e, found⟩, fun k member => w.mem_nodes ⟨e, found, member⟩⟩
  have growth : Grows ∅ ((edges.map fun e => f e.label e).foldl insertHyperedge ∅) :=
    .foldl grows_insertHyperedge _ ∅
  obtain ⟨c', w'⟩ := WellFormed.kept.grows growth ⟨Coherent.empty, WellFormed.empty⟩
    (within.unambiguous w.unambiguous)
  have apart : host.Apart ((edges.map fun e => f e.label e).foldl insertHyperedge ∅) := fun l =>
    ⟨fun node stored => w.unambiguous l node (within.hyperedges l stored),
      fun node => w.unambiguous l (within.nodes l node)⟩
  have after := WellFormed.kept.replace ((edges.map fun e => f e.label e).foldl insertHyperedge ∅) ⟨c, w⟩
    w.unambiguous mem (unambiguous_replace w w' c' apart)
  refine ⟨.of_stored w after.2 keeps ?node ?hyperedge, after⟩
  case node =>
    intro l
    rw [node?_replace w w' c' mem]
    cases found : host.node? l with
    | some node => rfl
    | none =>
      have fresh := Table.find?_eq_none_iff.1 found
      exact Table.find?_eq_none_iff.2 fun mem => fresh (within.nodes l mem)
  case hyperedge =>
    intro l
    have labels : (edges.map fun e => f e.label e).map Hyperedge.label = edges.map Hyperedge.label := by
      rw [List.map_map]
      exact List.map_congr_left fun e _ => keeps.label e.label e
    have nodup := labels ▸ holds.labels.nodup_iff.2 holds.nodup
    rw [hyperedge?_replace w', hyperedge?_insertAll nodup, List.find?_map]
    simp only [Function.comp_def, keeps.label]
    cases found : edges.find? (·.label = l) with
    | some e =>
      have same : e.label = l := by simpa using List.find?_some found
      have source := w.mem_values_iff.1 (holds.stored e (List.mem_of_find?_eq_some found))
      rw [same] at source
      rw [source, Option.map_some, Option.map_some, same]
      rfl
    | none =>
      have unmatched : ¬ l ∈ pattern.matched m := by
        rw [← holds.labels.mem_iff, List.mem_map]
        rintro ⟨e, mem, same⟩
        exact List.find?_eq_none.1 found e mem (by simpa using same)
      rw [if_neg unmatched]
      cases host.hyperedge? l with
      | none => rfl
      | some e => rw [Option.map_some, others l e unmatched]; rfl

end Hypergraph

end Hypermesh
