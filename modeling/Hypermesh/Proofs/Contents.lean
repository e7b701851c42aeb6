import Hypermesh.Proofs.Region
import Hypermesh.Proofs.Unambiguous
import Mathlib.Data.List.Perm.Subperm

/-!
The hyperedges of a host as a collection. A step takes those of the matched region away, and nothing
comes in but those of the replacement; some of these may lie under one label or write over others.
-/

namespace Hypermesh

open scoped List

namespace Table

universe u

variable {β : Type u}

theorem values_eq_filterMap (t : Table β) : t.values = t.keys.filterMap t.find? := by
  have eq := t.filterMap_keys fun _ value => value
  simp only [Option.map_id'] at eq
  exact eq.symm

/-- A table that files values under their names holds just the values that are found under these. -/
theorem values_perm_of_find? {t : Table β} {name : β → Label} {vs : List β}
    (named : ∀ key value, t.find? key = some value → name value = key) (nodup : (vs.map name).Nodup)
    (found : ∀ v, t.find? (name v) = some v ↔ v ∈ vs) : t.values ~ vs := by
  have once : t.values.Nodup := .of_map name (by
    rw [map_values named]
    exact t.nodup)
  rw [List.perm_ext_iff_of_nodup once (.of_map name nodup)]
  intro v
  rw [mem_values, ← found]
  constructor
  · rintro ⟨key, eq⟩
    rw [named key v eq, eq]
  · exact fun eq => ⟨_, eq⟩

theorem map_snd_put_subperm (key : Label) (value : β) (entries : List (Label × β)) :
    (put key value entries).map Prod.snd <+~ value :: entries.map Prod.snd := by
  induction entries with
  | nil => exact .refl _
  | cons entry entries ih =>
    rw [put, List.map_cons]
    split
    · exact (List.Sublist.cons_cons value (List.sublist_cons_self _ _)).subperm
    · rw [List.map_cons]
      exact ((List.subperm_cons _).2 ih).trans (List.Perm.swap ..).subperm

theorem values_insert_subperm (t : Table β) (key : Label) (value : β) :
    (t.insert key value).values <+~ value :: t.values := map_snd_put_subperm key value t.entries

end Table

namespace Hypergraph

variable {g other pattern host region replacement : Hypergraph} {m : Embedding} {edges : List Hyperedge}
  {edge : Hyperedge}

/-! ### Insertions -/

theorem values_insertHyperedge (g : Hypergraph) (edge : Hyperedge) :
    (g.insertHyperedge edge).hyperedges.values <+~ edge :: g.hyperedges.values := by
  rw [hyperedges_insertHyperedge]
  exact Table.values_insert_subperm ..

theorem values_foldl {α : Type} {f : Hypergraph → α → Hypergraph} (new : α → List Hyperedge)
    (step : ∀ g a, (f g a).hyperedges.values <+~ new a ++ g.hyperedges.values) (as : List α)
    (g : Hypergraph) : (as.foldl f g).hyperedges.values <+~ as.flatMap new ++ g.hyperedges.values := by
  induction as generalizing g with
  | nil => exact .refl _
  | cons a as ih =>
    rw [List.flatMap_cons, List.append_assoc]
    have first := (List.subperm_append_left (as.flatMap new)).2 (step g a)
    exact ((ih (f g a)).trans first).trans (List.perm_append_comm_assoc ..).subperm

theorem values_insertAll (g : Hypergraph) (edges : List Hyperedge) :
    (edges.foldl insertHyperedge g).hyperedges.values <+~ edges ++ g.hyperedges.values := by
  have all := values_foldl ([·]) values_insertHyperedge edges g
  rwa [List.flatMap_singleton'] at all

theorem values_overlay (g other : Hypergraph) :
    (g.overlay other).hyperedges.values <+~ other.hyperedges.values ++ g.hyperedges.values := by
  have nodes : (other.nodes.values.foldl addNewNode g).hyperedges = g.hyperedges :=
    foldl_unchanged (q := hyperedges) hyperedges_addNewNode other.nodes.values g
  have all := values_insertAll (other.nodes.values.foldl addNewNode g) other.hyperedges.values
  rwa [nodes] at all

/-! ### The region and the rest -/

theorem keys_removeAll (g : Hypergraph) (labels : List Label) :
    (labels.foldl remove g).hyperedges.keys = g.hyperedges.keys.filter (· ∉ labels) := by
  induction labels generalizing g with
  | nil => simp
  | cons label labels ih =>
    rw [List.foldl_cons, ih, hyperedges_remove, Table.keys_erase, List.filter_filter]
    apply List.filter_congr
    simp [Bool.and_comm]

theorem nodup_matched (embeds : pattern.Embeds host m) : (pattern.matched m).Nodup := by
  apply pattern.hyperedges.nodup.filterMap
  intro u v t image image'
  exact embeds.injective u v t image image'

theorem keys_region (p : pattern.Coherent) (embeds : pattern.Embeds host m)
    (eq : pattern.region host m = .ok region) : region.hyperedges.keys ~ pattern.hyperedges.keys := by
  rw [List.perm_ext_iff_of_nodup region.hyperedges.nodup pattern.hyperedges.nodup]
  intro l
  rw [← Table.mem_def, ← Table.mem_def]
  constructor
  · intro stored
    obtain ⟨e, found⟩ := mem_hyperedges_iff.1 stored
    exact (edge_of_region p eq found).1
  · intro stored
    obtain ⟨e, found⟩ := mem_hyperedges_iff.1 stored
    obtain ⟨e', found', -⟩ := embeds.exists_edge p eq found
    exact mem_hyperedges_iff.2 ⟨e', found'⟩

theorem values_region (p : pattern.Coherent) (embeds : pattern.Embeds host m)
    (eq : pattern.region host m = .ok region) :
    region.hyperedges.values ~ (pattern.matched m).filterMap host.hyperedge? := by
  rw [Table.values_eq_filterMap, matched, List.filterMap_filterMap]
  apply ((keys_region p embeds eq).filterMap _).trans
  apply List.Perm.of_eq
  apply List.filterMap_congr
  intro l stored
  exact (hyperedge?_region p eq l).trans (if_pos stored)

theorem values_removeAll (g : Hypergraph) (labels : List Label) :
    (labels.foldl remove g).hyperedges.values =
      (g.hyperedges.keys.filter (· ∉ labels)).filterMap g.hyperedge? := by
  rw [Table.values_eq_filterMap, keys_removeAll]
  apply List.filterMap_congr
  intro l stays
  have absent : ¬ l ∈ labels := by simpa using (List.mem_filter.1 stays).2
  exact (lookup_removeAll hyperedge?_remove g labels l).trans (if_neg absent)

/-- The hyperedges of a host are those of a region and those that its removal leaves. -/
theorem values_perm (p : pattern.Coherent) (c : host.Coherent) (mem : m ∈ pattern.embeddings host)
    (eq : pattern.region host m = .ok region) :
    host.hyperedges.values ~
      region.hyperedges.values ++ (host.removeMatched pattern m).hyperedges.values := by
  have embeds := ((mem_embeddings p c).1 mem).2
  have selected : host.hyperedges.keys.filter (· ∈ pattern.matched m) ~ pattern.matched m := by
    rw [List.perm_ext_iff_of_nodup (host.hyperedges.nodup.filter _) (nodup_matched embeds)]
    intro t
    rw [List.mem_filter, decide_eq_true_eq]
    exact and_iff_right_of_imp (mem_hyperedges_of_mem_matched mem)
  have all : host.hyperedges.keys ~
      pattern.matched m ++ host.hyperedges.keys.filter (· ∉ pattern.matched m) := by
    apply List.Perm.trans _ (selected.append_right _)
    simpa only [decide_not] using (List.filter_append_perm (· ∈ pattern.matched m) _).symm
  calc
    host.hyperedges.values = host.hyperedges.keys.filterMap host.hyperedge? :=
      Table.values_eq_filterMap _
    _ ~ (pattern.matched m).filterMap host.hyperedge? ++
        (host.hyperedges.keys.filter (· ∉ pattern.matched m)).filterMap host.hyperedge? := by
      rw [← List.filterMap_append]
      exact all.filterMap _
    _ ~ region.hyperedges.values ++ (host.removeMatched pattern m).hyperedges.values := by
      rw [← values_removeAll]
      exact (values_region p embeds eq).symm.append_right _

/-- A step takes the hyperedges of the region away and brings in none but those of the replacement. -/
theorem values_replace (p : pattern.Coherent) (c : host.Coherent) (mem : m ∈ pattern.embeddings host)
    (eq : pattern.region host m = .ok region) (replacement : Hypergraph) :
    ∃ kept, host.hyperedges.values ~ region.hyperedges.values ++ kept ∧
      (host.replace pattern m replacement).hyperedges.values <+~
        replacement.hyperedges.values ++ kept :=
  ⟨_, values_perm p c mem eq, values_overlay _ replacement⟩

end Hypergraph

end Hypermesh
