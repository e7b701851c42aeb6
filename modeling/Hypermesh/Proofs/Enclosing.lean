import Hypermesh.Proofs.Splitting

/-!
One pentagon on its own. First its sides are marked, in a single application, for the whole pentagon
matches at once. Then each side is split in half, the pentagon is broken around its centre, and every one
of the quads that come in has unmarked sides around it and can be marked.
-/

namespace Hypermesh

open Rules
open scoped List

namespace Hypergraph

variable {g h pattern region : Hypergraph} {m : Embedding} {mark : UInt8} {ring : List Label}
  {sides : List Hyperedge} {element : Hyperedge} {s : Settings}

/-- A region with as many hyperedges as the host shows all of them. -/
theorem values_region_perm (p : pattern.Coherent) (w : g.WellFormed) (embeds : pattern.Embeds g m)
    (eq : pattern.region g m = .ok region) (le : g.hyperedges.size ≤ pattern.hyperedges.size) :
    region.hyperedges.values ~ g.hyperedges.values := by
  have length := (keys_region p embeds eq).length_eq
  rw [Table.length_keys, Table.length_keys] at length
  apply (List.subperm_of_subset (nodup_values_region p w embeds eq) _).perm_of_length_le
  · rw [Table.length_values, Table.length_values, length]
    exact le
  · exact fun e => mem_values_of_mem_region p w eq

/-- The host is a marked pentagon inside of a ring of boundary sides. -/
structure Enclosed (g : Hypergraph) (mark : UInt8) (ring : List Label) (sides : List Hyperedge)
    (element : Hyperedge) : Prop where
  tidy : g.Tidy
  nodes : g.nodes.keys ~ ring
  firm : ∀ n ∈ g.nodes.values, n.hanging = false
  values : g.hyperedges.values ~ sides ++ [element]
  length : sides.length = ring.length
  side : ∀ e ∈ sides, e.tag = sideTag ∧ e.mark = mark ∧ e.onBoundary = true ∧
    ∃ k ∈ pairs ring, e.Joins k.1 k.2
  joins : ∀ k ∈ pairs ring, ∃ e ∈ sides, e.Joins k.1 k.2
  tag : element.tag = Outline.pentagon.tag
  marked : element.mark = 1

namespace Enclosed

variable (x : g.Enclosed mark ring sides element)
include x

theorem mem_values {e : Hyperedge} : e ∈ g.hyperedges.values ↔ e ∈ sides ∨ e = element := by
  rw [x.values.mem_iff, List.mem_append, List.mem_singleton]

theorem tag_ne : element.tag ≠ sideTag := by
  rw [x.tag]
  decide

theorem size : g.hyperedges.size = ring.length + 1 := by
  rw [← Table.length_values, x.values.length_eq, List.length_append, x.length, List.length_singleton]

theorem encircled : g.Encircled mark ring where
  nodup := x.nodes.nodup_iff.1 g.nodes.nodup
  node l mem := x.nodes.mem_iff.2 mem
  side k pair := by
    obtain ⟨e, mem, joins⟩ := x.joins k pair
    obtain ⟨tag, mark, -⟩ := x.side e mem
    exact ⟨e, x.mem_values.2 (Or.inl mem), tag, mark, fun _ _ => joins.mem_iff⟩

/-- No side lies under the label of the element. -/
theorem label_ne {e : Hyperedge} (mem : e ∈ sides) : e.label ≠ element.label := by
  have nodup := (x.values.map Hyperedge.label).nodup_iff.1 x.tidy.wellFormed.labels_nodup
  rw [List.map_append, List.nodup_append] at nodup
  exact nodup.2.2 _ (List.mem_map_of_mem mem) _ List.mem_cons_self

/-- Marks on the sides leave the rest as it is. -/
theorem revised {labels : List Label} (listed : labels ~ sides.map Hyperedge.label)
    (revised : Revised (markAt labels) g h) (c : h.Coherent) (w : h.WellFormed) :
    h.Enclosed 1 ring (sides.map (·.withMark 1)) element := by
  have w₀ := x.tidy.wellFormed
  have nodes := revised.nodes_perm w₀ w
  have apart (e : Hyperedge) (last : e ∈ [element]) : ¬ e.label ∈ labels := by
    rw [List.mem_singleton.1 last, listed.mem_iff, List.mem_map]
    rintro ⟨side, mem, same⟩
    exact x.label_ne mem same
  have marks : (sides ++ [element]).map (fun e => markAt labels e.label e) =
      sides.map (·.withMark 1) ++ [element] := by
    rw [List.map_append, map_markAt fun e mem => listed.mem_iff.2 (List.mem_map_of_mem mem),
      map_markAt_of_not_mem apart]
  refine ⟨x.tidy.revised (keepsMembers_markAt labels) revised c w, ?nodes, ?firm, ?values, ?length, ?side,
    ?joins, x.tag, x.marked⟩
  case nodes =>
    have keys := nodes.map Node.label
    rw [Table.map_values w.node_label, Table.map_values w₀.node_label] at keys
    exact keys.trans x.nodes
  case firm => exact fun n mem => x.firm n (nodes.mem_iff.1 mem)
  case values =>
    rw [← marks]
    exact (revised.values_perm w₀ w (keepsMembers_markAt labels)).trans (x.values.map _)
  case length => rw [List.length_map, x.length]
  case side =>
    intro e mem
    obtain ⟨e₀, mem₀, rfl⟩ := List.mem_map.1 mem
    obtain ⟨tag, -, boundary, ends⟩ := x.side e₀ mem₀
    exact ⟨tag, rfl, boundary, ends⟩
  case joins =>
    intro k pair
    obtain ⟨e, mem, joins⟩ := x.joins k pair
    exact ⟨_, List.mem_map_of_mem mem, joins⟩

/-- A side joins a node of the ring to the next one or the one before. -/
theorem mem_pairs_of_joins {side : Hyperedge} {a b : Label} (mem : side ∈ sides) (joins : side.Joins a b) :
    (a, b) ∈ pairs ring ∨ (b, a) ∈ pairs ring := by
  obtain ⟨-, -, -, k, pair, joins'⟩ := x.side side mem
  rcases joins.eq_or_eq joins' with ⟨rfl, rfl⟩ | ⟨rfl, rfl⟩
  · exact Or.inl pair
  · exact Or.inr pair

section Halved

variable {halves : List Hyperedge} {middles : List Node} (t : h.Tidy) (halved : Halved sides halves middles)
  (values : h.hyperedges.values ~ halves ++ [element]) (nodes : h.nodes.values ~ middles ++ g.nodes.values)
include t halved nodes

/-- Every midpoint lies between its neighbours, so the ring has room for no more nodes. -/
theorem keys_halved : h.nodes.keys ~ subdivide Label.midpoint ring := by
  have keys := nodes.map Node.label
  rw [List.map_append, Table.map_values t.wellFormed.node_label,
    Table.map_values x.tidy.wellFormed.node_label] at keys
  apply (List.subperm_of_subset h.nodes.nodup fun l mem => ?_).perm_of_length_le
  · rw [length_subdivide, keys.length_eq, List.length_append, List.length_map, halved.length_middles,
      x.nodes.length_eq, x.length, Nat.two_mul]
  · rw [mem_subdivide]
    rcases List.mem_append.1 (keys.mem_iff.1 mem) with mem | mem
    · obtain ⟨n, known, rfl⟩ := List.mem_map.1 mem
      obtain ⟨side, mem, -, a, b, joins, label⟩ := halved.middle n known
      rcases x.mem_pairs_of_joins mem joins with pair | pair
      · exact ⟨_, pair, Or.inr label⟩
      · exact ⟨_, pair, Or.inr (label.trans (Label.midpoint_comm ..))⟩
    · obtain ⟨k, pair, rfl⟩ := exists_pair (x.nodes.mem_iff.1 mem)
      exact ⟨k, pair, Or.inl rfl⟩

include values

/-- The midpoints join the ring. -/
theorem subdivided : h.Enclosed 0 (subdivide Label.midpoint ring) halves element := by
  refine ⟨t, x.keys_halved t halved nodes, ?firm, values, ?length, ?side, ?joins, x.tag, x.marked⟩
  case firm =>
    intro n mem
    rcases List.mem_append.1 (nodes.mem_iff.1 mem) with mem | mem
    · obtain ⟨side, mem, hanging, -⟩ := halved.middle n mem
      rw [hanging, (x.side side mem).2.2.1]
      rfl
    · exact x.firm n mem
  case length => rw [halved.length, x.length, length_subdivide]
  case side =>
    intro e mem
    obtain ⟨tag, mark, side, mem, attributes, a, b, joins, joins'⟩ := halved.half e mem
    refine ⟨tag, mark, ?_, ?_⟩
    · rw [Hyperedge.onBoundary, attributes]
      exact (x.side side mem).2.2.1
    · rcases x.mem_pairs_of_joins mem joins with pair | pair
      · exact ⟨_, mem_pairs_subdivide.2 ⟨_, pair, Or.inl rfl⟩, joins'⟩
      · rw [Label.midpoint_comm] at joins'
        exact ⟨_, mem_pairs_subdivide.2 ⟨_, pair, Or.inr rfl⟩, joins'.symm⟩
  case joins =>
    intro k' pair'
    obtain ⟨k, pair, rfl | rfl⟩ := mem_pairs_subdivide.1 pair'
    · obtain ⟨side, mem, joins⟩ := x.joins k pair
      exact halved.joins side mem k.1 k.2 joins
    · obtain ⟨side, mem, joins⟩ := x.joins k pair
      obtain ⟨e, mem, joins⟩ := halved.joins side mem k.2 k.1 joins.symm
      rw [Label.midpoint_comm] at joins
      exact ⟨e, mem, joins.symm⟩

end Halved

end Enclosed

end Hypergraph

namespace Rules

open Hypermesh.Hypergraph

variable {g h region : Hypergraph} {m : Embedding} {ring : List Label} {sides : List Hyperedge}
  {element : Hyperedge} {s : Settings}

/-! ### The sides are marked -/

theorem polygon_markPentagonSides : markPentagonSides.leftSide.Polygon
    (Outline.pentagon.spanned.map corner) 0 Outline.pentagon.tag 1
    (Outline.pentagon.spanned.map corner) := grows_markPentagonSides.polygon (by decide +kernel)

theorem ends_markPentagonSides (x : g.Enclosed 0 ring sides element) (members : element.memberLabels = ring)
    (five : ring.length = 5) (s : Settings) :
    ∃ h, markPentagonSides.Ends s g 1 h ∧ h.Enclosed 1 ring (sides.map (·.withMark 1)) element := by
  have t := x.tidy
  have p := reachable_markPentagonSides.coherent
  obtain ⟨f, eq⟩ : ∃ f, (Outline.pentagon.spanned.map corner).map f = ring :=
    exists_map_eq (by decide) (by rw [five]; rfl)
  obtain ⟨m₀, found, -⟩ := polygon_markPentagonSides.exists_embedding t.coherent t.wellFormed
    (eq ▸ x.encircled) (x.mem_values.2 (Or.inr rfl)) x.tag x.marked (members.trans eq.symm)
  obtain ⟨m, region, mem, shown, applies⟩ :=
    Production.exists_applies (P := markPentagonSides) (fun _ => rfl) s p t.coherent found
  obtain ⟨revised, c, w⟩ := revised_markPentagonSides t.coherent t.wellFormed mem shown 0
  -- The region is all of the host, so that no side is left out.
  have listed : Rules.sides region ~ sides := by
    have size : markPentagonSides.leftSide.hyperedges.size = 6 := by decide +kernel
    have all := values_region_perm p t.wellFormed ((mem_embeddings p t.coherent).1 mem).2 shown
      (by rw [size, x.size, five])
    refine ((all.trans x.values).filter _).trans (.of_eq ?_)
    rw [List.filter_append, List.filter_eq_self.2 fun e mem => decide_eq_true (x.side e mem).1,
      List.filter_eq_nil_iff.2 (by simpa using x.tag_ne), List.append_nil]
  have x' := x.revised (listed.map Hyperedge.label) revised c w
  have kind : markPentagonSides.leftSide.kindOf sideKey = .surrogate sideTag 0 := by decide +kernel
  have rests := Production.rests_of_lacks s p c kind (by
    intro e mem tag
    rcases x'.mem_values.1 mem with mem | rfl
    · rw [(x'.side e mem).2.1]
      decide
    · exact absurd tag x'.tag_ne)
  exact ⟨_, .applies applies (.rests rests), x'⟩

/-! ### The sides are split -/

theorem ends_splitSide_enclosed (x : g.Enclosed 1 ring sides element) (s : Settings) :
    ∃ h halves, splitSide.Ends s g ring.length h ∧
      h.Enclosed 0 (subdivide Label.midpoint ring) halves element := by
  obtain ⟨h, halves, middles, ends, t, halved, values, nodes⟩ :=
    ends_splitSide x.tidy x.values (fun e mem => ⟨(x.side e mem).1, (x.side e mem).2.1⟩) (by
      intro e mem tag
      rw [List.mem_singleton.1 mem] at tag
      exact absurd tag x.tag_ne) s
  exact ⟨h, halves, x.length ▸ ends, x.subdivided t halved values nodes⟩

end Rules

end Hypermesh
