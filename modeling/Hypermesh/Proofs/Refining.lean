import Hypermesh.Proofs.Marking
import Hypermesh.Proofs.Termination
import Hypermesh.Proofs.Tidy

/-!
What each rule of the library does to a tidy host. Marks are set in place; a marked side gives way to its
halves around its midpoint, a broken element to slices around its centre. Nothing is written over, and the
host is tidy again, so that this goes on through every sequence of applications.
-/

namespace Hypermesh

open Hypermesh.Hypergraph

namespace Rules

open scoped List

variable {P : Production} {o : Outline} {name : String} {g host region : Hypergraph} {m : Embedding}
  {element side : Hyperedge} {hanging : Hyperedge → Bool}

/-! ### What a region shows of a tidy host -/

theorem node?_of_region {pattern : Hypergraph} {key : Label} {n : Node} (w : host.WellFormed)
    (eq : pattern.region host m = .ok region) (found : region.node? key = some n) :
    m.find? key = some n.label ∧ host.node? n.label = some n := by
  obtain ⟨-, t, image, source⟩ := node_of_region eq found
  rw [w.node_label t n source]
  exact ⟨image, source⟩

/-- A node of the region is a member where the pattern links it, and only there. -/
theorem member_iff_of_region {pattern : Hypergraph} {k key : Label} {n : Node}
    (embeds : pattern.Embeds host m) (p : pattern.Coherent) (w : host.WellFormed)
    (eq : pattern.region host m = .ok region) (shown : region.node? k = some n)
    (found : region.hyperedge? key = some element) :
    n.label ∈ element.memberLabels ↔ k ∈ pattern.neighbours key := by
  obtain ⟨image, node⟩ := node?_of_region w eq shown
  obtain ⟨-, t, image', source⟩ := edge_of_region p eq found
  have regular : ¬ host.Lists n.label t := fun lists =>
    w.unambiguous _ (mem_nodes_iff.2 ⟨n, node⟩) lists.stored
  rw [embeds.incident key k t n.label image' image, w.incident, or_iff_left regular]
  simp [Hypergraph.Lists, source]

/-! ### Marks -/

/-- A marked pentagon hands its mark on to the sides that are matched with it. -/
theorem revised_markPentagonSides (c : g.Coherent) (w : g.WellFormed)
    (mem : m ∈ markPentagonSides.leftSide.embeddings g)
    (eq : markPentagonSides.leftSide.region g m = .ok region) (index : Nat) :
    let h := g.replace markPentagonSides.leftSide m (markPentagonSides.rightSide region index)
    Revised (markAt ((sides region).map Hyperedge.label)) g h ∧ h.Coherent ∧ h.WellFormed := by
  have kind : markPentagonSides.leftSide.kindOf Outline.pentagon.elementKey =
      .surrogate Outline.pentagon.tag 1 := by decide +kernel
  have others : ∀ k ∈ markPentagonSides.leftSide.hyperedges.keys, k ≠ Outline.pentagon.elementKey →
      markPentagonSides.leftSide.kindOf k = .surrogate sideTag 0 := by decide +kernel
  have p := reachable_markPentagonSides.coherent
  have embeds := ((mem_embeddings p c).1 mem).2
  have depicts := (w.labelled c).depicts p mem eq
  obtain ⟨element, found, tag, -⟩ := kindOf_eq_surrogate_iff.1 ((depicts.kind _).trans kind)
  have apart : element.tag ≠ sideTag := by rw [tag]; decide
  have values := values_region_of_sides p w embeds eq found apart fun k stored ne =>
    ⟨0, others k stored ne⟩
  have holds := holds_of_region p w embeds eq (values.trans (List.perm_append_singleton ..))
  have unlisted : ¬ element.label ∈ (sides region).map Hyperedge.label := by
    intro listed
    obtain ⟨side, mem, same⟩ := List.mem_map.1 listed
    exact holds.label_ne_first mem same
  have written : markPentagonSides.rightSide region index = ((element :: sides region).map fun e =>
      markAt ((sides region).map Hyperedge.label) e.label e).foldl insertHyperedge ∅ := by
    rw [rightSide_markPentagonSides found, List.map_cons, map_markAt fun e => List.mem_map_of_mem, markAt,
      if_neg unlisted, List.foldl_cons]
  simp only [written]
  exact revised_marks c w mem holds (List.subset_cons_self ..)

/-! ### Splits -/

/-- The midpoint of a side that is split. -/
def middle (hanging : Hyperedge → Bool) (side : Hyperedge) (a b : Node) : Node :=
  { Node.midpoint a b with hanging := hanging side }

/-- What the region of a matched side shows of the host, and what is written for it. -/
structure ShowsSide (P : Production) (hanging : Hyperedge → Bool) (g region : Hypergraph) (index : Nat)
    (side : Hyperedge) (a b : Node) : Prop where
  found : region.hyperedge? sideKey = some side
  shown : region.node? (corner 0) = some a
  shown' : region.node? (corner 1) = some b
  stored : side ∈ g.hyperedges.values
  tag : side.tag = sideTag
  mark : side.mark = 1
  member : a.label ∈ side.memberLabels
  member' : b.label ∈ side.memberLabels
  ne : a.label ≠ b.label
  values : region.hyperedges.values ~ [side]
  written : P.rightSide region index =
    assemble [] (middle hanging side a b) (halfEdges side a (middle hanging side a b) b)

theorem exists_showsSide (left : P.leftSide = splitSide.leftSide)
    (right : ∀ region index, P.right region index = halves hanging region) (c : g.Coherent)
    (w : g.WellFormed) (mem : m ∈ P.leftSide.embeddings g) (eq : P.leftSide.region g m = .ok region)
    (index : Nat) : ∃ side a b, ShowsSide P hanging g region index side a b := by
  have p : P.leftSide.Coherent := left ▸ reachable_splitSide.coherent
  have kind : P.leftSide.kindOf sideKey = .surrogate sideTag 1 := by rw [left]; decide +kernel
  have spans : Spans P.leftSide sideKey (corner 0) := by rw [left]; decide +kernel
  have spans' : Spans P.leftSide sideKey (corner 1) := by rw [left]; decide +kernel
  have only : P.leftSide.hyperedges.keys = [sideKey] := by rw [left]; decide +kernel
  have depicts := (w.labelled c).depicts p mem eq
  rw [← depicts.kind] at kind
  obtain ⟨side, found, tag, mark⟩ := kindOf_eq_surrogate_iff.1 kind
  obtain ⟨a, shown⟩ := spans.exists_node depicts
  obtain ⟨b, shown'⟩ := spans'.exists_node depicts
  have ne : a.label ≠ b.label := fun same =>
    absurd (depicts.injective _ _ a b shown shown' same) (by decide)
  have values : region.hyperedges.values ~ [side] := by
    have keys := keys_region p ((mem_embeddings p c).1 mem).2 eq
    rw [only] at keys
    rw [Table.values_eq_filterMap, List.perm_singleton.1 keys, List.filterMap_cons, ← hyperedge?, found]
    rfl
  have stored : side ∈ g.hyperedges.values :=
    mem_values_of_mem_region p w eq (mem_values_of_hyperedge? found)
  exact ⟨side, a, b, found, shown, shown', stored, tag, mark, spans.member depicts shown found,
    spans'.member depicts shown' found, ne, values,
    (rightSide_halves right found shown shown' index).trans (assemble_pair ..).symm⟩

/-- A marked side gives way to its halves. -/
theorem exchanged_halves (left : P.leftSide = splitSide.leftSide)
    (right : ∀ region index, P.right region index = halves hanging region) (t : g.Tidy)
    (mem : m ∈ P.leftSide.embeddings g) (eq : P.leftSide.region g m = .ok region) (index : Nat) :
    ∃ side a b, let new := middle hanging side a b
      region.hyperedge? sideKey = some side ∧ region.node? (corner 0) = some a ∧
        region.node? (corner 1) = some b ∧ side.tag = sideTag ∧ side.mark = 1 ∧
        side.Joins a.label b.label ∧ g.Refinement side new (halfEdges side a new b) ∧
        Exchanged side new (halfEdges side a new b) g
          (g.replace P.leftSide m (P.rightSide region index)) := by
  have p : P.leftSide.Coherent := left ▸ reachable_splitSide.coherent
  obtain ⟨side, a, b, x⟩ := exists_showsSide left right t.coherent t.wellFormed mem eq index
  have joins := t.straight.joins x.stored x.tag x.member x.member' x.ne
  let new := middle hanging side a b
  have r : g.Refinement side new (halfEdges side a new b) := .halve a b x.stored x.tag joins rfl
  rw [x.written]
  exact ⟨side, a, b, x.found, x.shown, x.shown', x.tag, x.mark, joins, r,
    exchanged_replace p t.coherent t.wellFormed mem eq x.values (r.supplies t)⟩

/-! ### Breaking -/

/-- The left side of the rule that breaks an element: its sides are split. -/
def splitRing (o : Outline) : Hypergraph := Side.graph ((o.split 1).mapError .graph)

/-- The element is marked, every other hyperedge of the pattern is an unmarked side, and the ring runs
through different nodes. -/
structure Ringed (o : Outline) : Prop where
  side : o.tag ≠ sideTag
  quad : o.tag ≠ quadTag
  element : (splitRing o).kindOf o.elementKey = .surrogate o.tag 1
  sides : ∀ key ∈ (splitRing o).hyperedges.keys, key ≠ o.elementKey →
    (splitRing o).kindOf key = .surrogate sideTag 0
  keys : ∀ k ∈ o.splitKeys, (k.1 ∈ splitRing o ∧ (splitRing o).kindOf k.1 = .regular) ∧
    k.2 ∈ splitRing o ∧ (splitRing o).kindOf k.2 = .regular
  corners : (o.splitKeys.map Prod.fst).Nodup
  nexts : (o.splitKeys.map Prod.snd).Nodup

theorem ringed_pentagon : Ringed .pentagon :=
  ⟨by decide, by decide, by decide +kernel, by decide +kernel, by decide +kernel, by decide, by decide⟩

theorem ringed_hexagon : Ringed .hexagon :=
  ⟨by decide, by decide, by decide +kernel, by decide +kernel, by decide +kernel, by decide, by decide⟩

/-- Each corner with the midpoint after it and the one before it. -/
def slices {α : Type} (ring : List (α × α)) : List ((α × α) × α) :=
  ring.zip ((ring.map Prod.snd).rotateRight 1)

theorem map_fst_slices {α : Type} (ring : List (α × α)) : (slices ring).map Prod.fst = ring := by
  apply List.map_fst_zip
  rw [(rotateRight_perm ..).length_eq, List.length_map]

theorem mem_slices {α : Type} {ring : List (α × α)} {s : (α × α) × α} (mem : s ∈ slices ring) :
    s.1 ∈ ring ∧ ∃ k ∈ ring, s.2 = k.2 := by
  obtain ⟨first, second⟩ := List.of_mem_zip mem
  rw [(rotateRight_perm ..).mem_iff, List.mem_map] at second
  obtain ⟨k, mem', eq⟩ := second
  exact ⟨first, k, mem', eq.symm⟩

theorem addSlice_eq (centre : Node) :
    addSlice centre = fun out slice => (sliceEdges centre slice).reverse.foldl insertHyperedge out := by
  funext out ⟨⟨corner, next⟩, previous⟩
  simp only [addSlice, sliceEdges, List.reverse_cons, List.reverse_nil, List.nil_append, List.cons_append,
    List.foldl_cons, List.foldl_nil]

theorem addSlices_eq (element : Hyperedge) (ring : List (Node × Node)) (back : List Hyperedge) :
    addSlices element ring (back.foldl insertHyperedge ∅) =
      assemble back element.centre (fanEdges element.centre (slices ring)) := by
  rw [addSlices, assemble, fanEdges, List.foldl_flatMap, addSlice_eq, slices]

/-- The node that each key of the ring shows. -/
def nodeRing (o : Outline) (node : Label → Node) : List (Node × Node) :=
  o.splitKeys.map fun k => (node k.1, node k.2)

theorem nodup_slices {node : Label → Node} (label : Node × Node → Label) (key : Label × Label → Label)
    (keys : (o.splitKeys.map key).Nodup)
    (shows : ∀ k ∈ o.splitKeys, ∀ k' ∈ o.splitKeys,
      label (node k.1, node k.2) = label (node k'.1, node k'.2) → key k = key k') :
    ((slices (nodeRing o node)).map fun s => label s.1).Nodup := by
  rw [show (fun s : (Node × Node) × Node => label s.1) = label ∘ Prod.fst from rfl, ← List.map_map,
    map_fst_slices, nodeRing, List.map_map]
  refine List.Nodup.map_on (fun k mem k' mem' same => ?_) (.of_map _ keys)
  exact List.inj_on_of_nodup_map keys mem mem' (shows k mem k' mem' same)

theorem Ringed.refinement (ringed : Ringed o) {node : Label → Node} (stored : element ∈ g.hyperedges.values)
    (tag : element.tag = o.tag)
    (known : ∀ k ∈ o.splitKeys, (node k.1).label ∈ g.nodes ∧ (node k.2).label ∈ g.nodes)
    (corners : ∀ k ∈ o.splitKeys, ∀ k' ∈ o.splitKeys, (node k.1).label = (node k'.1).label → k.1 = k'.1)
    (nexts : ∀ k ∈ o.splitKeys, ∀ k' ∈ o.splitKeys, (node k.2).label = (node k'.2).label → k.2 = k'.2) :
    g.Refinement element element.centre (fanEdges element.centre (slices (nodeRing o node))) := by
  refine .fan stored (tag ▸ ringed.side) (tag ▸ ringed.quad)
    (nodup_slices (·.1.label) Prod.fst ringed.corners corners)
    (nodup_slices (·.2.label) Prod.snd ringed.nexts nexts) fun s mem => ?_
  have inside {q : Node × Node} (mem : q ∈ nodeRing o node) : q.1.label ∈ g.nodes ∧ q.2.label ∈ g.nodes := by
    obtain ⟨k, key, rfl⟩ := List.mem_map.1 mem
    exact known k key
  obtain ⟨first, q, second, eq⟩ := mem_slices mem
  exact ⟨(inside first).1, (inside first).2, eq ▸ (inside second).2⟩

theorem rightSide_breakElement (name : String) (index : Nat) {node : Label → Node}
    (found : region.hyperedge? o.elementKey = some element)
    (shown : ∀ k ∈ o.splitKeys, region.node? k.1 = some (node k.1) ∧ region.node? k.2 = some (node k.2)) :
    (breakElement name o).rightSide region index =
      assemble (sides region) element.centre (fanEdges element.centre (slices (nodeRing o node))) := by
  have nodes : o.splitKeys.mapM (fun k => do
      return (← region.requireNode k.1, ← region.requireNode k.2)) = .ok (nodeRing o node) := by
    apply mapM_eq_pure
    intro k mem
    simp only [requireNode, (shown _ mem).1, (shown _ mem).2]
    rfl
  simp only [Production.rightSide, breakElement, requireHyperedge, found, nodes]
  rw [← addSlices_eq]
  rfl

/-- A region shows a marked element, and the nodes of the ring around it. -/
theorem Ringed.exists_ring (ringed : Ringed o) (shows : (splitRing o).Shows region) :
    ∃ (element : Hyperedge) (node : Label → Node), region.hyperedge? o.elementKey = some element ∧
      element.tag = o.tag ∧ element.mark = 1 ∧ ∀ k ∈ o.splitKeys,
        region.node? k.1 = some (node k.1) ∧ region.node? k.2 = some (node k.2) := by
  obtain ⟨element, found, tag, mark⟩ := kindOf_eq_surrogate_iff.1 ((shows.kind _).trans ringed.element)
  obtain ⟨node, nodes⟩ := shows.exists_nodes
  refine ⟨element, node, found, tag, mark, fun k mem => ?_⟩
  obtain ⟨⟨vertex, regular⟩, vertex', regular'⟩ := ringed.keys k mem
  exact ⟨nodes _ vertex regular, nodes _ vertex' regular'⟩

/-- An element gives way to what is supplied. -/
theorem Ringed.exchanged_of_supplies (ringed : Ringed o) (name : String) (c : g.Coherent) (w : g.WellFormed)
    (mem : m ∈ (splitRing o).embeddings g) (eq : (splitRing o).region g m = .ok region) (index : Nat)
    {node : Label → Node} (found : region.hyperedge? o.elementKey = some element)
    (tag : element.tag = o.tag)
    (shown : ∀ k ∈ o.splitKeys, region.node? k.1 = some (node k.1) ∧ region.node? k.2 = some (node k.2))
    (supplies : g.Supplies element.centre (fanEdges element.centre (slices (nodeRing o node)))) :
    Exchanged element element.centre (fanEdges element.centre (slices (nodeRing o node))) g
      (g.replace (splitRing o) m ((breakElement name o).rightSide region index)) := by
  have p : (splitRing o).Coherent := (reachable_breakElement name o).coherent
  have embeds := ((mem_embeddings p c).1 mem).2
  have values := values_region_of_sides p w embeds eq found (tag ▸ ringed.side)
    fun k stored ne => ⟨0, ringed.sides k stored ne⟩
  rw [rightSide_breakElement name index found shown]
  exact exchanged_replace p c w mem eq (values.trans List.perm_append_comm) supplies

/-- A marked element gives way to slices around its centre. -/
theorem Ringed.exchanged (ringed : Ringed o) (name : String) (t : g.Tidy)
    (mem : m ∈ (splitRing o).embeddings g) (eq : (splitRing o).region g m = .ok region) (index : Nat) :
    ∃ (element : Hyperedge) (node : Label → Node), region.hyperedge? o.elementKey = some element ∧
      element.tag = o.tag ∧ element.mark = 1 ∧ (∀ k ∈ o.splitKeys, region.node? k.1 = some (node k.1) ∧
        region.node? k.2 = some (node k.2)) ∧
      g.Refinement element element.centre (fanEdges element.centre (slices (nodeRing o node))) ∧
      Exchanged element element.centre (fanEdges element.centre (slices (nodeRing o node))) g
        (g.replace (splitRing o) m ((breakElement name o).rightSide region index)) := by
  have p : (splitRing o).Coherent := (reachable_breakElement name o).coherent
  have w := t.wellFormed
  have depicts := (w.labelled t.coherent).depicts p mem eq
  obtain ⟨element, node, found, tag, mark, shown⟩ := ringed.exists_ring depicts.shows
  have known {key : Label} (found : region.node? key = some (node key)) : (node key).label ∈ g.nodes :=
    mem_nodes_iff.2 ⟨_, (node?_of_region w eq found).2⟩
  have stored : element ∈ g.hyperedges.values :=
    mem_values_of_mem_region p w eq (mem_values_of_hyperedge? found)
  have r := ringed.refinement stored tag
    (fun k mem => ⟨known (shown k mem).1, known (shown k mem).2⟩)
    (fun k mem k' mem' => depicts.injective _ _ _ _ (shown k mem).1 (shown k' mem').1)
    (fun k mem k' mem' => depicts.injective _ _ _ _ (shown k mem).2 (shown k' mem').2)
  exact ⟨element, node, found, tag, mark, shown, r, ringed.exchanged_of_supplies name t.coherent w mem eq
    index found tag shown (r.supplies t)⟩

end Rules

end Hypermesh
