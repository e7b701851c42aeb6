import Hypermesh.Proofs.Enclosing

/-!
A pentagon with split sides is broken around its centre. Each corner lies between two halves, so that the
spokes close a ring around its quad. A host whose quads all lie in such rings has every one of them marked.
-/

namespace Hypermesh

open Rules
open scoped List

namespace Hypergraph

/-- Every other element, from the first one on. -/
def alternate {α : Type} : List α → List α
  | a :: _ :: l => a :: alternate l
  | l => l

theorem map_alternate {α β : Type} (f : α → β) (l : List α) : (alternate l).map f = alternate (l.map f) := by
  induction l using alternate.induct with
  | case1 a b l ih => simp [alternate, ih]
  | case2 l short =>
    match l with
    | [] => rfl
    | [a] => rfl
    | a :: b :: l => exact absurd rfl (short a b l)

theorem alternate_flatMap {α β : Type} (f g : α → β) (l : List α) :
    alternate (l.flatMap fun a => [f a, g a]) = l.map f := by
  induction l with
  | nil => rfl
  | cons a l ih => simp [alternate, ih]

end Hypergraph

namespace Rules

open Hypermesh.Hypergraph

variable {g h region pattern : Hypergraph} {m : Embedding} {ring : List Label} {sides : List Hyperedge}
  {element : Hyperedge} {s : Settings}

theorem slices_map {α β : Type} (f : α → β) (ring : List (α × α)) :
    slices (ring.map (Prod.map f f)) = (slices ring).map (Prod.map (Prod.map f f) f) := by
  have rotated (l : List α) : (l.map f).rotateRight 1 = (l.rotateRight 1).map f := by
    simp only [List.rotateRight, List.length_map]
    split <;> simp
  have seconds : (ring.map (Prod.map f f)).map Prod.snd = (ring.map Prod.snd).map f := by simp
  rw [slices, seconds, rotated, List.zip_map, slices]

theorem polygon_breakPentagon : (splitRing .pentagon).Polygon
    (Outline.pentagon.splitKeys.flatMap fun k => [k.1, k.2]) 0 Outline.pentagon.tag 1
    (Outline.pentagon.splitKeys.map Prod.fst) := (grows_breakElement "" .pentagon).polygon (by decide +kernel)

/-- A corner with the midpoints on both sides of it. -/
def trio {α : Type} (slice : (α × α) × α) : List α := [slice.1.1, slice.1.2, slice.2]

/-- An unmarked side of the pattern joins the two keys, and no other of those listed. -/
def Linked (pattern : Hypergraph) (keys : List Label) (k k' : Label) : Prop :=
  ∃ key ∈ pattern.hyperedges.keys, pattern.kindOf key = .surrogate sideTag 0 ∧
    ∀ l ∈ keys, l ∈ pattern.neighbours key ↔ l = k ∨ l = k'

instance (pattern : Hypergraph) (keys : List Label) (k k' : Label) : Decidable (Linked pattern keys k k') :=
  inferInstanceAs (Decidable (∃ key ∈ pattern.hyperedges.keys, _))

/-- In the split ring of an outline each corner lies between two halves. -/
def CornersLinked (o : Outline) : Prop :=
  ∀ q ∈ slices o.splitKeys, (trio q).Nodup ∧ Linked (splitRing o) (trio q) q.1.1 q.1.2 ∧
    Linked (splitRing o) (trio q) q.2 q.1.1

instance (o : Outline) : Decidable (CornersLinked o) :=
  inferInstanceAs (Decidable (∀ q ∈ slices o.splitKeys, _))

theorem cornersLinked_pentagon : CornersLinked .pentagon := by decide +kernel

theorem Linked.bounds {node : Label → Node} {keys : List Label} {k k' : Label}
    (linked : Linked pattern keys k k') (p : pattern.Coherent) (c : g.Coherent) (w : g.WellFormed)
    (mem : m ∈ pattern.embeddings g) (eq : pattern.region g m = .ok region)
    (shown : ∀ l ∈ keys, region.node? l = some (node l)) (first : k ∈ keys) (second : k' ∈ keys) :
    g.Bounds 0 (keys.map fun l => (node l).label) (node k).label (node k').label := by
  obtain ⟨key, -, kind, ends⟩ := linked
  have depicts := (w.labelled c).depicts p mem eq
  have embeds := ((mem_embeddings p c).1 mem).2
  obtain ⟨side, found, tag, mark⟩ := kindOf_eq_surrogate_iff.1 ((depicts.kind key).trans kind)
  refine ⟨side, mem_values_of_mem_region p w eq (mem_values_of_hyperedge? found), tag, mark, ?_⟩
  rw [List.forall_mem_map]
  intro l listed
  have same {l' : Label} (mem' : l' ∈ keys) : l = l' ↔ (node l).label = (node l').label :=
    ⟨fun eq => eq ▸ rfl, depicts.injective l l' _ _ (shown l listed) (shown l' mem')⟩
  rw [member_iff_of_region embeds p w eq (shown l listed) found, ends l listed, same first, same second]

/-- A corner between two unmarked sides, with the nodes that these lead to. -/
structure Flanked (g : Hypergraph) (slice : (Node × Node) × Node) : Prop where
  known : ∀ n ∈ trio slice, n.label ∈ g.nodes
  nodup : ((trio slice).map Node.label).Nodup
  front : g.Bounds 0 ((trio slice).map Node.label) slice.1.1.label slice.1.2.label
  back : g.Bounds 0 ((trio slice).map Node.label) slice.2.label slice.1.1.label

theorem CornersLinked.flanked {o : Outline} {node : Label → Node} (linked : CornersLinked o) (c : g.Coherent)
    (w : g.WellFormed) (mem : m ∈ (splitRing o).embeddings g) (eq : (splitRing o).region g m = .ok region)
    (nodes : ∀ k ∈ o.splitKeys,
      region.node? k.1 = some (node k.1) ∧ region.node? k.2 = some (node k.2)) :
    ∀ slice ∈ slices (nodeRing o node), Flanked g slice := by
  have p : (splitRing o).Coherent := (reachable_breakElement "" o).coherent
  have depicts := (w.labelled c).depicts p mem eq
  have ring : slices (nodeRing o node) =
    (slices o.splitKeys).map (Prod.map (Prod.map node node) node) := slices_map ..
  rw [ring, List.forall_mem_map]
  intro q slice
  obtain ⟨key, k, key', same⟩ := mem_slices slice
  obtain ⟨nodup, front, back⟩ := linked q slice
  have shown : ∀ k ∈ trio q, region.node? k = some (node k) := by
    have previous : region.node? q.2 = some (node q.2) := same ▸ (nodes k key').2
    simp [trio, (nodes _ key).1, (nodes _ key).2, previous]
  have labels : (trio (Prod.map (Prod.map node node) node q)).map Node.label =
      (trio q).map fun k => (node k).label := rfl
  refine ⟨?known, ?nodup, ?front, ?back⟩
  case known =>
    have all : ∀ k ∈ trio q, (node k).label ∈ g.nodes := fun k mem =>
      mem_nodes_iff.2 ⟨_, (node?_of_region w eq (shown k mem)).2⟩
    simpa [trio] using all
  case nodup =>
    rw [labels]
    exact nodup.map_on fun k mem k' mem' same =>
      depicts.injective k k' _ _ (shown k mem) (shown k' mem') same
  case front =>
    rw [labels]
    exact front.bounds p c w mem eq shown (by simp [trio]) (by simp [trio])
  case back =>
    rw [labels]
    exact back.bounds p c w mem eq shown (by simp [trio]) (by simp [trio])

/-- The quad of a flanked corner lies in a ring of unmarked sides, once the spokes are there. -/
theorem Flanked.encircled {slice : (Node × Node) × Node} {centre : Node} (flanked : Flanked g slice)
    (w : g.WellFormed) (fresh : ¬ centre.label ∈ g.nodes)
    (nodes : ∀ l, l ∈ h.nodes ↔ l = centre.label ∨ l ∈ g.nodes)
    (kept : ∀ e ∈ g.hyperedges.values, e.tag = sideTag → e ∈ h.hyperedges.values)
    (spoke : (Hyperedge.side slice.1.2 centre).withBoundary false ∈ h.hyperedges.values)
    (spoke' : (Hyperedge.side slice.2 centre).withBoundary false ∈ h.hyperedges.values) :
    h.Encircled 0 [slice.1.1.label, slice.1.2.label, centre.label, slice.2.label] := by
  have nodup := flanked.nodup
  obtain ⟨corner, next, previous⟩ : slice.1.1.label ∈ g.nodes ∧ slice.1.2.label ∈ g.nodes ∧
      slice.2.label ∈ g.nodes := by simpa [trio] using flanked.known
  have ne {n : Node} (mem : n.label ∈ g.nodes) : n.label ≠ centre.label := fun same => fresh (same ▸ mem)
  have rotated : [slice.1.1.label, slice.1.2.label, centre.label, slice.2.label] ~
      centre.label :: (trio slice).map Node.label :=
    ((List.Perm.swap ..).cons _).trans (.swap ..)
  refine ⟨?nodup, ?node, ?side⟩
  case nodup =>
    rw [rotated.nodup_iff, List.nodup_cons]
    refine ⟨?_, nodup⟩
    simp [trio, (ne corner).symm, (ne next).symm, (ne previous).symm]
  case node => simp [nodes, corner, next, previous]
  case side =>
    -- The centre is new, so it is no member of a side that was there.
    have keeps {a b : Node} (side : g.Bounds 0 ((trio slice).map Node.label) a.label b.label)
        (first : a.label ∈ g.nodes) (second : b.label ∈ g.nodes) :
        h.Bounds 0 [slice.1.1.label, slice.1.2.label, centre.label, slice.2.label] a.label b.label := by
      obtain ⟨e, mem, tag, mark, ends⟩ := side
      refine ⟨e, kept e mem tag, tag, mark, fun l listed => ?_⟩
      rcases List.mem_cons.1 (rotated.mem_iff.1 listed) with rfl | old
      · refine iff_of_false (fun member => fresh (w.mem_nodes ⟨e, w.mem_values_iff.1 mem, member⟩)) ?_
        simp [(ne first).symm, (ne second).symm]
      · exact ends l old
    have joins {e : Hyperedge} {a b : Label} {ring : List Label} (mem : e ∈ h.hyperedges.values)
        (kind : e.tag = sideTag ∧ e.mark = 0) (joins : e.Joins a b) : h.Bounds 0 ring a b :=
      ⟨e, mem, kind.1, kind.2, fun _ _ => joins.mem_iff⟩
    have ring : pairs [slice.1.1.label, slice.1.2.label, centre.label, slice.2.label] =
      [(slice.1.1.label, slice.1.2.label), (slice.1.2.label, centre.label),
        (centre.label, slice.2.label), (slice.2.label, slice.1.1.label)] := rfl
    simp only [ring, List.forall_mem_cons]
    exact ⟨keeps flanked.front corner next, joins spoke ⟨rfl, rfl⟩ (Or.inl rfl),
      joins spoke' ⟨rfl, rfl⟩ (Or.inr rfl), keeps flanked.back previous corner, nofun⟩

/-- A host in which the pentagon has been broken around its centre, into slices of the ring. -/
structure Fanned (g : Hypergraph) (centre : Node) (slices : List ((Node × Node) × Node))
    (sides : List Hyperedge) : Prop where
  tidy : g.Tidy
  values : g.hyperedges.values ~ fanEdges centre slices ++ sides
  side : ∀ e ∈ sides, e.tag = sideTag ∧ e.mark = 0 ∧ e.onBoundary = true
  firm : ∀ n ∈ g.nodes.values, n.hanging = false
  slice : ∀ q ∈ slices, g.Encircled 0 [q.1.1.label, q.1.2.label, centre.label, q.2.label]

theorem length_slices {α : Type} (ring : List (α × α)) : (slices ring).length = ring.length := by
  rw [← List.length_map (f := Prod.fst), map_fst_slices]

/-- The node before a corner comes after another one. -/
theorem exists_previous {α : Type} {ring : List (α × α)} {slice : (α × α) × α} (mem : slice ∈ slices ring) :
    ∃ other ∈ slices ring, other.1.2 = slice.2 := by
  obtain ⟨-, k, mem, same⟩ := mem_slices mem
  rw [← map_fst_slices ring, List.mem_map] at mem
  obtain ⟨other, mem, rfl⟩ := mem
  exact ⟨other, mem, same.symm⟩

theorem exists_embedding_breakPentagon (x : g.Enclosed 0 (subdivide Label.midpoint ring) sides element)
    (members : element.memberLabels = ring) (five : ring.length = 5) :
    ∃ m, m ∈ (splitRing .pentagon).embeddings g := by
  obtain ⟨f, eq⟩ : ∃ f, (Outline.pentagon.splitKeys.flatMap fun k => [k.1, k.2]).map f =
      subdivide Label.midpoint ring := exists_map_eq (by decide) (by rw [length_subdivide, five]; rfl)
  have spanned : element.memberLabels = (Outline.pentagon.splitKeys.map Prod.fst).map f := by
    rw [← alternate_flatMap Prod.fst Prod.snd, map_alternate, eq, subdivide, alternate_flatMap,
      map_fst_pairs, members]
  obtain ⟨m, found, -⟩ := polygon_breakPentagon.exists_embedding x.tidy.coherent x.tidy.wellFormed
    (eq ▸ x.encircled) (x.mem_values.2 (Or.inr rfl)) x.tag x.marked spanned
  exact ⟨m, found⟩

/-- The pentagon gives way to slices at flanked corners, each next to another. -/
theorem fanned_of_exchanged {slices : List ((Node × Node) × Node)} (x : g.Enclosed 0 ring sides element)
    (r : g.Refinement element element.centre (fanEdges element.centre slices))
    (exchanged : Exchanged element element.centre (fanEdges element.centre slices) g h)
    (flanked : ∀ slice ∈ slices, Flanked g slice)
    (previous : ∀ slice ∈ slices, ∃ other ∈ slices, other.1.2 = slice.2) :
    Fanned h element.centre slices sides := by
  have values : h.hyperedges.values ~ fanEdges element.centre slices ++ sides := by
    have whole := exchanged.hyperedges.trans (x.values.append_left _)
    rw [← List.append_assoc] at whole
    exact (whole.trans (List.perm_append_singleton ..)).cons_inv
  refine ⟨x.tidy.refined r exchanged, values, ?side, ?firm, ?slice⟩
  case side =>
    intro e mem
    obtain ⟨tag, mark, boundary, -⟩ := x.side e mem
    exact ⟨tag, mark, boundary⟩
  case firm =>
    intro n mem
    rcases List.mem_cons.1 (exchanged.nodes.mem_iff.1 mem) with rfl | mem
    · rfl
    · exact x.firm n mem
  case slice =>
    intro slice mem
    have stays {e : Hyperedge} (mem : e ∈ fanEdges element.centre slices) :=
      values.mem_iff.2 (List.mem_append_left sides mem)
    apply (flanked slice mem).encircled x.tidy.wellFormed (r.node_fresh x.tidy).2 fun _ =>
      exchanged.mem_nodes_iff x.tidy.wellFormed
    · intro e mem side
      refine values.mem_iff.2 (List.mem_append_right _ ((x.mem_values.1 mem).resolve_right ?_))
      exact fun same => x.tag_ne (same ▸ side)
    · exact stays (mem_fanEdges.2 ⟨slice, mem, Or.inl rfl⟩)
    · obtain ⟨other, mem, same⟩ := previous slice mem
      rw [← same]
      exact stays (mem_fanEdges.2 ⟨other, mem, Or.inl rfl⟩)

theorem Fanned.rests {centre : Node} {slices : List ((Node × Node) × Node)}
    (fanned : Fanned g centre slices sides) (s : Settings) : breakPentagon.Rests s g := by
  have p : breakPentagon.leftSide.Coherent := (reachable_breakElement "" .pentagon).coherent
  apply Production.rests_of_lacks s p fanned.tidy.coherent ringed_pentagon.element
  intro e mem pentagon
  rcases List.mem_append.1 (fanned.values.mem_iff.1 mem) with mem | mem
  · rcases tag_of_mem_fanEdges mem with eq | eq <;> exact absurd (eq.symm.trans pentagon) (by decide)
  · exact absurd ((fanned.side e mem).1.symm.trans pentagon) (by decide)

theorem ends_breakPentagon (x : g.Enclosed 0 (subdivide Label.midpoint ring) sides element)
    (members : element.memberLabels = ring) (five : ring.length = 5) (s : Settings) :
    ∃ h slices, breakPentagon.Ends s g 1 h ∧ slices.length = 5 ∧ Fanned h element.centre slices sides ∧
      h.nodes.size = g.nodes.size + 1 := by
  have p : breakPentagon.leftSide.Coherent := (reachable_breakElement "" .pentagon).coherent
  obtain ⟨m₀, found⟩ := exists_embedding_breakPentagon x members five
  obtain ⟨m, region, mem, shown, applies⟩ :=
    Production.exists_applies (P := breakPentagon) (fun _ => rfl) s p x.tidy.coherent found
  obtain ⟨broken, node, -, tag, -, nodes, r, exchanged⟩ :=
    ringed_pentagon.exchanged "pentagon/break" x.tidy mem shown 0
  -- The host has one pentagon only.
  obtain rfl : broken = element := by
    refine (x.mem_values.1 r.stored).resolve_left fun mem => ?_
    exact absurd ((x.side broken mem).1.symm.trans tag) (by decide)
  have flanked := cornersLinked_pentagon.flanked x.tidy.coherent x.tidy.wellFormed mem shown nodes
  have fanned := fanned_of_exchanged x r exchanged flanked fun _ => exists_previous
  refine ⟨_, slices (nodeRing .pentagon node), .applies applies (.rests (fanned.rests s)), ?_,
    fanned, exchanged.size_nodes⟩
  rw [length_slices]
  rfl

/-! ### The quads are marked -/

theorem polygon_markQuad : (unmarked .quad).Polygon (Outline.quad.spanned.map corner) 0 quadTag 0
    (Outline.quad.spanned.map corner) := (grows_markElement "" .quad).polygon (by decide +kernel)

/-- An unmarked quad in a ring of unmarked sides can be marked. -/
theorem mem_images_quad (c : g.Coherent) (w : g.WellFormed) (stored : element ∈ g.hyperedges.values)
    (tag : element.tag = quadTag) (mark : element.mark = 0) (four : element.memberLabels.length = 4)
    (encircled : g.Encircled 0 element.memberLabels) :
    element.label ∈ images (unmarked .quad) g Outline.quad.elementKey := by
  obtain ⟨f, eq⟩ : ∃ f, (Outline.quad.spanned.map corner).map f = element.memberLabels :=
    exists_map_eq (by decide) (by rw [four]; rfl)
  obtain ⟨m, mem, image⟩ := polygon_markQuad.exists_embedding c w (eq ▸ encircled) stored tag mark eq.symm
  obtain ⟨e, found, tag', -⟩ := kindOf_eq_surrogate_iff.1 framed_quad.element
  have label := polygon_markQuad.wellFormed.hyperedge_label _ e found
  refine (framed_quad.mem_images c).2 ⟨m, mem, ?_⟩
  rw [← label]
  exact image e (Table.mem_values.2 ⟨_, found⟩) tag' (by decide)

section Quads

variable (c : g.Coherent) (w : g.WellFormed)
  (quads : ∀ e ∈ g.hyperedges.values, e.tag = quadTag →
    e.mark = 0 ∧ e.memberLabels.length = 4 ∧ g.Encircled 0 e.memberLabels)
include c w quads

theorem images_quad_perm : images (unmarked .quad) g Outline.quad.elementKey ~
    (g.hyperedges.values.filter (·.tag ∈ [quadTag])).map Hyperedge.label := by
  rw [List.perm_ext_iff_of_nodup (nodup_images ..) (w.labels_nodup.sublist (List.filter_sublist.map _))]
  intro l
  rw [List.mem_map]
  constructor
  · intro mem
    obtain ⟨e, found, tag, -⟩ := framed_quad.source c mem
    exact ⟨e, List.mem_filter.2 ⟨Table.mem_values.2 ⟨l, found⟩, decide_eq_true (List.mem_singleton.2 tag)⟩,
      w.hyperedge_label l e found⟩
  · rintro ⟨e, mem, rfl⟩
    obtain ⟨mem, tag⟩ := List.mem_filter.1 mem
    have tag : e.tag = quadTag := List.mem_singleton.1 (of_decide_eq_true tag)
    obtain ⟨mark, four, encircled⟩ := quads e mem tag
    exact mem_images_quad c w mem tag mark four encircled

/-- The run marks every quad of a host whose quads all lie in rings of unmarked sides. -/
theorem ends_markQuad (s : Settings) :
    ∃ h ts, markQuad.Ends s g (g.tally [quadTag]) h ∧ Revised (markAt ts) g h ∧ h.WellFormed ∧
      ∀ e ∈ h.hyperedges.values, e.tag = quadTag → e.mark = 1 := by
  obtain ⟨h, ends, marked⟩ := framed_quad.ends "quad/mark" s c w
  have count := (images_quad_perm c w quads).length_eq
  rw [List.length_map, ← List.countP_eq_length_filter] at count
  rw [count] at ends
  refine ⟨h, _, ends, marked.revised, marked.wellFormed, fun e mem tag => ?_⟩
  have keeps := keepsMembers_markAt (images (unmarked .quad) g Outline.quad.elementKey)
  rw [(marked.revised.values_perm w marked.wellFormed keeps).mem_iff, List.mem_map] at mem
  obtain ⟨e, mem, rfl⟩ := mem
  have tag : e.tag = quadTag := (keeps e.label e).1.symm.trans tag
  obtain ⟨mark, four, encircled⟩ := quads e mem tag
  rw [markAt, if_pos (mem_images_quad c w mem tag mark four encircled)]
  rfl

end Quads

end Rules

end Hypermesh
