import Hypermesh.Proofs.Fanning

/-!
What is left of an element that is broken. Its sides stay, and a fan of quads around a new centre takes its
place: each half of a side belongs to one quad, each spoke to the two quads on its sides. The quads can be
marked at once, whatever members the hyperedges around them have besides.
-/

namespace Hypermesh.Rules

open Hypermesh.Hypergraph
open scoped List

variable {o : Outline} {g h host region : Hypergraph} {m : Embedding} {element : Hyperedge}
  {node : Label → Node}

/-! ### The split ring of an outline -/

/-- The keys of the corners and midpoints. -/
def ringKeys (o : Outline) : List Label := o.splitKeys.flatMap fun k => [k.1, k.2]

/-- The keys of the halves. -/
def halfKeys (o : Outline) : List Label := (splitRing o).hyperedges.keys.filter (· ≠ o.elementKey)

/-- How the slices of a split ring meet: a half lies in one of them, as a corner does, a midpoint in two. -/
structure Sliced (o : Outline) : Prop where
  linked : CornersLinked o
  halves : (halfKeys o).length = 2 * o.sides
  two : ∀ key ∈ halfKeys o, ((splitRing o).neighbours key).length = 2
  ends : ∀ key ∈ halfKeys o, ∀ k ∈ (splitRing o).neighbours key, k ∈ ringKeys o
  half : ∀ key ∈ halfKeys o,
    (slices o.splitKeys).countP (fun q => ∀ k ∈ (splitRing o).neighbours key, k ∈ trio q) = 1
  corner : ∀ k ∈ o.splitKeys, (slices o.splitKeys).countP (fun q => k.1 ∈ trio q) = 1
  midpoint : ∀ k ∈ o.splitKeys, (slices o.splitKeys).countP (fun q => k.2 ∈ trio q) = 2

theorem sliced_pentagon : Sliced .pentagon :=
  ⟨cornersLinked_pentagon, by decide +kernel, by decide +kernel, by decide +kernel, by decide +kernel,
    by decide +kernel, by decide +kernel⟩

theorem sliced_hexagon : Sliced .hexagon :=
  ⟨by decide +kernel, by decide +kernel, by decide +kernel, by decide +kernel, by decide +kernel,
    by decide +kernel, by decide +kernel⟩

/-! ### Fans -/

/-- An element that is broken, and the nodes of its split ring: each corner with the midpoint after it. -/
structure Fan where
  element : Hyperedge
  ring : List (Node × Node)

namespace Fan

variable (f : Fan)

def centre : Node := f.element.centre

/-- Inner sides from the midpoints to the centre. -/
def spokes : List Hyperedge := f.ring.map fun k => (Hyperedge.side k.2 f.centre).withBoundary false

/-- One quad for each corner, over the centre and the midpoints after and before the corner. -/
def quads : List Hyperedge :=
  (slices f.ring).map fun q => (Hyperedge.quad q.1.1 q.1.2 f.centre q.2).withBoundary false

/-- The labels that come in. -/
def labels : List Label := f.centre.label :: (f.spokes ++ f.quads).map Hyperedge.label

theorem spokes_eq : f.spokes =
    (slices f.ring).map fun q => (Hyperedge.side q.1.2 f.centre).withBoundary false := by
  rw [spokes, ← map_fst_slices f.ring, List.map_map, map_fst_slices]
  rfl

theorem fanEdges_perm : fanEdges f.centre (slices f.ring) ~ f.spokes ++ f.quads := by
  have pairs : fanEdges f.centre (slices f.ring) = (slices f.ring).flatMap fun q =>
      [(Hyperedge.side q.1.2 f.centre).withBoundary false] ++
        [(Hyperedge.quad q.1.1 q.1.2 f.centre q.2).withBoundary false] := rfl
  rw [pairs, spokes_eq, quads, List.map_eq_flatMap, List.map_eq_flatMap]
  exact (List.flatMap_append_perm ..).symm

theorem length_spokes : f.spokes.length = f.ring.length := List.length_map _

theorem length_quads : f.quads.length = f.ring.length := by rw [quads, List.length_map, length_slices]

theorem spoke_kind {e : Hyperedge} (mem : e ∈ f.spokes) :
    e.tag = sideTag ∧ e.mark = 0 ∧ e.attributes.boundary = some false := by
  obtain ⟨k, -, rfl⟩ := List.mem_map.1 mem
  exact ⟨rfl, rfl, rfl⟩

theorem quad_kind {e : Hyperedge} (mem : e ∈ f.quads) :
    e.tag = quadTag ∧ e.mark = 0 ∧ e.attributes.boundary = some false := by
  obtain ⟨q, -, rfl⟩ := List.mem_map.1 mem
  exact ⟨rfl, rfl, rfl⟩

/-- Labels that are new and different let the fan come in. -/
theorem supplies (known : ∀ k ∈ f.ring, k.1.label ∈ g.nodes ∧ k.2.label ∈ g.nodes)
    (nodup : f.labels.Nodup) (fresh : ∀ l ∈ f.labels, ¬ l ∈ g) :
    g.Supplies f.centre (f.spokes ++ f.quads) := by
  obtain ⟨apart, nodup⟩ := List.nodup_cons.1 nodup
  obtain ⟨fresh, others⟩ := List.forall_mem_cons.1 fresh
  refine ⟨fresh, fun e mem => others _ (List.mem_map_of_mem mem),
    fun e mem same => apart (same ▸ List.mem_map_of_mem mem), nodup, fun e comes => ?_⟩
  rcases List.mem_append.1 comes with spoke | quad
  · obtain ⟨k, mem, rfl⟩ := List.mem_map.1 spoke
    simp [(known k mem).2]
  · obtain ⟨q, mem, rfl⟩ := List.mem_map.1 quad
    obtain ⟨first, k, second, same⟩ := mem_slices mem
    simp [(known _ first).1, (known _ first).2, same, (known k second).2]

end Fan

/-- The node that a match sends a key to. -/
def nodeAt? (host : Hypergraph) (m : Embedding) (key : Label) : Option Node :=
  (m.find? key).bind host.node?

/-- The fan that belongs to a match: its element and its ring are what the pattern's are sent to. -/
def fan? (o : Outline) (host : Hypergraph) (m : Embedding) : Option Fan := do
  let element ← (m.find? o.elementKey).bind host.hyperedge?
  let ring ← o.splitKeys.mapM fun k => return (← nodeAt? host m k.1, ← nodeAt? host m k.2)
  return ⟨element, ring⟩

/-- The nodes that a match sends the keys of the ring to. -/
def Places (o : Outline) (host : Hypergraph) (m : Embedding) (node : Label → Node) : Prop :=
  ∀ k ∈ ringKeys o, m.find? k = some (node k).label ∧ host.node? (node k).label = some (node k)

theorem forall_mem_ringKeys {p : Label → Prop} :
    (∀ k ∈ ringKeys o, p k) ↔ ∀ k ∈ o.splitKeys, p k.1 ∧ p k.2 := by
  simp only [ringKeys, List.forall_mem_flatMap, List.forall_mem_cons, List.not_mem_nil, false_imp_iff,
    implies_true, and_true]

theorem mem_ringKeys {k : Label × Label} (mem : k ∈ o.splitKeys) : k.1 ∈ ringKeys o ∧ k.2 ∈ ringKeys o :=
  forall_mem_ringKeys.1 (fun _ => id) k mem

theorem mem_ringKeys_of_trio {q : (Label × Label) × Label} {k : Label} (mem : q ∈ slices o.splitKeys)
    (listed : k ∈ trio q) : k ∈ ringKeys o := by
  obtain ⟨first, k', second, same⟩ := mem_slices mem
  simp only [trio, List.mem_cons, List.not_mem_nil, or_false] at listed
  rcases listed with rfl | rfl | rfl
  · exact (mem_ringKeys first).1
  · exact (mem_ringKeys first).2
  · exact same ▸ (mem_ringKeys second).2

/-! ### Which quads meet where -/

section Counts

variable (embeds : (splitRing o).Embeds host m) (places : Places o host m node)
  (fresh : ¬ element.centre.label ∈ host)
include embeds places fresh

/-- Of the nodes of the ring, a quad has those of its slice as members. -/
theorem mem_quad_iff (c : host.Coherent) {q : (Label × Label) × Label} {k : Label}
    (slice : q ∈ slices o.splitKeys) (mem : k ∈ ringKeys o) :
    (node k).label ∈ ((Hyperedge.quad (node q.1.1) (node q.1.2) element.centre (node q.2)).withBoundary
      false).memberLabels ↔ k ∈ trio q := by
  have ne : (node k).label ≠ element.centre.label := fun same =>
    fresh (same ▸ (c.mem_iff _).2 (Or.inl (mem_nodes_iff.2 ⟨_, (places k mem).2⟩)))
  have same (k' : Label) (listed : k' ∈ trio q) : (node k).label = (node k').label ↔ k = k' := by
    refine ⟨fun same => ?_, fun eq => eq ▸ rfl⟩
    exact embeds.injective k k' _ (places k mem).1 (same ▸ (places k' (mem_ringKeys_of_trio slice listed)).1)
  have corner := same q.1.1 (by simp [trio])
  have next := same q.1.2 (by simp [trio])
  have previous := same q.2 (by simp [trio])
  have labels : ((Hyperedge.quad (node q.1.1) (node q.1.2) element.centre (node q.2)).withBoundary
      false).memberLabels =
    [(node q.1.1).label, (node q.1.2).label, element.centre.label, (node q.2).label] := rfl
  simp only [labels, trio, List.mem_cons, List.not_mem_nil, or_false, corner, next, previous, ne, false_or]

/-- How many quads have all of some nodes of the ring as members. -/
theorem countP_quads (c : host.Coherent) {keys : List Label} (inside : ∀ k ∈ keys, k ∈ ringKeys o) :
    (Fan.quads ⟨element, nodeRing o node⟩).countP
        (fun e => ∀ l ∈ keys.map fun k => (node k).label, l ∈ e.memberLabels) =
      (slices o.splitKeys).countP fun q => ∀ k ∈ keys, k ∈ trio q := by
  have ring : slices (nodeRing o node) =
    (slices o.splitKeys).map (Prod.map (Prod.map node node) node) := slices_map ..
  rw [Fan.quads, ring, List.map_map, List.countP_map]
  apply List.countP_congr
  intro q slice
  simp only [Function.comp_apply, decide_eq_true_eq, List.forall_mem_map]
  refine forall₂_congr fun k mem => ?_
  exact mem_quad_iff embeds places fresh c slice (inside k mem)

end Counts

/-- The nodes that a match sends the ends of a half to. -/
def endsOf (o : Outline) (m : Embedding) (key : Label) : List Label :=
  ((splitRing o).neighbours key).filterMap m.find?

/-- How the quads of a fan meet. -/
structure Fan.Meets (f : Fan) (o : Outline) (m : Embedding) : Prop where
  half : ∀ key ∈ halfKeys o, (endsOf o m key).length = 2 ∧
    f.quads.countP (fun e => ∀ l ∈ endsOf o m key, l ∈ e.memberLabels) = 1
  spoke : ∀ s ∈ f.spokes, f.quads.countP (fun e => ∀ l ∈ s.memberLabels, l ∈ e.memberLabels) = 2
  corner : ∀ k ∈ f.ring, f.quads.countP (fun e => k.1.label ∈ e.memberLabels) = 1
  midpoint : ∀ k ∈ f.ring, f.quads.countP (fun e => k.2.label ∈ e.memberLabels) = 2

theorem endsOf_eq (places : Places o host m node) {key : Label}
    (inside : ∀ k ∈ (splitRing o).neighbours key, k ∈ ringKeys o) :
    endsOf o m key = ((splitRing o).neighbours key).map fun k => (node k).label := by
  rw [endsOf, ← List.filterMap_eq_map]
  exact List.filterMap_congr fun k mem => (places k (inside k mem)).1

theorem Sliced.meets (sliced : Sliced o) (c : host.Coherent) (embeds : (splitRing o).Embeds host m)
    (places : Places o host m node) (fresh : ¬ element.centre.label ∈ host) :
    Fan.Meets ⟨element, nodeRing o node⟩ o m := by
  have count (keys : List Label) (inside : ∀ k ∈ keys, k ∈ ringKeys o) :=
    countP_quads embeds places fresh c inside
  have one (k : Label) (mem : k ∈ ringKeys o) :
      (Fan.quads ⟨element, nodeRing o node⟩).countP (fun e => (node k).label ∈ e.memberLabels) =
        (slices o.splitKeys).countP fun q => k ∈ trio q := by
    simpa using count [k] (by simpa using mem)
  refine ⟨?half, ?spoke, ?corner, ?midpoint⟩
  case half =>
    intro key half
    rw [endsOf_eq places (sliced.ends key half), List.length_map, count _ (sliced.ends key half)]
    exact ⟨sliced.two key half, sliced.half key half⟩
  case spoke =>
    intro s spoke
    obtain ⟨n, listed, rfl⟩ := List.mem_map.1 spoke
    obtain ⟨k, mem, rfl⟩ := List.mem_map.1 listed
    rw [← sliced.midpoint k mem, ← one k.2 (mem_ringKeys mem).2]
    apply List.countP_congr
    intro e quad
    -- The centre is a member of every quad.
    obtain ⟨q, -, rfl⟩ := List.mem_map.1 quad
    simp [Fan.centre]
  case corner =>
    refine List.forall_mem_map.2 fun k mem => ?_
    rw [one k.1 (mem_ringKeys mem).1]
    exact sliced.corner k mem
  case midpoint =>
    refine List.forall_mem_map.2 fun k mem => ?_
    rw [one k.2 (mem_ringKeys mem).2]
    exact sliced.midpoint k mem

/-! ### The step -/

/-- What a break makes of a host: the element gives way to its fan, and every quad of the fan can be
marked. The halves are hyperedges over their two ends, and may have other members. -/
structure Broken (o : Outline) (m : Embedding) (f : Fan) (host h : Hypergraph) : Prop where
  gone : ¬ f.element.label ∈ h
  exchanged : Exchanged f.element f.centre (f.spokes ++ f.quads) host h
  halves : (halfKeys o).length = 2 * o.sides ∧ ∀ key ∈ halfKeys o, ∃ t e, m.find? key = some t ∧
    e.tag = sideTag ∧ endsOf o m key ⊆ e.memberLabels ∧ host.hyperedge? t = some e ∧
      h.hyperedge? t = some e
  unchanged : ∀ l, ¬ l ∈ f.element.label :: f.labels →
    h.node? l = host.node? l ∧ h.hyperedge? l = host.hyperedge? l ∧
      ∀ k, ¬ k ∈ f.element.label :: f.labels → (k ∈ h.neighbours l ↔ k ∈ host.neighbours l)
  spokes : f.spokes.length = o.sides ∧
    ∀ e ∈ f.spokes, e.tag = sideTag ∧ e.mark = 0 ∧ e.attributes.boundary = some false
  quads : f.quads.length = o.sides ∧
    ∀ e ∈ f.quads, e.tag = quadTag ∧ e.mark = 0 ∧ e.attributes.boundary = some false
  meets : f.Meets o m
  markable : ∀ e ∈ f.quads, ∃ m' ∈ markQuad.leftSide.embeddings h,
    m'.find? Outline.quad.elementKey = some e.label

section Step

variable (p : (splitRing o).Coherent) (w : host.WellFormed)
  (eq : (splitRing o).region host m = .ok region)
  (shown : ∀ k ∈ ringKeys o, region.node? k = some (node k))
include w eq shown

theorem places_of_region : Places o host m node := fun k mem => node?_of_region w eq (shown k mem)

include p in
theorem fan?_eq (found : region.hyperedge? o.elementKey = some element) :
    fan? o host m = some ⟨element, nodeRing o node⟩ := by
  have places := places_of_region w eq shown
  obtain ⟨-, t, image, source⟩ := edge_of_region p eq found
  have at_key (k : Label) (mem : k ∈ ringKeys o) : nodeAt? host m k = some (node k) := by
    rw [nodeAt?, (places k mem).1, Option.bind_some, (places k mem).2]
  have ring : (o.splitKeys.mapM fun k => do return (← nodeAt? host m k.1, ← nodeAt? host m k.2)) =
      some (nodeRing o node) := by
    apply mapM_eq_pure
    intro k mem
    rw [at_key _ (mem_ringKeys mem).1, at_key _ (mem_ringKeys mem).2]
    rfl
  simp only [fan?, image, Option.bind_some, source, ring]
  rfl

variable {fan : Fan} (c : host.Coherent) (mem : m ∈ (splitRing o).embeddings host)
  (exchanged : Exchanged element element.centre (fan.spokes ++ fan.quads) host h)
include c exchanged

omit eq shown in
/-- A side is not the element, so it stays. -/
theorem side_stays (apart : element.tag ≠ sideTag) {e : Hyperedge} (stored : e ∈ host.hyperedges.values)
    (side : e.tag = sideTag) : e ∈ h.hyperedges.values :=
  (exchanged.mem_values_iff w c).2 (Or.inr ⟨stored, fun same => apart (same ▸ side)⟩)

include mem

theorem quad_markable (sliced : Sliced o) (apart : element.tag ≠ sideTag)
    (is_fan : fan = ⟨element, nodeRing o node⟩) {e : Hyperedge} (quad : e ∈ fan.quads) :
    ∃ m' ∈ markQuad.leftSide.embeddings h, m'.find? Outline.quad.elementKey = some e.label := by
  have comes {e : Hyperedge} (mem : e ∈ fan.spokes ++ fan.quads) : e ∈ h.hyperedges.values :=
    (exchanged.mem_values_iff w c).2 (Or.inl mem)
  have spoke {slice : (Node × Node) × Node} (mem : slice ∈ slices (nodeRing o node)) :
      (Hyperedge.side slice.1.2 element.centre).withBoundary false ∈ h.hyperedges.values := by
    apply comes (List.mem_append_left _ _)
    rw [is_fan, Fan.spokes_eq]
    exact List.mem_map_of_mem mem
  have stored := comes (List.mem_append_right _ quad)
  rw [is_fan] at quad
  obtain ⟨slice, listed, rfl⟩ := List.mem_map.1 quad
  obtain ⟨other, mem', same⟩ := exists_previous listed
  have flanked := sliced.linked.flanked c w mem eq (forall_mem_ringKeys.1 shown) slice listed
  have fresh : ¬ element.centre.label ∈ host.nodes := fun node =>
    exchanged.supplies.node_fresh ((c.mem_iff _).2 (Or.inl node))
  have encircled := flanked.encircled w fresh (fun _ => exchanged.mem_nodes_iff w)
    (fun e mem side => side_stays w c exchanged apart mem side) (spoke listed) (same ▸ spoke mem')
  exact (framed_quad.mem_images exchanged.coherent).1
    (mem_images_quad exchanged.coherent exchanged.wellFormed stored rfl rfl rfl encircled)

include p in
theorem half_stays (ringed : Ringed o) (sliced : Sliced o) (apart : element.tag ≠ sideTag) {key : Label}
    (half : key ∈ halfKeys o) : ∃ t e, m.find? key = some t ∧ e.tag = sideTag ∧
      endsOf o m key ⊆ e.memberLabels ∧ host.hyperedge? t = some e ∧ h.hyperedge? t = some e := by
  have embeds := ((mem_embeddings p c).1 mem).2
  obtain ⟨stored, ne⟩ := List.mem_filter.1 half
  obtain ⟨e₀, found₀, tag₀, -⟩ := kindOf_eq_surrogate_iff.1 (ringed.sides key stored (of_decide_eq_true ne))
  obtain ⟨e, found, tag, -⟩ := embeds.exists_edge p eq found₀
  obtain ⟨-, t, image, source⟩ := edge_of_region p eq found
  have side : e.tag = sideTag := tag.trans tag₀
  refine ⟨t, e, image, side, ?ends, source, ?stays⟩
  case ends =>
    rw [endsOf_eq (places_of_region w eq shown) (sliced.ends key half)]
    intro l listed
    obtain ⟨k, linked, rfl⟩ := List.mem_map.1 listed
    exact (member_iff_of_region embeds p w eq (shown k (sliced.ends key half k linked)) found).2 linked
  case stays =>
    have label := w.hyperedge_label t e source
    have stays := side_stays w c exchanged apart (w.mem_values_iff.2 (label ▸ source)) side
    exact label ▸ exchanged.wellFormed.mem_values_iff.1 stays

end Step

theorem length_nodeRing (o : Outline) (node : Label → Node) : (nodeRing o node).length = o.sides := by
  simp [nodeRing, Outline.splitKeys]

/-- A match that supplies new and different labels breaks its element. -/
theorem broken_breakElement (ringed : Ringed o) (sliced : Sliced o) (name : String) (c : host.Coherent)
    (w : host.WellFormed) (mem : m ∈ (splitRing o).embeddings host) (index : Nat) :
    ∃ region f, (splitRing o).region host m = .ok region ∧ fan? o host m = some f ∧
      (f.labels.Nodup → (∀ l ∈ f.labels, ¬ l ∈ host) → Broken o m f host
        (host.replace (splitRing o) m ((breakElement name o).rightSide region index))) := by
  have p : (splitRing o).Coherent := (reachable_breakElement name o).coherent
  have embeds := ((mem_embeddings p c).1 mem).2
  obtain ⟨region, eq⟩ := exists_region p c mem
  obtain ⟨element, node, found, tag, -, nodes⟩ := ringed.exists_ring (embeds.shows p c eq)
  have shown : ∀ k ∈ ringKeys o, region.node? k = some (node k) := forall_mem_ringKeys.2 nodes
  have places := places_of_region w eq shown
  have apart : element.tag ≠ sideTag := tag ▸ ringed.side
  refine ⟨region, ⟨element, nodeRing o node⟩, eq, fan?_eq p w eq shown found, fun nodup fresh => ?_⟩
  obtain ⟨centre_fresh, -⟩ := List.forall_mem_cons.1 fresh
  have known : ∀ k ∈ nodeRing o node, k.1.label ∈ host.nodes ∧ k.2.label ∈ host.nodes := by
    refine List.forall_mem_map.2 fun k mem => ⟨?_, ?_⟩
    · exact mem_nodes_iff.2 ⟨_, (places k.1 (mem_ringKeys mem).1).2⟩
    · exact mem_nodes_iff.2 ⟨_, (places k.2 (mem_ringKeys mem).2).2⟩
  let f : Fan := ⟨element, nodeRing o node⟩
  have supplies : host.Supplies f.centre (f.spokes ++ f.quads) := f.supplies known nodup fresh
  have exchanged := (ringed.exchanged_of_supplies name c w mem eq index found tag nodes
    (supplies.perm f.fanEdges_perm.symm)).perm f.fanEdges_perm
  have length : f.ring.length = o.sides := length_nodeRing o node
  exact {
    gone := exchanged.not_mem w c
    exchanged := exchanged
    halves := ⟨sliced.halves, fun key => half_stays p w eq shown c mem exchanged ringed sliced apart⟩
    unchanged := fun l => exchanged.unchanged w c
    spokes := ⟨f.length_spokes.trans length, fun e => f.spoke_kind⟩
    quads := ⟨f.length_quads.trans length, fun e => f.quad_kind⟩
    meets := sliced.meets c embeds places centre_fresh
    markable := fun e => quad_markable w eq shown c mem exchanged sliced apart rfl }

/-- A pentagon or a hexagon that is broken, in whatever surroundings, gives way to one quad for each corner
around a new centre, if no label that comes in is in use. -/
theorem breaks_into_quads {P : Production} {o : Outline}
    (rule : (P, o) ∈ [(breakPentagon, .pentagon), (breakHexagon, .hexagon)]) (host : Hypergraph)
    (reachable : host.Reachable) (w : host.WellFormed) (m : Embedding)
    (mem : m ∈ P.leftSide.embeddings host) (index : Nat) :
    ∃ region f, P.leftSide.region host m = .ok region ∧ fan? o host m = some f ∧
      (f.labels.Nodup → (∀ l ∈ f.labels, ¬ l ∈ host) →
        Broken o m f host (host.replace P.leftSide m (P.rightSide region index))) := by
  simp only [List.mem_cons, Prod.mk.injEq, List.not_mem_nil, or_false] at rule
  rcases rule with ⟨rfl, rfl⟩ | ⟨rfl, rfl⟩
  · exact broken_breakElement ringed_pentagon sliced_pentagon _ reachable.coherent w mem index
  · exact broken_breakElement ringed_hexagon sliced_hexagon _ reachable.coherent w mem index

/-- A marked pentagon with split sides, where the first half runs on to another node. -/
def dividedPentagon : List Operation :=
  let node (label : Label) : Node := { x := .zero, y := .zero, label }
  let side (a b : Label) : Operation := .addHyperedge (.side (node a) (node b)) false
  [.addHyperedge { members := [node "a", node "v", node "out"], tag := sideTag,
                   two_le_length := by simp } false,
    side "v" "b", side "b" "w", side "w" "c", side "c" "x", side "x" "d", side "d" "y", side "y" "e",
    side "e" "z", side "z" "a",
    .addHyperedge { members := [node "a", node "b", node "c", node "d", node "e"], tag := "P", mark := 1,
                    two_le_length := by simp } false]

theorem wellFormed_divided : (Operation.build dividedPentagon).WellFormed := .build _ (by decide +kernel)

/-- Where the split ring lies in it. -/
def dividedNode (key : Label) : Label :=
  (((ringKeys .pentagon).zip ["a", "v", "b", "w", "c", "x", "d", "y", "e", "z"]).lookup key).getD key

def dividedEdge (e : Hyperedge) : Hyperedge :=
  let covers (e' : Hyperedge) : Bool := e'.Covers dividedNode (splitRing .pentagon).nodes.keys e
  ((Operation.build dividedPentagon).hyperedges.values.find? covers).getD e

theorem lays_divided :
    (splitRing .pentagon).Lays (Operation.build dividedPentagon) dividedNode dividedEdge :=
  ⟨by decide +kernel, by decide +kernel, by decide +kernel, by decide +kernel⟩

theorem breaks_into_quads_divided :
    let host := Operation.build dividedPentagon
    ∃ m ∈ breakPentagon.leftSide.embeddings host, ∃ region f,
      breakPentagon.leftSide.region host m = .ok region ∧ fan? .pentagon host m = some f ∧
        f.labels.Nodup ∧ (∀ l ∈ f.labels, ¬ l ∈ host) ∧ Broken .pentagon m f host
          (host.replace breakPentagon.leftSide m (breakPentagon.rightSide region 0)) := by
  intro host
  have reachable : host.Reachable := .build dividedPentagon
  have mem := lays_divided.mem_embeddings polygon_breakPentagon.coherent polygon_breakPentagon.wellFormed
    reachable.coherent wellFormed_divided polygon_breakPentagon.nonempty polygon_breakPentagon.simple
  have free : ∀ f ∈ fan? .pentagon host ((splitRing .pentagon).laid dividedNode dividedEdge),
      f.labels.Nodup ∧ ∀ l ∈ f.labels, ¬ l ∈ host := by decide +kernel
  obtain ⟨region, f, eq, is_fan, broken⟩ :=
    breaks_into_quads List.mem_cons_self host reachable wellFormed_divided _ mem 0
  obtain ⟨nodup, fresh⟩ := free f is_fan
  exact ⟨_, mem, region, f, eq, is_fan, nodup, fresh, broken nodup fresh⟩

end Hypermesh.Rules
