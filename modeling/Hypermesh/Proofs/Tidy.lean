import Hypermesh.Proofs.Exchange
import Hypermesh.Proofs.Nesting
import Hypermesh.Proofs.Termination.Rules

/-!
Hosts on which no rule of the library writes over anything. Midpoints and centres remember in their labels
what they were made from: where the midpoint of two nodes is stored no side joins these any more, and
where the centre of an element is stored the element is gone. So the next midpoint or centre is new.
-/

namespace Hypermesh

open Label
open scoped List

theorem sideTag_ne_quadTag : sideTag ≠ quadTag := by decide

namespace Hyperedge

@[simp] theorem tag_side (a b : Node) : (side a b).tag = sideTag := rfl

@[simp] theorem memberLabels_side (a b : Node) : (side a b).memberLabels = [a.label, b.label] := rfl

@[simp] theorem tag_quad (a b c d : Node) : (quad a b c d).tag = quadTag := rfl

@[simp] theorem memberLabels_quad (a b c d : Node) :
    (quad a b c d).memberLabels = [a.label, b.label, c.label, d.label] := rfl

@[simp] theorem tag_withBoundary (e : Hyperedge) (boundary : Bool) :
    (e.withBoundary boundary).tag = e.tag := rfl

@[simp] theorem memberLabels_withBoundary (e : Hyperedge) (boundary : Bool) :
    (e.withBoundary boundary).memberLabels = e.memberLabels := rfl

@[simp] theorem tag_withAttributes (e : Hyperedge) (attributes : Attributes) :
    (e.withAttributes attributes).tag = e.tag := rfl

@[simp] theorem memberLabels_withAttributes (e : Hyperedge) (attributes : Attributes) :
    (e.withAttributes attributes).memberLabels = e.memberLabels := rfl

end Hyperedge

/-- The members are `a` and `b`, in one order or the other. -/
def Hyperedge.Joins (e : Hyperedge) (a b : Label) : Prop :=
  e.memberLabels = [a, b] ∨ e.memberLabels = [b, a]

theorem Hyperedge.Joins.symm {e : Hyperedge} {a b : Label} (joins : e.Joins a b) : e.Joins b a :=
  Or.symm joins

theorem Hyperedge.Joins.mem_iff {e : Hyperedge} {a b l : Label} (joins : e.Joins a b) :
    l ∈ e.memberLabels ↔ l = a ∨ l = b := by
  rcases joins with eq | eq <;> simp [eq, or_comm]

theorem Hyperedge.Joins.perm {e : Hyperedge} {a b : Label} (joins : e.Joins a b) :
    e.memberLabels ~ [a, b] := by
  rcases joins with eq | eq <;> rw [eq]
  exact .swap ..

theorem Hyperedge.Joins.eq_or_eq {e : Hyperedge} {a b c d : Label} (joins : e.Joins a b)
    (joins' : e.Joins c d) : a = c ∧ b = d ∨ a = d ∧ b = c := by
  rcases joins with eq | eq <;> rcases joins' with eq' | eq' <;> rw [eq] at eq' <;>
    injection eq' with first rest <;> injection rest with second
  · exact Or.inl ⟨first, second⟩
  · exact Or.inr ⟨first, second⟩
  · exact Or.inr ⟨second, first⟩
  · exact Or.inl ⟨second, first⟩

/-- Two different members are the two ends. -/
theorem Hyperedge.Joins.of_ne {e : Hyperedge} {a b k l : Label} (joins : e.Joins a b)
    (first : k ∈ e.memberLabels) (second : l ∈ e.memberLabels) (ne : k ≠ l) : e.Joins k l := by
  rcases joins.mem_iff.1 first with rfl | rfl <;> rcases joins.mem_iff.1 second with rfl | rfl
  · exact absurd rfl ne
  · exact joins
  · exact joins.symm
  · exact absurd rfl ne

theorem Hyperedge.memberLabels_ne_nil (e : Hyperedge) : e.memberLabels ≠ [] := by
  intro eq
  have length := congrArg List.length eq
  rw [memberLabels, List.length_map, List.length_nil] at length
  exact absurd e.two_le_length (by omega)

namespace Hypergraph

variable {g h : Hypergraph} {a b l : Label} {node : Node} {old e e' : Hyperedge} {new : List Hyperedge}

/-- Hyperedges that differ in their tags or their members lie under different labels. -/
theorem labels_nodup_of_sealed (tags : ∀ e ∈ new, Sealed e.tag)
    (members : ∀ e ∈ new, ∀ k ∈ e.memberLabels, Sealed k)
    (nodup : (new.map fun e => (e.tag, e.memberLabels)).Nodup) : (new.map Hyperedge.label).Nodup := by
  refine List.Nodup.map_on ?_ (.of_map _ nodup)
  intro e mem e' mem' same
  have parts := hyperedge_injective (tags e mem) (tags e' mem') (members e mem) (members e' mem') same
  exact List.inj_on_of_nodup_map nodup mem mem' (Prod.ext parts.1 parts.2)

/-- Every side has two members, which differ, and no two sides have the same ones. -/
structure Straight (g : Hypergraph) : Prop where
  two : ∀ e ∈ g.hyperedges.values, e.tag = sideTag → e.memberLabels.length = 2 ∧ e.memberLabels.Nodup
  single : ∀ e ∈ g.hyperedges.values, ∀ e' ∈ g.hyperedges.values, e.tag = sideTag → e'.tag = sideTag →
    e.memberLabels ~ e'.memberLabels → e = e'

instance (g : Hypergraph) : Decidable g.Straight :=
  decidable_of_iff
    ((∀ e ∈ g.hyperedges.values, e.tag = sideTag →
        e.memberLabels.length = 2 ∧ e.memberLabels.Nodup) ∧
      ∀ e ∈ g.hyperedges.values, ∀ e' ∈ g.hyperedges.values, e.tag = sideTag → e'.tag = sideTag →
        e.memberLabels ~ e'.memberLabels → e = e')
    ⟨fun h => ⟨h.1, h.2⟩, fun h => ⟨h.two, h.single⟩⟩

namespace Straight

theorem ends (s : g.Straight) (mem : e ∈ g.hyperedges.values) (tag : e.tag = sideTag) :
    ∃ a b, a ≠ b ∧ e.memberLabels = [a, b] := by
  obtain ⟨two, nodup⟩ := s.two e mem tag
  obtain ⟨a, b, eq⟩ := List.length_eq_two.1 two
  rw [eq] at nodup
  exact ⟨a, b, by simpa using nodup, eq⟩

theorem once (s : g.Straight) (mem : e ∈ g.hyperedges.values) (mem' : e' ∈ g.hyperedges.values)
    (tag : e.tag = sideTag) (tag' : e'.tag = sideTag) (joins : e.Joins a b) (joins' : e'.Joins a b) :
    e = e' :=
  s.single e mem e' mem' tag tag' (joins.perm.trans joins'.perm.symm)

theorem ne (s : g.Straight) (mem : e ∈ g.hyperedges.values) (tag : e.tag = sideTag)
    (joins : e.Joins a b) : a ≠ b := by
  have nodup := joins.perm.nodup_iff.1 (s.two e mem tag).2
  simpa using nodup

/-- Two different members of a side are its ends. -/
theorem joins (s : g.Straight) (mem : e ∈ g.hyperedges.values) (tag : e.tag = sideTag)
    (first : a ∈ e.memberLabels) (second : b ∈ e.memberLabels) (ne : a ≠ b) : e.Joins a b := by
  obtain ⟨p, q, -, eq⟩ := s.ends mem tag
  exact Hyperedge.Joins.of_ne (Or.inl eq) first second ne

end Straight

/-- Hosts as they are laid out: well-formed and straight, with plain names. -/
structure Clean (g : Hypergraph) : Prop where
  wellFormed : g.WellFormed
  node : ∀ l ∈ g.nodes, Plain l
  tag : ∀ e ∈ g.hyperedges.values, Plain e.tag
  straight : g.Straight

/-- Hosts as the rules leave them. -/
structure Tidy (g : Hypergraph) : Prop where
  coherent : g.Coherent
  wellFormed : g.WellFormed
  node : ∀ l ∈ g.nodes, Sealed l
  tag : ∀ e ∈ g.hyperedges.values, Sealed e.tag
  straight : g.Straight
  midpoint : ∀ a b, Sealed a → Sealed b → Label.midpoint a b ∈ g.nodes →
    (a ∈ g.nodes ∧ b ∈ g.nodes) ∧ ∀ e ∈ g.hyperedges.values, e.tag = sideTag → ¬ e.Joins a b
  centre : ∀ e ∈ g.hyperedges.values, e.tag ≠ sideTag → e.tag ≠ quadTag → ¬ Label.centre e.label ∈ g.nodes

theorem Clean.tidy (clean : g.Clean) (c : g.Coherent) : g.Tidy where
  coherent := c
  wellFormed := clean.wellFormed
  node l mem := (clean.node l mem).sealed
  tag e mem := (clean.tag e mem).sealed
  straight := clean.straight
  midpoint a b _ _ mem := absurd (clean.node _ mem) (not_plain_midpoint a b)
  centre e _ _ _ mem := not_plain_centre e.label (clean.node _ mem)

namespace Tidy

variable (t : g.Tidy)
include t

theorem member (mem : e ∈ g.hyperedges.values) (member : l ∈ e.memberLabels) : l ∈ g.nodes :=
  t.wellFormed.mem_nodes ⟨e, t.wellFormed.mem_values_iff.1 mem, member⟩

theorem sealed_member (mem : e ∈ g.hyperedges.values) : ∀ l ∈ e.memberLabels, Sealed l :=
  fun l member => t.node l (t.member mem member)

/-- A hyperedge and a node are told apart by their labels. -/
theorem not_hyperedge (sealed : Sealed l) : ¬ l ∈ g.hyperedges := by
  intro stored
  obtain ⟨e, found⟩ := mem_hyperedges_iff.1 stored
  have mem : e ∈ g.hyperedges.values := Table.mem_values.2 ⟨l, found⟩
  rw [← t.wellFormed.hyperedge_label l e found] at sealed
  exact not_sealed_hyperedge (t.tag e mem) e.memberLabels_ne_nil sealed

theorem fresh_of_node (sealed : Sealed l) (fresh : ¬ l ∈ g.nodes) : ¬ l ∈ g := by
  rw [t.coherent.mem_iff]
  exact fun mem => mem.elim fresh (t.not_hyperedge sealed)

/-- A hyperedge over a node that is not stored has a label that is not in use. -/
theorem fresh_of_member (tag : Sealed e.tag) (sealed : ∀ k ∈ e.memberLabels, Sealed k)
    (member : l ∈ e.memberLabels) (fresh : ¬ l ∈ g.nodes) : ¬ e.label ∈ g := by
  rw [t.coherent.mem_iff]
  rintro (mem | stored)
  · exact not_sealed_hyperedge tag e.memberLabels_ne_nil (t.node _ mem)
  · obtain ⟨e', found⟩ := mem_hyperedges_iff.1 stored
    have mem : e' ∈ g.hyperedges.values := Table.mem_values.2 ⟨_, found⟩
    have same : e'.label = e.label := t.wellFormed.hyperedge_label _ e' found
    have members := (hyperedge_injective (t.tag e' mem) tag (t.sealed_member mem) sealed same).2
    exact fresh (t.member mem (members ▸ member))

/-- Hyperedges over a node that is not stored lie under new labels, as long as they differ. -/
theorem supplies (sealed : Sealed node.label) (fresh : ¬ node.label ∈ g.nodes)
    (tags : ∀ e ∈ new, Sealed e.tag)
    (members : ∀ e ∈ new, node.label ∈ e.memberLabels ∧ ∀ k ∈ e.memberLabels, k = node.label ∨ k ∈ g.nodes)
    (nodup : (new.map fun e => (e.tag, e.memberLabels)).Nodup) : g.Supplies node new := by
  have inside (e : Hyperedge) (mem : e ∈ new) : ∀ k ∈ e.memberLabels, Sealed k := by
    intro k member
    rcases (members e mem).2 k member with rfl | stored
    · exact sealed
    · exact t.node k stored
  refine ⟨t.fresh_of_node sealed fresh, ?fresh, ?apart, ?nodup, fun e mem => (members e mem).2⟩
  case fresh =>
    exact fun e mem => t.fresh_of_member (tags e mem) (inside e mem) (members e mem).1 fresh
  case apart =>
    intro e mem same
    exact not_sealed_hyperedge (tags e mem) e.memberLabels_ne_nil (same ▸ sealed : Sealed e.label)
  case nodup => exact labels_nodup_of_sealed tags inside nodup

end Tidy

/-! ### Refinements -/

/-- The halves of a side, with its attributes. -/
def halfEdges (side : Hyperedge) (a middle b : Node) : List Hyperedge :=
  [(Hyperedge.side a middle).withAttributes side.attributes,
    (Hyperedge.side middle b).withAttributes side.attributes]

/-- A spoke and a quad for each slice. -/
def fanEdges (centre : Node) (slices : List ((Node × Node) × Node)) : List Hyperedge :=
  slices.flatMap fun slice => (Rules.sliceEdges centre slice).reverse

/-- What gives way, the node that comes in and the hyperedges around it: a side is halved, or an element
is broken into slices around its centre. -/
inductive Refinement (g : Hypergraph) : Hyperedge → Node → List Hyperedge → Prop
  | halve {side : Hyperedge} {middle : Node} (a b : Node) : side ∈ g.hyperedges.values → side.tag = sideTag →
      side.Joins a.label b.label → middle.label = .midpoint a.label b.label →
      Refinement g side middle (halfEdges side a middle b)
  | fan {element : Hyperedge} {slices : List ((Node × Node) × Node)} :
      element ∈ g.hyperedges.values → element.tag ≠ sideTag → element.tag ≠ quadTag →
      (slices.map (·.1.1.label)).Nodup → (slices.map (·.1.2.label)).Nodup →
      (∀ s ∈ slices, s.1.1.label ∈ g.nodes ∧ s.1.2.label ∈ g.nodes ∧ s.2.label ∈ g.nodes) →
      Refinement g element element.centre (fanEdges element.centre slices)

theorem mem_halfEdges {side : Hyperedge} {a middle b : Node} :
    e ∈ halfEdges side a middle b ↔
      e = (Hyperedge.side a middle).withAttributes side.attributes ∨
        e = (Hyperedge.side middle b).withAttributes side.attributes := by
  simp [halfEdges]

theorem mem_fanEdges {centre : Node} {slices : List ((Node × Node) × Node)} :
    e ∈ fanEdges centre slices ↔ ∃ s ∈ slices,
      e = (Hyperedge.side s.1.2 centre).withBoundary false ∨
        e = (Hyperedge.quad s.1.1 s.1.2 centre s.2).withBoundary false := by
  simp [fanEdges, Rules.sliceEdges]

theorem tag_of_mem_fanEdges {centre : Node} {slices : List ((Node × Node) × Node)}
    (mem : e ∈ fanEdges centre slices) : e.tag = sideTag ∨ e.tag = quadTag := by
  obtain ⟨s, -, rfl | rfl⟩ := mem_fanEdges.1 mem
  · exact Or.inl rfl
  · exact Or.inr rfl

namespace Refinement

variable (r : g.Refinement old node new)
include r

theorem stored : old ∈ g.hyperedges.values := by
  cases r with
  | halve _ _ stored => exact stored
  | fan stored => exact stored

theorem tags (mem : e ∈ new) : e.tag = sideTag ∨ e.tag = quadTag := by
  cases r with
  | halve =>
    rcases mem_halfEdges.1 mem with rfl | rfl <;> exact Or.inl rfl
  | fan => exact tag_of_mem_fanEdges mem

/-- What comes in is sealed, and its label is new: midpoints and centres remember. -/
theorem node_fresh (t : g.Tidy) : Sealed node.label ∧ ¬ node.label ∈ g.nodes := by
  cases r with
  | halve a b stored tag joins label =>
    have sealed := t.sealed_member stored
    have first := sealed _ (joins.mem_iff.2 (Or.inl rfl))
    have second := sealed _ (joins.mem_iff.2 (Or.inr rfl))
    rw [label]
    refine ⟨sealed_midpoint first second, fun mem => ?_⟩
    exact (t.midpoint _ _ first second mem).2 old stored tag joins
  | fan stored side quad =>
    exact ⟨sealed_centre (t.tag _ stored) (t.sealed_member stored), t.centre _ stored side quad⟩

theorem members (t : g.Tidy) (mem : e ∈ new) :
    node.label ∈ e.memberLabels ∧ ∀ k ∈ e.memberLabels, k = node.label ∨ k ∈ g.nodes := by
  cases r with
  | halve a b stored tag joins label =>
    have first : a.label ∈ g.nodes := t.member stored (joins.mem_iff.2 (Or.inl rfl))
    have second : b.label ∈ g.nodes := t.member stored (joins.mem_iff.2 (Or.inr rfl))
    rcases mem_halfEdges.1 mem with rfl | rfl <;> simp [first, second]
  | fan stored side quad corners nexts known =>
    obtain ⟨s, slice, rfl | rfl⟩ := mem_fanEdges.1 mem <;> obtain ⟨corner, next, previous⟩ := known s slice
    · simp [next]
    · simp [corner, next, previous]

/-- A side that comes in joins the new node to a stored one. -/
theorem side (t : g.Tidy) (mem : e ∈ new) (tag : e.tag = sideTag) :
    ∃ k ∈ g.nodes, e.Joins k node.label := by
  cases r with
  | halve a b stored tag joins label =>
    have first : a.label ∈ g.nodes := t.member stored (joins.mem_iff.2 (Or.inl rfl))
    have second : b.label ∈ g.nodes := t.member stored (joins.mem_iff.2 (Or.inr rfl))
    rcases mem_halfEdges.1 mem with rfl | rfl
    · exact ⟨a.label, first, Or.inl rfl⟩
    · exact ⟨b.label, second, Or.inr rfl⟩
  | fan stored side quad corners nexts known =>
    obtain ⟨s, slice, rfl | rfl⟩ := mem_fanEdges.1 mem
    · exact ⟨s.1.2.label, (known s slice).2.1, Or.inl rfl⟩
    · exact absurd tag.symm sideTag_ne_quadTag

/-- What comes in differs in its tag or its members. -/
theorem nodup (t : g.Tidy) : (new.map fun e => (e.tag, e.memberLabels)).Nodup := by
  have fresh := (r.node_fresh t).2
  cases r with
  | halve a b stored tag joins label =>
    have ne : a.label ≠ node.label := fun same =>
      fresh (same ▸ t.member stored (joins.mem_iff.2 (Or.inl rfl)))
    simp [halfEdges, ne]
  | fan stored side quad corners nexts known =>
    rw [fanEdges, List.map_flatMap, List.nodup_flatMap]
    constructor
    · intro s _
      simp [Rules.sliceEdges]
    · refine ((List.pairwise_map.1 corners).and (List.pairwise_map.1 nexts)).imp ?_
      rintro s s' ⟨corner, next⟩
      simp [Function.onFun, Rules.sliceEdges, Ne.symm corner, Ne.symm next]

theorem supplies (t : g.Tidy) : g.Supplies node new := by
  obtain ⟨sealed, fresh⟩ := r.node_fresh t
  refine t.supplies sealed fresh (fun e mem => ?_) (fun e mem => r.members t mem) (r.nodup t)
  rcases r.tags mem with eq | eq <;> rw [eq] <;> decide

/-- A midpoint tells which side gave way to it. -/
theorem remembers_midpoint (t : g.Tidy) (first : Sealed a) (second : Sealed b)
    (eq : Label.midpoint a b = node.label) : (a ∈ g.nodes ∧ b ∈ g.nodes) ∧
      ∀ e ∈ g.hyperedges.values, e ≠ old → e.tag = sideTag → ¬ e.Joins a b := by
  cases r with
  | halve p q stored side ends label =>
    have sealed := t.sealed_member stored
    have ends' : old.Joins a b := by
      rcases midpoint_injective first second (sealed _ (ends.mem_iff.2 (Or.inl rfl)))
        (sealed _ (ends.mem_iff.2 (Or.inr rfl))) (eq.trans label) with ⟨rfl, rfl⟩ | ⟨rfl, rfl⟩
      · exact ends
      · exact ends.symm
    refine ⟨⟨t.member stored (ends'.mem_iff.2 (Or.inl rfl)),
      t.member stored (ends'.mem_iff.2 (Or.inr rfl))⟩, fun e mem ne tag joins => ne ?_⟩
    exact t.straight.once mem stored tag side joins ends'
  | fan => exact absurd eq (midpoint_ne_centre _ _ _)

/-- A centre tells which element gave way to it. -/
theorem remembers_centre (t : g.Tidy) (mem : e ∈ g.hyperedges.values) (ne : e ≠ old) :
    Label.centre e.label ≠ node.label := by
  intro eq
  cases r with
  | halve p q stored side ends label => exact midpoint_ne_centre _ _ _ (label.symm.trans eq.symm)
  | fan stored =>
    exact ne (List.inj_on_of_nodup_map t.wellFormed.labels_nodup mem stored (centre_injective eq))

/-- No two sides that come in have the same members. -/
theorem single (t : g.Tidy) (mem : e ∈ new) (mem' : e' ∈ new) (tag : e.tag = sideTag)
    (tag' : e'.tag = sideTag) (perm : e.memberLabels ~ e'.memberLabels) : e = e' := by
  have fresh := (r.node_fresh t).2
  have same (l : Label) : l ∈ e.memberLabels ↔ l ∈ e'.memberLabels := perm.mem_iff
  cases r with
  | halve p q stored side ends label =>
    have first : p.label ≠ node.label := fun eq =>
      fresh (eq ▸ t.member stored (ends.mem_iff.2 (Or.inl rfl)))
    have second : q.label ≠ node.label := fun eq =>
      fresh (eq ▸ t.member stored (ends.mem_iff.2 (Or.inr rfl)))
    have ne := t.straight.ne stored side ends
    rcases mem_halfEdges.1 mem with rfl | rfl <;> rcases mem_halfEdges.1 mem' with rfl | rfl
    · rfl
    · simpa [first, ne] using same p.label
    · simpa [second, ne.symm] using same q.label
    · rfl
  | fan stored side quad corners nexts known =>
    obtain ⟨s, slice, rfl | rfl⟩ := mem_fanEdges.1 mem
    · obtain ⟨s', slice', rfl | rfl⟩ := mem_fanEdges.1 mem'
      · have apart : s.1.2.label ≠ old.centre.label := fun eq => fresh (eq ▸ (known s slice).2.1)
        have next : s.1.2.label = s'.1.2.label := by simpa [apart] using same s.1.2.label
        rw [List.inj_on_of_nodup_map nexts slice slice' next]
      · exact absurd tag'.symm sideTag_ne_quadTag
    · exact absurd tag.symm sideTag_ne_quadTag

end Refinement

/-! ### What the rules keep -/

namespace Tidy

variable (t : g.Tidy)
include t

section Refined

variable (r : g.Refinement old node new) (x : Exchanged old node new g h)
include r x

/-- Of two sides with the same members, both are over the new node or neither is. -/
theorem straight_refined : h.Straight := by
  have fresh := (r.node_fresh t).2
  have values {e : Hyperedge} := x.mem_values_iff (e := e) t.wellFormed t.coherent
  constructor
  · intro e mem tag
    rcases values.1 mem with mem | ⟨mem, -⟩
    · obtain ⟨k, known, joins⟩ := r.side t mem tag
      have ne : k ≠ node.label := fun eq => fresh (eq ▸ known)
      exact ⟨joins.perm.length_eq, joins.perm.nodup_iff.2 (by simpa using ne)⟩
    · exact t.straight.two e mem tag
  · have apart {e e' : Hyperedge} (mem : e ∈ new) (mem' : e' ∈ g.hyperedges.values)
        (same : e.memberLabels ~ e'.memberLabels) : False :=
      fresh (t.member mem' (same.mem_iff.1 (r.members t mem).1))
    intro e mem e' mem' tag tag' same
    rcases values.1 mem with mem | ⟨mem, -⟩ <;> rcases values.1 mem' with mem' | ⟨mem', -⟩
    · exact r.single t mem mem' tag tag' same
    · exact (apart mem mem' same).elim
    · exact (apart mem' mem same.symm).elim
    · exact t.straight.single e mem e' mem' tag tag' same

/-- The midpoint of two labels comes in with the halves of their side, or was there and stays. -/
theorem midpoint_refined (first : Sealed a) (second : Sealed b) (mem : Label.midpoint a b ∈ h.nodes) :
    (a ∈ g.nodes ∧ b ∈ g.nodes) ∧
      ∀ e ∈ g.hyperedges.values, e ≠ old → e.tag = sideTag → ¬ e.Joins a b := by
  rcases (x.mem_nodes_iff t.wellFormed).1 mem with eq | mem
  · exact r.remembers_midpoint t first second eq
  · obtain ⟨known, clear⟩ := t.midpoint a b first second mem
    exact ⟨known, fun e mem _ => clear e mem⟩

theorem refined : h.Tidy := by
  obtain ⟨sealed, fresh⟩ := r.node_fresh t
  have values {e : Hyperedge} := x.mem_values_iff (e := e) t.wellFormed t.coherent
  have nodes {l : Label} := x.mem_nodes_iff (l := l) t.wellFormed
  refine ⟨x.coherent, x.wellFormed, ?node, ?tag, t.straight_refined r x, ?midpoint, ?centre⟩
  case node =>
    intro l mem
    rcases nodes.1 mem with rfl | mem
    · exact sealed
    · exact t.node l mem
  case tag =>
    intro e mem
    rcases values.1 mem with mem | ⟨mem, -⟩
    · rcases r.tags mem with eq | eq <;> rw [eq] <;> decide
    · exact t.tag e mem
  case midpoint =>
    intro a b first second mem
    obtain ⟨⟨known, known'⟩, clear⟩ := t.midpoint_refined r x first second mem
    refine ⟨⟨nodes.2 (Or.inr known), nodes.2 (Or.inr known')⟩, fun e mem tag joins => ?_⟩
    rcases values.1 mem with mem | ⟨mem, ne⟩
    · rcases joins.mem_iff.1 (r.members t mem).1 with eq | eq
      · exact fresh (eq ▸ known)
      · exact fresh (eq ▸ known')
    · exact clear e mem ne tag joins
  case centre =>
    intro e mem side quad stored
    rcases values.1 mem with mem | ⟨mem, ne⟩
    · exact (r.tags mem).elim side quad
    · rcases nodes.1 stored with eq | stored
      · exact r.remembers_centre t mem ne eq
      · exact t.centre e mem side quad stored

end Refined

/-- Tidiness is a matter of labels, tags and members. -/
theorem revised {f : Label → Hyperedge → Hyperedge} (keeps : KeepsMembers f) (revised : Revised f g h)
    (c : h.Coherent) (w : h.WellFormed) : h.Tidy := by
  have source {e : Hyperedge} (mem : e ∈ h.hyperedges.values) : ∃ e₀ ∈ g.hyperedges.values,
      f e₀.label e₀ = e ∧ e₀.label = e.label ∧ e₀.tag = e.tag ∧ e₀.memberLabels = e.memberLabels := by
    rw [(revised.values_perm t.wellFormed w keeps).mem_iff] at mem
    obtain ⟨e₀, mem₀, rfl⟩ := List.mem_map.1 mem
    exact ⟨e₀, mem₀, rfl, (keeps.label ..).symm, (keeps _ e₀).1.symm, (keeps.memberLabels ..).symm⟩
  have nodes {l : Label} : l ∈ h.nodes ↔ l ∈ g.nodes := by
    rw [mem_nodes_iff, mem_nodes_iff, revised.node]
  refine ⟨c, w, fun l mem => t.node l (nodes.1 mem), ?tag, ⟨?two, ?single⟩, ?midpoint, ?centre⟩
  case tag =>
    intro e mem
    obtain ⟨e₀, mem, -, -, tag, -⟩ := source mem
    exact tag ▸ t.tag e₀ mem
  case two =>
    intro e mem side
    obtain ⟨e₀, mem, -, -, tag, members⟩ := source mem
    exact members ▸ t.straight.two e₀ mem (tag.trans side)
  case single =>
    intro e mem e' mem' side side' same
    obtain ⟨e₀, mem₀, rfl, -, tag, members⟩ := source mem
    obtain ⟨e₀', mem₀', rfl, -, tag', members'⟩ := source mem'
    rw [← members, ← members'] at same
    rw [t.straight.single e₀ mem₀ e₀' mem₀' (tag.trans side) (tag'.trans side') same]
  case midpoint =>
    intro a b first second mem
    obtain ⟨⟨known, known'⟩, clear⟩ := t.midpoint a b first second (nodes.1 mem)
    refine ⟨⟨nodes.2 known, nodes.2 known'⟩, fun e mem side joins => ?_⟩
    obtain ⟨e₀, mem, -, -, tag, members⟩ := source mem
    rw [Hyperedge.Joins, ← members] at joins
    exact clear e₀ mem (tag.trans side) joins
  case centre =>
    intro e mem side quad stored
    obtain ⟨e₀, mem, -, label, tag, -⟩ := source mem
    exact t.centre e₀ mem (tag ▸ side) (tag ▸ quad) (label ▸ nodes.1 stored)

end Tidy

end Hypergraph

end Hypermesh
