import Hypermesh.Proofs.Region
import Hypermesh.Rules.Library
import Mathlib.Data.Option.Basic

/-!
What holds of all nodes and hyperedges of a hypergraph. Where members pass it on to the nodes that are
stored for them, the mutations keep it as long as it holds of what comes in, and regions show nothing else.
Where midpoints, centres, sides and quads have it from what they are made of, the rules keep it.
-/

namespace Hypermesh

namespace Hypergraph

variable {N : Node → Prop} {E : Hyperedge → Prop} {g host other pattern shown : Hypergraph} {n : Node}
  {e : Hyperedge} {es : List Hyperedge} {m : Embedding}

structure Everywhere (N : Node → Prop) (E : Hyperedge → Prop) (g : Hypergraph) : Prop where
  node : ∀ l n, g.node? l = some n → N n
  hyperedge : ∀ l e, g.hyperedge? l = some e → E e

namespace Everywhere

theorem empty : Everywhere N E ∅ := ⟨nofun, nofun⟩

theorem iff_values : g.Everywhere N E ↔ (∀ n ∈ g.nodes.values, N n) ∧ ∀ e ∈ g.hyperedges.values, E e := by
  constructor
  · rintro ⟨nodes, hyperedges⟩
    constructor
    · intro n mem
      obtain ⟨l, found⟩ := Table.mem_values.1 mem
      exact nodes l n found
    · intro e mem
      obtain ⟨l, found⟩ := Table.mem_values.1 mem
      exact hyperedges l e found
  · rintro ⟨nodes, hyperedges⟩
    exact ⟨fun l n found => nodes n (Table.mem_values.2 ⟨l, found⟩),
      fun l e found => hyperedges e (Table.mem_values.2 ⟨l, found⟩)⟩

instance [DecidablePred N] [DecidablePred E] (g : Hypergraph) : Decidable (g.Everywhere N E) :=
  decidable_of_iff _ iff_values.symm

theorem remove (h : g.Everywhere N E) (label : Label) : (g.remove label).Everywhere N E where
  node l n found := by
    rw [node?_remove] at found
    split at found
    · cases found
    · exact h.node l n found
  hyperedge l e found := by
    rw [hyperedge?_remove] at found
    split at found
    · cases found
    · exact h.hyperedge l e found

/-- A production is shown records of the host, under other labels. -/
theorem region (h : host.Everywhere N E) (eq : pattern.region host m = .ok shown) :
    shown.Everywhere N E := by
  obtain ⟨copied, copies, rfl⟩ := region_eq_ok eq
  constructor
  · intro l n found
    rw [node?_linkLikes, node?_copies copies] at found
    split at found
    · obtain ⟨t, -, source⟩ := Option.bind_eq_some_iff.1 found
      exact h.node t n source
    · cases found
  · intro l e found
    rw [hyperedge?_linkLikes, hyperedge?_copies copies] at found
    split at found
    · obtain ⟨t, -, source⟩ := Option.bind_eq_some_iff.1 found
      exact h.hyperedge t e source
    · cases found

end Everywhere

/-! ### What comes in -/

/-- Members have the property of nodes, also when they come in as regular nodes. -/
structure Inherited (N : Node → Prop) (E : Hyperedge → Prop) : Prop where
  regular : ∀ {n}, N n → N n.regular
  member : ∀ {e}, E e → ∀ n ∈ e.members, N n

namespace Inherited

theorem addNode (i : Inherited N E) (h : g.Everywhere N E) (new : N n) : (g.addNode n).Everywhere N E where
  node l other found := by
    rw [node?_addNode] at found
    split at found
    · cases found
      exact i.regular new
    · exact h.node l other found
  hyperedge := h.hyperedge

theorem addNewNode (i : Inherited N E) (h : g.Everywhere N E) (new : N n) :
    (g.addNewNode n).Everywhere N E := by
  unfold Hypergraph.addNewNode
  split
  · exact h
  · exact i.addNode h new

theorem insertHyperedge (i : Inherited N E) (h : g.Everywhere N E) (new : E e) :
    (g.insertHyperedge e).Everywhere N E where
  node l other found := by
    rw [node?_insertHyperedge, Option.orElse_eq_some] at found
    rcases found with old | ⟨-, new'⟩
    · exact h.node l other old
    · obtain ⟨member, found, rfl⟩ := Option.map_eq_some_iff.1 new'
      exact i.regular (i.member new member (List.mem_of_find?_eq_some found))
  hyperedge l other found := by
    rw [hyperedge?_insertHyperedge] at found
    split at found
    · cases found
      exact new
    · exact h.hyperedge l other found

theorem insertAll (i : Inherited N E) (h : g.Everywhere N E) (new : ∀ e ∈ es, E e) :
    (es.foldl Hypergraph.insertHyperedge g).Everywhere N E :=
  List.foldlRecOn es _ h fun _ h e mem => i.insertHyperedge h (new e mem)

theorem addAll (i : Inherited N E) (h : g.Everywhere N E) (new : ∀ e ∈ es, E e) :
    (g.addAll es).1.Everywhere N E := by
  induction es generalizing g with
  | nil => exact h
  | cons e es ih =>
    obtain ⟨first, rest⟩ := List.forall_mem_cons.1 new
    rw [Hypergraph.addAll]
    split
    · next added =>
      cases addHyperedge_eq_ok added
      exact ih (i.insertHyperedge h first) rest
    · exact h

theorem merge (i : Inherited N E) (h : g.Everywhere N E) (h' : other.Everywhere N E) :
    (g.merge other).1.Everywhere N E := by
  obtain ⟨nodes, hyperedges⟩ := Everywhere.iff_values.1 h'
  refine i.addAll ?_ hyperedges
  exact List.foldlRecOn _ _ h fun _ h n mem => i.addNode h (nodes n mem)

theorem overlay (i : Inherited N E) (h : g.Everywhere N E) (h' : other.Everywhere N E) :
    (g.overlay other).Everywhere N E := by
  obtain ⟨nodes, hyperedges⟩ := Everywhere.iff_values.1 h'
  refine i.insertAll ?_ hyperedges
  exact List.foldlRecOn _ _ h fun _ h n mem => i.addNewNode h (nodes n mem)

theorem replace (i : Inherited N E) (h : host.Everywhere N E) (h' : other.Everywhere N E)
    (pattern : Hypergraph) (m : Embedding) : (host.replace pattern m other).Everywhere N E := by
  refine i.overlay ?_ h'
  exact List.foldlRecOn _ _ h fun _ h label _ => h.remove label

end Inherited

end Hypergraph

/-! ### What the rules make -/

namespace Rules

open Hypermesh.Hypergraph

variable {N : Node → Prop} {E : Hyperedge → Prop} {P : Production} {g region : Hypergraph}
  {element : Hyperedge}

/-- What the rules make of nodes and hyperedges with the property has it as well. -/
structure Refinable (N : Node → Prop) (E : Hyperedge → Prop) : Prop extends Inherited N E where
  midpoint : ∀ {a b} (hanging : Bool), N a → N b → N { Node.midpoint a b with hanging }
  centre : ∀ {e}, E e → N e.centre
  side : ∀ {a b}, N a → N b → E (.side a b)
  quad : ∀ {a b c d}, N a → N b → N c → N d → E (.quad a b c d)
  withMark : ∀ {e} (mark : UInt8), E e → E (e.withMark mark)
  withBoundary : ∀ {e} (boundary : Bool), E e → E (e.withBoundary boundary)
  withAttributes : ∀ {e} (attributes : Attributes), E e → E (e.withAttributes attributes)

theorem everywhere_sides (h : region.Everywhere N E) : ∀ e ∈ sides region, E e :=
  fun e mem => (Everywhere.iff_values.1 h).2 e (List.mem_of_mem_filter mem)

/-- A side that cannot be assembled is empty. -/
theorem everywhere_rightSide {index : Nat}
    (assembled : ∀ g, P.right region index = .ok g → g.Everywhere N E) :
    (P.rightSide region index).Everywhere N E := by
  rw [Production.rightSide]
  cases eq : P.right region index with
  | error _ => exact .empty
  | ok g => exact assembled g eq

namespace Refinable

theorem keepSides (r : Refinable N E) (h : region.Everywhere N E) : (keepSides region).Everywhere N E :=
  r.insertAll .empty (everywhere_sides h)

theorem markElement (r : Refinable N E) (h : region.Everywhere N E) (name : String) (o : Outline)
    (index : Nat) : ((markElement name o).rightSide region index).Everywhere N E := by
  apply everywhere_rightSide
  intro g eq
  obtain ⟨element, found, eq⟩ := bind_eq_ok.1 eq
  cases eq
  have new : E element := h.hyperedge _ _ (requireHyperedge_eq_ok.1 found)
  exact r.insertHyperedge (r.keepSides h) (r.withMark 1 new)

theorem markPentagonSides (r : Refinable N E) (h : region.Everywhere N E) (index : Nat) :
    (markPentagonSides.rightSide region index).Everywhere N E := by
  apply everywhere_rightSide
  intro g eq
  obtain ⟨element, found, eq⟩ := bind_eq_ok.1 eq
  cases eq
  have new : E element := h.hyperedge _ _ (requireHyperedge_eq_ok.1 found)
  refine List.foldlRecOn _ _ (r.insertHyperedge .empty new) fun g made e mem => ?_
  exact r.insertHyperedge made (r.withMark 1 (everywhere_sides h e mem))

theorem halves (r : Refinable N E) {hanging : Hyperedge → Bool} (h : region.Everywhere N E)
    (eq : Rules.halves hanging region = .ok g) : g.Everywhere N E := by
  rw [Rules.halves] at eq
  obtain ⟨side, -, eq⟩ := bind_eq_ok.1 eq
  obtain ⟨a, shown, eq⟩ := bind_eq_ok.1 eq
  obtain ⟨b, shown', eq⟩ := bind_eq_ok.1 eq
  rw [← Except.ok.inj eq]
  have first : N a := h.node _ _ (requireNode_eq_ok.1 shown)
  have second : N b := h.node _ _ (requireNode_eq_ok.1 shown')
  have middle := r.midpoint (hanging side) first second
  have half {p q : Node} (first : N p) (second : N q) :
      E ((Hyperedge.side p q).withAttributes side.attributes) :=
    r.withAttributes _ (r.side first second)
  have out := r.insertHyperedge (r.addNode .empty middle) (half first middle)
  exact r.insertHyperedge out (half middle second)

theorem addSlices (r : Refinable N E) {ring : List (Node × Node)} (h : g.Everywhere N E) (new : E element)
    (ends : ∀ k ∈ ring, N k.1 ∧ N k.2) : (addSlices element ring g).Everywhere N E := by
  have centre : N element.centre := r.centre new
  refine List.foldlRecOn _ _ (r.addNode h centre) fun out h ⟨⟨corner, next⟩, previous⟩ mem => ?_
  obtain ⟨first, second⟩ := List.of_mem_zip mem
  rw [(rotateRight_perm ..).mem_iff, List.mem_map] at second
  obtain ⟨k, mem', rfl⟩ := second
  have spoke := r.withBoundary false (r.side (ends _ first).2 centre)
  have quad := r.withBoundary false (r.quad (ends _ first).1 (ends _ first).2 centre (ends k mem').2)
  exact r.insertHyperedge (r.insertHyperedge h spoke) quad

theorem breakElement (r : Refinable N E) (h : region.Everywhere N E) (name : String) (o : Outline)
    (index : Nat) : ((breakElement name o).rightSide region index).Everywhere N E := by
  apply everywhere_rightSide
  intro g eq
  obtain ⟨element, found, eq⟩ := bind_eq_ok.1 eq
  obtain ⟨ring, nodes, eq⟩ := bind_eq_ok.1 eq
  cases eq
  refine r.addSlices (r.keepSides h) (h.hyperedge _ _ (requireHyperedge_eq_ok.1 found)) fun k mem => ?_
  obtain ⟨keys, -, eq⟩ := exists_of_mapM_eq_ok nodes k mem
  obtain ⟨a, shown, eq⟩ := bind_eq_ok.1 eq
  obtain ⟨b, shown', eq⟩ := bind_eq_ok.1 eq
  cases eq
  exact ⟨h.node _ _ (requireNode_eq_ok.1 shown), h.node _ _ (requireNode_eq_ok.1 shown')⟩

theorem rightSide_of_rule (r : Refinable N E) (h : region.Everywhere N E) (rule : P ∈ all) (index : Nat) :
    (P.rightSide region index).Everywhere N E := by
  simp only [all, List.mem_cons, List.not_mem_nil, or_false] at rule
  rcases rule with rfl | rfl | rfl | rfl | rfl | rfl | rfl | rfl
  · exact r.markElement h ..
  · exact everywhere_rightSide fun g eq => r.halves h eq
  · exact everywhere_rightSide fun g eq => r.halves h eq
  · exact r.markPentagonSides h index
  · exact r.breakElement h ..
  · exact r.markElement h ..
  · exact r.breakElement h ..
  · exact r.markElement h ..

end Refinable

end Rules

end Hypermesh
