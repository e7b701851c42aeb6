import Hypermesh.Rules.Library
import Hypermesh.Proofs.WellFormed

/-!
The left sides of the library are put together by insertions, as are all rings and elements.
-/

namespace Hypermesh

open Rules

namespace Hypergraph

variable {g h : Hypergraph} {edge : Hyperedge} {o : Outline} {mark mark' : UInt8}

theorem Grows.reachable (growth : g.Grows h) (reachable : g.Reachable) : h.Reachable := by
  induction growth with
  | refl => exact reachable
  | addNode node _ ih => exact ih.perform (.addNode node)
  | insertHyperedge edge _ ih => exact ih.perform (.addHyperedge edge false)

theorem Grows.wellFormed (growth : Grows ∅ g) (unambiguous : g.Unambiguous) : g.WellFormed :=
  (WellFormed.kept.grows growth ⟨Coherent.empty, .empty⟩ unambiguous).2

theorem grows_addNodes (g : Hypergraph) (nodes : List Node) : g.Grows (g.addNodes nodes) :=
  Grows.foldl grows_addNode nodes g

theorem grows_addHyperedge (eq : g.addHyperedge edge = .ok h) : g.Grows h := by
  cases addHyperedge_eq_ok eq
  exact g.grows_insertHyperedge edge

theorem grows_addRing {nodes : List Node} {f : Hyperedge → Hyperedge} (eq : g.addRing nodes f = .ok h) :
    g.Grows h := by
  apply foldlM_keeps (I := g.Grows) _ (g.grows_addNodes nodes) eq
  intro k side _ h growth added
  exact growth.trans (grows_addHyperedge added)

theorem grows_addElement {members : List Node} {tag : String} (eq : g.addElement members tag mark = .ok h) :
    g.Grows h := by
  obtain ⟨element, -, added⟩ := bind_eq_ok.1 eq
  exact grows_addHyperedge added

theorem grows_whole (eq : o.whole mark mark' = .ok g) : Grows ∅ g := by
  obtain ⟨ring, sides, element⟩ := bind_eq_ok.1 eq
  exact (grows_addRing sides).trans (grows_addElement element)

theorem grows_split (eq : o.split mark = .ok g) : Grows ∅ g := by
  obtain ⟨ring, sides, element⟩ := bind_eq_ok.1 eq
  exact (grows_addRing sides).trans (grows_addElement element)

theorem grows_markedSide (eq : markedSide = .ok g) : Grows ∅ g := by
  unfold markedSide at eq
  exact (grows_addNodes ..).trans (grows_addHyperedge eq)

theorem grows_graph {side : Except GraphError Hypergraph} (ok : ∀ g, side = .ok g → Grows ∅ g) :
    Grows ∅ (Side.graph (side.mapError .graph)) := by
  cases side with
  | error e => exact .refl
  | ok g => exact ok g rfl

end Hypergraph

namespace Rules

open Hypermesh.Hypergraph

theorem grows_markElement (name : String) (o : Outline) : Grows ∅ (markElement name o).leftSide :=
  grows_graph fun _ => grows_whole

theorem grows_breakElement (name : String) (o : Outline) : Grows ∅ (breakElement name o).leftSide :=
  grows_graph fun _ => grows_split

theorem grows_markPentagonSides : Grows ∅ markPentagonSides.leftSide := by
  change Grows ∅ (Side.graph ((Outline.pentagon.whole 1 0).mapError .graph))
  exact grows_graph fun _ => grows_whole

theorem grows_splitSide : Grows ∅ splitSide.leftSide := grows_graph fun _ => grows_markedSide

theorem grows_leftSide : ∀ P ∈ all, Grows ∅ P.leftSide := by
  simp only [all, List.forall_mem_cons]
  exact ⟨grows_markElement .., grows_splitSide, grows_splitSide, grows_markPentagonSides,
    grows_breakElement .., grows_markElement .., grows_breakElement .., grows_markElement .., nofun⟩

theorem reachable_leftSide (P : Production) (rule : P ∈ all) : P.leftSide.Reachable :=
  (grows_leftSide P rule).reachable .empty

theorem reachable_markElement (name : String) (o : Outline) : (markElement name o).leftSide.Reachable :=
  (grows_markElement name o).reachable .empty

theorem reachable_breakElement (name : String) (o : Outline) : (breakElement name o).leftSide.Reachable :=
  (grows_breakElement name o).reachable .empty

theorem reachable_markPentagonSides : markPentagonSides.leftSide.Reachable :=
  grows_markPentagonSides.reachable .empty

theorem reachable_splitSide : splitSide.leftSide.Reachable := grows_splitSide.reachable .empty

end Rules

end Hypermesh
