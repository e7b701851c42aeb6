import Hypermesh.Proofs.Euler
import Hypermesh.Proofs.Everywhere
import Mathlib.Data.Sym.Sym2

/-!
Midpoints of different ends are different. Labels nest without escapes, but all that splitting and breaking
make of names has its bars inside of matching brackets. So the one bar that stands between the ends of a
midpoint can be found again, however the ends came about.
-/

namespace Hypermesh

namespace Label

variable {l : Label}

/-- Neither brackets nor bars occur. -/
def Bare (l : Label) : Prop := ∀ c ∈ l.toList, c ≠ '(' ∧ c ≠ ')' ∧ c ≠ '|'

instance (l : Label) : Decidable (Bare l) := List.decidableBAll _ l.toList

/-- Made by splitting and breaking, from names without brackets and bars. -/
inductive Generated : Label → Prop
  | name {l : Label} : Bare l → Generated l
  | midpoint {a b : Label} : Generated a → Generated b → Generated (midpoint a b)
  | centre {e : Hyperedge} : Bare e.tag → (∀ l ∈ e.memberLabels, Generated l) →
      Generated (centre e.label)

theorem Bare.closed (bare : Bare l) : Closed l := by
  apply depth_of_plain
  intro c mem
  obtain ⟨mem, line⟩ := List.mem_filter.1 mem
  obtain ⟨opens, closes, bar⟩ := bare c mem
  exact ⟨opens, closes, bar, of_decide_eq_true line⟩

theorem Generated.closed (made : Generated l) : Closed l := by
  induction made with
  | name bare => exact bare.closed
  | midpoint _ _ first second => exact closed_midpoint first second
  | centre tag _ members => exact closed_centre (closed_hyperedge tag.closed members)

theorem not_bare_midpoint (a b : Label) : ¬ Bare (Label.midpoint a b) := by
  intro bare
  obtain ⟨x, y, -, text⟩ := toList_midpoint a b
  exact (bare '(' (by rw [text]; simp)).1 rfl

theorem midpoint_eq_iff {a b c d : Label} (first : Generated a) (second : Generated b)
    (first' : Generated c) (second' : Generated d) :
    Label.midpoint a b = Label.midpoint c d ↔ s(a, b) = s(c, d) := by
  rw [Sym2.eq_iff]
  constructor
  · exact eq_or_swap_of_midpoint_eq first.closed second.closed first'.closed second'.closed
  · rintro (⟨rfl, rfl⟩ | ⟨rfl, rfl⟩)
    · rfl
    · exact midpoint_comm a b

end Label

namespace Rules

open Hypermesh.Hypergraph Label

variable {g h : Hypergraph} {n : Node}

/-- A hyperedge over members with generated labels. -/
def MadeEdge (e : Hyperedge) : Prop := Bare e.tag ∧ ∀ l ∈ e.memberLabels, Generated l

/-- All labels in a hypergraph are generated. -/
structure Made (g : Hypergraph) : Prop where
  node : ∀ l n, g.node? l = some n → Generated n.label
  edge : ∀ l e, g.hyperedge? l = some e → MadeEdge e

/-- What the rules make of generated labels is generated. -/
theorem refinable_made : Refinable (fun n => Generated n.label) MadeEdge where
  regular := id
  member made n mem := made.2 n.label (List.mem_map_of_mem mem)
  midpoint _ := .midpoint
  centre made := .centre made.1 made.2
  side {a b} first second := by
    refine ⟨(by decide : Bare sideTag), fun l (member : l ∈ [a.label, b.label]) => ?_⟩
    rw [List.mem_pair] at member
    rcases member with rfl | rfl
    · exact first
    · exact second
  quad {a b c d} first second third fourth := by
    refine ⟨(by decide : Bare quadTag), ?_⟩
    change ∀ l ∈ [a.label, b.label, c.label, d.label], Generated l
    simp only [List.forall_mem_cons]
    exact ⟨first, second, third, fourth, nofun⟩
  withMark _ made := made
  withBoundary _ made := made
  withAttributes _ made := made

namespace Made

theorem iff_everywhere : Made g ↔ g.Everywhere (fun n => Generated n.label) MadeEdge :=
  ⟨fun made => ⟨made.node, made.edge⟩, fun h => ⟨h.node, h.hyperedge⟩⟩

/-- Hyperedges over names. -/
theorem of_bare (node : ∀ n ∈ g.nodes.values, Bare n.label)
    (edge : ∀ e ∈ g.hyperedges.values, Bare e.tag ∧ ∀ l ∈ e.memberLabels, Bare l) : Made g := by
  rw [iff_everywhere, Everywhere.iff_values]
  refine ⟨fun n mem => .name (node n mem), fun e mem => ?_⟩
  obtain ⟨tag, members⟩ := edge e mem
  exact ⟨tag, fun k member => .name (members k member)⟩

theorem node_of_mem (made : Made g) (mem : n ∈ g.nodes.values) : Generated n.label :=
  (Everywhere.iff_values.1 (iff_everywhere.1 made)).1 n mem

theorem step (made : Made g) (step : Step g h) : Made h := by
  obtain ⟨index, rule, mem, eq⟩ := step
  have everywhere := iff_everywhere.1 made
  have new := refinable_made.rightSide_of_rule (everywhere.region eq) rule index
  exact iff_everywhere.2 (refinable_made.replace everywhere new _ _)

theorem steps (made : Made g) (steps : Relation.ReflTransGen Step g h) : Made h := by
  induction steps with
  | refl => exact made
  | tail _ step ih => exact ih.step step

end Made

/-- The midpoints of generated labels are the same only for the same two ends, and neither centres nor
names. All labels that the rules come to, from a host whose labels are generated, are generated again, so
that different pairs of nodes never have the same midpoint. -/
theorem midpoints_differ :
    (∀ a b c d, Generated a → Generated b → Generated c → Generated d →
      (midpoint a b = midpoint c d ↔ s(a, b) = s(c, d))) ∧
    (∀ a b (e : Hyperedge), midpoint a b ≠ centre e.label) ∧
    (∀ a b l, Bare l → midpoint a b ≠ l) ∧
    ∀ host g h, Made host → Relation.ReflTransGen Step host g → Relation.ReflTransGen Step host h →
      ∀ a ∈ g.nodes.values, ∀ b ∈ g.nodes.values, ∀ c ∈ h.nodes.values, ∀ d ∈ h.nodes.values,
        ((Node.midpoint a b).label = (Node.midpoint c d).label ↔
          s(a.label, b.label) = s(c.label, d.label)) := by
  refine ⟨fun a b c d => midpoint_eq_iff, fun a b e => midpoint_ne_centre a b e.label, ?names, ?hosts⟩
  case names =>
    rintro a b l bare rfl
    exact not_bare_midpoint a b bare
  case hosts =>
    intro host g h made steps steps' a mem b mem' c mem'' d mem'''
    have first := made.steps steps
    have second := made.steps steps'
    exact midpoint_eq_iff (first.node_of_mem mem) (first.node_of_mem mem') (second.node_of_mem mem'')
      (second.node_of_mem mem''')

/-- Names may have underscores, and a midpoint of a midpoint tells which end is which. -/
theorem midpoints_differ_nested :
    let host := Operation.build markedTriangle
    let g := (splitSide.run {} 2 host).host
    midpoint (midpoint "a_1" "b") "b" ≠ midpoint "a_1" (midpoint "b" "b") ∧
      midpoint "a" "b" ≠ "mid_a_b" ∧ Made host ∧ Relation.ReflTransGen Step host g ∧
      g.nodes.keys = ["a", "b", "c", "mid(a|b)", "mid(a|c)"] ∧
      ∀ a ∈ g.nodes.values, ∀ b ∈ g.nodes.values, ∀ c ∈ g.nodes.values, ∀ d ∈ g.nodes.values,
        ((Node.midpoint a b).label = (Node.midpoint c d).label ↔
          s(a.label, b.label) = s(c.label, d.label)) := by
  intro host g
  obtain ⟨ends, -, names, hosts⟩ := midpoints_differ
  have a : Generated "a_1" := .name (by decide)
  have b : Generated "b" := .name (by decide)
  have made : Made host := .of_bare (by decide +kernel) (by decide +kernel)
  have steps : Relation.ReflTransGen Step host g := steps_of_run (by simp [all]) {} 2 host
  refine ⟨?_, names "a" "b" _ (by decide), made, steps, by decide +kernel, hosts host g g made steps steps⟩
  rw [ne_eq, ends _ _ _ _ (.midpoint a b) b a (.midpoint b b), Sym2.eq_iff]
  decide

end Rules

end Hypermesh
