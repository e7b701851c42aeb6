import Hypermesh.Proofs.Halving

/-!
The run that splits the sides of a tidy host. Here labels remember midpoints, so what comes in is new after
every split, and the result is known by what its labels say.
-/

namespace Hypermesh.Rules

open Hypermesh.Hypergraph
open scoped List

variable {g : Hypergraph} {side : Hyperedge} {marked rest halves : List Hyperedge} {middles : List Node}

/-- Unmarked halves and midpoints for the sides `marked`. -/
structure Halved (marked halves : List Hyperedge) (middles : List Node) : Prop where
  length : halves.length = 2 * marked.length
  length_middles : middles.length = marked.length
  half : ∀ e ∈ halves, e.tag = sideTag ∧ e.mark = 0 ∧ ∃ side ∈ marked, e.attributes = side.attributes ∧
    ∃ a b, side.Joins a b ∧ e.Joins a (.midpoint a b)
  middle : ∀ n ∈ middles, ∃ side ∈ marked, n.hanging = !side.onBoundary ∧
    ∃ a b, side.Joins a b ∧ n.label = .midpoint a b
  joins : ∀ side ∈ marked, ∀ a b, side.Joins a b → ∃ e ∈ halves, e.Joins a (.midpoint a b)

namespace Halved

variable {a middle b : Node}

theorem cons (halved : Halved marked halves middles) (joins : side.Joins a.label b.label)
    (label : middle.label = .midpoint a.label b.label) (hanging : middle.hanging = !side.onBoundary) :
    Halved (side :: marked) (halfEdges side a middle b ++ halves) (middle.regular :: middles) := by
  have front : ((Hyperedge.side a middle).withAttributes side.attributes).Joins a.label
      (.midpoint a.label b.label) := Or.inl (by simp [label])
  have back : ((Hyperedge.side middle b).withAttributes side.attributes).Joins b.label
      (.midpoint b.label a.label) := Or.inr (by simp [label, Label.midpoint_comm])
  refine ⟨?length, congrArg Nat.succ halved.length_middles, ?half, ?middle, ?joins⟩
  case length =>
    rw [List.length_append, halved.length, List.length_cons, Nat.mul_succ, Nat.add_comm]
    rfl
  case half =>
    intro e mem
    rcases List.mem_append.1 mem with mem | mem
    · rcases mem_halfEdges.1 mem with rfl | rfl
      · exact ⟨rfl, rfl, side, List.mem_cons_self, rfl, _, _, joins, front⟩
      · exact ⟨rfl, rfl, side, List.mem_cons_self, rfl, _, _, joins.symm, back⟩
    · obtain ⟨tag, mark, side', mem, same⟩ := halved.half e mem
      exact ⟨tag, mark, side', List.mem_cons_of_mem _ mem, same⟩
  case middle =>
    intro n mem
    rcases List.mem_cons.1 mem with rfl | mem
    · exact ⟨side, List.mem_cons_self, hanging, _, _, joins, label⟩
    · obtain ⟨side', mem, same⟩ := halved.middle n mem
      exact ⟨side', List.mem_cons_of_mem _ mem, same⟩
  case joins =>
    intro side' mem c d joins'
    rcases List.mem_cons.1 mem with rfl | mem
    · rcases joins.eq_or_eq joins' with ⟨rfl, rfl⟩ | ⟨rfl, rfl⟩
      · exact ⟨_, List.mem_append_left _ (mem_halfEdges.2 (Or.inl rfl)), front⟩
      · exact ⟨_, List.mem_append_left _ (mem_halfEdges.2 (Or.inr rfl)), back⟩
    · obtain ⟨e, mem, joins⟩ := halved.joins side' mem c d joins'
      exact ⟨e, List.mem_append_right _ mem, joins⟩

end Halved

theorem halved_of_each {cs : List Halving} (each : ∀ c ∈ cs, c.Of g) :
    Halved (cs.map Halving.side) (cs.flatMap Halving.halves) (cs.map Halving.middle) := by
  induction cs with
  | nil => exact ⟨rfl, rfl, nofun, nofun, nofun⟩
  | cons c cs ih =>
    obtain ⟨first, rest⟩ := List.forall_mem_cons.1 each
    exact (ih rest).cons first.joins rfl rfl

/-- The run splits all marked sides of a tidy host, and leaves the rest as it is. -/
theorem ends_splitSide (t : g.Tidy) (values : g.hyperedges.values ~ marked ++ rest)
    (sides : ∀ e ∈ marked, e.tag = sideTag ∧ e.mark = 1) (others : ∀ e ∈ rest, e.tag = sideTag → e.mark ≠ 1)
    (s : Settings) :
    ∃ h halves middles, splitSide.Ends s g marked.length h ∧ h.Tidy ∧ Halved marked halves middles ∧
      h.hyperedges.values ~ halves ++ rest ∧ h.nodes.values ~ middles ++ g.nodes.values := by
  have listed (e : Hyperedge) (mem : e ∈ marked) : e ∈ g.markedSides :=
    mem_markedSides.2 ⟨values.mem_iff.2 (List.mem_append_left _ mem), sides e mem⟩
  have two (e : Hyperedge) (mem : e ∈ marked) := t.straight.two e (mem_markedSides.1 (listed e mem)).1
    (sides e mem).1
  let cs := marked.filterMap g.halving?
  obtain ⟨all, each⟩ : cs.map Halving.side = marked ∧ ∀ c ∈ cs, c.Of g :=
    halvings_of_ends t.wellFormed listed two
  have refinement {g : Hypergraph} {c : Halving} (waits : c.Of g) (stored : c.side ∈ g.hyperedges.values) :
      g.Refinement c.side c.middle c.halves := .halve c.a c.b stored waits.tag waits.joins rfl
  -- Tidiness says after each split that the next midpoint is new.
  have awaits : g.Awaits cs rest := ⟨t.coherent, t.wellFormed, all ▸ values, each, others⟩
  obtain ⟨h, ends, split, tidy⟩ := awaits.ends (I := fun g _ => g.Tidy)
    (fun g cs t c _ waits stored => (refinement waits stored).supplies t)
    (fun g h cs t c _ waits x => t.refined (refinement waits x.stored) x) t s
  have length : cs.length = marked.length := by rw [← all, List.length_map]
  exact ⟨h, _, _, length ▸ ends, tidy, all ▸ halved_of_each each, split.hyperedges, split.nodes⟩

end Hypermesh.Rules
