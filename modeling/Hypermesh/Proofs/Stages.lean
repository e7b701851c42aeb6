import Hypermesh.Proofs.Fanning
import Hypermesh.Proofs.Parts

/-!
The four runs that turn pentagons into marked quads, one after the other. On a single pentagon they are
known; on hosts that share no label they make up those on the union.
-/

namespace Hypermesh.Rules

open Hypermesh.Hypergraph Label
open scoped List

variable {g g₁ g₂ f₁ f₂ f₃ f₄ : Hypergraph} {n n' : Nat} {s : Settings} {centre : Node}
  {slices : List ((Node × Node) × Node)} {sides values values' : List Hyperedge} {element : Hyperedge}
  {ring : List Label}

/-- What `n` pentagons are once they are broken. -/
structure Refined (n : Nat) (g : Hypergraph) : Prop where
  nodes : g.nodes.size = 11 * n
  firm : ∀ node ∈ g.nodes.values, node.hanging = false
  hyperedges : g.hyperedges.size = 20 * n
  pentagons : g.tally [Outline.pentagon.tag] = 0
  sides : g.tally [sideTag] = 15 * n
  boundary : g.hyperedges.values.countP (fun e => e.tag = sideTag ∧ e.onBoundary) = 10 * n
  quads : g.tally [quadTag] = 5 * n

/-- All quads are marked. -/
structure Ripe (n : Nat) (g : Hypergraph) : Prop where
  quads : g.tally [quadTag] = 5 * n
  marked : ∀ e ∈ g.hyperedges.values, e.tag = quadTag → e.mark = 1

/-- The runs on a host of `n` pentagons, each on what the one before it leaves. -/
structure Stages (s : Settings) (n : Nat) (g f₁ f₂ f₃ f₄ : Hypergraph) : Prop where
  first : markPentagonSides.Ends s g n f₁
  second : splitSide.Ends s f₁ (5 * n) f₂
  third : breakPentagon.Ends s f₂ n f₃
  fourth : markQuad.Ends s f₃ (5 * n) f₄
  refined : Refined n f₃
  ripe : Ripe n f₄

/-! ### One pentagon -/

theorem tally_of_perm (perm : g.hyperedges.values ~ values ++ values') (tags : List String) :
    g.tally tags =
      (values.map Hyperedge.tag).countP (· ∈ tags) + (values'.map Hyperedge.tag).countP (· ∈ tags) := by
  rw [Hypergraph.tally, perm.countP_eq, List.countP_append, List.countP_map, List.countP_map]
  rfl

theorem Fanned.refined (fanned : Fanned g centre slices sides) (five : slices.length = 5)
    (ten : sides.length = 10) (size : g.nodes.size = 11) : Refined 1 g := by
  have values := fanned.values
  have tags : sides.map Hyperedge.tag = List.replicate 10 sideTag := by
    rw [← ten, List.map_eq_replicate_iff]
    exact fun e mem => (fanned.side e mem).1
  have tally (tags' : List String) : g.tally tags' =
      5 * [sideTag, quadTag].countP (· ∈ tags') + (List.replicate 10 sideTag).countP (· ∈ tags') := by
    rw [tally_of_perm values, tags_fanEdges, countP_pairs, five, tags]
  refine ⟨size, fanned.firm, ?hyperedges, ?_, ?_, ?boundary, ?_⟩
  case hyperedges =>
    rw [← Table.length_values, values.length_eq, List.length_append, ten, ← List.length_map Hyperedge.tag,
      tags_fanEdges]
    simp [five]
  case boundary =>
    have inner : (fanEdges centre slices).countP (fun e => e.tag = sideTag ∧ e.onBoundary) = 0 := by
      rw [List.countP_eq_zero]
      intro e mem
      obtain ⟨slice, -, rfl | rfl⟩ := mem_fanEdges.1 mem
      · exact of_decide_eq_false rfl
      · exact of_decide_eq_false rfl
    have outer : sides.countP (fun e => e.tag = sideTag ∧ e.onBoundary) = sides.length := by
      rw [List.countP_eq_length]
      intro e mem
      exact decide_eq_true ⟨(fanned.side e mem).1, (fanned.side e mem).2.2⟩
    rw [values.countP_eq, List.countP_append, inner, outer, ten]
  all_goals
    rw [tally]
    decide

/-- Every quad of a broken pentagon lies in a ring of unmarked sides. -/
theorem Fanned.quads (fanned : Fanned g centre slices sides) :
    ∀ e ∈ g.hyperedges.values, e.tag = quadTag →
      e.mark = 0 ∧ e.memberLabels.length = 4 ∧ g.Encircled 0 e.memberLabels := by
  intro e mem tag
  rcases List.mem_append.1 (fanned.values.mem_iff.1 mem) with mem | mem
  · obtain ⟨slice, known, rfl | rfl⟩ := mem_fanEdges.1 mem
    · exact absurd tag sideTag_ne_quadTag
    · exact ⟨rfl, rfl, fanned.slice slice known⟩
  · exact absurd ((fanned.side e mem).1.symm.trans tag) sideTag_ne_quadTag

theorem exists_stages (x : g.Enclosed 0 ring sides element) (members : element.memberLabels = ring)
    (five : ring.length = 5) (s : Settings) : ∃ f₁ f₂ f₃ f₄, Stages s 1 g f₁ f₂ f₃ f₄ := by
  obtain ⟨f₁, first, x₁⟩ := ends_markPentagonSides x members five s
  obtain ⟨f₂, halves, second, x₂⟩ := ends_splitSide_enclosed x₁ s
  obtain ⟨f₃, slices, third, length, fanned, size⟩ := ends_breakPentagon x₂ members five s
  have ten : (subdivide Label.midpoint ring).length = 10 := by rw [length_subdivide, five]
  have nodes : f₂.nodes.size = 10 := by rw [← Table.length_keys, x₂.nodes.length_eq, ten]
  have refined := fanned.refined length (x₂.length.trans ten) (size.trans (congrArg (· + 1) nodes))
  obtain ⟨f₄, ts, fourth, revised, w, marked⟩ :=
    ends_markQuad fanned.tidy.coherent fanned.tidy.wellFormed fanned.quads s
  rw [refined.quads] at fourth
  rw [five] at second
  refine ⟨f₁, f₂, f₃, f₄, first, second, third, fourth, refined, ?_, marked⟩
  rw [revised.tally fanned.tidy.wellFormed w (keepsMembers_markAt ts), refined.quads]

/-! ### Two hosts -/

theorem connected_markPentagonSides : markPentagonSides.leftSide.Connected :=
  connected_of_reach Outline.pentagon.elementKey reachable_markPentagonSides.coherent.symmetric 2
    (by decide +kernel)

theorem connected_splitSide : splitSide.leftSide.Connected :=
  connected_of_hub sideKey reachable_splitSide.coherent.symmetric (by decide +kernel)

theorem connected_breakPentagon : breakPentagon.leftSide.Connected :=
  connected_of_reach Outline.pentagon.elementKey (reachable_breakElement ..).coherent.symmetric 3
    (by decide +kernel)

theorem connected_markQuad : markQuad.leftSide.Connected :=
  connected_of_reach Outline.quad.elementKey (reachable_markElement ..).coherent.symmetric 2
    (by decide +kernel)

section Unite

variable (union : g.UnionOf g₁ g₂) (apart : g₁.Separate g₂) (w₁ : g₁.WellFormed) (w₂ : g₂.WellFormed)
include union apart w₁ w₂

theorem Refined.unite (first : Refined n g₁) (second : Refined n' g₂) : Refined (n + n') g where
  nodes := by
    rw [← Table.length_values, (union.nodes_perm apart w₁ w₂).length_eq, List.length_append,
      Table.length_values, Table.length_values, first.nodes, second.nodes, Nat.mul_add]
  firm node mem := by
    rw [(union.nodes_perm apart w₁ w₂).mem_iff, List.mem_append] at mem
    exact mem.elim (first.firm node) (second.firm node)
  hyperedges := by
    rw [← Table.length_values, (union.hyperedges_perm apart w₁ w₂).length_eq, List.length_append,
      Table.length_values, Table.length_values, first.hyperedges, second.hyperedges, Nat.mul_add]
  pentagons := by rw [union.tally apart w₁ w₂, first.pentagons, second.pentagons]
  sides := by rw [union.tally apart w₁ w₂, first.sides, second.sides, Nat.mul_add]
  boundary := by
    rw [(union.hyperedges_perm apart w₁ w₂).countP_eq, List.countP_append, first.boundary,
      second.boundary, Nat.mul_add]
  quads := by rw [union.tally apart w₁ w₂, first.quads, second.quads, Nat.mul_add]

theorem Ripe.unite (first : Ripe n g₁) (second : Ripe n' g₂) : Ripe (n + n') g where
  quads := by rw [union.tally apart w₁ w₂, first.quads, second.quads, Nat.mul_add]
  marked e mem := by
    rw [(union.hyperedges_perm apart w₁ w₂).mem_iff, List.mem_append] at mem
    exact mem.elim (first.marked e) (second.marked e)

end Unite

/-- A host of two parts that are made from different names. -/
structure PartsOver (names names' : Label → Prop) (g g₁ g₂ : Hypergraph) : Prop where
  union : g.UnionOf g₁ g₂
  first : Over names g₁
  second : Over names' g₂

section Names

variable {names names' : Label → Prop} (plain : ∀ l, names l → Plain l) (plain' : ∀ l, names' l → Plain l)
  (apart : ∀ l, names l → ¬ names' l)
include plain plain' apart

/-- What a rule does to such a host is what it does to either part. -/
theorem PartsOver.ends {P : Production} (rule : P ∈ all) (connected : P.leftSide.Connected)
    (parts : PartsOver names names' g g₁ g₂) (first : P.Ends s g₁ n f₁) (second : P.Ends s g₂ n' f₂) :
    ∃ f, P.Ends s g (n + n') f ∧ PartsOver names names' f f₁ f₂ := by
  have foreign : P.Foreign s g₁ g₂ := parts.first.foreign plain plain' apart rule parts.second
  obtain ⟨f, ends, union⟩ := Production.Ends.unite (reachable_leftSide P rule).coherent connected parts.union
    foreign first second
  exact ⟨f, ends, union, parts.first.ends rule first, parts.second.ends rule second⟩

theorem Stages.unite {f₁' f₂' f₃' f₄' : Hypergraph} (parts : PartsOver names names' g g₁ g₂)
    (stages : Stages s n g₁ f₁ f₂ f₃ f₄) (stages' : Stages s n' g₂ f₁' f₂' f₃' f₄') :
    ∃ h₁ h₂ h₃ h₄, Stages s (n + n') g h₁ h₂ h₃ h₄ := by
  have separate {g g₁ g₂ : Hypergraph} (parts : PartsOver names names' g g₁ g₂) : g₁.Separate g₂ :=
    parts.first.separate plain plain' apart parts.second
  -- Each run leaves a host of two parts again, which the next one starts from.
  obtain ⟨h₁, first, parts₁⟩ := parts.ends plain plain' apart (by simp [all]) connected_markPentagonSides
    stages.first stages'.first
  obtain ⟨h₂, second, parts₂⟩ := parts₁.ends plain plain' apart (by simp [all]) connected_splitSide
    stages.second stages'.second
  obtain ⟨h₃, third, parts₃⟩ := parts₂.ends plain plain' apart (by simp [all]) connected_breakPentagon
    stages.third stages'.third
  obtain ⟨h₄, fourth, parts₄⟩ := parts₃.ends plain plain' apart (by simp [all]) connected_markQuad
    stages.fourth stages'.fourth
  refine ⟨h₁, h₂, h₃, h₄, first, ?_, third, ?_, ?_, ?_⟩
  · rw [Nat.mul_add]
    exact second
  · rw [Nat.mul_add]
    exact fourth
  · exact stages.refined.unite parts₃.union (separate parts₃) parts₃.first.tidy.wellFormed
      parts₃.second.tidy.wellFormed stages'.refined
  · exact stages.ripe.unite parts₄.union (separate parts₄) parts₄.first.tidy.wellFormed
      parts₄.second.tidy.wellFormed stages'.ripe

end Names

/-! ### No pentagons -/

theorem rests_empty {P : Production} (rule : P ∈ all) (s : Settings) : P.Rests s ∅ := by
  intro m mem
  obtain ⟨nonempty, embeds⟩ := (mem_embeddings (reachable_leftSide P rule).coherent Coherent.empty).1 mem
  obtain ⟨u, vertex⟩ := List.exists_mem_of_length_pos
    (P.leftSide.vertices.length_keys ▸ isEmpty_eq_false_iff.1 nonempty)
  obtain ⟨t, image⟩ := embeds.exists_image vertex
  exact absurd (embeds.target u t image) (Table.not_mem_empty t)

theorem stages_empty (s : Settings) : Stages s 0 ∅ ∅ ∅ ∅ ∅ where
  first := .rests (rests_empty (by simp [all]) s)
  second := .rests (rests_empty (by simp [all]) s)
  third := .rests (rests_empty (by simp [all]) s)
  fourth := .rests (rests_empty (by simp [all]) s)
  refined := ⟨rfl, List.forall_mem_nil _, rfl, rfl, rfl, rfl, rfl⟩
  ripe := ⟨rfl, List.forall_mem_nil _⟩

end Hypermesh.Rules
