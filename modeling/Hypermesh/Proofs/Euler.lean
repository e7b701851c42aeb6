import Hypermesh.Proofs.Refining

/-!
The Euler number of a mesh. A midpoint makes up for the side that it adds, and a centre for the sides and
quads around it. Labels are made up so that nothing comes in under a label that is in use, whatever rules
of the library are applied and wherever they match, and so the number stays what it was.
-/

namespace Hypermesh.Rules

open Hypermesh.Hypergraph
open scoped List

variable {P : Production} {s : Settings} {g h host region : Hypergraph} {m : Embedding}
  {labels : List Label} {old : Hyperedge} {node : Node} {new : List Hyperedge} {l : Label}

/-- The tags of elements. -/
def elementTags : List String := [Outline.quad, .pentagon, .hexagon, .heptagon].map Outline.tag

/-- Nodes, less sides, and elements. -/
def euler (g : Hypergraph) : Int := g.nodes.size - g.tally [sideTag] + g.tally elementTags

/-- The midpoint of two nodes and the halves of their side. -/
def splitLabels (a b : Label) : List Label :=
  let middle := Label.midpoint a b
  [middle, .hyperedge sideTag [a, middle], .hyperedge sideTag [middle, b]]

/-- The centre of an element and the spokes and quads around it. -/
def fanLabels (element : Label) (ring : List (Node × Node)) : List Label :=
  let centre := Label.centre element
  centre :: (slices ring).flatMap fun ((corner, next), previous) =>
    [.hyperedge sideTag [next.label, centre],
      .hyperedge quadTag [corner.label, next.label, centre, previous.label]]

/-- The labels that a rule makes up for the region that it is shown. -/
inductive Generates (region : Hypergraph) : Production → List Label → Prop
  | marks {P : Production} : P ∈ [markQuad, markPentagonSides, markHexagon, markHeptagon] →
      Generates region P []
  | splits {P : Production} {a b : Node} : P ∈ [splitSide, splitBoundarySide] →
      region.node? (corner 0) = some a → region.node? (corner 1) = some b →
      Generates region P (splitLabels a.label b.label)
  | breaks {P : Production} {o : Outline} {element : Hyperedge} {node : Label → Node} :
      (P, o) ∈ [(breakPentagon, .pentagon), (breakHexagon, .hexagon)] →
      region.hyperedge? o.elementKey = some element →
      (∀ k ∈ o.splitKeys, region.node? k.1 = some (node k.1) ∧ region.node? k.2 = some (node k.2)) →
      Generates region P (fanLabels element.label (nodeRing o node))

theorem labels_halfEdges (side : Hyperedge) (a middle b : Node)
    (eq : middle.label = .midpoint a.label b.label) :
    middle.label :: (halfEdges side a middle b).map Hyperedge.label = splitLabels a.label b.label := by
  simp [splitLabels, halfEdges, Hyperedge.label, ← eq]

theorem labels_fanEdges (element : Hyperedge) (ring : List (Node × Node)) :
    element.centre.label :: (fanEdges element.centre (slices ring)).map Hyperedge.label =
      fanLabels element.label ring := by
  rw [fanLabels, fanEdges, List.map_flatMap]
  rfl

/-! ### One step -/

theorem tags_halfEdges (side : Hyperedge) (a middle b : Node) :
    (halfEdges side a middle b).map Hyperedge.tag = [sideTag, sideTag] := rfl

theorem tags_fanEdges (centre : Node) (slices : List ((Node × Node) × Node)) :
    (fanEdges centre slices).map Hyperedge.tag = slices.flatMap fun _ => [sideTag, quadTag] := by
  rw [fanEdges, List.map_flatMap]
  rfl

theorem countP_pairs {α : Type} (slices : List α) (p : String → Bool) :
    (slices.flatMap fun _ => [sideTag, quadTag]).countP p = slices.length * [sideTag, quadTag].countP p := by
  rw [List.countP_flatMap, Function.comp_def, List.map_const', List.sum_replicate_nat]

/-- What a step makes of a tidy host, with the labels that come in. -/
inductive Effect (g h : Hypergraph) : List Label → Prop
  | marks (ts : List Label) : Revised (markAt ts) g h → h.Coherent → h.WellFormed → Effect g h []
  | refines {old : Hyperedge} {node : Node} {new : List Hyperedge} :
      old.tag = sideTag ∨ old.tag ∈ elementTags → g.Refinement old node new →
      Exchanged old node new g h → Effect g h (node.label :: new.map Hyperedge.label)

theorem effect_markElement {o : Outline} (framed : Framed o) (name : String) (t : g.Tidy)
    (mem : m ∈ (markElement name o).leftSide.embeddings g)
    (eq : (markElement name o).leftSide.region g m = .ok region) (index : Nat) :
    Effect g (g.replace (markElement name o).leftSide m ((markElement name o).rightSide region index))
      [] := by
  have embeds := ((mem_embeddings (coherent_unmarked o) t.coherent).1 mem).2
  obtain ⟨t', image⟩ := framed.exists_target embeds
  obtain ⟨revised, c, w⟩ := framed.revised_step name t.coherent t.wellFormed mem eq image index
  exact .marks [t'] revised c w

theorem effect_halves (hanging : Hyperedge → Bool) (left : P.leftSide = splitSide.leftSide)
    (right : ∀ region index, P.right region index = halves hanging region)
    (rule : P ∈ [splitSide, splitBoundarySide]) (t : g.Tidy) (mem : m ∈ P.leftSide.embeddings g)
    (eq : P.leftSide.region g m = .ok region) (index : Nat) :
    ∃ labels, Generates region P labels ∧
      Effect g (g.replace P.leftSide m (P.rightSide region index)) labels := by
  obtain ⟨side, a, b, found, shown, shown', tag, -, -, r, x⟩ := exchanged_halves left right t mem eq index
  refine ⟨_, .splits rule shown shown', ?_⟩
  rw [← labels_halfEdges side a (middle hanging side a b) b rfl]
  exact .refines (Or.inl tag) r x

theorem effect_breakElement {o : Outline} (ringed : Ringed o) (tag : o.tag ∈ elementTags) (name : String)
    (rule : (breakElement name o, o) ∈ [(breakPentagon, .pentagon), (breakHexagon, .hexagon)])
    (t : g.Tidy) (mem : m ∈ (breakElement name o).leftSide.embeddings g)
    (eq : (breakElement name o).leftSide.region g m = .ok region) (index : Nat) :
    ∃ labels, Generates region (breakElement name o) labels ∧
      Effect g (g.replace (breakElement name o).leftSide m
        ((breakElement name o).rightSide region index)) labels := by
  obtain ⟨element, node, found, same, -, shown, r, x⟩ := ringed.exchanged name t mem eq index
  refine ⟨_, .breaks rule found shown, ?_⟩
  rw [← labels_fanEdges]
  exact .refines (Or.inr (same ▸ tag)) r x

/-- Every rule of the library. -/
theorem effect_all (rule : P ∈ all) (t : g.Tidy) (mem : m ∈ P.leftSide.embeddings g)
    (eq : P.leftSide.region g m = .ok region) (index : Nat) :
    ∃ labels, Generates region P labels ∧
      Effect g (g.replace P.leftSide m (P.rightSide region index)) labels := by
  simp only [all, List.mem_cons, List.not_mem_nil, or_false] at rule
  rcases rule with rfl | rfl | rfl | rfl | rfl | rfl | rfl | rfl
  · exact ⟨[], .marks (by simp), effect_markElement framed_quad _ t mem eq index⟩
  · exact effect_halves (P := splitSide) (fun side => !side.onBoundary) rfl (fun _ _ => rfl) (by simp) t mem
      eq index
  · exact effect_halves (P := splitBoundarySide) (fun _ => false) rfl (fun _ _ => rfl) (by simp) t mem eq
      index
  · obtain ⟨revised, c, w⟩ := revised_markPentagonSides t.coherent t.wellFormed mem eq index
    exact ⟨[], .marks (by simp), .marks _ revised c w⟩
  · exact effect_breakElement ringed_pentagon (by decide) _ (by simp [breakPentagon]) t mem eq index
  · exact ⟨[], .marks (by simp), effect_markElement framed_hexagon _ t mem eq index⟩
  · exact effect_breakElement ringed_hexagon (by decide) _ (by simp [breakHexagon]) t mem eq index
  · exact ⟨[], .marks (by simp), effect_markElement framed_heptagon _ t mem eq index⟩

namespace Effect

variable (effect : Effect g h labels)
include effect

theorem tidy (t : g.Tidy) : h.Tidy := by
  cases effect with
  | marks ts revised c w => exact t.revised (keepsMembers_markAt ts) revised c w
  | refines _ r x => exact t.refined r x

theorem nodup : labels.Nodup := by
  cases effect with
  | marks => exact .nil
  | refines _ r x =>
    refine List.nodup_cons.2 ⟨?_, x.supplies.nodup⟩
    rw [List.mem_map]
    rintro ⟨e, mem, same⟩
    exact x.supplies.apart e mem same

theorem new_iff (t : g.Tidy) : l ∈ h ∧ ¬ l ∈ g ↔ l ∈ labels := by
  cases effect with
  | marks ts revised c w =>
    rw [revised.mem_iff t.coherent c]
    simp
  | refines _ r x => exact x.new_iff t.wellFormed t.coherent

/-- A midpoint goes with one side more; a centre goes with a side and an element more for each slice, and
an element less. -/
theorem euler_eq (t : g.Tidy) : euler h = euler g := by
  cases effect with
  | marks ts revised c w =>
    have nodes := (revised.nodes_perm t.wellFormed w).length_eq
    rw [Table.length_values, Table.length_values] at nodes
    have same := revised.tally t.wellFormed w (keepsMembers_markAt ts)
    rw [euler, euler, nodes, same, same]
  | refines counted r x =>
    have nodes := x.size_nodes
    have sides := x.tally [sideTag]
    have elements := x.tally elementTags
    rw [euler, euler, nodes]
    cases r with
    | halve a b stored tag =>
      rw [tag, tags_halfEdges] at sides elements
      change 1 + _ = 2 + _ at sides
      change 0 + _ = 0 + _ at elements
      omega
    | fan stored side quad =>
      rw [tags_fanEdges, countP_pairs] at sides elements
      rw [List.countP_singleton, if_neg (by simpa using side)] at sides
      rw [List.countP_singleton, if_pos (by simpa using counted.resolve_left side)] at elements
      change 0 + _ = _ * 1 + _ at sides
      change 1 + _ = _ * 1 + _ at elements
      omega

end Effect

/-! ### Sequences of steps -/

theorem Step.effect (step : Step g h) (t : g.Tidy) : ∃ labels, Effect g h labels := by
  obtain ⟨index, rule, mem, eq⟩ := step
  obtain ⟨labels, -, effect⟩ := effect_all rule t mem eq index
  exact ⟨labels, effect⟩

theorem tidy_of_steps (steps : Relation.ReflTransGen Step host g) (t : host.Tidy) :
    g.Tidy ∧ euler g = euler host := by
  induction steps with
  | refl => exact ⟨t, rfl⟩
  | tail _ step ih =>
    obtain ⟨tidy, same⟩ := ih
    obtain ⟨labels, effect⟩ := step.effect tidy
    exact ⟨effect.tidy tidy, (effect.euler_eq tidy).trans same⟩

/-- A run takes steps, so that runs one after the other do. -/
theorem steps_of_run (rule : P ∈ all) (s : Settings) (rounds : Nat) (g : Hypergraph) :
    Relation.ReflTransGen Step g (P.run s rounds g).host := by
  apply Production.runFrom_keeps (I := Relation.ReflTransGen Step g) (C := fun _ => True) _ rounds 0
    .refl fun _ _ => trivial
  intro index h k steps _ eq _
  obtain ⟨m, region, chosen, rfl⟩ := Production.selected_of_round eq
  obtain ⟨mem, shown, -⟩ := Production.choose_selected chosen
  exact steps.tail (.apply index rule mem shown)

/-- Whatever rules are applied to a clean host, in whatever order and at whatever matches: the Euler number
stays, every side goes on joining two different nodes and no two sides join the same ones. The labels that
the next application makes up differ from each other, and none of them is in use: they are the labels that
come in with it. -/
theorem steps_keep_euler (host : Hypergraph) (reachable : host.Reachable) (clean : host.Clean)
    (g : Hypergraph) (steps : Relation.ReflTransGen Step host g) :
    euler g = euler host ∧ g.Straight ∧
      ∀ P ∈ all, ∀ m ∈ P.leftSide.embeddings g, ∀ region, P.leftSide.region g m = .ok region →
        ∀ index, ∃ labels, Generates region P labels ∧ labels.Nodup ∧
          ∀ l, l ∈ labels ↔ l ∈ g.replace P.leftSide m (P.rightSide region index) ∧ ¬ l ∈ g := by
  obtain ⟨t, same⟩ := tidy_of_steps steps (clean.tidy reachable.coherent)
  refine ⟨same, t.straight, fun P rule m mem region eq index => ?_⟩
  obtain ⟨labels, generates, effect⟩ := effect_all rule t mem eq index
  exact ⟨labels, generates, effect.nodup, fun l => (effect.new_iff t).symm⟩

/-- A triangle of marked sides. -/
def markedTriangle : List Operation :=
  let node (label : Label) : Node := { x := .zero, y := .zero, label }
  let side (a b : Label) : Operation :=
    .addHyperedge ((Hyperedge.side (node a) (node b)).withMark 1) false
  [side "a" "b", side "b" "c", side "c" "a"]

theorem steps_keep_euler_triangle :
    let host := Operation.build markedTriangle
    let g := (splitSide.run {} 2 host).host
    host.counts = ⟨3, 3⟩ ∧ g.counts = ⟨5, 5⟩ ∧ euler host = 0 ∧ euler g = 0 ∧ g.Straight := by
  have steps := steps_of_run (P := splitSide) (by simp [all]) {} 2 (Operation.build markedTriangle)
  have plain : ∀ l ∈ (Operation.build markedTriangle).nodes.keys, Label.Plain l := by decide +kernel
  have clean : (Operation.build markedTriangle).Clean :=
    ⟨.build _ (by decide +kernel), plain, by decide +kernel, by decide +kernel⟩
  obtain ⟨same, straight, -⟩ := steps_keep_euler _ (.build _) clean _ steps
  have zero : euler (Operation.build markedTriangle) = 0 := by decide +kernel
  exact ⟨by decide +kernel, by decide +kernel, zero, same.trans zero, straight⟩

end Hypermesh.Rules
