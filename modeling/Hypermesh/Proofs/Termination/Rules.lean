import Hypermesh.Proofs.Contents
import Hypermesh.Proofs.Depiction
import Hypermesh.Proofs.Termination.Weight

/-!
Each rule of the library writes less work than it reads: the hyperedges of its right side weigh less than
those of the region, and no longer labels come into pentagons.
-/

namespace Hypermesh.Rules

open Hypermesh.Hypergraph
open scoped List

variable {bound : Nat} {region pattern out : Hypergraph} {element side : Hyperedge} {node : Node}
  {key k : Label}
  {o : Outline} {name : String} {index : Nat}

/-- Whatever region a production is shown, its right side holds none but some lighter hyperedges. -/
def Lightens (P : Production) : Prop :=
  ∀ bound region index, P.leftSide.Depicts region → Bounded bound region.hyperedges.values →
    ∃ es, (P.rightSide region index).hyperedges.values <+~ es ∧ Bounded bound es ∧
      load bound es < load bound region.hyperedges.values

/-! ### What a region holds -/

theorem mem_values_of_hyperedge? (found : region.hyperedge? key = some element) :
    element ∈ region.hyperedges.values := Table.mem_values.2 ⟨key, found⟩

theorem cons_sides_subperm (mem : element ∈ region.hyperedges.values) (tag : element.tag ≠ sideTag) :
    element :: sides region <+~ region.hyperedges.values := by
  have all := List.filter_append_perm (fun e : Hyperedge => decide (e.tag = sideTag))
    region.hyperedges.values
  have rest : [element] <+~ region.hyperedges.values.filter (fun e => !decide (e.tag = sideTag)) := by
    rw [List.singleton_subperm_iff, List.mem_filter]
    simp [mem, tag]
  have joined := (List.subperm_append_left (sides region)).2 rest
  exact (List.perm_append_singleton _ _).symm.subperm.trans (joined.trans all.subperm)

theorem load_cons_sides_le (bound : Nat) (mem : element ∈ region.hyperedges.values)
    (tag : element.tag ≠ sideTag) :
    weight bound element + load bound (sides region) ≤ load bound region.hyperedges.values := by
  rw [← load_cons]
  exact load_le bound (cons_sides_subperm mem tag)

theorem sides_subset : sides region ⊆ region.hyperedges.values := List.filter_subset_self _

theorem mem_sides (found : region.hyperedge? key = some side) (tag : side.tag = sideTag) :
    side ∈ sides region :=
  List.mem_filter.2 ⟨mem_values_of_hyperedge? found, decide_eq_true tag⟩

theorem tag_of_mem_sides (mem : side ∈ sides region) : side.tag = sideTag :=
  of_decide_eq_true (List.mem_filter.1 mem).2

theorem values_keepSides (region : Hypergraph) : (keepSides region).hyperedges.values <+~ sides region := by
  have all := values_insertAll ∅ (sides region)
  rwa [show (∅ : Hypergraph).hyperedges.values = [] from rfl, List.append_nil] at all

/-- In the pattern the node under `k` is a member of the hyperedge under `key`. -/
def Spans (pattern : Hypergraph) (key k : Label) : Prop :=
  k ∈ pattern ∧ pattern.kindOf k = .regular ∧ k ∈ pattern.neighbours key

instance (pattern : Hypergraph) (key k : Label) : Decidable (Spans pattern key k) :=
  inferInstanceAs (Decidable (_ ∧ _))

theorem Spans.exists_node (spans : Spans pattern key k) (depicts : pattern.Depicts region) :
    ∃ node, region.node? k = some node := depicts.node k spans.1 spans.2.1

theorem Spans.member (spans : Spans pattern key k) (depicts : pattern.Depicts region)
    (shown : region.node? k = some node) (found : region.hyperedge? key = some element) :
    node.label ∈ element.memberLabels :=
  depicts.member k key node element shown found spans.2.2

/-! ### Marks -/

theorem lightens_markElement (tag : o.tag ≠ sideTag)
    (kind : (markElement name o).leftSide.kindOf o.elementKey = .surrogate o.tag 0) :
    Lightens (markElement name o) := by
  intro bound region index depicts bounded
  rw [← depicts.kind] at kind
  obtain ⟨element, found, tag', mark⟩ := kindOf_eq_surrogate_iff.1 kind
  have mem := mem_values_of_hyperedge? found
  have right : (markElement name o).rightSide region index =
      (keepSides region).insertHyperedge (element.withMark 1) := by
    simp only [Production.rightSide, markElement, requireHyperedge, found]
    rfl
  refine ⟨element.withMark 1 :: sides region, ?_, ?_, ?_⟩
  · rw [right]
    exact (values_insertHyperedge ..).trans ((List.subperm_cons _).2 (values_keepSides region))
  · exact List.forall_mem_cons.2 ⟨bounded element mem, bounded.subset sides_subset⟩
  · have lighter := weight_mark_element bound (tag' ▸ tag) mark
    have rest := load_cons_sides_le bound mem (tag' ▸ tag)
    rw [load_cons]
    omega

theorem lightens_markQuad : Lightens markQuad :=
  lightens_markElement (by decide) (by decide +kernel)

theorem lightens_markHexagon : Lightens markHexagon :=
  lightens_markElement (by decide) (by decide +kernel)

theorem lightens_markHeptagon : Lightens markHeptagon :=
  lightens_markElement (by decide) (by decide +kernel)

/-- The sides of a marked pentagon join corners of it. -/
theorem spans_markPentagonSides :
    let pattern := markPentagonSides.leftSide
    ∀ key ∈ pattern.hyperedges.keys, key ≠ Outline.pentagon.elementKey →
      pattern.kindOf key = .surrogate sideTag 0 ∧
        ∃ k ∈ pattern.neighbours key, ∃ k' ∈ pattern.neighbours key, k ≠ k' ∧
          (Spans pattern key k ∧ Spans pattern Outline.pentagon.elementKey k) ∧
          Spans pattern key k' ∧ Spans pattern Outline.pentagon.elementKey k' := by
  decide +kernel

theorem lighter_markPentagonSides (depicts : markPentagonSides.leftSide.Depicts region)
    (bounded : Bounded bound region.hyperedges.values)
    (found : region.hyperedge? Outline.pentagon.elementKey = some element)
    (tag : element.tag = Outline.pentagon.tag) (mem : side ∈ sides region) :
    weight bound (side.withMark 1) < weight bound side := by
  have side_tag := tag_of_mem_sides mem
  obtain ⟨key, found'⟩ := Table.mem_values.1 (sides_subset mem)
  have ne : key ≠ Outline.pentagon.elementKey := by
    rintro rfl
    cases found.symm.trans found'
    rw [tag] at side_tag
    exact absurd side_tag (by decide)
  have kind := depicts.kind key
  rw [kindOf_eq_surrogate_iff.2 ⟨side, found', rfl, rfl⟩] at kind
  obtain ⟨edge, stored, -⟩ := kindOf_eq_surrogate_iff.1 kind.symm
  obtain ⟨kind', k, -, k', -, apart, ⟨spans, corner⟩, spans', corner'⟩ :=
    spans_markPentagonSides key (mem_hyperedges_iff.2 ⟨edge, stored⟩) ne
  rw [kind'] at kind
  obtain ⟨node, shown⟩ := spans.exists_node depicts
  obtain ⟨node', shown'⟩ := spans'.exists_node depicts
  have mark : side.mark = 0 := by injection kind
  apply weight_mark_side side_tag mark (spans.member depicts shown found')
    (spans'.member depicts shown' found')
  · exact fun same => apart (depicts.injective _ _ node node' shown shown' same)
  · -- Both ends are corners, so the bound leaves room for them.
    have short := bounded element (mem_values_of_hyperedge? found) tag
    have front := short _ (corner.member depicts shown found)
    have back := short _ (corner'.member depicts shown' found)
    omega

theorem rightSide_markPentagonSides (found : region.hyperedge? Outline.pentagon.elementKey = some element)
    (index : Nat) : markPentagonSides.rightSide region index =
      ((sides region).map (·.withMark 1)).foldl insertHyperedge (insertHyperedge ∅ element) := by
  simp only [Production.rightSide, markPentagonSides, requireHyperedge, found, List.foldl_map]
  rfl

theorem lightens_markPentagonSides : Lightens markPentagonSides := by
  intro bound region index depicts bounded
  have kind : markPentagonSides.leftSide.kindOf Outline.pentagon.elementKey =
      .surrogate Outline.pentagon.tag 1 := by decide +kernel
  have kind' : markPentagonSides.leftSide.kindOf sideKey = .surrogate sideTag 0 := by decide +kernel
  rw [← depicts.kind] at kind kind'
  obtain ⟨element, found, tag, mark⟩ := kindOf_eq_surrogate_iff.1 kind
  obtain ⟨side, found', tag', -⟩ := kindOf_eq_surrogate_iff.1 kind'
  have mem := mem_values_of_hyperedge? found
  have right := rightSide_markPentagonSides found index
  refine ⟨(sides region).map (·.withMark 1) ++ [element], ?_, ?_, ?_⟩
  · rw [right]
    refine (values_insertAll ..).trans ((List.subperm_append_left _).2 ?_)
    exact values_insertHyperedge ∅ element
  · have single : Bounded bound [element] := bounded.subset (by simpa using mem)
    exact ((bounded.subset sides_subset).map_withMark 1).append single
  · have less := load_map_lt (List.ne_nil_of_mem (mem_sides found' tag')) fun side =>
      lighter_markPentagonSides depicts bounded found tag
    have rest := load_cons_sides_le bound mem (by rw [tag]; decide)
    rw [load_append, load_cons, load_nil]
    omega

/-! ### Splits -/

theorem rightSide_halves {P : Production} {hanging : Hyperedge → Bool} {a b : Node}
    (right : ∀ region index, P.right region index = halves hanging region)
    (found : region.hyperedge? sideKey = some side) (shown : region.node? (corner 0) = some a)
    (shown' : region.node? (corner 1) = some b) (index : Nat) :
    P.rightSide region index =
      let middle := { Node.midpoint a b with hanging := hanging side }
      let half (p q : Node) := (Hyperedge.side p q).withAttributes side.attributes
      (((∅ : Hypergraph).addNode middle).insertHyperedge (half a middle)).insertHyperedge
        (half middle b) := by
  simp only [Production.rightSide, right, halves, requireHyperedge, requireNode, found, shown, shown']
  rfl

theorem lightens_halves {P : Production} {hanging : Hyperedge → Bool}
    (left : P.leftSide = splitSide.leftSide)
    (right : ∀ region index, P.right region index = halves hanging region) : Lightens P := by
  intro bound region index depicts bounded
  have kind : P.leftSide.kindOf sideKey = .surrogate sideTag 1 := by rw [left]; decide +kernel
  have spans : Spans P.leftSide sideKey (corner 0) := by rw [left]; decide +kernel
  have spans' : Spans P.leftSide sideKey (corner 1) := by rw [left]; decide +kernel
  rw [← depicts.kind] at kind
  obtain ⟨side, found, tag, mark⟩ := kindOf_eq_surrogate_iff.1 kind
  obtain ⟨a, shown⟩ := spans.exists_node depicts
  obtain ⟨b, shown'⟩ := spans'.exists_node depicts
  have ne : a.label ≠ b.label := fun same =>
    absurd (depicts.injective _ _ a b shown shown' same) (by decide)
  let middle : Node := { Node.midpoint a b with hanging := hanging side }
  let front : Hyperedge := (Hyperedge.side a middle).withAttributes side.attributes
  let back : Hyperedge := (Hyperedge.side middle b).withAttributes side.attributes
  have written : P.rightSide region index =
      (((∅ : Hypergraph).addNode middle).insertHyperedge front).insertHyperedge back :=
    rightSide_halves right found shown shown' index
  refine ⟨[back, front], ?_, ?_, ?_⟩
  · rw [written]
    refine (values_insertHyperedge ..).trans ((List.subperm_cons _).2 ?_)
    exact values_insertHyperedge ..
  · apply bounded_of_tags
    simp only [List.forall_mem_cons]
    exact ⟨Or.inl rfl, Or.inl rfl, nofun⟩
  · have less : weight bound front + weight bound back < weight bound side :=
      weight_halves tag mark (spans.member depicts shown found) (spans'.member depicts shown' found) ne
        ⟨rfl, rfl⟩ ⟨rfl, rfl⟩ rfl rfl
    have whole := weight_le_load bound (mem_values_of_hyperedge? found)
    rw [load_cons, load_cons, load_nil]
    omega

theorem lightens_splitSide : Lightens splitSide := lightens_halves rfl fun _ _ => rfl

theorem lightens_splitBoundarySide : Lightens splitBoundarySide := lightens_halves rfl fun _ _ => rfl

/-! ### Breaking -/

/-- The hyperedges of one slice: its quad and its spoke. -/
def sliceEdges (centre : Node) (slice : (Node × Node) × Node) : List Hyperedge :=
  let ((corner, next), previous) := slice
  [(Hyperedge.quad corner next centre previous).withBoundary false,
    (Hyperedge.side next centre).withBoundary false]

theorem values_addSlice (centre : Node) (out : Hypergraph) (slice : (Node × Node) × Node) :
    (addSlice centre out slice).hyperedges.values <+~
      sliceEdges centre slice ++ out.hyperedges.values :=
  (values_insertHyperedge ..).trans ((List.subperm_cons _).2 (values_insertHyperedge ..))

theorem load_sliceEdges_le (bound : Nat) (centre : Node) (slice : (Node × Node) × Node) :
    load bound (sliceEdges centre slice) ≤ pending bound + 1 := by
  obtain ⟨⟨corner, next⟩, previous⟩ := slice
  have spoke : weight bound ((Hyperedge.side next centre).withBoundary false) ≤ pending bound :=
    weight_spoke rfl rfl
  have quad : weight bound ((Hyperedge.quad corner next centre previous).withBoundary false) = 1 := rfl
  rw [sliceEdges, load_cons, load_cons, load_nil, quad]
  omega

theorem bounded_sliceEdges (bound : Nat) (centre : Node) (slices : List ((Node × Node) × Node)) :
    Bounded bound (slices.flatMap (sliceEdges centre)) := by
  apply bounded_of_tags
  intro e mem
  obtain ⟨⟨⟨corner, next⟩, previous⟩, -, mem⟩ := List.mem_flatMap.1 mem
  simp only [sliceEdges, List.mem_cons, List.not_mem_nil, or_false] at mem
  rcases mem with rfl | rfl
  · exact Or.inr rfl
  · exact Or.inl rfl

/-- The sides stay, and there is at most one slice for each corner. -/
theorem values_breakElement (name : String) (found : region.hyperedge? o.elementKey = some element)
    (index : Nat) :
    ∃ slices : List ((Node × Node) × Node), slices.length ≤ o.sides ∧
      ((breakElement name o).rightSide region index).hyperedges.values <+~
        slices.flatMap (sliceEdges element.centre) ++ sides region := by
  rw [Production.rightSide]
  cases right : (breakElement name o).right region index with
  | error e => exact ⟨[], Nat.zero_le _, List.nil_subperm⟩
  | ok g =>
    obtain ⟨element', found', right⟩ := bind_eq_ok.1 right
    obtain ⟨ring, nodes, right⟩ := bind_eq_ok.1 right
    rw [requireHyperedge_eq_ok, found] at found'
    cases found'
    cases right
    refine ⟨ring.zip ((ring.map Prod.snd).rotateRight 1), ?_, ?_⟩
    · calc
        _ ≤ ring.length := by
          rw [List.length_zip]
          exact Nat.min_le_left ..
        _ = o.sides := by rw [length_of_mapM nodes, Outline.splitKeys, List.length_map, List.length_range]
    · refine (values_foldl (sliceEdges element.centre) (values_addSlice element.centre) _ _).trans ?_
      exact (List.subperm_append_left _).2 (values_keepSides region)

theorem lightens_breakElement (few : o.sides ≤ 6)
    (breakable : o.tag = Outline.pentagon.tag ∨ o.tag = Outline.hexagon.tag)
    (kind : (breakElement name o).leftSide.kindOf o.elementKey = .surrogate o.tag 1) :
    Lightens (breakElement name o) := by
  intro bound region index depicts bounded
  rw [← depicts.kind] at kind
  obtain ⟨element, found, tag, mark⟩ := kindOf_eq_surrogate_iff.1 kind
  obtain ⟨slices, length, values⟩ := values_breakElement name found index
  have written := (bounded_sliceEdges bound element.centre slices).append (bounded.subset sides_subset)
  refine ⟨_, values, written, ?_⟩
  have no_side : element.tag ≠ sideTag := by
    rw [tag]
    rcases breakable with eq | eq <;> rw [eq] <;> decide
  have whole := weight_breakable bound (tag ▸ breakable)
  have rest := load_cons_sides_le bound (mem_values_of_hyperedge? found) no_side
  have pieces := calc
    load bound (slices.flatMap (sliceEdges element.centre)) ≤ slices.length * (pending bound + 1) :=
      load_flatMap_le (load_sliceEdges_le bound element.centre) slices
    _ ≤ 6 * (pending bound + 1) := Nat.mul_le_mul_right _ (length.trans few)
  rw [load_append]
  omega

theorem lightens_breakPentagon : Lightens breakPentagon :=
  lightens_breakElement (by decide) (by decide) (by decide +kernel)

theorem lightens_breakHexagon : Lightens breakHexagon :=
  lightens_breakElement (by decide) (by decide) (by decide +kernel)

theorem lightens_all : ∀ P ∈ all, Lightens P := by
  simp only [all, List.forall_mem_cons]
  exact ⟨lightens_markQuad, lightens_splitSide, lightens_splitBoundarySide, lightens_markPentagonSides,
    lightens_breakPentagon, lightens_markHexagon, lightens_breakHexagon, lightens_markHeptagon, nofun⟩

end Hypermesh.Rules
