import Hypermesh.Proofs.Layout
import Hypermesh.Proofs.Numbering

/-!
A polygon as it is laid out: corners, a ring of sides, and an element over all corners. The number of
separators tells the labels of corners, sides and the element apart, whatever the stem and the tag spell.
-/

namespace Hypermesh

open Hypermesh.Hypergraph Label
open scoped List

namespace Mesh

variable {stem tag : String} {mark : UInt8} {n i j k : Nat} {origin : Coord × Coord} {l : Label}

/-! ### Labels -/

def cornerLabel (stem : String) (i : Nat) : Label := stem ++ toString i

def sideLabel (stem : String) (n i : Nat) : Label :=
  .hyperedge sideTag [cornerLabel stem i, cornerLabel stem ((i + 1) % n)]

def elementLabel (stem : String) (n : Nat) (tag : String) : Label :=
  .hyperedge tag ((List.range n).map (cornerLabel stem))

theorem cornerLabel_injective (stem : String) : Function.Injective (cornerLabel stem) := by
  intro i j same
  have texts := congrArg String.toList same
  rw [cornerLabel, cornerLabel, String.toList_append, String.toList_append,
    List.append_cancel_left_eq] at texts
  exact digits_injective texts

/-- The number of the first corner is what stands between the stem and the next separator. -/
theorem sideLabel_injective (stem : String) (n : Nat) : Function.Injective (sideLabel stem n) := by
  have spelled (i : Nat) : (sideLabel stem n i).toList = sideTag.toList ++ '_' :: (stem.toList ++
      ((toString i).toList ++ '_' :: (cornerLabel stem ((i + 1) % n)).toList)) := by
    rw [sideLabel, toList_hyperedge]
    simp [cornerLabel]
  intro i j same
  have texts := congrArg String.toList same
  rw [spelled, spelled, List.append_cancel_left_eq, List.cons.injEq, List.append_cancel_left_eq] at texts
  exact digits_injective
    (front_unique (plain_digits i) (plain_digits j) (stops_cons _) (stops_cons _) texts.2).1

theorem lines_cornerLabel (stem : String) (i : Nat) : lines (cornerLabel stem i) = lines stem := by
  rw [cornerLabel, lines_append, lines_toString, Nat.add_zero]

theorem lines_sideLabel (stem : String) (n i : Nat) :
    lines (sideLabel stem n i) = 2 * (lines stem + 1) := by
  have plain : lines sideTag = 0 := by decide
  rw [sideLabel, lines_hyperedge, plain]
  simp only [List.map_cons, List.map_nil, List.sum_cons, List.sum_nil, lines_cornerLabel]
  omega

theorem lines_elementLabel (stem : String) (n : Nat) (tag : String) :
    lines (elementLabel stem n tag) = lines tag + n * (lines stem + 1) := by
  rw [elementLabel, lines_hyperedge, List.map_map]
  simp [Function.comp_def, lines_cornerLabel]

theorem sideLabel_ne_cornerLabel (stem : String) (n i j : Nat) : sideLabel stem n i ≠ cornerLabel stem j := by
  intro same
  have counts := congrArg lines same
  rw [lines_sideLabel, lines_cornerLabel] at counts
  omega

theorem elementLabel_ne_cornerLabel (stem : String) (some : 0 < n) (tag : String) (j : Nat) :
    elementLabel stem n tag ≠ cornerLabel stem j := by
  intro same
  have counts := congrArg lines same
  rw [lines_elementLabel, lines_cornerLabel] at counts
  have more := Nat.mul_le_mul_right (lines stem + 1) some
  omega

theorem elementLabel_ne_sideLabel (stem : String) (three : 3 ≤ n) (tag : String) (i : Nat) :
    elementLabel stem n tag ≠ sideLabel stem n i := by
  intro same
  have counts := congrArg lines same
  rw [lines_elementLabel, lines_sideLabel] at counts
  have more := Nat.mul_le_mul_right (lines stem + 1) three
  omega

/-! ### The mesh -/

def polygonCorners (stem : String) (n : Nat) (origin : Coord × Coord) : List Node :=
  (List.range n).map (polygonNode stem n origin)

def polygonSide (stem : String) (n : Nat) (origin : Coord × Coord) (i : Nat) : Hyperedge :=
  (Hyperedge.side (polygonNode stem n origin i) (polygonNode stem n origin ((i + 1) % n))).withBoundary true

def polygonSides (stem : String) (n : Nat) (origin : Coord × Coord) : List Hyperedge :=
  (List.range n).map (polygonSide stem n origin)

def polygonElement (stem : String) (tag : String) (mark : UInt8) (origin : Coord × Coord) (two : 2 ≤ n) :
    Hyperedge where
  members := polygonCorners stem n origin
  tag := tag
  mark := mark
  two_le_length := by simpa [polygonCorners] using two

def polygonMesh (stem : String) (tag : String) (mark : UInt8) (origin : Coord × Coord) (two : 2 ≤ n) :
    Hypergraph :=
  layOut (polygonCorners stem n origin)
    (polygonSides stem n origin ++ [polygonElement stem tag mark origin two])

theorem labels_polygonCorners (stem : String) (n : Nat) (origin : Coord × Coord) :
    (polygonCorners stem n origin).map Node.label = (List.range n).map (cornerLabel stem) := by
  rw [polygonCorners, List.map_map]
  rfl

theorem mem_labels_polygonCorners :
    l ∈ (polygonCorners stem n origin).map Node.label ↔ ∃ i < n, cornerLabel stem i = l := by
  rw [labels_polygonCorners, List.mem_map]
  simp only [List.mem_range]

theorem nodup_polygonCorners (stem : String) (n : Nat) (origin : Coord × Coord) :
    ((polygonCorners stem n origin).map Node.label).Nodup := by
  rw [labels_polygonCorners]
  exact List.nodup_range.map (cornerLabel_injective stem)

theorem label_polygonElement (stem tag : String) (mark : UInt8) (origin : Coord × Coord) (two : 2 ≤ n) :
    (polygonElement stem tag mark origin two).label = elementLabel stem n tag := by
  rw [Hyperedge.label, Hyperedge.memberLabels, elementLabel]
  exact congrArg _ (labels_polygonCorners stem n origin)

theorem labels_polygonEdges (stem tag : String) (mark : UInt8) (origin : Coord × Coord) (two : 2 ≤ n) :
    (polygonSides stem n origin ++ [polygonElement stem tag mark origin two]).map Hyperedge.label =
      (List.range n).map (sideLabel stem n) ++ [elementLabel stem n tag] := by
  rw [List.map_append, List.map_singleton, label_polygonElement, polygonSides, List.map_map]
  rfl

theorem memberLabels_polygonSide (stem : String) (n : Nat) (origin : Coord × Coord) (i : Nat) :
    (polygonSide stem n origin i).memberLabels = [cornerLabel stem i, cornerLabel stem ((i + 1) % n)] := rfl

theorem memberLabels_polygonElement (two : 2 ≤ n) :
    (polygonElement stem tag mark origin two).memberLabels = (List.range n).map (cornerLabel stem) :=
  labels_polygonCorners stem n origin

theorem known_polygonSides {e : Hyperedge} (mem : e ∈ polygonSides stem n origin) :
    ∀ l ∈ e.memberLabels, l ∈ (polygonCorners stem n origin).map Node.label := by
  obtain ⟨i, index, rfl⟩ := List.mem_map.1 mem
  have lt := List.mem_range.1 index
  intro l member
  rw [memberLabels_polygonSide, List.mem_pair] at member
  rw [mem_labels_polygonCorners]
  rcases member with rfl | rfl
  · exact ⟨i, lt, rfl⟩
  · exact ⟨_, Nat.mod_lt _ (Nat.zero_lt_of_lt lt), rfl⟩

theorem layout_polygonMesh (stem : String) (tag : String) (mark : UInt8) (origin : Coord × Coord)
    (three : 3 ≤ n) (two : 2 ≤ n) : Layout (polygonCorners stem n origin)
      (polygonSides stem n origin ++ [polygonElement stem tag mark origin two]) := by
  refine ⟨nodup_polygonCorners stem n origin, ?edges, ?apart, ?known⟩
  case edges =>
    rw [labels_polygonEdges, List.nodup_append]
    refine ⟨List.nodup_range.map (sideLabel_injective stem n), List.nodup_singleton _, ?_⟩
    intro l mem l' mem'
    obtain ⟨i, -, rfl⟩ := List.mem_map.1 mem
    rw [List.mem_singleton.1 mem']
    exact (elementLabel_ne_sideLabel stem three tag i).symm
  case apart =>
    intro e mem corner
    obtain ⟨j, -, same⟩ := mem_labels_polygonCorners.1 corner
    rcases List.mem_append.1 mem with mem | mem
    · obtain ⟨i, -, rfl⟩ := List.mem_map.1 mem
      exact sideLabel_ne_cornerLabel stem n i j same.symm
    · rw [List.mem_singleton.1 mem, label_polygonElement] at same
      exact elementLabel_ne_cornerLabel stem (Nat.zero_lt_of_lt two) tag j same.symm
  case known =>
    intro e mem
    rcases List.mem_append.1 mem with mem | mem
    · exact known_polygonSides mem
    · rw [List.mem_singleton.1 mem, memberLabels_polygonElement, labels_polygonCorners]
      exact fun _ member => member

/-! ### Whether it can be laid out -/

theorem pairs_range (n : Nat) : pairs (List.range n) = (List.range n).map fun i => (i, (i + 1) % n) := by
  cases n with
  | zero => rfl
  | succ n =>
    rw [List.range_succ_eq_map, pairs_cons]
    apply List.ext_getElem
    · simp
    · intro i lt lt'
      have below : i < n + 1 := by simpa using lt'
      rw [List.getElem_zip, List.getElem_map, Prod.mk.injEq]
      simp only [← List.range_succ_eq_map, List.getElem_range, true_and]
      by_cases last : i = n
      · subst last
        simp
      · have inside : i < ((List.range n).map Nat.succ).length := by
          rw [List.length_map, List.length_range]
          omega
        rw [List.getElem_append_left inside, List.getElem_map, List.getElem_range,
          Nat.mod_eq_of_lt (by omega)]

theorem ringEdges_polygonCorners (stem : String) (n : Nat) (origin : Coord × Coord) :
    ringEdges (·.withBoundary true) (polygonCorners stem n origin) = polygonSides stem n origin := by
  rw [ringEdges, polygonCorners, pairs_map, pairs_range, List.map_map, List.map_map]
  rfl

theorem addRing_polygonCorners (stem : String) (n : Nat) (origin : Coord × Coord) :
    (∅ : Hypergraph).addRing (polygonCorners stem n origin) (·.withBoundary true) =
      .ok (layOut (polygonCorners stem n origin) (polygonSides stem n origin)) := by
  rw [← ringEdges_polygonCorners]
  apply addRing_eq _ (nodup_polygonCorners stem n origin)
  rw [ringEdges_polygonCorners]
  exact fun e mem => known_polygonSides mem

theorem polygon_eq_error (stem : String) (tag : String) (mark : UInt8) (origin : Coord × Coord)
    (few : n < 2) : polygon stem n tag mark origin = .error (.tooFewMembers tag n) := by
  have length : (polygonCorners stem n origin).length = n := by simp [polygonCorners]
  have made : Hyperedge.ofMembers (polygonCorners stem n origin) tag = .error (.tooFewMembers tag n) := by
    rw [Hyperedge.ofMembers, dif_neg (by omega), length]
  have ring := addRing_polygonCorners stem n origin
  rw [polygonCorners] at ring made
  simp only [polygon, ring, addElement, made]
  rfl

theorem polygon_eq_ok (stem : String) (tag : String) (mark : UInt8) (origin : Coord × Coord)
    (two : 2 ≤ n) : polygon stem n tag mark origin = .ok (polygonMesh stem tag mark origin two) := by
  have length : 2 ≤ (polygonCorners stem n origin).length := by simpa [polygonCorners] using two
  have known : ∀ c ∈ polygonCorners stem n origin,
      c.label ∈ (layOut (polygonCorners stem n origin) (polygonSides stem n origin)).nodes := by
    intro c mem
    rw [layOut, mem_nodes_insertAll, mem_addNodes (nodup_polygonCorners stem n origin)]
    exact Or.inl (List.mem_map_of_mem mem)
  have last : polygonMesh stem tag mark origin two =
      (layOut (polygonCorners stem n origin) (polygonSides stem n origin)).insertHyperedge
        (polygonElement stem tag mark origin two) := by
    rw [polygonMesh, layOut, List.foldl_append, ← layOut, List.foldl_cons, List.foldl_nil]
  rw [last, polygon, bind_eq_ok]
  exact ⟨_, addRing_polygonCorners stem n origin, addElement_eq tag mark length known⟩

end Mesh

end Hypermesh
