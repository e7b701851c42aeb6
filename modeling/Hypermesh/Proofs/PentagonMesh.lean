import Hypermesh.Proofs.Enclosing
import Hypermesh.Proofs.Lineage
import Hypermesh.Proofs.PolygonMesh

/-!
A pentagon as it is laid out, and what the four runs on it come to.
-/

namespace Hypermesh

open Hypermesh.Hypergraph Label Rules
open scoped List

namespace Mesh

variable {stem stem' : String} {origin : Coord × Coord} {i j : Nat} {l : Label}

/-! ### Corners -/

/-- The names of the corners of a pentagon. -/
def IsCorner (stem : String) (l : Label) : Prop := ∃ i ∈ List.range 5, l = stem ++ toString i

theorem plain_corner (letters : ∀ c ∈ stem.toList, c.isAlpha) (mem : i ∈ List.range 5) :
    Plain (stem ++ toString i) := by
  have digits : ∀ i ∈ List.range 5, Plain (toString i) := by decide
  intro c char
  rw [String.toList_append, List.mem_append] at char
  rcases char with char | char
  · have letter := letters c char
    refine ⟨?_, ?_, ?_, ?_⟩ <;> rintro rfl <;> exact absurd letter (by decide)
  · exact digits i mem c char

theorem IsCorner.stem_eq (letters : ∀ c ∈ stem.toList, c.isAlpha) (letters' : ∀ c ∈ stem'.toList, c.isAlpha)
    (corner : IsCorner stem l) (corner' : IsCorner stem' l) : stem = stem' := by
  have digits : ∀ i ∈ List.range 5, (toString i).toList.takeWhile Char.isAlpha = [] := by decide
  have letters_of {stem : String} (letters : ∀ c ∈ stem.toList, c.isAlpha) (corner : IsCorner stem l) :
      l.toList.takeWhile Char.isAlpha = stem.toList := by
    obtain ⟨i, mem, rfl⟩ := corner
    rw [String.toList_append, List.takeWhile_append_of_pos letters, digits i mem, List.append_nil]
  rw [← String.toList_inj, ← letters_of letters corner, letters_of letters' corner']

/-! ### The mesh -/

def corners (stem : String) (origin : Coord × Coord) : List Node :=
  (List.range 5).map (polygonNode stem 5 origin)

def boundary (stem : String) (origin : Coord × Coord) : List Hyperedge :=
  ringEdges (·.withBoundary true) (corners stem origin)

def pentagon (stem : String) (origin : Coord × Coord) : Hyperedge where
  members := corners stem origin
  tag := Outline.pentagon.tag
  mark := 1
  two_le_length := by simp [corners]

/-- The mesh of a pentagon. -/
def pentagonMesh (stem : String) (origin : Coord × Coord) : Hypergraph :=
  layOut (corners stem origin) (boundary stem origin ++ [pentagon stem origin])

theorem labels_corners (stem : String) (origin : Coord × Coord) :
    (corners stem origin).map Node.label = (List.range 5).map fun i => stem ++ toString i := List.map_map ..

theorem mem_boundary {e : Hyperedge} : e ∈ boundary stem origin ↔ ∃ k ∈ pairs (List.range 5), e =
    (Hyperedge.side (polygonNode stem 5 origin k.1) (polygonNode stem 5 origin k.2)).withBoundary true := by
  simp [boundary, ringEdges, corners, pairs_map, eq_comm]

theorem isCorner_of_mem (mem : l ∈ (corners stem origin).map Node.label) : IsCorner stem l := by
  rw [labels_corners, List.mem_map] at mem
  obtain ⟨i, mem, rfl⟩ := mem
  exact ⟨i, mem, rfl⟩

theorem boundary_eq (stem : String) (origin : Coord × Coord) :
    boundary stem origin = polygonSides stem 5 origin := ringEdges_polygonCorners stem 5 origin

theorem layout_pentagon (stem : String) (origin : Coord × Coord) :
    Layout (corners stem origin) (boundary stem origin ++ [pentagon stem origin]) := by
  rw [boundary_eq]
  exact layout_polygonMesh stem Outline.pentagon.tag 1 origin (by decide) (by decide)

theorem polygon_eq (stem : String) (origin : Coord × Coord) :
    polygon stem 5 Outline.pentagon.tag 1 origin = .ok (pentagonMesh stem origin) := by
  rw [pentagonMesh, boundary_eq]
  exact polygon_eq_ok stem Outline.pentagon.tag 1 origin (by decide)

theorem mem_values_pentagonMesh {e : Hyperedge} :
    e ∈ (pentagonMesh stem origin).hyperedges.values ↔
      e ∈ boundary stem origin ∨ e = pentagon stem origin := by
  rw [pentagonMesh, (layout_pentagon stem origin).hyperedges_perm.mem_iff, List.mem_append,
    List.mem_singleton]

/-- Two links of the ring lie between the same corners only if they are one. -/
theorem eq_of_ends : ∀ k ∈ pairs (List.range 5), ∀ k' ∈ pairs (List.range 5),
    k.1 = k'.1 ∨ k.1 = k'.2 → k.2 = k'.1 ∨ k.2 = k'.2 → k = k' := by decide

theorem straight_pentagonMesh (stem : String) (origin : Coord × Coord) :
    (pentagonMesh stem origin).Straight := by
  have ends {e : Hyperedge} (mem : e ∈ (pentagonMesh stem origin).hyperedges.values) (tag : e.tag = sideTag) :
      e ∈ boundary stem origin := by
    refine (mem_values_pentagonMesh.1 mem).resolve_right ?_
    rintro rfl
    exact absurd tag (by decide : Outline.pentagon.tag ≠ sideTag)
  constructor
  · intro e mem tag
    obtain ⟨k, pair, rfl⟩ := mem_boundary.1 (ends mem tag)
    have apart : ∀ k ∈ pairs (List.range 5), k.1 ≠ k.2 := by decide
    have ne : stem ++ toString k.1 ≠ stem ++ toString k.2 := fun same =>
      apart k pair (cornerLabel_injective stem same)
    refine ⟨rfl, ?_⟩
    change [stem ++ toString k.1, stem ++ toString k.2].Nodup
    rw [List.nodup_cons, List.mem_singleton]
    exact ⟨ne, List.nodup_singleton _⟩
  · intro e mem e' mem' tag tag' same
    obtain ⟨k, pair, rfl⟩ := mem_boundary.1 (ends mem tag)
    obtain ⟨k', pair', rfl⟩ := mem_boundary.1 (ends mem' tag')
    have shared {i : Nat} (member : stem ++ toString i ∈ [stem ++ toString k.1, stem ++ toString k.2]) :
        i = k'.1 ∨ i = k'.2 := by
      have member' : stem ++ toString i ∈ [stem ++ toString k'.1, stem ++ toString k'.2] :=
        same.mem_iff.1 member
      simp only [List.mem_cons, List.not_mem_nil, or_false] at member'
      exact member'.imp (cornerLabel_injective stem ·) (cornerLabel_injective stem ·)
    rw [eq_of_ends k pair k' pair' (shared List.mem_cons_self)
      (shared (List.mem_cons_of_mem _ List.mem_cons_self))]

theorem isCorner_of_mem_nodes (mem : l ∈ (pentagonMesh stem origin).nodes) : IsCorner stem l :=
  isCorner_of_mem ((layout_pentagon stem origin).mem_nodes.1 mem)

theorem clean_pentagonMesh (letters : ∀ c ∈ stem.toList, c.isAlpha) (origin : Coord × Coord) :
    (pentagonMesh stem origin).Clean where
  wellFormed := (layout_pentagon stem origin).wellFormed
  node l mem := by
    obtain ⟨i, index, rfl⟩ := isCorner_of_mem_nodes mem
    exact plain_corner letters index
  tag e mem := by
    rcases mem_values_pentagonMesh.1 mem with mem | rfl
    · obtain ⟨k, -, rfl⟩ := mem_boundary.1 mem
      exact (by decide : Plain sideTag)
    · exact (by decide : Plain Outline.pentagon.tag)
  straight := straight_pentagonMesh stem origin

theorem over_pentagonMesh (letters : ∀ c ∈ stem.toList, c.isAlpha) (origin : Coord × Coord) :
    Over (IsCorner stem) (pentagonMesh stem origin) where
  tidy := (clean_pentagonMesh letters origin).tidy (coherent_layOut ..)
  node _ mem := .name (isCorner_of_mem_nodes mem)

theorem enclosed_pentagonMesh (letters : ∀ c ∈ stem.toList, c.isAlpha) (origin : Coord × Coord) :
    (pentagonMesh stem origin).Enclosed 0 ((corners stem origin).map Node.label) (boundary stem origin)
      (pentagon stem origin) := by
  have layout := layout_pentagon stem origin
  refine ⟨(over_pentagonMesh letters origin).tidy, layout.keys_nodes_perm, ?firm, layout.hyperedges_perm,
    ?length, ?side, ?joins, rfl, rfl⟩
  case firm =>
    intro n mem
    obtain ⟨n', listed, rfl⟩ := List.mem_map.1 (layout.nodes_perm.mem_iff.1 mem)
    obtain ⟨i, -, rfl⟩ := List.mem_map.1 listed
    rfl
  case length => simp [boundary, ringEdges, corners, pairs_map]; decide
  case side =>
    intro e mem
    obtain ⟨k, pair, rfl⟩ := mem_boundary.1 mem
    refine ⟨rfl, rfl, rfl, (stem ++ toString k.1, stem ++ toString k.2), ?_, Or.inl rfl⟩
    rw [labels_corners, pairs_map]
    exact List.mem_map_of_mem pair
  case joins =>
    intro k pair
    rw [labels_corners, pairs_map] at pair
    obtain ⟨k, link, rfl⟩ := List.mem_map.1 pair
    exact ⟨_, mem_boundary.2 ⟨k, link, rfl⟩, Or.inl rfl⟩

end Mesh

end Hypermesh
