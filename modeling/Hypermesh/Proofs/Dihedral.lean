import Hypermesh.Proofs.Charts
import Hypermesh.Proofs.PolygonMesh

/-!
The symmetries of a polygon. A polygon is drawn after a chart of corners, sides and an element, and what
keeps this chart turns it or mirrors it: where one corner goes and which way round the next one lies from
there settles all. So one polygon embeds into another one in two ways for each corner.
-/

namespace Hypermesh

open Hypermesh.Hypergraph Label
open scoped List

namespace Mesh

/-! ### The chart -/

/-- A part of a polygon; the side of a number leads to the next corner. -/
inductive Spot
  | corner (i : Nat)
  | side (i : Nat)
  | element
  deriving DecidableEq

variable {stem stem' tag : String} {mark : UInt8} {n a b i j k : Nat} {origin : Coord × Coord} {s t : Spot}
  {σ τ : Nat → Nat} {φ : Spot → Spot}

/-- The corner after a corner. -/
def next (n i : Nat) : Nat := (i + 1) % n

/-- The corner before a corner. -/
def previous (n i : Nat) : Nat := (i + (n - 1)) % n

namespace Spot

/-- The corners that are members. -/
def members (n : Nat) : Spot → List Nat
  | corner _ => []
  | side i => [i, next n i]
  | element => List.range n

def label (stem : String) (n : Nat) (tag : String) : Spot → Label
  | corner i => cornerLabel stem i
  | side i => sideLabel stem n i
  | element => elementLabel stem n tag

def kind (tag : String) (mark : UInt8) : Spot → Kind
  | corner _ => .regular
  | side _ => .surrogate sideTag 0
  | element => .surrogate tag mark

end Spot

def spots (n : Nat) : List Spot :=
  (List.range n).map .corner ++ ((List.range n).map .side ++ [.element])

@[simp] theorem corner_mem_spots : .corner i ∈ spots n ↔ i < n := by simp [spots]

@[simp] theorem side_mem_spots : .side i ∈ spots n ↔ i < n := by simp [spots]

@[simp] theorem element_mem_spots : .element ∈ spots n := by simp [spots]

def polygonChart (n : Nat) (tag : String) (mark : UInt8) : Chart Spot where
  spots := spots n
  kind := Spot.kind tag mark
  touches s t := (∃ k ∈ s.members n, t = .corner k) ∨ ∃ k ∈ t.members n, s = .corner k

/-! ### The polygon drawn after it -/

section Drawn

variable (three : 3 ≤ n) (two : 2 ≤ n)
include three

theorem mem_values_polygonMesh {e : Hyperedge} :
    e ∈ (polygonMesh stem tag mark origin two).hyperedges.values ↔
      e ∈ polygonSides stem n origin ∨ e = polygonElement stem tag mark origin two := by
  rw [polygonMesh, (layout_polygonMesh stem tag mark origin three two).hyperedges_perm.mem_iff,
    List.mem_append, List.mem_singleton]

theorem nodup_labels (stem tag : String) : ((spots n).map (Spot.label stem n tag)).Nodup := by
  have corners : (List.range n).map (Spot.label stem n tag ∘ .corner) =
      (List.range n).map (cornerLabel stem) := rfl
  have sides : (List.range n).map (Spot.label stem n tag ∘ .side) =
      (List.range n).map (sideLabel stem n) := rfl
  simp only [spots, List.map_append, List.map_map, corners, sides, List.map_singleton, List.nodup_append,
    List.nodup_singleton, true_and, List.mem_append, List.mem_map, List.mem_singleton, Spot.label]
  refine ⟨List.nodup_range.map (cornerLabel_injective stem),
    ⟨List.nodup_range.map (sideLabel_injective stem n), ?_⟩, ?_⟩
  · rintro _ ⟨i, -, rfl⟩ _ rfl
    exact (elementLabel_ne_sideLabel stem three tag i).symm
  · rintro _ ⟨i, -, rfl⟩ _ (⟨j, -, rfl⟩ | rfl)
    · exact (sideLabel_ne_cornerLabel stem n j i).symm
    · exact (elementLabel_ne_cornerLabel stem (by omega) tag i).symm

theorem label_injOn (stem tag : String) (mem : s ∈ spots n) (mem' : t ∈ spots n)
    (same : s.label stem n tag = t.label stem n tag) : s = t :=
  List.inj_on_of_nodup_map (nodup_labels three stem tag) mem mem' same

/-- Sides and the element are stored under their labels, and nothing under that of a corner. -/
theorem hyperedge?_polygonMesh (stem tag : String) (mark : UInt8) (origin : Coord × Coord) :
    (∀ i < n, ¬ cornerLabel stem i ∈ (polygonMesh stem tag mark origin two).hyperedges) ∧
    (∀ i < n, (polygonMesh stem tag mark origin two).hyperedge? (sideLabel stem n i) =
      some (polygonSide stem n origin i)) ∧
    (polygonMesh stem tag mark origin two).hyperedge? (elementLabel stem n tag) =
      some (polygonElement stem tag mark origin two) := by
  have layout := layout_polygonMesh stem tag mark origin three two
  refine ⟨fun i lt stored => ?_, fun i lt => ?_, ?_⟩
  · have node : cornerLabel stem i ∈ (polygonMesh stem tag mark origin two).nodes :=
      layout.mem_nodes.2 (mem_labels_polygonCorners.2 ⟨i, lt, rfl⟩)
    exact layout.wellFormed.unambiguous _ node stored
  · exact layout.wellFormed.mem_values_iff.1
      ((mem_values_polygonMesh three two).2 (Or.inl (List.mem_map_of_mem (List.mem_range.2 lt))))
  · rw [← label_polygonElement stem tag mark origin two]
    exact layout.wellFormed.mem_values_iff.1 ((mem_values_polygonMesh three two).2 (Or.inr rfl))

/-- What a hyperedge lists is its corners. -/
theorem lists_polygonMesh_iff (mem : s ∈ spots n) (mem' : t ∈ spots n) :
    (polygonMesh stem tag mark origin two).Lists (s.label stem n tag) (t.label stem n tag) ↔
      ∃ k ∈ s.members n, t = .corner k := by
  obtain ⟨corner, side, element⟩ := hyperedge?_polygonMesh three two stem tag mark origin
  have pos : 0 < n := by omega
  have listed {ks : List Nat} (below : ∀ k ∈ ks, k < n) :
      t.label stem n tag ∈ ks.map (cornerLabel stem) ↔ ∃ k ∈ ks, t = .corner k := by
    rw [List.mem_map]
    refine exists_congr fun k => and_congr_right fun listed => ⟨fun same => ?_, ?_⟩
    · exact (label_injOn three stem tag (s := .corner k) (by simpa using below k listed) mem' same).symm
    · rintro rfl
      rfl
  cases s with
  | corner i =>
    have none : ¬ (polygonMesh stem tag mark origin two).Lists (cornerLabel stem i) (t.label stem n tag) :=
      fun lists => corner i (by simpa using mem) lists.stored
    exact iff_of_false none (by simp [Spot.members])
  | side i =>
    have lt : i < n := by simpa using mem
    have below : ∀ k ∈ [i, next n i], k < n := by
      simpa [next] using And.intro lt (Nat.mod_lt _ pos)
    rw [Hypergraph.Lists, Spot.label, side i lt]
    simpa [memberLabels_polygonSide, Spot.members, next] using listed below
  | element =>
    rw [Hypergraph.Lists, Spot.label, element]
    simpa [memberLabels_polygonElement, Spot.members] using listed fun k => List.mem_range.1

theorem drawn_polygonMesh (stem tag : String) (mark : UInt8) (origin : Coord × Coord) :
    (polygonChart n tag mark).Drawn (polygonMesh stem tag mark origin two) (Spot.label stem n tag) := by
  have layout := layout_polygonMesh stem tag mark origin three two
  have coherent : (polygonMesh stem tag mark origin two).Coherent := coherent_layOut ..
  obtain ⟨corner, side, element⟩ := hyperedge?_polygonMesh three two stem tag mark origin
  refine ⟨fun l => ?mem, fun s mem t mem' => label_injOn three stem tag mem mem', fun s mem => ?kind,
    fun s mem t mem' => ?touches⟩
  case mem =>
    have node : l ∈ (polygonMesh stem tag mark origin two).nodes ↔ ∃ i < n, cornerLabel stem i = l :=
      layout.mem_nodes.trans mem_labels_polygonCorners
    have surrogate : l ∈ (polygonMesh stem tag mark origin two).hyperedges ↔
        (∃ i < n, sideLabel stem n i = l) ∨ elementLabel stem n tag = l := by
      rw [polygonMesh, layout.mem_hyperedges, labels_polygonEdges, List.mem_append, List.mem_map,
        List.mem_singleton, eq_comm (a := l)]
      simp only [List.mem_range]
    rw [coherent.mem_iff, node, surrogate]
    constructor
    · rintro (⟨i, lt, rfl⟩ | ⟨i, lt, rfl⟩ | rfl)
      · exact ⟨.corner i, corner_mem_spots.2 lt, rfl⟩
      · exact ⟨.side i, side_mem_spots.2 lt, rfl⟩
      · exact ⟨.element, element_mem_spots, rfl⟩
    · rintro ⟨s, mem, rfl⟩
      cases s with
      | corner i => exact Or.inl ⟨i, corner_mem_spots.1 mem, rfl⟩
      | side i => exact Or.inr (Or.inl ⟨i, side_mem_spots.1 mem, rfl⟩)
      | element => exact Or.inr (Or.inr rfl)
  case kind =>
    cases s with
    | corner i => exact kindOf_eq_regular_iff.2 (corner i (corner_mem_spots.1 mem))
    | side i => exact kindOf_eq_surrogate_iff.2 ⟨_, side i (side_mem_spots.1 mem), rfl, rfl⟩
    | element => exact kindOf_eq_surrogate_iff.2 ⟨_, element, rfl, rfl⟩
  case touches =>
    have wellFormed : (polygonMesh stem tag mark origin two).WellFormed := layout.wellFormed
    rw [wellFormed.incident]
    exact or_congr (lists_polygonMesh_iff three two mem mem') (lists_polygonMesh_iff three two mem' mem)

end Drawn

/-! ### Going round -/

/-- The numbers of a ring from a number on. -/
def turned (n a i : Nat) : Nat := (a + i) % n

/-- The numbers of a ring from a number on, the other way round. -/
def mirrored (n a i : Nat) : Nat := (a + (n - i)) % n

theorem mod_eq_ite (lt : k < 2 * n) : k % n = if k < n then k else k - n := by
  split
  · exact Nat.mod_eq_of_lt ‹_›
  · rw [Nat.mod_eq_sub_mod (by omega), Nat.mod_eq_of_lt (by omega)]

theorem next_lt (lt : i < n) : next n i < n := Nat.mod_lt _ (Nat.zero_lt_of_lt lt)

theorem next_of_lt (lt : i + 1 < n) : next n i = i + 1 := Nat.mod_eq_of_lt lt

theorem next_ne (two : 2 ≤ n) (lt : i < n) : next n i ≠ i := by
  rw [next, mod_eq_ite (by omega)]
  split <;> omega

theorem next_injOn (lt : i < n) (lt' : j < n) (same : next n i = next n j) : i = j := by
  rw [next, next, mod_eq_ite (by omega), mod_eq_ite (by omega)] at same
  split at same <;> split at same <;> omega

theorem turned_lt (pos : 0 < n) (a i : Nat) : turned n a i < n := Nat.mod_lt _ pos

theorem mirrored_lt (pos : 0 < n) (a i : Nat) : mirrored n a i < n := Nat.mod_lt _ pos

theorem turned_zero (below : a < n) : turned n a 0 = a := Nat.mod_eq_of_lt below

theorem mirrored_zero (below : a < n) : mirrored n a 0 = a := by
  rw [mirrored, Nat.sub_zero, Nat.add_mod_right, Nat.mod_eq_of_lt below]

theorem next_turned (n a i : Nat) : next n (turned n a i) = turned n a (i + 1) := Nat.mod_add_mod ..

theorem turned_next (n a i : Nat) : turned n a (next n i) = turned n a (i + 1) := Nat.add_mod_mod ..

theorem next_mirrored (lt : i < n) (a : Nat) : next n (mirrored n a (i + 1)) = mirrored n a i := by
  have back : a + (n - (i + 1)) + 1 = a + (n - i) := by omega
  rw [next, mirrored, Nat.mod_add_mod, back, mirrored]

theorem next_previous (lt : i < n) : next n (previous n i) = i :=
  (next_mirrored (Nat.zero_lt_of_lt lt) i).trans (mirrored_zero lt)

theorem mirrored_next (lt : i < n) (a : Nat) : mirrored n a (next n i) = mirrored n a (i + 1) := by
  by_cases last : i + 1 = n
  · rw [next, last, Nat.mod_self, mirrored, mirrored, Nat.sub_zero, Nat.sub_self, Nat.add_mod_right,
      Nat.add_zero]
  · rw [next_of_lt (by omega)]

theorem turned_injOn (below : a < n) (lt : i < n) (lt' : j < n) (same : turned n a i = turned n a j) :
    i = j := by
  rw [turned, turned, mod_eq_ite (by omega), mod_eq_ite (by omega)] at same
  split at same <;> split at same <;> omega

theorem mirrored_injOn (below : a < n) (lt : i < n) (lt' : j < n)
    (same : mirrored n a i = mirrored n a j) : i = j := by
  rw [mirrored, mirrored, mod_eq_ite (by omega), mod_eq_ite (by omega)] at same
  split at same <;> split at same <;> omega

/-- The two ways round part at the next corner. -/
theorem turned_ne_mirrored (three : 3 ≤ n) (below : a < n) : turned n a 1 ≠ mirrored n a 1 := by
  rw [turned, mirrored, mod_eq_ite (by omega), mod_eq_ite (by omega)]
  split <;> split <;> omega

/-- Corners and sides go to corners and sides in a way that keeps which corners belong to a side. -/
structure Moves (n : Nat) (σ τ : Nat → Nat) : Prop where
  corner : ∀ i < n, σ i < n
  side : ∀ i < n, τ i < n
  corner_injective : ∀ i < n, ∀ j < n, σ i = σ j → i = j
  side_injective : ∀ i < n, ∀ j < n, τ i = τ j → i = j
  ends : ∀ i < n, ∀ k < n, σ k ∈ [τ i, next n (τ i)] ↔ k ∈ [i, next n i]

theorem moves_turned (below : a < n) : Moves n (turned n a) (turned n a) where
  corner _ _ := turned_lt (Nat.zero_lt_of_lt below) a _
  side _ _ := turned_lt (Nat.zero_lt_of_lt below) a _
  corner_injective _ lt _ lt' := turned_injOn below lt lt'
  side_injective _ lt _ lt' := turned_injOn below lt lt'
  ends i lt k lt' := by
    have same {j : Nat} (lt'' : j < n) : turned n a k = turned n a j ↔ k = j :=
      ⟨turned_injOn below lt' lt'', congrArg _⟩
    rw [next_turned, ← turned_next, List.mem_pair, List.mem_pair, same lt, same (next_lt lt)]

theorem moves_mirrored (below : a < n) : Moves n (mirrored n a) fun i => mirrored n a (next n i) where
  corner _ _ := mirrored_lt (Nat.zero_lt_of_lt below) a _
  side _ _ := mirrored_lt (Nat.zero_lt_of_lt below) a _
  corner_injective _ lt _ lt' := mirrored_injOn below lt lt'
  side_injective _ lt _ lt' same :=
    next_injOn lt lt' (mirrored_injOn below (next_lt lt) (next_lt lt') same)
  ends i lt k lt' := by
    have same {j : Nat} (lt'' : j < n) : mirrored n a k = mirrored n a j ↔ k = j :=
      ⟨mirrored_injOn below lt' lt'', congrArg _⟩
    have back : next n (mirrored n a (next n i)) = mirrored n a i := by
      rw [mirrored_next lt, next_mirrored lt]
    rw [back, List.mem_pair, List.mem_pair, same lt, same (next_lt lt), or_comm]

namespace Moves

variable (moves : Moves n σ τ) (two : 2 ≤ n)
include moves two

/-- A side keeps its direction or turns it round. -/
theorem along_or_against (lt : i < n) :
    (σ i = τ i ∧ σ (next n i) = next n (τ i)) ∨ (σ i = next n (τ i) ∧ σ (next n i) = τ i) := by
  have ne : σ (next n i) ≠ σ i := fun same =>
    next_ne two lt (moves.corner_injective _ (next_lt lt) _ lt same)
  have start := (moves.ends i lt i lt).2 (List.mem_pair.2 (Or.inl rfl))
  have stop := (moves.ends i lt _ (next_lt lt)).2 (List.mem_pair.2 (Or.inr rfl))
  rw [List.mem_pair] at start stop
  grind

/-- If the first side keeps its direction then all do: the next side cannot turn round, since it would go
where the side before it has gone. -/
theorem eq_turned (first : σ 0 = τ 0) (lt : i < n) : σ i = turned n (σ 0) i ∧ τ i = σ i := by
  induction i with
  | zero => exact ⟨(turned_zero (moves.corner 0 lt)).symm, first.symm⟩
  | succ i ih =>
    have before : i < n := by omega
    obtain ⟨corner, side⟩ := ih before
    have here : σ (i + 1) = next n (τ i) := by
      rcases moves.along_or_against two before with ⟨-, stop⟩ | ⟨start, -⟩
      · rwa [next_of_lt lt] at stop
      · exact absurd (side ▸ start).symm (next_ne two (moves.corner i before))
    refine ⟨by rw [here, side, corner, next_turned], ?_⟩
    rcases moves.along_or_against two lt with ⟨start, -⟩ | ⟨start, -⟩
    · exact start.symm
    · have same := next_injOn (moves.side i before) (moves.side _ lt) (here.symm.trans start)
      exact absurd (moves.side_injective _ before _ lt same) (by omega)

/-- If the first side turns round then all do. -/
theorem eq_mirrored (first : σ 0 = next n (τ 0)) (lt : i < n) :
    σ i = mirrored n (σ 0) i ∧ τ i = mirrored n (σ 0) (next n i) := by
  have pos : 0 < n := by omega
  have corners : σ i = mirrored n (σ 0) i ∧ next n (τ i) = σ i := by
    induction i with
    | zero => exact ⟨(mirrored_zero (moves.corner 0 lt)).symm, first.symm⟩
    | succ i ih =>
      have before : i < n := by omega
      obtain ⟨corner, side⟩ := ih before
      have here : σ (i + 1) = τ i := by
        rcases moves.along_or_against two before with ⟨start, -⟩ | ⟨-, stop⟩
        · exact absurd (side.trans start) (next_ne two (moves.side i before))
        · rwa [next_of_lt lt] at stop
      constructor
      · apply next_injOn (moves.corner _ lt) (mirrored_lt pos _ _)
        rw [next_mirrored before, here, side, corner]
      · rcases moves.along_or_against two lt with ⟨start, -⟩ | ⟨start, -⟩
        · exact absurd (moves.side_injective _ before _ lt (here.symm.trans start)) (by omega)
        · exact start.symm
  refine ⟨corners.1, next_injOn (moves.side i lt) (mirrored_lt pos _ _) ?_⟩
  rw [corners.2, corners.1, mirrored_next lt, next_mirrored lt]

end Moves

/-! ### Symmetries -/

/-- Corners go to corners, sides to sides, and the element to the element. -/
def Spot.map (σ τ : Nat → Nat) : Spot → Spot
  | corner i => corner (σ i)
  | side i => side (τ i)
  | element => element

def turn (n a : Nat) : Spot → Spot := Spot.map (turned n a) (turned n a)

/-- The side to the next corner becomes the side from the image of the next corner. -/
def mirror (n a : Nat) : Spot → Spot := Spot.map (mirrored n a) fun i => mirrored n a (next n i)

def symmetries (n : Nat) : List (Spot → Spot) :=
  (List.range n).map (turn n) ++ (List.range n).map (mirror n)

theorem mem_symmetries : φ ∈ symmetries n ↔ ∃ a < n, φ = turn n a ∨ φ = mirror n a := by
  simp only [symmetries, List.mem_append, List.mem_map, List.mem_range, ← exists_or, ← and_or_left,
    eq_comm (b := φ)]

theorem length_symmetries (n : Nat) : (symmetries n).length = 2 * n := by
  simp only [symmetries, List.length_append, List.length_map, List.length_range]
  omega

theorem Moves.keeps (moves : Moves n σ τ) (tag : String) (mark : UInt8) :
    (polygonChart n tag mark).Keeps (Spot.map σ τ) := by
  have members (s t : Spot) (mem : s ∈ spots n) (mem' : t ∈ spots n) :
      (∃ k ∈ (s.map σ τ).members n, t.map σ τ = .corner k) ↔
        ∃ k ∈ s.members n, t = .corner k := by
    cases t with
    | side | element => simp [Spot.map]
    | corner k =>
      rw [corner_mem_spots] at mem'
      cases s with
      | corner i => simp [Spot.map, Spot.members]
      | side i => simpa [Spot.map, Spot.members] using moves.ends i (side_mem_spots.1 mem) k mem'
      | element => simpa [Spot.map, Spot.members] using iff_of_true (moves.corner k mem') mem'
  refine ⟨fun s mem => ?target, fun s mem t mem' same => ?injective, fun s mem => ?kind,
    fun s mem t mem' => or_congr (members s t mem mem') (members t s mem' mem)⟩
  case target =>
    cases s with
    | corner i => exact corner_mem_spots.2 (moves.corner i (corner_mem_spots.1 mem))
    | side i => exact side_mem_spots.2 (moves.side i (side_mem_spots.1 mem))
    | element => exact element_mem_spots
  case injective =>
    cases s <;> cases t <;> simp only [Spot.map, reduceCtorEq, Spot.corner.injEq, Spot.side.injEq] at same ⊢
    case corner i j => exact moves.corner_injective i (corner_mem_spots.1 mem) j (corner_mem_spots.1 mem') same
    case side i j => exact moves.side_injective i (side_mem_spots.1 mem) j (side_mem_spots.1 mem') same
  case kind => cases s <;> rfl

/-! What keeps the chart is one of these, if the kind of the element is not that of a side. -/

theorem exists_eq_corner (kind : s.kind tag mark = .regular) : ∃ k, s = .corner k := by
  cases s with
  | corner k => exact ⟨k, rfl⟩
  | side | element => cases kind

section Plain

variable (plain : tag ≠ sideTag)
include plain

theorem exists_eq_side (kind : s.kind tag mark = .surrogate sideTag 0) : ∃ k, s = .side k := by
  cases s with
  | corner => cases kind
  | side k => exact ⟨k, rfl⟩
  | element => exact absurd (Kind.surrogate.inj kind).1 plain

theorem eq_element (kind : s.kind tag mark = .surrogate tag mark) : s = .element := by
  cases s with
  | corner => cases kind
  | side k => exact absurd (Kind.surrogate.inj kind).1.symm plain
  | element => rfl

theorem exists_moves (keeps : (polygonChart n tag mark).Keeps φ) :
    ∃ σ τ, Moves n σ τ ∧ ∀ s ∈ spots n, φ s = s.map σ τ := by
  have corner : ∀ i < n, ∃ k, φ (.corner i) = .corner k := fun i lt =>
    exists_eq_corner (keeps.kind (.corner i) (corner_mem_spots.2 lt))
  have side : ∀ i < n, ∃ k, φ (.side i) = .side k := fun i lt =>
    exists_eq_side plain (keeps.kind (.side i) (side_mem_spots.2 lt))
  choose! σ corner using corner
  choose! τ side using side
  refine ⟨σ, τ, ⟨fun i lt => ?corner, fun i lt => ?side, fun i lt j lt' same => ?corners,
    fun i lt j lt' same => ?sides, fun i lt k lt' => ?ends⟩, fun s mem => ?same⟩
  case corner => exact corner_mem_spots.1 (corner i lt ▸ keeps.target (.corner i) (corner_mem_spots.2 lt))
  case side => exact side_mem_spots.1 (side i lt ▸ keeps.target (.side i) (side_mem_spots.2 lt))
  case corners =>
    have image : φ (.corner i) = φ (.corner j) := by rw [corner i lt, corner j lt', same]
    exact Spot.corner.inj (keeps.injective _ (corner_mem_spots.2 lt) _ (corner_mem_spots.2 lt') image)
  case sides =>
    have image : φ (.side i) = φ (.side j) := by rw [side i lt, side j lt', same]
    exact Spot.side.inj (keeps.injective _ (side_mem_spots.2 lt) _ (side_mem_spots.2 lt') image)
  case ends =>
    have touches := keeps.touches _ (side_mem_spots.2 lt) _ (corner_mem_spots.2 lt')
    simpa [side i lt, corner k lt', polygonChart, Spot.members] using touches
  case same =>
    cases s with
    | corner i => exact corner i (corner_mem_spots.1 mem)
    | side i => exact side i (side_mem_spots.1 mem)
    | element => exact eq_element plain (keeps.kind .element mem)

theorem exists_symmetry (three : 3 ≤ n) (keeps : (polygonChart n tag mark).Keeps φ) :
    ∃ ψ ∈ symmetries n, ∀ s ∈ spots n, φ s = ψ s := by
  obtain ⟨σ, τ, moves, same⟩ := exists_moves plain keeps
  have two : 2 ≤ n := by omega
  have pos : 0 < n := by omega
  have below := moves.corner 0 pos
  rcases moves.along_or_against two pos with ⟨first, -⟩ | ⟨first, -⟩
  · refine ⟨turn n (σ 0), mem_symmetries.2 ⟨_, below, Or.inl rfl⟩, fun s mem => ?_⟩
    rw [same s mem]
    cases s with
    | corner i => exact congrArg Spot.corner (moves.eq_turned two first (corner_mem_spots.1 mem)).1
    | side i =>
      have eq := moves.eq_turned two first (side_mem_spots.1 mem)
      exact congrArg Spot.side (eq.2.trans eq.1)
    | element => rfl
  · refine ⟨mirror n (σ 0), mem_symmetries.2 ⟨_, below, Or.inr rfl⟩, fun s mem => ?_⟩
    rw [same s mem]
    cases s with
    | corner i => exact congrArg Spot.corner (moves.eq_mirrored two first (corner_mem_spots.1 mem)).1
    | side i => exact congrArg Spot.side (moves.eq_mirrored two first (side_mem_spots.1 mem)).2
    | element => rfl

end Plain

theorem keeps_of_mem_symmetries (tag : String) (mark : UInt8) (mem : φ ∈ symmetries n) :
    (polygonChart n tag mark).Keeps φ := by
  obtain ⟨a, below, rfl | rfl⟩ := mem_symmetries.1 mem
  · exact (moves_turned below).keeps tag mark
  · exact (moves_mirrored below).keeps tag mark

/-- Two symmetries differ at the first corner or at the second. -/
theorem symmetries_differ (three : 3 ≤ n) :
    (symmetries n).Pairwise fun φ ψ => ∃ s ∈ spots n, φ s ≠ ψ s := by
  have first : Spot.corner 0 ∈ spots n := corner_mem_spots.2 (by omega)
  have second : Spot.corner 1 ∈ spots n := corner_mem_spots.2 (by omega)
  have turn_zero (a : Nat) (lt : a < n) : turn n a (.corner 0) = .corner a :=
    congrArg Spot.corner (turned_zero lt)
  have mirror_zero (a : Nat) (lt : a < n) : mirror n a (.corner 0) = .corner a :=
    congrArg Spot.corner (mirrored_zero lt)
  have apart {f : Nat → Spot → Spot} (zero : ∀ a < n, f a (.corner 0) = .corner a) :
      ((List.range n).map f).Pairwise fun φ ψ => ∃ s ∈ spots n, φ s ≠ ψ s := by
    refine List.pairwise_map.2 (List.nodup_range.imp_of_mem fun {a b} mem mem' ne => ⟨_, first, ?_⟩)
    rw [zero a (List.mem_range.1 mem), zero b (List.mem_range.1 mem'), Ne, Spot.corner.injEq]
    exact ne
  refine List.pairwise_append.2 ⟨apart turn_zero, apart mirror_zero, fun φ mem ψ mem' => ?_⟩
  obtain ⟨a, index, rfl⟩ := List.mem_map.1 mem
  obtain ⟨b, index', rfl⟩ := List.mem_map.1 mem'
  rw [List.mem_range] at index index'
  by_cases same : a = b
  · subst same
    exact ⟨_, second, fun eq => turned_ne_mirrored three index (Spot.corner.inj eq)⟩
  · refine ⟨_, first, ?_⟩
    rwa [turn_zero a index, mirror_zero b index', Ne, Spot.corner.injEq]

/-! ### The main result -/

/-- Corners, a cycle of sides on the boundary, and an element over all corners. -/
structure Polygonal (stem : String) (n : Nat) (tag : String) (mark : UInt8) (g : Hypergraph) : Prop where
  counts : g.counts = ⟨n, n + 1⟩
  distinct : ((spots n).map (Spot.label stem n tag)).Nodup
  nodes : g.nodes.keys ~ (List.range n).map (cornerLabel stem)
  hyperedges : g.hyperedges.keys ~ (List.range n).map (sideLabel stem n) ++ [elementLabel stem n tag]
  side : ∀ i < n, ∃ e, g.hyperedge? (sideLabel stem n i) = some e ∧ e.tag = sideTag ∧ e.mark = 0 ∧
    e.attributes.boundary = some true ∧ e.memberLabels = [cornerLabel stem i, cornerLabel stem (next n i)]
  element : ∃ e, g.hyperedge? (elementLabel stem n tag) = some e ∧ e.tag = tag ∧ e.mark = mark ∧
    e.attributes.boundary = none ∧ e.memberLabels = (List.range n).map (cornerLabel stem)
  incident : ∀ i < n, g.neighbours (cornerLabel stem i) ~
    [sideLabel stem n i, sideLabel stem n (previous n i), elementLabel stem n tag]

/-- What touches a corner. -/
theorem mem_around_iff (lt : i < n) : s ∈ [.side i, .side (previous n i), .element] ↔
    s ∈ spots n ∧ (polygonChart n tag mark).touches (.corner i) s := by
  have before : previous n i < n := Nat.mod_lt _ (Nat.zero_lt_of_lt lt)
  cases s with
  | corner => simp [polygonChart, Spot.members]
  | element => simpa [polygonChart, Spot.members] using lt
  | side j =>
    have ends : (polygonChart n tag mark).touches (.corner i) (.side j) ↔ i = j ∨ i = next n j := by
      simp [polygonChart, Spot.members]
    rw [side_mem_spots, ends]
    simp only [List.mem_cons, Spot.side.injEq, reduceCtorEq, List.not_mem_nil, or_false]
    constructor
    · rintro (rfl | rfl)
      · exact ⟨lt, Or.inl rfl⟩
      · exact ⟨before, Or.inr (next_previous lt).symm⟩
    · rintro ⟨below, rfl | same⟩
      · exact Or.inl rfl
      · exact Or.inr (next_injOn below before (same.symm.trans (next_previous lt).symm))

theorem polygonal_polygonMesh (three : 3 ≤ n) (two : 2 ≤ n) :
    Polygonal stem n tag mark (polygonMesh stem tag mark origin two) := by
  have layout := layout_polygonMesh stem tag mark origin three two
  have drawn := drawn_polygonMesh three two stem tag mark origin
  obtain ⟨-, side, element⟩ := hyperedge?_polygonMesh three two stem tag mark origin
  have nodes : (polygonMesh stem tag mark origin two).nodes.keys ~ (List.range n).map (cornerLabel stem) :=
    labels_polygonCorners stem n origin ▸ layout.keys_nodes_perm
  have hyperedges : (polygonMesh stem tag mark origin two).hyperedges.keys ~
      (List.range n).map (sideLabel stem n) ++ [elementLabel stem n tag] :=
    labels_polygonEdges stem tag mark origin two ▸ layout.keys_hyperedges_perm
  refine ⟨?counts, nodup_labels three stem tag, nodes, hyperedges,
    fun i lt => ⟨_, side i lt, rfl, rfl, rfl, rfl⟩,
    ⟨_, element, rfl, rfl, rfl, memberLabels_polygonElement two⟩, fun i lt => ?incident⟩
  case counts =>
    rw [Hypergraph.counts, ← Table.length_keys, ← Table.length_keys, nodes.length_eq, hyperedges.length_eq]
    simp
  case incident =>
    have below : previous n i < n := Nat.mod_lt _ (by omega)
    have ne : i ≠ previous n i := fun same => next_ne two below ((next_previous lt).trans same)
    exact drawn.neighbours_perm (coherent_layOut ..) (corner_mem_spots.2 lt) (by simpa using ne)
      fun s => mem_around_iff lt

/-- Laying out a polygon fails for want of corners only. A polygon of three corners or more has the sides and
the element it should have, however the stem and the tag are spelled. If its element is no side then it
embeds into another one, of any stem and at any place, in two ways for each corner: turned and mirrored. -/
theorem polygon_symmetries (stem : String) (n : Nat) (tag : String) (mark : UInt8) (origin : Coord × Coord) :
    (∀ error, polygon stem n tag mark origin = .error error ↔ n < 2 ∧ error = .tooFewMembers tag n) ∧
    (3 ≤ n → ∃ g, polygon stem n tag mark origin = .ok g ∧ Polygonal stem n tag mark g ∧
      (tag ≠ sideTag → ∀ stem' origin', ∃ h, polygon stem' n tag mark origin' = .ok h ∧
        (g.embeddings h).length = 2 * n ∧ (g.embeddings h).Nodup ∧
        ∀ m, m ∈ g.embeddings h ↔ m.keys = g.vertices.keys ∧ ∃ φ ∈ symmetries n,
          ∀ s ∈ spots n, m.find? (s.label stem n tag) = some ((φ s).label stem' n tag))) := by
  constructor
  · intro error
    by_cases two : 2 ≤ n
    · rw [polygon_eq_ok stem tag mark origin two]
      exact iff_of_false nofun fun few => absurd two (by omega)
    · rw [polygon_eq_error stem tag mark origin (by omega), Except.error.injEq, eq_comm]
      exact (and_iff_right (by omega)).symm
  · intro three
    have two : 2 ≤ n := by omega
    refine ⟨_, polygon_eq_ok stem tag mark origin two, polygonal_polygonMesh three two, ?_⟩
    intro plain stem' origin'
    have drawn := drawn_polygonMesh three two stem tag mark origin
    have drawn' := drawn_polygonMesh three two stem' tag mark origin'
    have coherent : (polygonMesh stem tag mark origin two).Coherent := coherent_layOut ..
    have coherent' : (polygonMesh stem' tag mark origin' two).Coherent := coherent_layOut ..
    have keeps (φ : Spot → Spot) (mem : φ ∈ symmetries n) := keeps_of_mem_symmetries tag mark mem
    have perm := drawn.embeddings_perm drawn' coherent coherent'
      (List.ne_nil_of_mem element_mem_spots) keeps (fun φ => exists_symmetry plain three)
      (symmetries_differ three)
    refine ⟨_, polygon_eq_ok stem' tag mark origin' two, ?_, ?_, fun m => ?_⟩
    · rw [perm.length_eq, List.length_map, length_symmetries]
    · exact nodup_embeddings coherent coherent'
    · rw [perm.mem_iff, List.mem_map]
      constructor
      · rintro ⟨φ, mem, rfl⟩
        exact ⟨Chart.keys_carry .., φ, mem, Chart.follows_carry drawn _ φ⟩
      · rintro ⟨keys, φ, mem, follows⟩
        have follows : (polygonChart n tag mark).Follows (Spot.label stem n tag)
            (Spot.label stem' n tag) φ m := follows
        exact ⟨φ, mem, (follows.eq_carry drawn keys fun _ _ => rfl).symm⟩

/-- A square whose corners, sides and element are all spelled with the letters of sides. It embeds into
another one in eight ways. -/
theorem square_symmetries :
    polygon "E_0_E" 1 "E_0" 1 (.zero, .zero) = .error (.tooFewMembers "E_0" 1) ∧
    3 ≤ 4 ∧ "E_0" ≠ sideTag ∧
    ∃ g, polygon "E_0_E" 4 "E_0" 1 (.zero, .zero) = .ok g ∧ Polygonal "E_0_E" 4 "E_0" 1 g ∧
      ∃ h, polygon "" 4 "E_0" 1 (.ofNat 3, .zero) = .ok h ∧ (g.embeddings h).length = 8 := by
  have plain : "E_0" ≠ sideTag := by decide
  obtain ⟨fails, lays⟩ := polygon_symmetries "E_0_E" 4 "E_0" 1 (.zero, .zero)
  obtain ⟨g, laid, polygonal, embeds⟩ := lays (by decide)
  obtain ⟨h, laid', length, -⟩ := embeds plain "" (.ofNat 3, .zero)
  have few := ((polygon_symmetries "E_0_E" 1 "E_0" 1 (.zero, .zero)).1 _).2 ⟨by decide, rfl⟩
  exact ⟨few, by decide, plain, g, laid, polygonal, h, laid', length⟩

end Mesh

end Hypermesh
