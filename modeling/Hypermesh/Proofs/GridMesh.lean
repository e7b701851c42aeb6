import Hypermesh.Mesh.Grid
import Hypermesh.Proofs.Fanning
import Hypermesh.Proofs.Layout
import Hypermesh.Proofs.Numbering

/-!
The rectangular mesh of quads. The label of a node spells its column and its row with a separator between
them, and the label of a hyperedge spells those of its corners, so that spots can be read off labels again,
whatever the stem is. Each quad lies in a ring of sides, and a run marks them all.
-/

namespace Hypermesh

open Hypermesh.Hypergraph Rules
open scoped List

namespace Mesh

variable {stem : String} {width height : Nat} {p q : Nat × Nat} {ps ps' : List (Nat × Nat)}
  {tag tag' : String} {e : Hyperedge}

/-! ### Labels -/

/-- The column and the row. -/
def place (p : Nat × Nat) : List Char := (toString p.1).toList ++ '_' :: (toString p.2).toList

def name (stem : String) (p : Nat × Nat) : Label := (gridNode stem p.1 p.2).label

theorem toList_name (stem : String) (p : Nat × Nat) : (name stem p).toList = stem.toList ++ place p := by
  simp [name, gridNode, place]

theorem place_unique {b b' : List Char} (stops : Stops b) (stops' : Stops b')
    (same : place p ++ b = place q ++ b') : p = q ∧ b = b' := by
  rw [place, place, List.append_assoc, List.append_assoc] at same
  obtain ⟨column, rest⟩ :=
    front_unique (plain_digits p.1) (plain_digits q.1) (stops_cons _) (stops_cons _) same
  obtain ⟨row, rest⟩ := front_unique (plain_digits p.2) (plain_digits q.2) stops stops' (List.cons.inj rest).2
  exact ⟨Prod.ext (digits_injective column) (digits_injective row), rest⟩

theorem name_injective (stem : String) : Function.Injective (name stem) := by
  intro p q same
  have texts := congrArg String.toList same
  rw [toList_name, toList_name, List.append_cancel_left_eq, ← List.append_nil (place p),
    ← List.append_nil (place q)] at texts
  exact (place_unique stops_nil stops_nil texts).1

/-- What the label of a hyperedge spells after its tag. -/
def spelled (stem : String) (ps : List (Nat × Nat)) : List Char :=
  ps.flatMap fun p => '_' :: (stem.toList ++ place p)

theorem spelled_cons (stem : String) (p : Nat × Nat) (ps : List (Nat × Nat)) :
    spelled stem (p :: ps) = '_' :: (stem.toList ++ (place p ++ spelled stem ps)) := by
  rw [← List.append_assoc]
  rfl

theorem toList_hyperedge_name (tag : String) (ps : List (Nat × Nat)) :
    (Label.hyperedge tag (ps.map (name stem))).toList = tag.toList ++ spelled stem ps := by
  rw [Label.toList_hyperedge, List.flatMap_map, spelled]
  simp only [toList_name]

theorem stops_spelled (stem : String) (ps : List (Nat × Nat)) : Stops (spelled stem ps) := by
  cases ps with
  | nil => exact stops_nil
  | cons p ps => exact stops_cons _

theorem spelled_injective (stem : String) : Function.Injective (spelled stem) := by
  intro ps ps' same
  induction ps generalizing ps' with
  | nil =>
    cases ps' with
    | nil => rfl
    | cons q ps' => cases same
  | cons p ps ih =>
    cases ps' with
    | nil => cases same
    | cons q ps' =>
      rw [spelled_cons, spelled_cons, List.cons.injEq, List.append_cancel_left_eq] at same
      obtain ⟨rfl, rest⟩ := place_unique (stops_spelled stem ps) (stops_spelled stem ps') same.2
      rw [ih rest]

theorem hyperedge_name_unique (plain : ¬ '_' ∈ tag.toList) (plain' : ¬ '_' ∈ tag'.toList)
    (same : Label.hyperedge tag (ps.map (name stem)) = Label.hyperedge tag' (ps'.map (name stem))) :
    tag = tag' ∧ ps = ps' := by
  have texts := congrArg String.toList same
  rw [toList_hyperedge_name, toList_hyperedge_name] at texts
  obtain ⟨tags, rest⟩ := front_unique plain plain' (stops_spelled stem ps) (stops_spelled stem ps') texts
  exact ⟨String.toList_inj.1 tags, spelled_injective stem rest⟩

theorem lines_name (stem : String) (p : Nat × Nat) : Label.lines (name stem p) = Label.lines stem + 1 := by
  have within : (place p).count '_' = 1 := by
    rw [place, List.count_append, List.count_cons_self, List.count_eq_zero.2 (plain_digits p.1),
      List.count_eq_zero.2 (plain_digits p.2)]
  rw [Label.lines, toList_name, List.count_append, within, Label.lines]

/-- A label over two corners or more has more separators than that of one. -/
theorem hyperedge_name_ne (tag : String) (two : 2 ≤ ps.length) (q : Nat × Nat) :
    Label.hyperedge tag (ps.map (name stem)) ≠ name stem q := by
  intro same
  have counts := congrArg Label.lines same
  have all : ((ps.map (name stem)).map fun l => Label.lines l + 1).sum = ps.length * (Label.lines stem + 2) := by
    simp [Function.comp_def, lines_name]
  rw [Label.lines_hyperedge, all, lines_name] at counts
  have more := Nat.mul_le_mul_right (Label.lines stem + 2) two
  omega

/-! ### Spots -/

theorem mem_positions {columns rows : Nat} : p ∈ positions columns rows ↔ p.1 < columns ∧ p.2 < rows := by
  obtain ⟨c, r⟩ := p
  simp [positions, and_comm]

theorem nodup_positions (columns rows : Nat) : (positions columns rows).Nodup := by
  rw [positions, List.nodup_flatMap]
  refine ⟨fun row _ => List.nodup_range.map fun c c' same => congrArg Prod.fst same, ?_⟩
  apply List.nodup_range.imp
  intro row row' ne p mem mem'
  obtain ⟨c, -, rfl⟩ := List.mem_map.1 mem
  obtain ⟨c', -, same⟩ := List.mem_map.1 mem'
  exact ne (congrArg Prod.snd same).symm

theorem length_positions (columns rows : Nat) : (positions columns rows).length = columns * rows := by
  simp [positions, List.length_flatMap, Nat.mul_comm]

theorem sum_below (n k : Nat) : ((List.range (n + 1)).map fun i => if i < n then k else 0).sum = n * k := by
  have first : ((List.range n).map fun i => if i < n then k else 0) = (List.range n).map fun _ => k :=
    List.map_congr_left fun i mem => if_pos (List.mem_range.1 mem)
  rw [List.range_succ, List.map_append, List.sum_append, first]
  simp

def gridNodes (stem : String) (width height : Nat) : List Node :=
  (positions (width + 1) (height + 1)).map fun p => gridNode stem p.1 p.2

def allSides (stem : String) (width height : Nat) : List Hyperedge :=
  (positions (width + 1) (height + 1)).flatMap fun p => gridSides stem width height p.1 p.2

def allQuads (stem : String) (width height : Nat) : List Hyperedge :=
  (positions width height).map fun p => gridQuad stem p.1 p.2

/-- The corners of the quad whose lowest one is given. -/
def quadSpots (p : Nat × Nat) : List (Nat × Nat) := [p, (p.1 + 1, p.2), (p.1 + 1, p.2 + 1), (p.1, p.2 + 1)]

theorem memberLabels_gridQuad (stem : String) (p : Nat × Nat) :
    (gridQuad stem p.1 p.2).memberLabels = (quadSpots p).map (name stem) := rfl

/-- A side between two spots next to each other, on the boundary if it lies along the outline. -/
inductive GridSide (stem : String) (width height : Nat) : Hyperedge → Prop
  | right {c r : Nat} : c < width → r ≤ height → GridSide stem width height
      ((Hyperedge.side (gridNode stem c r) (gridNode stem (c + 1) r)).withBoundary (r = 0 || r = height))
  | up {c r : Nat} : c ≤ width → r < height → GridSide stem width height
      ((Hyperedge.side (gridNode stem c r) (gridNode stem c (r + 1))).withBoundary (c = 0 || c = width))

theorem mem_allSides : e ∈ allSides stem width height ↔ GridSide stem width height e := by
  rw [allSides, List.mem_flatMap]
  constructor
  · rintro ⟨p, mem, listed⟩
    obtain ⟨column, row⟩ := mem_positions.1 mem
    rw [gridSides, List.mem_append] at listed
    rcases listed with listed | listed <;> split at listed
    · next inside =>
      rw [List.mem_singleton.1 listed]
      exact .right inside (Nat.le_of_lt_succ row)
    · cases listed
    · next inside =>
      rw [List.mem_singleton.1 listed]
      exact .up (Nat.le_of_lt_succ column) inside
    · cases listed
  · rintro (⟨column, row⟩ | ⟨column, row⟩)
    · exact ⟨(_, _), mem_positions.2 ⟨Nat.lt_succ_of_lt column, Nat.lt_succ_of_le row⟩, by
        simp [gridSides, column]⟩
    · exact ⟨(_, _), mem_positions.2 ⟨Nat.lt_succ_of_le column, Nat.lt_succ_of_lt row⟩, by
        simp [gridSides, row]⟩

theorem tag_of_mem_allSides (mem : e ∈ allSides stem width height) : e.tag = sideTag ∧ e.mark = 0 := by
  cases mem_allSides.1 mem with
  | right => exact ⟨rfl, rfl⟩
  | up => exact ⟨rfl, rfl⟩

theorem tag_of_mem_allQuads (mem : e ∈ allQuads stem width height) : e.tag = quadTag ∧ e.mark = 0 := by
  obtain ⟨p, -, rfl⟩ := List.mem_map.1 mem
  exact ⟨rfl, rfl⟩

/-- From each spot a side goes to the right, but for the last column, and one up, but for the last row. -/
theorem length_allSides (stem : String) (width height : Nat) :
    (allSides stem width height).length = width * (height + 1) + (width + 1) * height := by
  have each (c r : Nat) : (gridSides stem width height c r).length =
      (if c < width then 1 else 0) + if r < height then 1 else 0 := by
    rw [gridSides, List.length_append]
    split <;> split <;> rfl
  have row (r : Nat) : ((List.range (width + 1)).map fun c =>
      (if c < width then 1 else 0) + if r < height then 1 else 0).sum =
        width + if r < height then width + 1 else 0 := by
    rw [List.sum_map_add, sum_below]
    split <;> simp
  have rows : ((List.range (height + 1)).map fun r => width + if r < height then width + 1 else 0).sum =
      (height + 1) * width + height * (width + 1) := by
    rw [List.sum_map_add, sum_below]
    simp
  simp only [allSides, positions, List.flatMap_assoc, List.flatMap_map, List.length_flatMap, each, row, rows]
  rw [Nat.mul_comm (height + 1), Nat.mul_comm height]

/-! ### The layout -/

theorem mem_labels_gridNodes : name stem p ∈ (gridNodes stem width height).map Node.label ↔
    p.1 ≤ width ∧ p.2 ≤ height := by
  have labels : (gridNodes stem width height).map Node.label =
      (positions (width + 1) (height + 1)).map (name stem) := List.map_map ..
  rw [labels, List.mem_map_of_injective (name_injective stem), mem_positions, Nat.lt_succ_iff,
    Nat.lt_succ_iff]

/-- The corners of a hyperedge of the grid, of which the first one is its lowest. -/
inductive Corners (width height : Nat) : String → List (Nat × Nat) → Prop
  | right {c r : Nat} : c < width → r ≤ height → Corners width height sideTag [(c, r), (c + 1, r)]
  | up {c r : Nat} : c ≤ width → r < height → Corners width height sideTag [(c, r), (c, r + 1)]
  | quad {c r : Nat} : c < width → r < height → Corners width height quadTag (quadSpots (c, r))

theorem Corners.two_le (corners : Corners width height tag ps) : 2 ≤ ps.length := by
  cases corners <;> simp [quadSpots]

theorem Corners.inside (corners : Corners width height tag ps) : ∀ p ∈ ps, p.1 ≤ width ∧ p.2 ≤ height := by
  cases corners <;> simp [quadSpots] <;> omega

theorem exists_corners (mem : e ∈ allSides stem width height ++ allQuads stem width height) :
    ∃ ps, Corners width height e.tag ps ∧ e.memberLabels = ps.map (name stem) := by
  rcases List.mem_append.1 mem with mem | mem
  · cases mem_allSides.1 mem with
    | right column row => exact ⟨_, .right column row, rfl⟩
    | up column row => exact ⟨_, .up column row, rfl⟩
  · obtain ⟨p, cell, rfl⟩ := List.mem_map.1 mem
    obtain ⟨column, row⟩ := mem_positions.1 cell
    exact ⟨_, .quad column row, rfl⟩

/-- The corners of the sides that leave a spot, with their tag. -/
def sideShapes (width height : Nat) (p : Nat × Nat) : List (String × List (Nat × Nat)) :=
  (if p.1 < width then [(sideTag, [p, (p.1 + 1, p.2)])] else []) ++
    (if p.2 < height then [(sideTag, [p, (p.1, p.2 + 1)])] else [])

def shapes (width height : Nat) : List (String × List (Nat × Nat)) :=
  (positions (width + 1) (height + 1)).flatMap (sideShapes width height) ++
    (positions width height).map fun p => (quadTag, quadSpots p)

theorem labels_eq (stem : String) (width height : Nat) :
    (allSides stem width height ++ allQuads stem width height).map Hyperedge.label =
      (shapes width height).map fun s => .hyperedge s.1 (s.2.map (name stem)) := by
  have sides (p : Nat × Nat) : (gridSides stem width height p.1 p.2).map Hyperedge.label =
      (sideShapes width height p).map fun s => .hyperedge s.1 (s.2.map (name stem)) := by
    rw [gridSides, sideShapes]
    split <;> split <;> rfl
  rw [shapes, List.map_append, List.map_append, allSides, List.map_flatMap, List.map_flatMap, allQuads,
    List.map_map, List.map_map]
  simp only [sides]
  rfl

theorem mem_sideShapes {shape : String × List (Nat × Nat)} (mem : shape ∈ sideShapes width height p) :
    shape.1 = sideTag ∧ shape.2.head? = some p := by
  rw [sideShapes, List.mem_append] at mem
  rcases mem with mem | mem <;> split at mem
  · rw [List.mem_singleton.1 mem]
    exact ⟨rfl, rfl⟩
  · cases mem
  · rw [List.mem_singleton.1 mem]
    exact ⟨rfl, rfl⟩
  · cases mem

theorem nodup_shapes (width height : Nat) : (shapes width height).Nodup := by
  rw [shapes, List.nodup_append, List.nodup_flatMap]
  refine ⟨⟨fun p _ => ?each, ?apart⟩, ?quads, ?tags⟩
  case each =>
    rw [sideShapes]
    split <;> split <;> simp
  case apart =>
    apply (nodup_positions _ _).imp
    intro p q ne shape mem mem'
    exact ne (Option.some.inj ((mem_sideShapes mem).2.symm.trans (mem_sideShapes mem').2))
  case quads =>
    exact (nodup_positions _ _).map fun p q same => (List.cons.inj (congrArg Prod.snd same)).1
  case tags =>
    rintro shape mem _ mem' rfl
    obtain ⟨p, -, listed⟩ := List.mem_flatMap.1 mem
    obtain ⟨q, -, rfl⟩ := List.mem_map.1 mem'
    exact absurd (mem_sideShapes listed).1 (by decide : quadTag ≠ sideTag)

theorem layout_grid (stem : String) (width height : Nat) :
    Layout (gridNodes stem width height) (allSides stem width height ++ allQuads stem width height) := by
  refine ⟨?nodes, ?edges, ?apart, ?known⟩
  case nodes =>
    have labels : (gridNodes stem width height).map Node.label =
        (positions (width + 1) (height + 1)).map (name stem) := List.map_map ..
    rw [labels]
    exact (nodup_positions _ _).map (name_injective stem)
  case apart =>
    intro e mem node
    obtain ⟨ps, corners, members⟩ := exists_corners mem
    obtain ⟨n, listed, same⟩ := List.mem_map.1 node
    obtain ⟨p, -, rfl⟩ := List.mem_map.1 listed
    rw [Hyperedge.label, members] at same
    exact hyperedge_name_ne e.tag corners.two_le p same.symm
  case known =>
    intro e mem k member
    obtain ⟨ps, corners, members⟩ := exists_corners mem
    rw [members, List.mem_map] at member
    obtain ⟨p, listed, rfl⟩ := member
    exact mem_labels_gridNodes.2 (corners.inside p listed)
  case edges =>
    have plain : ∀ shape ∈ shapes width height, ¬ '_' ∈ shape.1.toList := by
      intro shape mem
      rcases List.mem_append.1 mem with mem | mem
      · obtain ⟨p, -, listed⟩ := List.mem_flatMap.1 mem
        rw [(mem_sideShapes listed).1]
        decide
      · obtain ⟨p, -, rfl⟩ := List.mem_map.1 mem
        exact (by decide : ¬ '_' ∈ quadTag.toList)
    rw [labels_eq]
    refine (nodup_shapes width height).map_on fun shape mem shape' mem' same => ?_
    exact Prod.ext_iff.2 (hyperedge_name_unique (plain shape mem) (plain shape' mem') same)

theorem grid_eq (stem : String) (width height : Nat) : grid stem width height =
    .ok (layOut (gridNodes stem width height) (allSides stem width height ++ allQuads stem width height)) := by
  have layout := layout_grid stem width height
  have known : ∀ e ∈ allSides stem width height ++ allQuads stem width height, ∀ k ∈ e.memberLabels,
      k ∈ ((∅ : Hypergraph).addNodes (gridNodes stem width height)).nodes := by
    simpa only [mem_addNodes layout.nodes_nodup] using layout.known
  exact foldlM_addHyperedge known

/-- Whichever hyperedges have come in so far, the node of a spot is found under its label. So `grid` hands
the hyperedges their corners and has no need to look for them. -/
theorem requireNode_gridNodes (column : p.1 ≤ width) (row : p.2 ≤ height) (edges : List Hyperedge) :
    (layOut (gridNodes stem width height) edges).requireNode (name stem p) = .ok (gridNode stem p.1 p.2) := by
  have nodup := (layout_grid stem width height).nodes_nodup
  have listed : gridNode stem p.1 p.2 ∈ gridNodes stem width height :=
    List.mem_map_of_mem (mem_positions.2 ⟨Nat.lt_succ_of_le column, Nat.lt_succ_of_le row⟩)
  have first := (find?_name_eq_some_iff nodup).2 ⟨listed, rfl⟩
  have found : ((∅ : Hypergraph).addNodes (gridNodes stem width height)).node? (name stem p) =
      some (gridNode stem p.1 p.2) := by
    rw [node?_addNodes nodup, name, first]
    rfl
  exact requireNode_eq_ok.2 (node?_insertAll_of_some found)

/-! ### The boundary -/

/-- The cells of which a side of the grid has both ends. -/
theorem mem_quadSpots_right {c r : Nat} : (∀ s ∈ [(c, r), (c + 1, r)], s ∈ quadSpots p) ↔
    p.1 = c ∧ (p.2 = r ∨ p.2 + 1 = r) := by
  obtain ⟨c', r'⟩ := p
  simp [quadSpots]
  omega

theorem mem_quadSpots_up {c r : Nat} : (∀ s ∈ [(c, r), (c, r + 1)], s ∈ quadSpots p) ↔
    (p.1 = c ∨ p.1 + 1 = c) ∧ p.2 = r := by
  obtain ⟨c', r'⟩ := p
  simp [quadSpots]
  omega

/-- Of `n` intervals in a row no two meet at an end of the row. -/
theorem unique_near {i n : Nat} (le : i ≤ n) :
    (∀ j < n, j = i ∨ j + 1 = i → ∀ k < n, k = i ∨ k + 1 = i → j = k) ↔ i = 0 ∨ i = n := by
  constructor
  · intro unique
    by_contra inner
    have same := unique i (by omega) (Or.inl rfl) (i - 1) (by omega) (Or.inr (by omega))
    omega
  · intro outer j low near k low' near'
    omega

theorem onBoundary_withBoundary (a b : Node) (first second : Bool) :
    ((Hyperedge.side a b).withBoundary (first || second)).onBoundary = true ↔ first = true ∨ second = true :=
  Bool.or_eq_true_iff

/-- A side is on the boundary if there are no cells on both sides of it. -/
theorem onBoundary_iff (side : GridSide stem width height e) (spans : e.memberLabels = ps.map (name stem)) :
    e.onBoundary = true ↔ (positions width height).countP (fun p => ∀ s ∈ ps, s ∈ quadSpots p) ≤ 1 := by
  have eq {qs : List (Nat × Nat)} (same : qs.map (name stem) = ps.map (name stem)) : qs = ps :=
    List.map_injective_iff.2 (name_injective stem) same
  rw [countP_le_one_iff (nodup_positions width height)]
  cases side with
  | @right c r column row =>
    obtain rfl : [(c, r), (c + 1, r)] = ps := eq spans
    simp only [mem_quadSpots_right, mem_positions]
    rw [onBoundary_withBoundary, decide_eq_true_iff, decide_eq_true_iff, ← unique_near row]
    constructor
    · rintro unique a ⟨-, low⟩ ⟨first, near⟩ b ⟨-, low'⟩ ⟨second, near'⟩
      exact Prod.ext (first.trans second.symm) (unique a.2 low near b.2 low' near')
    · intro unique j low near k low' near'
      exact congrArg Prod.snd (unique (c, j) ⟨column, low⟩ ⟨rfl, near⟩ (c, k) ⟨column, low'⟩ ⟨rfl, near'⟩)
  | @up c r column row =>
    obtain rfl : [(c, r), (c, r + 1)] = ps := eq spans
    simp only [mem_quadSpots_up, mem_positions]
    rw [onBoundary_withBoundary, decide_eq_true_iff, decide_eq_true_iff, ← unique_near column]
    constructor
    · rintro unique a ⟨low, -⟩ ⟨near, first⟩ b ⟨low', -⟩ ⟨near', second⟩
      exact Prod.ext (unique a.1 low near b.1 low' near') (first.trans second.symm)
    · intro unique j low near k low' near'
      exact congrArg Prod.fst (unique (j, r) ⟨low, row⟩ ⟨near, rfl⟩ (k, r) ⟨low', row⟩ ⟨near', rfl⟩)

theorem countP_tag {edges : List Hyperedge} (tagged : ∀ e ∈ edges, e.tag = tag') :
    edges.countP (·.tag ∈ [tag]) = if tag = tag' then edges.length else 0 := by
  split
  · next same =>
    rw [List.countP_eq_length]
    exact fun e mem => by simp [tagged e mem, same]
  · next other =>
    rw [List.countP_eq_zero]
    exact fun e mem => by simp [tagged e mem, Ne.symm other]

section Grid

variable {g : Hypergraph}
  (values : g.hyperedges.values ~ allSides stem width height ++ allQuads stem width height)
include values

/-- The quads that have both ends of a side are those of the cells beside it. -/
theorem countP_quads (spans : e.memberLabels = ps.map (name stem)) :
    g.hyperedges.values.countP (fun q => q.tag = quadTag ∧ ∀ k ∈ e.memberLabels, k ∈ q.memberLabels) =
      (positions width height).countP fun p => ∀ s ∈ ps, s ∈ quadSpots p := by
  have none : (allSides stem width height).countP
      (fun q => q.tag = quadTag ∧ ∀ k ∈ e.memberLabels, k ∈ q.memberLabels) = 0 := by
    rw [List.countP_eq_zero]
    intro q mem
    rw [decide_eq_true_iff]
    rintro ⟨tag, -⟩
    exact absurd ((tag_of_mem_allSides mem).1.symm.trans tag) (by decide)
  rw [values.countP_eq, List.countP_append, none, Nat.zero_add, allQuads, List.countP_map]
  apply List.countP_congr
  intro p _
  rw [Function.comp_apply, decide_eq_true_iff, decide_eq_true_iff, memberLabels_gridQuad, spans,
    List.forall_mem_map]
  simp only [List.mem_map_of_injective (name_injective stem)]
  exact and_iff_right rfl

theorem tally_grid : g.tally [sideTag] = width * (height + 1) + (width + 1) * height ∧
    g.tally [quadTag] = width * height := by
  have sides (tag : String) : (allSides stem width height).countP (·.tag ∈ [tag]) = _ :=
    countP_tag fun e mem => (tag_of_mem_allSides mem).1
  have quads (tag : String) : (allQuads stem width height).countP (·.tag ∈ [tag]) = _ :=
    countP_tag fun e mem => (tag_of_mem_allQuads mem).1
  unfold tally
  rw [values.countP_eq, values.countP_eq, List.countP_append, List.countP_append, sides, sides, quads, quads,
    if_pos rfl, if_neg (by decide), if_neg (by decide), if_pos rfl, length_allSides, allQuads,
    List.length_map, length_positions, Nat.add_zero, Nat.zero_add]
  exact ⟨rfl, rfl⟩

theorem encircled_quad (nodes : ∀ s : Nat × Nat, s.1 ≤ width → s.2 ≤ height → name stem s ∈ g.nodes)
    (column : p.1 < width) (row : p.2 < height) : g.Encircled 0 ((quadSpots p).map (name stem)) := by
  obtain ⟨c, r⟩ := p
  have bounds {e : Hyperedge} {s t : Nat × Nat} (side : GridSide stem width height e)
      (joins : e.Joins (name stem s) (name stem t)) :
      g.Bounds 0 ((quadSpots (c, r)).map (name stem)) (name stem s) (name stem t) := by
    have mem := mem_allSides.2 side
    obtain ⟨tag, mark⟩ := tag_of_mem_allSides mem
    exact ⟨e, values.mem_iff.2 (List.mem_append_left _ mem), tag, mark, fun _ _ => joins.mem_iff⟩
  refine ⟨?nodup, ?node, ?side⟩
  case nodup => exact List.Nodup.map (name_injective stem) (by simp [quadSpots])
  case node =>
    rw [List.forall_mem_map]
    intro s spot
    have inside := (Corners.quad column row).inside s spot
    exact nodes s inside.1 inside.2
  case side =>
    have ring : pairs (quadSpots (c, r)) = [((c, r), (c + 1, r)), ((c + 1, r), (c + 1, r + 1)),
      ((c + 1, r + 1), (c, r + 1)), ((c, r + 1), (c, r))] := rfl
    rw [pairs_map, ring, List.forall_mem_map]
    simp only [List.forall_mem_cons]
    exact ⟨bounds (.right column (Nat.le_of_lt row)) (Or.inl rfl), bounds (.up column row) (Or.inl rfl),
      bounds (.right column row) (Or.inr rfl), bounds (.up (Nat.le_of_lt column) row) (Or.inr rfl), nofun⟩

theorem quads_encircled (nodes : ∀ s : Nat × Nat, s.1 ≤ width → s.2 ≤ height → name stem s ∈ g.nodes) :
    ∀ e ∈ g.hyperedges.values, e.tag = quadTag →
      e.mark = 0 ∧ e.memberLabels.length = 4 ∧ g.Encircled 0 e.memberLabels := by
  intro e mem tag
  have quad : e ∈ allQuads stem width height := by
    refine (List.mem_append.1 (values.mem_iff.1 mem)).resolve_left fun side => ?_
    exact absurd ((tag_of_mem_allSides side).1.symm.trans tag) (by decide)
  obtain ⟨p, cell, rfl⟩ := List.mem_map.1 quad
  obtain ⟨column, row⟩ := mem_positions.1 cell
  exact ⟨rfl, rfl, encircled_quad values nodes column row⟩

end Grid

/-! ### Marking the quads -/

/-- Where all quads lie in rings of unmarked sides, the run marks each of them once and leaves all else. -/
theorem exhausts_markQuad {g : Hypergraph} {s : Settings} (c : g.Coherent) (w : g.WellFormed)
    (quads : ∀ e ∈ g.hyperedges.values, e.tag = quadTag →
      e.mark = 0 ∧ e.memberLabels.length = 4 ∧ g.Encircled 0 e.memberLabels)
    (uncapped : s.maxApplications = none) :
    ∃ f, markQuad.Exhausts s g (g.tally [quadTag]) f ∧
      DifferInMarks quadTag ((g.hyperedges.values.filter (·.tag = quadTag)).map Hyperedge.label) g f ∧
      f.counts = g.counts ∧ markQuad.Exhausts s f 0 f := by
  have blind : markQuad.IndexBlind := fun _ _ _ => rfl
  have perm : images (unmarked .quad) g Outline.quad.elementKey ~
      (g.hyperedges.values.filter (·.tag = quadTag)).map Hyperedge.label := by
    simpa only [List.mem_singleton] using images_quad_perm c w quads
  have count : (images (unmarked .quad) g Outline.quad.elementKey).length = g.tally [quadTag] := by
    rw [perm.length_eq, List.length_map, ← List.countP_eq_length_filter, tally]
    simp only [List.mem_singleton]
  obtain ⟨f, ends, marked⟩ := framed_quad.ends "quad/mark" s c w
  rw [count] at ends
  have revised := marked.revised
  refine ⟨f, ends.exhausts uncapped blind, ?marks, ?counts, ends.last.exhausts uncapped blind⟩
  case marks =>
    rw [markAt_perm perm] at revised
    refine .of_revised c marked.coherent revised fun t mem => ?_
    obtain ⟨e, listed, rfl⟩ := List.mem_map.1 mem
    obtain ⟨stored, tag⟩ := List.mem_filter.1 listed
    have tag : e.tag = quadTag := of_decide_eq_true tag
    exact ⟨e, w.mem_values_iff.1 stored, tag, (quads e stored tag).1⟩
  case counts =>
    have nodes := (revised.nodes_perm w marked.wellFormed).length_eq
    have hyperedges := (revised.values_perm w marked.wellFormed (keepsMembers_markAt _)).length_eq
    rw [List.length_map, Table.length_values, Table.length_values] at hyperedges
    rw [Table.length_values, Table.length_values] at nodes
    rw [counts, counts, nodes, hyperedges]

/-- The mesh has the nodes and hyperedges of a grid under labels that are all different, with the outline on
the boundary. The run marks each quad of it once and leaves all else. -/
theorem run_marks_grid (stem : String) (width height : Nat) (asks : Bool) :
    let s : Settings := { consultAcceptance := asks }
    ∃ g, grid stem width height = .ok g ∧
      (g.nodes.size = (width + 1) * (height + 1) ∧
        g.tally [sideTag] = width * (height + 1) + (width + 1) * height ∧
        g.tally [quadTag] = width * height ∧
        g.hyperedges.size = g.tally [sideTag] + g.tally [quadTag]) ∧
      (g.nodes.values.map Node.label ++ g.hyperedges.values.map Hyperedge.label).Nodup ∧
      (∀ e ∈ g.hyperedges.values, e.tag = sideTag →
        (e.onBoundary = true ↔ g.hyperedges.values.countP
          (fun q => q.tag = quadTag ∧ ∀ k ∈ e.memberLabels, k ∈ q.memberLabels) ≤ 1)) ∧
      ∃ f, markQuad.Exhausts s g (width * height) f ∧
        DifferInMarks quadTag ((g.hyperedges.values.filter (·.tag = quadTag)).map Hyperedge.label) g f ∧
        f.counts = g.counts ∧ markQuad.Exhausts s f 0 f := by
  intro s
  have layout := layout_grid stem width height
  have values := layout.hyperedges_perm
  have w := layout.wellFormed
  have c := coherent_layOut (gridNodes stem width height)
    (allSides stem width height ++ allQuads stem width height)
  refine ⟨_, grid_eq stem width height, ⟨?nodes, (tally_grid values).1, (tally_grid values).2, ?edges⟩,
    ?labels, ?boundary, ?run⟩
  case nodes =>
    rw [← Table.length_values, layout.nodes_perm.length_eq, List.length_map, gridNodes, List.length_map,
      length_positions]
  case edges =>
    rw [← Table.length_values, values.length_eq, List.length_append, length_allSides, (tally_grid values).1,
      (tally_grid values).2, allQuads, List.length_map, length_positions]
  case labels =>
    rw [Table.map_values w.node_label, Table.map_values w.hyperedge_label, List.nodup_append]
    refine ⟨Table.nodup _, Table.nodup _, ?_⟩
    rintro l node _ stored rfl
    exact w.unambiguous l node stored
  case boundary =>
    intro e mem tag
    have side : e ∈ allSides stem width height := by
      refine (List.mem_append.1 (values.mem_iff.1 mem)).resolve_right fun quad => ?_
      exact absurd (tag.symm.trans (tag_of_mem_allQuads quad).1) (by decide)
    obtain ⟨ps, -, spans⟩ := exists_corners (List.mem_append_left (allQuads stem width height) side)
    rw [countP_quads values spans]
    exact onBoundary_iff (mem_allSides.1 side) spans
  case run =>
    have quads := quads_encircled values fun s first second =>
      layout.mem_nodes.2 (mem_labels_gridNodes.2 ⟨first, second⟩)
    obtain ⟨f, run, rest⟩ := exhausts_markQuad c w quads (s := s) rfl
    rw [(tally_grid values).2] at run
    exact ⟨f, run, rest⟩

end Mesh

end Hypermesh
