import Hypermesh.Proofs.Covering
import Hypermesh.Proofs.Refining

/-!
The run that splits all marked sides of a host. Each side matches in two ways, and the first match takes
its ends in the order of their labels. A split disturbs none of the sides that still wait, for it brings in
new labels and unmarked halves. So the run makes one application for each marked side, and its result does
not depend on the order in which they come.
-/

namespace Hypermesh

open Rules
open scoped List

namespace Rules

/-- A marked side that is to be split between its ends. -/
structure Halving where
  side : Hyperedge
  a : Node
  b : Node
  deriving DecidableEq

namespace Halving

/-- The midpoint hangs unless the side is on the boundary. -/
def middle (c : Halving) : Node := Rules.middle (fun side => !side.onBoundary) c.side c.a c.b

def halves (c : Halving) : List Hyperedge := Hypergraph.halfEdges c.side c.a c.middle c.b

/-- The labels that come in. -/
def labels (c : Halving) : List Label := c.middle.label :: c.halves.map Hyperedge.label

end Halving

end Rules

namespace Hypergraph

variable {g h f : Hypergraph} {c : Halving} {cs : List Halving} {rest : List Hyperedge} {e side : Hyperedge}
  {k l t : Label} {m : Embedding} {s : Settings}

/-! ### The marked sides of a host -/

def markedSides (g : Hypergraph) : List Hyperedge :=
  g.hyperedges.values.filter fun e => e.tag = sideTag ∧ e.mark = 1

def halvingBetween? (g : Hypergraph) (side : Hyperedge) (k l : Label) : Option Halving :=
  (g.node? k).bind fun a => (g.node? l).map fun b => ⟨side, a, b⟩

/-- The nodes stored for the two members of a side, the smaller label first. -/
def halving? (g : Hypergraph) (side : Hyperedge) : Option Halving :=
  match side.memberLabels with
  | [k, l] => if k ≤ l then g.halvingBetween? side k l else g.halvingBetween? side l k
  | _ => none

def halvings (g : Hypergraph) : List Halving := g.markedSides.filterMap g.halving?

end Hypergraph

/-- The side is marked and joins the two ends, which are as the host stores them. -/
structure Rules.Halving.Of (c : Halving) (g : Hypergraph) : Prop where
  tag : c.side.tag = sideTag
  mark : c.side.mark = 1
  joins : c.side.Joins c.a.label c.b.label
  lt : c.a.label < c.b.label
  first : g.node? c.a.label = some c.a
  second : g.node? c.b.label = some c.b

namespace Hypergraph

variable {g h f : Hypergraph} {c : Halving} {cs : List Halving} {rest : List Hyperedge} {e side : Hyperedge}
  {k l t : Label} {m : Embedding} {s : Settings}

theorem mem_markedSides : e ∈ g.markedSides ↔ e ∈ g.hyperedges.values ∧ e.tag = sideTag ∧ e.mark = 1 := by
  rw [markedSides, List.mem_filter, decide_eq_true_eq]

theorem exists_halvingBetween (w : g.WellFormed) (mem : e ∈ g.markedSides) (joins : e.Joins k l)
    (lt : k < l) : ∃ c, g.halvingBetween? e k l = some c ∧ c.side = e ∧ c.Of g := by
  obtain ⟨stored, tag, mark⟩ := mem_markedSides.1 mem
  have known {t : Label} (member : t ∈ e.memberLabels) : ∃ n, g.node? t = some n ∧ n.label = t := by
    obtain ⟨n, found, -⟩ := w.member e.label t ⟨e, w.mem_values_iff.1 stored, member⟩
    exact ⟨n, found, w.node_label t n found⟩
  obtain ⟨a, first, rfl⟩ := known (joins.mem_iff.2 (Or.inl rfl))
  obtain ⟨b, second, rfl⟩ := known (joins.mem_iff.2 (Or.inr rfl))
  exact ⟨⟨e, a, b⟩, by simp [halvingBetween?, first, second], rfl, tag, mark, joins, lt, first, second⟩

theorem exists_halving (w : g.WellFormed) (mem : e ∈ g.markedSides)
    (two : e.memberLabels.length = 2 ∧ e.memberLabels.Nodup) :
    ∃ c, g.halving? e = some c ∧ c.side = e ∧ c.Of g := by
  obtain ⟨k, l, ends⟩ := List.length_eq_two.1 two.1
  have ne : k ≠ l := by simpa [ends] using two.2
  rw [halving?, ends]
  by_cases le : k ≤ l
  · simp only [if_pos le]
    have lt : k < l := String.not_le.1 fun ge => ne (String.le_antisymm le ge)
    exact exists_halvingBetween w mem (Or.inl ends) lt
  · simp only [if_neg le]
    exact exists_halvingBetween w mem (Or.inr ends) (String.not_le.1 le)

/-- One halving for each of some marked sides. -/
theorem halvings_of_ends {es : List Hyperedge} (w : g.WellFormed) (marked : ∀ e ∈ es, e ∈ g.markedSides)
    (two : ∀ e ∈ es, e.memberLabels.length = 2 ∧ e.memberLabels.Nodup) :
    (es.filterMap g.halving?).map Halving.side = es ∧ ∀ c ∈ es.filterMap g.halving?, c.Of g := by
  have exists_each (e : Hyperedge) (mem : e ∈ es) := exists_halving w (marked e mem) (two e mem)
  constructor
  · rw [List.map_filterMap]
    calc
      _ = es.filterMap some := by
        apply List.filterMap_congr
        intro e mem
        obtain ⟨c, eq, rfl, -⟩ := exists_each e mem
        rw [eq, Option.map_some]
      _ = es := List.filterMap_some
  · intro c mem
    obtain ⟨e, mem, eq⟩ := List.mem_filterMap.1 mem
    obtain ⟨c', eq', -, of⟩ := exists_each e mem
    cases eq.symm.trans eq'
    exact of

/-! ### Matches -/

/-- A marked side matches, with its ends in either order. -/
theorem exists_embedding_side (c : g.Coherent) (w : g.WellFormed) (stored : side ∈ g.hyperedges.values)
    (tag : side.tag = sideTag) (mark : side.mark = 1) (joins : side.Joins k l) (ne : k ≠ l) :
    ∃ m ∈ splitSide.leftSide.embeddings g, m.find? (corner 0) = some k ∧ m.find? (corner 1) = some l ∧
      m.find? sideKey = some side.label := by
  have ends : ∀ k ∈ splitSide.leftSide.nodes.keys, k = corner 0 ∨ k = corner 1 := by decide +kernel
  have only : ∀ e ∈ splitSide.leftSide.hyperedges.values, e.label = sideKey ∧
      e.tag = sideTag ∧ e.mark = 1 ∧ e.memberLabels = [corner 0, corner 1] := by decide +kernel
  have shape : corner 0 ∈ splitSide.leftSide.nodes ∧ corner 1 ∈ splitSide.leftSide.nodes ∧
      sideKey ∈ splitSide.leftSide.hyperedges.values.map Hyperedge.label := by decide +kernel
  obtain ⟨node, node', edge⟩ := shape
  let f (key : Label) : Label := if key = corner 0 then k else l
  have first : f (corner 0) = k := rfl
  have second : f (corner 1) = l := rfl
  have known {t : Label} (member : t ∈ side.memberLabels) : t ∈ g.nodes :=
    w.mem_nodes ⟨side, w.mem_values_iff.1 stored, member⟩
  have lays : splitSide.leftSide.Lays g f fun _ => side := by
    refine ⟨fun t mem => ?_, fun t mem t' mem' same => ?_, fun _ _ => stored, fun e mem => ?_⟩
    · rcases ends t mem with rfl | rfl
      · exact known (joins.mem_iff.2 (Or.inl first))
      · exact known (joins.mem_iff.2 (Or.inr second))
    · rcases ends t mem with rfl | rfl <;> rcases ends t' mem' with rfl | rfl
      · rfl
      · exact absurd same ne
      · exact absurd same.symm ne
      · rfl
    · obtain ⟨-, tag', mark', spans⟩ := only e mem
      refine ⟨tag.trans tag'.symm, mark.trans mark'.symm, fun t mem => ?_⟩
      rw [joins.mem_iff, spans, List.mem_pair]
      refine iff_of_true ((ends t mem).imp ?_ ?_) (ends t mem) <;> rintro rfl
      · exact first
      · exact second
  obtain ⟨m, mem, nodes, edges⟩ := exists_embedding reachable_splitSide.coherent
    (grows_splitSide.wellFormed (by decide +kernel)) c w (by decide +kernel) (by decide +kernel) lays
  obtain ⟨e, mem', label⟩ := List.mem_map.1 edge
  exact ⟨m, mem, nodes _ node, nodes _ node', label ▸ edges e mem'⟩

theorem values_embedding_side (c : g.Coherent) (mem : m ∈ splitSide.leftSide.embeddings g)
    (first : m.find? (corner 0) = some k) (second : m.find? (corner 1) = some l)
    (third : m.find? sideKey = some t) : m.values = [k, l, t] := by
  have keys : m.keys = [corner 0, corner 1, sideKey] := by
    rw [((mem_embeddings reachable_splitSide.coherent c).1 mem).2.keys]
    decide +kernel
  rw [Table.values_eq_filterMap, keys]
  simp [first, second, third]

end Hypergraph

/-! ### One split -/

/-- A rule that puts the two halves in the place of a marked side if it takes it, and refuses it if not. -/
structure Rules.Halver (P : Production) (takes : Hyperedge → Bool) : Prop where
  left : P.leftSide = splitSide.leftSide
  right : ∃ hanging, (∀ region index, P.right region index = Rules.halves hanging region) ∧
    ∀ side, takes side = true → hanging side = !side.onBoundary
  accepts : ∀ region side, region.hyperedge? sideKey = some side → P.accepts region = takes side

namespace Rules

variable {P : Production} {takes : Hyperedge → Bool}

theorem halver_splitSide : Halver splitSide fun _ => true :=
  ⟨rfl, ⟨_, fun _ _ => rfl, fun _ _ => rfl⟩, fun _ _ _ => rfl⟩

/-- A side on the boundary has a midpoint that does not hang, by either rule. -/
theorem halver_splitBoundarySide : Halver splitBoundarySide Hyperedge.onBoundary where
  left := rfl
  right := ⟨fun _ => false, fun _ _ => rfl, fun side outer => by rw [outer]; rfl⟩
  accepts region side found := by simp [splitBoundarySide, found]

theorem Halver.coherent (halver : Halver P takes) : P.leftSide.Coherent :=
  halver.left ▸ reachable_splitSide.coherent

theorem Halver.blind (halver : Halver P takes) : P.IndexBlind := by
  intro region i j
  obtain ⟨hanging, right, -⟩ := halver.right
  simp only [Production.rightSide, right]

end Rules

/-- The ends of a side stay what they are as long as nodes stay. -/
theorem Rules.Halving.Of.stays {g h : Hypergraph} {c : Halving} (waits : c.Of g) (w : g.WellFormed)
    (w' : h.WellFormed) (nodes : g.nodes.values ⊆ h.nodes.values) : c.Of h := by
  have kept {n : Node} (found : g.node? n.label = some n) : h.node? n.label = some n :=
    w'.mem_node_values_iff.1 (nodes (w.mem_node_values_iff.2 found))
  exact ⟨waits.tag, waits.mark, waits.joins, waits.lt, kept waits.first, kept waits.second⟩

theorem Rules.Halving.unmarked (c : Halving) {e : Hyperedge} (half : e ∈ c.halves) : e.mark ≠ 1 := by
  rcases Hypergraph.mem_halfEdges.1 half with rfl | rfl <;> exact UInt8.zero_ne_one

namespace Hypergraph

variable {g h f : Hypergraph} {c : Halving} {cs : List Halving} {rest : List Hyperedge} {e side : Hyperedge}
  {k l t : Label} {m : Embedding} {s : Settings} {P : Production} {takes : Hyperedge → Bool}

/-- The sides `cs` are those that are marked and taken. They wait to be split, whatever the rest is. -/
structure Pending (takes : Hyperedge → Bool) (g : Hypergraph) (cs : List Halving) (rest : List Hyperedge) :
    Prop where
  coherent : g.Coherent
  wellFormed : g.WellFormed
  values : g.hyperedges.values ~ cs.map Halving.side ++ rest
  each : ∀ c ∈ cs, c.Of g
  taken : ∀ c ∈ cs, takes c.side = true
  others : ∀ e ∈ rest, e.tag = sideTag → e.mark = 1 → takes e = false

namespace Pending

variable (pending : Pending takes g cs rest)
include pending

theorem stored (mem : c ∈ cs) : c.side ∈ g.hyperedges.values :=
  pending.values.mem_iff.2 (List.mem_append_left _ (List.mem_map_of_mem mem))

theorem exists_side (stored : e ∈ g.hyperedges.values) (tag : e.tag = sideTag) (mark : e.mark = 1)
    (taken : takes e = true) : ∃ c ∈ cs, c.side = e := by
  rcases List.mem_append.1 (pending.values.mem_iff.1 stored) with mem | mem
  · exact List.mem_map.1 mem
  · exact absurd taken (Bool.eq_false_iff.1 (pending.others e mem tag mark))

/-- A match of a side that waits is not refused. -/
theorem not_refuses (halver : Halver P takes) (mem : c ∈ cs) (found : m ∈ P.leftSide.embeddings g)
    (image : m.find? sideKey = some c.side.label) : ¬ P.Refuses s P.leftSide g m := by
  rintro ⟨-, region, eq, refused⟩
  obtain ⟨hanging, right, -⟩ := halver.right
  obtain ⟨side, a, b, x⟩ := exists_showsSide halver.left right pending.coherent pending.wellFormed found eq 0
  obtain ⟨-, t, image', source⟩ := edge_of_region halver.coherent eq x.found
  cases image.symm.trans image'
  cases (pending.wellFormed.mem_values_iff.1 (pending.stored mem)).symm.trans source
  rw [halver.accepts region c.side x.found, pending.taken c mem] at refused
  cases refused

/-- With none left to take, all matches are refused. -/
theorem rests (halver : Halver P takes) (asked : ∀ e, takes e = false → s.consultAcceptance = true)
    (none_left : cs = []) : P.Rests s g := by
  intro m mem
  obtain ⟨hanging, right, -⟩ := halver.right
  obtain ⟨region, eq⟩ := exists_region halver.coherent pending.coherent mem
  obtain ⟨side, a, b, x⟩ := exists_showsSide halver.left right pending.coherent pending.wellFormed mem eq 0
  have refused : takes side = false := by
    apply Bool.eq_false_iff.2
    intro taken
    obtain ⟨c, listed, -⟩ := pending.exists_side x.stored x.tag x.mark taken
    rw [none_left] at listed
    cases listed
  exact ⟨asked side refused, region, eq, (halver.accepts region side x.found).trans refused⟩

/-- What is split first is one of the sides that wait, between its ends in their order. -/
theorem exists_first (halver : Halver P takes) (asked : ∀ e, takes e = false → s.consultAcceptance = true)
    (nonempty : cs ≠ []) :
    ∃ m region, ∃ c ∈ cs, m ∈ P.leftSide.embeddings g ∧ P.leftSide.region g m = .ok region ∧
      P.Applies s g (g.replace P.leftSide m (P.rightSide region 0)) ∧
      region.hyperedges.values ~ [c.side] ∧ P.rightSide region 0 = assemble [] c.middle c.halves := by
  have p := halver.coherent
  have w := pending.wellFormed
  obtain ⟨hanging, right, same_hanging⟩ := halver.right
  have matches_ends {c : Halving} (mem : c ∈ cs) {k l : Label} (joins : c.side.Joins k l) (ne : k ≠ l) :
      ∃ m ∈ P.leftSide.embeddings g, m.values = [k, l, c.side.label] ∧ ¬ P.Refuses s P.leftSide g m := by
    have waits := pending.each c mem
    obtain ⟨m, found, first, second, third⟩ := exists_embedding_side pending.coherent w
      (pending.stored mem) waits.tag waits.mark joins ne
    exact ⟨m, halver.left ▸ found, values_embedding_side pending.coherent found first second third,
      pending.not_refuses halver mem (halver.left ▸ found) third⟩
  obtain ⟨c₀, known⟩ := List.exists_mem_of_ne_nil cs nonempty
  have waits₀ := pending.each c₀ known
  obtain ⟨m₀, found, -, taken₀⟩ := matches_ends known waits₀.joins (String.ne_of_lt waits₀.lt)
  obtain ⟨m, region, selects⟩ :=
    (P.rests_or_selects s p pending.coherent).resolve_left fun rests => taken₀ (rests m₀ found)
  obtain ⟨mem, admits, least⟩ := (Production.selected_iff p pending.coherent).1 selects
  have eq := admits.found
  obtain ⟨side, a, b, x⟩ := exists_showsSide halver.left right pending.coherent w mem eq 0
  have taken : takes side = true := by
    rw [← Bool.not_eq_false]
    intro refused
    have accepted := admits.accepted (asked side refused)
    rw [halver.accepts region side x.found, refused] at accepted
    cases accepted
  obtain ⟨c, mem', rfl⟩ := pending.exists_side x.stored x.tag x.mark taken
  have waits := pending.each c mem'
  have joins := waits.joins.of_ne x.member x.member' x.ne
  obtain ⟨image, first⟩ := node?_of_region w eq x.shown
  obtain ⟨image', second⟩ := node?_of_region w eq x.shown'
  -- The match with the ends the other way round is not refused either, so it does not come before this one.
  have order : ¬ b.label < a.label := by
    intro lt
    obtain ⟨-, t, image'', -⟩ := edge_of_region p eq x.found
    obtain ⟨m', other, values, taken'⟩ := matches_ends mem' joins.symm x.ne.symm
    apply taken' (least m' other _)
    rw [values, values_embedding_side pending.coherent (halver.left ▸ mem) image image' image'']
    exact List.cons_lt_cons_iff.2 (Or.inl lt)
  obtain ⟨same, same'⟩ : a.label = c.a.label ∧ b.label = c.b.label := by
    refine (joins.eq_or_eq waits.joins).resolve_right ?_
    rintro ⟨same, same'⟩
    exact order (same ▸ same' ▸ waits.lt)
  obtain rfl : a = c.a := Option.some.inj (first.symm.trans (same ▸ waits.first))
  obtain rfl : b = c.b := Option.some.inj (second.symm.trans (same' ▸ waits.second))
  have middles : middle hanging c.side c.a c.b = c.middle := by
    rw [Halving.middle, middle, middle, same_hanging c.side taken]
  refine ⟨m, region, c, mem', mem, eq, selects.applies, x.values, ?_⟩
  rw [x.written, middles]
  rfl

/-- A split leaves the other sides waiting, and adds its halves to the rest. -/
theorem exchange (mem : c ∈ cs) (x : Exchanged c.side c.middle c.halves g h) :
    Pending takes h (cs.erase c) (c.halves ++ rest) := by
  refine ⟨x.coherent, x.wellFormed, ?values, ?each, fun c' mem' => ?taken, ?others⟩
  case values =>
    have split : cs.map Halving.side ~ c.side :: (cs.erase c).map Halving.side :=
      (List.perm_cons_erase mem).map Halving.side
    apply List.Perm.cons_inv
    calc
      c.side :: h.hyperedges.values ~ c.halves ++ g.hyperedges.values := x.hyperedges
      _ ~ c.halves ++ (c.side :: (cs.erase c).map Halving.side ++ rest) :=
        (pending.values.trans (split.append_right rest)).append_left _
      _ ~ c.side :: (c.halves ++ ((cs.erase c).map Halving.side ++ rest)) := List.perm_middle
      _ ~ c.side :: ((cs.erase c).map Halving.side ++ (c.halves ++ rest)) :=
        (List.perm_append_comm_assoc ..).cons c.side
  case each =>
    intro c' mem'
    exact (pending.each c' (List.mem_of_mem_erase mem')).stays pending.wellFormed x.wellFormed fun n stored =>
      x.nodes.mem_iff.2 (List.mem_cons_of_mem _ stored)
  case taken => exact pending.taken c' (List.mem_of_mem_erase mem')
  case others =>
    intro e mem' tag mark
    rcases List.mem_append.1 mem' with mem' | mem'
    · exact absurd mark (c.unmarked mem')
    · exact pending.others e mem' tag mark

theorem step (halver : Halver P takes) (asked : ∀ e, takes e = false → s.consultAcceptance = true)
    (nonempty : cs ≠ []) (supplies : ∀ c ∈ cs, g.Supplies c.middle c.halves) :
    ∃ h, ∃ c ∈ cs, P.Applies s g h ∧ Exchanged c.side c.middle c.halves g h := by
  obtain ⟨m, region, c, mem, found, eq, applies, values, written⟩ :=
    pending.exists_first halver asked nonempty
  refine ⟨_, c, mem, applies, ?_⟩
  rw [written]
  exact exchanged_replace halver.coherent pending.coherent pending.wellFormed found eq values (supplies c mem)

end Pending

/-- The sides `cs` are split, and the rest stays. -/
structure Split (cs : List Halving) (rest : List Hyperedge) (g f : Hypergraph) : Prop where
  coherent : f.Coherent
  wellFormed : f.WellFormed
  nodes : f.nodes.values ~ cs.map Halving.middle ++ g.nodes.values
  hyperedges : f.hyperedges.values ~ cs.flatMap Halving.halves ++ rest

theorem Split.cons (x : Exchanged c.side c.middle c.halves g h) (mem : c ∈ cs)
    (split : Split (cs.erase c) (c.halves ++ rest) h f) : Split cs rest g f where
  coherent := split.coherent
  wellFormed := split.wellFormed
  nodes := calc
    f.nodes.values ~ (cs.erase c).map Halving.middle ++ (c.middle :: g.nodes.values) :=
      split.nodes.trans (x.nodes.append_left _)
    _ ~ c.middle :: (cs.erase c).map Halving.middle ++ g.nodes.values := List.perm_middle
    _ ~ cs.map Halving.middle ++ g.nodes.values :=
      ((List.perm_cons_erase mem).symm.map Halving.middle).append_right _
  hyperedges := calc
    f.hyperedges.values ~ (cs.erase c).flatMap Halving.halves ++ (c.halves ++ rest) := split.hyperedges
    _ ~ c.halves ++ ((cs.erase c).flatMap Halving.halves ++ rest) := List.perm_append_comm_assoc ..
    _ = (c :: cs.erase c).flatMap Halving.halves ++ rest := by rw [List.flatMap_cons, List.append_assoc]
    _ ~ cs.flatMap Halving.halves ++ rest :=
      ((List.perm_cons_erase mem).symm.flatMap_right Halving.halves).append_right rest

/-- The run splits all sides that wait, as long as it is known after each split that what comes in next is
new. -/
theorem Pending.ends {I : Hypergraph → List Halving → Prop} (halver : Halver P takes)
    (asked : ∀ e, takes e = false → s.consultAcceptance = true)
    (supplies : ∀ g cs, I g cs → ∀ c ∈ cs, c.Of g → c.side ∈ g.hyperedges.values →
      g.Supplies c.middle c.halves)
    (keeps : ∀ g h cs, I g cs → ∀ c ∈ cs, c.Of g → Exchanged c.side c.middle c.halves g h →
      I h (cs.erase c))
    (pending : Pending takes g cs rest) (holds : I g cs) :
    ∃ f, P.Ends s g cs.length f ∧ Split cs rest g f ∧ I f [] := by
  induction count : cs.length generalizing g cs rest with
  | zero =>
    cases List.length_eq_zero_iff.1 count
    exact ⟨g, .rests (pending.rests halver asked rfl),
      ⟨pending.coherent, pending.wellFormed, .refl _, pending.values⟩, holds⟩
  | succ n ih =>
    obtain ⟨h, c, mem, applies, x⟩ := pending.step halver asked (List.ne_nil_of_length_eq_add_one count)
      fun c mem => supplies g cs holds c mem (pending.each c mem) (pending.stored mem)
    have fewer : (cs.erase c).length = n := by
      rw [List.length_erase_of_mem mem, count, Nat.add_sub_cancel]
    obtain ⟨f, ends, split, last⟩ :=
      ih (pending.exchange mem x) (keeps g h cs holds c mem (pending.each c mem) x) fewer
    exact ⟨f, .applies applies ends, split.cons x mem, last⟩

/-- The sides `cs` are those that are marked. They wait to be split, whatever the rest is. -/
structure Awaits (g : Hypergraph) (cs : List Halving) (rest : List Hyperedge) : Prop where
  coherent : g.Coherent
  wellFormed : g.WellFormed
  values : g.hyperedges.values ~ cs.map Halving.side ++ rest
  each : ∀ c ∈ cs, c.Of g
  others : ∀ e ∈ rest, e.tag = sideTag → e.mark ≠ 1

theorem Awaits.pending (awaits : g.Awaits cs rest) : Pending (fun _ => true) g cs rest :=
  ⟨awaits.coherent, awaits.wellFormed, awaits.values, awaits.each, fun _ _ => rfl,
    fun e mem tag mark => absurd mark (awaits.others e mem tag)⟩

theorem Awaits.ends {I : Hypergraph → List Halving → Prop}
    (supplies : ∀ g cs, I g cs → ∀ c ∈ cs, c.Of g → c.side ∈ g.hyperedges.values →
      g.Supplies c.middle c.halves)
    (keeps : ∀ g h cs, I g cs → ∀ c ∈ cs, c.Of g → Exchanged c.side c.middle c.halves g h →
      I h (cs.erase c))
    (awaits : g.Awaits cs rest) (holds : I g cs) (s : Settings) :
    ∃ f, splitSide.Ends s g cs.length f ∧ Split cs rest g f ∧ I f [] := by
  exact awaits.pending.ends halver_splitSide (fun _ => nofun) supplies keeps holds

/-! ### All splits -/

/-- What comes in has labels of its own, which are not in use. -/
structure Novel (g : Hypergraph) (cs : List Halving) : Prop where
  nodup : (cs.flatMap Halving.labels).Nodup
  fresh : ∀ l ∈ cs.flatMap Halving.labels, ¬ l ∈ g

theorem Novel.supplies (novel : g.Novel cs) (mem : c ∈ cs) (waits : c.Of g) :
    g.Supplies c.middle c.halves := by
  have own : c.labels.Nodup := (List.nodup_flatMap.1 novel.nodup).1 c mem
  obtain ⟨apart, nodup⟩ := List.nodup_cons.1 own
  have fresh (l : Label) (mem' : l ∈ c.labels) : ¬ l ∈ g :=
    novel.fresh l (List.mem_flatMap.2 ⟨c, mem, mem'⟩)
  refine ⟨fresh _ List.mem_cons_self, fun e mem' => ?_, fun e mem' same => ?_, nodup, fun e mem' => ?_⟩
  · exact fresh _ (List.mem_cons_of_mem _ (List.mem_map_of_mem mem'))
  · exact apart (same ▸ List.mem_map_of_mem mem')
  · have first : c.a.label ∈ g.nodes := mem_nodes_iff.2 ⟨_, waits.first⟩
    have second : c.b.label ∈ g.nodes := mem_nodes_iff.2 ⟨_, waits.second⟩
    rcases mem_halfEdges.1 mem' with rfl | rfl <;> simp [first, second]

/-- A split uses up none of the labels of the others. -/
theorem Novel.exchange (novel : g.Novel cs) (c' : g.Coherent) (w : g.WellFormed) (mem : c ∈ cs)
    (x : Exchanged c.side c.middle c.halves g h) : h.Novel (cs.erase c) := by
  have split : cs.flatMap Halving.labels ~ c.labels ++ (cs.erase c).flatMap Halving.labels :=
    (List.perm_cons_erase mem).flatMap_right Halving.labels
  obtain ⟨-, nodup, apart⟩ := List.nodup_append'.1 (split.nodup_iff.1 novel.nodup)
  refine ⟨nodup, fun l mem' stored => ?_⟩
  have fresh : ¬ l ∈ g := novel.fresh l (split.mem_iff.2 (List.mem_append_right _ mem'))
  exact apart ((x.new_iff w c').1 ⟨stored, fresh⟩) mem'

/-- A half over a new midpoint is one of the two that come in with it. -/
theorem Novel.eq_of_member {c' : Halving} (novel : g.Novel cs) (mem : c ∈ cs) (mem' : c' ∈ cs)
    (coherent : g.Coherent) (waits : c'.Of g) (half : e ∈ c'.halves)
    (member : c.middle.label ∈ e.memberLabels) : c' = c := by
  have fresh : ¬ c.middle.label ∈ g.nodes := fun stored =>
    novel.fresh _ (List.mem_flatMap.2 ⟨c, mem, List.mem_cons_self⟩) ((coherent.mem_iff _).2 (Or.inl stored))
  have same : c.middle.label = c'.middle.label := by
    have known {n : Node} (found : g.node? n.label = some n) : c.middle.label ≠ n.label := fun eq =>
      fresh (eq ▸ mem_nodes_iff.2 ⟨n, found⟩)
    rcases mem_halfEdges.1 half with rfl | rfl
    · simpa [known waits.first] using member
    · simpa [known waits.second] using member
  have once : (cs.map fun c => c.middle.label).Nodup := by
    rw [List.map_eq_flatMap]
    exact novel.nodup.sublist (.flatMap_right cs fun c _ => List.singleton_sublist.2 List.mem_cons_self)
  exact (List.inj_on_of_nodup_map once mem mem' same).symm

/-- A midpoint is linked to the two halves that meet in it, and to nothing else. -/
theorem Split.incident (split : Split cs rest g f) (coherent : g.Coherent) (w : g.WellFormed)
    (novel : g.Novel cs) (each : ∀ c ∈ cs, c.Of g) (old : rest ⊆ g.hyperedges.values) (mem : c ∈ cs) :
    l ∈ f.neighbours c.middle.label ↔ l ∈ c.halves.map Hyperedge.label := by
  have node : c.middle.label ∈ f.nodes := by
    have comes : c.middle ∈ f.nodes.values :=
      split.nodes.mem_iff.2 (List.mem_append_left _ (List.mem_map_of_mem mem))
    exact mem_nodes_iff.2 ⟨_, split.wellFormed.mem_node_values_iff.1 comes⟩
  have lists_none : ¬ f.Lists c.middle.label l := fun lists =>
    split.wellFormed.unambiguous _ node lists.stored
  rw [split.wellFormed.incident, or_iff_right lists_none, List.mem_map]
  constructor
  · rintro ⟨e, found, member⟩
    have label := split.wellFormed.hyperedge_label l e found
    have stored := split.wellFormed.mem_values_iff.2 (label.symm ▸ found)
    rcases List.mem_append.1 (split.hyperedges.mem_iff.1 stored) with comes | stays
    · obtain ⟨c', mem', half⟩ := List.mem_flatMap.1 comes
      obtain rfl := novel.eq_of_member mem mem' coherent (each c' mem') half member
      exact ⟨e, half, label⟩
    · have known := w.mem_nodes ⟨e, w.mem_values_iff.1 (old stays), member⟩
      exact absurd ((coherent.mem_iff _).2 (Or.inl known))
        (novel.fresh _ (List.mem_flatMap.2 ⟨c, mem, List.mem_cons_self⟩))
  · rintro ⟨e, half, rfl⟩
    have stored : e ∈ f.hyperedges.values :=
      split.hyperedges.mem_iff.2 (List.mem_append_left _ (List.mem_flatMap.2 ⟨c, mem, half⟩))
    refine ⟨e, split.wellFormed.mem_values_iff.1 stored, ?_⟩
    rcases mem_halfEdges.1 half with rfl | rfl <;> simp

/-- Every marked side joins two different nodes, and what its halving brings in is new. In particular no
two marked sides join the same nodes. -/
structure Divisible (g : Hypergraph) : Prop where
  ends : ∀ e ∈ g.markedSides, e.memberLabels.length = 2 ∧ e.memberLabels.Nodup
  novel : g.Novel g.halvings

theorem Divisible.each (divisible : g.Divisible) (w : g.WellFormed) :
    g.halvings.map Halving.side = g.markedSides ∧ ∀ c ∈ g.halvings, c.Of g :=
  halvings_of_ends w (fun _ mem => mem) divisible.ends

/-- The hyperedges that are no marked sides. -/
def otherHyperedges (g : Hypergraph) : List Hyperedge :=
  g.hyperedges.values.filter fun e => ¬ (e.tag = sideTag ∧ e.mark = 1)

theorem Divisible.awaits (divisible : g.Divisible) (coherent : g.Coherent) (w : g.WellFormed) :
    g.Awaits g.halvings g.otherHyperedges := by
  obtain ⟨sides, each⟩ := divisible.each w
  refine ⟨coherent, w, ?values, each, ?others⟩
  case values =>
    rw [sides, markedSides, otherHyperedges]
    simpa only [decide_not] using (List.filter_append_perm _ g.hyperedges.values).symm
  case others =>
    intro e mem tag mark
    exact of_decide_eq_true (List.mem_filter.1 mem).2 ⟨tag, mark⟩

end Hypergraph

namespace Rules

open Hypermesh.Hypergraph

/-- A run makes one application for each marked side, and puts the two halves and their midpoint in its
place. The rest stays as it is, and the next run makes no application. -/
theorem run_halves_marked_sides (s : Settings) (uncapped : s.maxApplications = none) (host : Hypergraph)
    (reachable : host.Reachable) (w : host.WellFormed) (divisible : host.Divisible) :
    let cs := host.halvings
    let r := splitSide.run s (host.markedSides.length + 1) host
    (cs.map Halving.side = host.markedSides ∧ ∀ c ∈ cs, c.Of host) ∧
      r.halt = some .exhausted ∧ r.applications = host.markedSides.length ∧ r.host.WellFormed ∧
      r.host.nodes.values ~ cs.map Halving.middle ++ host.nodes.values ∧
      r.host.hyperedges.values ~ cs.flatMap Halving.halves ++ host.otherHyperedges ∧
      (∀ c ∈ cs, ∀ l, l ∈ r.host.neighbours c.middle.label ↔ l ∈ c.halves.map Hyperedge.label) ∧
      ∀ rounds, let again := splitSide.run s (rounds + 1) r.host
        again.applications = 0 ∧ again.halt = some .exhausted ∧ again.host = r.host := by
  have coherent := reachable.coherent
  obtain ⟨sides, each⟩ := divisible.each w
  have count : host.halvings.length = host.markedSides.length := by rw [← sides, List.length_map]
  obtain ⟨f, ends, split, -⟩ := (divisible.awaits coherent w).ends
    (I := fun g cs => g.Coherent ∧ g.WellFormed ∧ g.Novel cs)
    (fun g cs holds c mem waits _ => holds.2.2.supplies mem waits)
    (fun g h cs holds c mem _ x => ⟨x.coherent, x.wellFormed, holds.2.2.exchange holds.1 holds.2.1 mem x⟩)
    ⟨coherent, w, divisible.novel⟩ s
  have blind : splitSide.IndexBlind := fun _ _ _ => rfl
  obtain ⟨trace, eq⟩ := Production.runFrom_of_ends uncapped blind ends 0
  rw [count] at eq
  have last : (splitSide.run s (host.markedSides.length + 1) host).host = f := congrArg Run.host eq
  refine ⟨⟨sides, each⟩, (congrArg Run.halt eq :), ?_, ?_⟩
  · exact (congrArg Run.applications eq :).trans (Nat.zero_add _)
  · simp only [last]
    refine ⟨split.wellFormed, split.nodes, split.hyperedges, fun c mem l => ?_, fun rounds => ?_⟩
    · exact split.incident coherent w divisible.novel each (List.filter_subset_self _) mem
    · obtain ⟨trace, eq⟩ := ends.last.exhausts uncapped blind (rounds + 1) (Nat.succ_pos rounds)
      rw [eq]
      exact ⟨rfl, rfl, rfl⟩

/-- Two marked sides that meet, one of them on the boundary, and a side that is not marked. -/
def markedCorner : Hypergraph :=
  let node (label : Label) : Node := { x := .zero, y := .zero, label }
  Operation.build
    [.addHyperedge ((Hyperedge.side (node "b") (node "a")).withMark 1) false,
      .addHyperedge (((Hyperedge.side (node "b") (node "c")).withMark 1).withBoundary true) false,
      .addHyperedge (.side (node "c") (node "a")) false]

theorem run_halves_marked_sides_corner :
    let host := markedCorner
    let r := splitSide.run {} 3 host
    host.Reachable ∧ host.WellFormed ∧ host.Divisible ∧ r.halt = some .exhausted ∧ r.applications = 2 ∧
      r.host.nodes.values.map (fun n => (n.label, n.hanging)) ~ [("mid(a|b)", true), ("mid(b|c)", false),
        ("b", false), ("a", false), ("c", false)] ∧
      r.host.hyperedges.values.map (fun e => (e.label, e.attributes.boundary)) ~
        [("E_a_mid(a|b)", none), ("E_mid(a|b)_b", none), ("E_b_mid(b|c)", some true),
          ("E_mid(b|c)_c", some true), ("E_c_a", none)] ∧
      (∀ l, l ∈ r.host.neighbours "mid(b|c)" ↔ l = "E_b_mid(b|c)" ∨ l = "E_mid(b|c)_c") ∧
      (splitSide.run {} 1 r.host).applications = 0 := by
  intro host r
  have w : host.WellFormed := .build _ (by decide +kernel)
  have divisible : host.Divisible := ⟨by decide +kernel, by decide +kernel, by decide +kernel⟩
  have two : host.markedSides.length = 2 := by decide +kernel
  have run := run_halves_marked_sides {} rfl host (.build _) w divisible
  simp only [two] at run
  obtain ⟨-, halt, count, -, nodes, hyperedges, incident, again⟩ := run
  refine ⟨.build _, w, divisible, halt, count, ?_, ?_, fun l => ?_, (again 0).1⟩
  · exact (nodes.map _).trans (.of_eq (by decide +kernel))
  · exact (hyperedges.map _).trans (.of_eq (by decide +kernel))
  · obtain ⟨c, mem, label, halves⟩ : ∃ c ∈ host.halvings, c.middle.label = "mid(b|c)" ∧
        c.halves.map Hyperedge.label = ["E_b_mid(b|c)", "E_mid(b|c)_c"] := by decide +kernel
    have links := incident c mem l
    rw [label, halves] at links
    simpa using links

end Rules

end Hypermesh
