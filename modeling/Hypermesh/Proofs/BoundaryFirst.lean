import Hypermesh.Proofs.Halving
import Hypermesh.Proofs.OrderIndependence

/-!
Splitting the sides on the boundary before the others. The rule for the boundary takes some of the marked
sides, passes over the others even where they match first, and puts the same halves in their place as the
rule for all sides. So it does not matter whether it runs first.
-/

namespace Hypermesh

open Rules
open scoped List

namespace Table

universe u

variable {β : Type u}

theorem find?_eq_some_iff_mem_values {t : Table β} {name : β → Label} {key : Label} {value : β}
    (named : ∀ key value, t.find? key = some value → name value = key) :
    t.find? key = some value ↔ value ∈ t.values ∧ name value = key := by
  constructor
  · exact fun eq => ⟨mem_values.2 ⟨key, eq⟩, named key value eq⟩
  · rintro ⟨mem, rfl⟩
    obtain ⟨other, eq⟩ := mem_values.1 mem
    rw [named other value eq, eq]

/-- Tables that file the same values under their names find the same. -/
theorem find?_eq_of_perm {t t' : Table β} {name : β → Label}
    (named : ∀ key value, t.find? key = some value → name value = key)
    (named' : ∀ key value, t'.find? key = some value → name value = key) (perm : t.values ~ t'.values)
    (key : Label) : t.find? key = t'.find? key := by
  ext value
  rw [find?_eq_some_iff_mem_values named, find?_eq_some_iff_mem_values named', perm.mem_iff]

end Table

namespace Hypergraph

variable {g h f f' : Hypergraph} {c : Halving} {cs inner : List Halving} {rest : List Hyperedge}

theorem WellFormed.alike_of_perm (w : g.WellFormed) (w' : h.WellFormed)
    (nodes : g.nodes.values ~ h.nodes.values) (hyperedges : g.hyperedges.values ~ h.hyperedges.values) :
    g.Alike h :=
  w.alike w' (Table.find?_eq_of_perm w.node_label w'.node_label nodes)
    (Table.find?_eq_of_perm w.hyperedge_label w'.hyperedge_label hyperedges)

/-! ### Some of the sides, and then the others -/

/-- What comes in for some sides does not use up the labels of others. -/
structure Reserves (inner : List Halving) (g : Hypergraph) (cs : List Halving) : Prop where
  coherent : g.Coherent
  wellFormed : g.WellFormed
  novel : g.Novel (cs ++ inner)

theorem Reserves.exchange (reserves : Reserves inner g cs) (mem : c ∈ cs)
    (x : Exchanged c.side c.middle c.halves g h) : Reserves inner h (cs.erase c) where
  coherent := x.coherent
  wellFormed := x.wellFormed
  novel := by
    rw [← List.erase_append_left inner mem]
    exact reserves.novel.exchange reserves.coherent reserves.wellFormed (List.mem_append_left inner mem) x

theorem Pending.ends_reserves {P : Production} {takes : Hyperedge → Bool} {s : Settings}
    (pending : Pending takes g cs rest) (halver : Halver P takes)
    (asked : ∀ e, takes e = false → s.consultAcceptance = true) (novel : g.Novel (cs ++ inner)) :
    ∃ f, P.Ends s g cs.length f ∧ Split cs rest g f ∧ f.Novel inner := by
  obtain ⟨f, ends, split, last⟩ := pending.ends (I := Reserves inner) halver asked
    (fun g cs holds c mem waits _ => holds.novel.supplies (List.mem_append_left inner mem) waits)
    (fun g h cs holds c mem _ x => holds.exchange mem x) ⟨pending.coherent, pending.wellFormed, novel⟩
  exact ⟨f, ends, split, last.novel⟩

/-- Where some sides have been split, the others wait as before. -/
theorem Split.pending {takes : Hyperedge → Bool} (split : Split cs (inner.map Halving.side ++ rest) g f)
    (w : g.WellFormed) (each : ∀ c ∈ inner, c.Of g) (taken : ∀ c ∈ inner, takes c.side = true)
    (others : ∀ e ∈ rest, e.tag = sideTag → e.mark = 1 → takes e = false) :
    Pending takes f inner (cs.flatMap Halving.halves ++ rest) := by
  refine ⟨split.coherent, split.wellFormed, ?values, ?each, taken, ?others⟩
  case values => exact split.hyperedges.trans (List.perm_append_comm_assoc ..)
  case each =>
    intro c mem
    exact (each c mem).stays w split.wellFormed fun n stored =>
      split.nodes.mem_iff.2 (List.mem_append_right _ stored)
  case others =>
    intro e mem tag mark
    rcases List.mem_append.1 mem with mem | mem
    · obtain ⟨c, -, half⟩ := List.mem_flatMap.1 mem
      exact absurd mark (c.unmarked half)
    · exact others e mem tag mark

/-- Splitting some sides and then the others comes to the same as splitting all of them. -/
theorem Split.alike {all : List Halving} (first : Split cs (inner.map Halving.side ++ rest) g h)
    (second : Split inner (cs.flatMap Halving.halves ++ rest) h f) (whole : Split all rest g f')
    (perm : cs ++ inner ~ all) : f.Alike f' := by
  apply second.wellFormed.alike_of_perm whole.wellFormed
  · calc
      f.nodes.values ~ inner.map Halving.middle ++ (cs.map Halving.middle ++ g.nodes.values) :=
        second.nodes.trans (first.nodes.append_left _)
      _ ~ (cs ++ inner).map Halving.middle ++ g.nodes.values := by
        rw [List.map_append, List.append_assoc]
        exact List.perm_append_comm_assoc ..
      _ ~ all.map Halving.middle ++ g.nodes.values := (perm.map _).append_right _
      _ ~ f'.nodes.values := whole.nodes.symm
  · calc
      f.hyperedges.values ~ inner.flatMap Halving.halves ++ (cs.flatMap Halving.halves ++ rest) :=
        second.hyperedges
      _ ~ (cs ++ inner).flatMap Halving.halves ++ rest := by
        rw [List.flatMap_append, List.append_assoc]
        exact List.perm_append_comm_assoc ..
      _ ~ all.flatMap Halving.halves ++ rest := (perm.flatMap_right _).append_right _
      _ ~ f'.hyperedges.values := whole.hyperedges.symm

theorem Novel.perm {all : List Halving} (novel : g.Novel cs) (perm : cs ~ all) : g.Novel all where
  nodup := (perm.flatMap_right _).nodup_iff.1 novel.nodup
  fresh l mem := novel.fresh l ((perm.flatMap_right _).mem_iff.2 mem)

/-- What stays is all but the marked sides that are taken. -/
theorem Pending.rest_perm {takes : Hyperedge → Bool} (pending : Pending takes g cs rest) :
    rest ~ g.hyperedges.values.filter fun e => ¬ (e.tag = sideTag ∧ e.mark = 1 ∧ takes e = true) := by
  have gone : (cs.map Halving.side).filter
      (fun e => ¬ (e.tag = sideTag ∧ e.mark = 1 ∧ takes e = true)) = [] := by
    rw [List.filter_eq_nil_iff, List.forall_mem_map]
    intro c mem
    have waits := pending.each c mem
    simp [waits.tag, waits.mark, pending.taken c mem]
  have stays : rest.filter (fun e => ¬ (e.tag = sideTag ∧ e.mark = 1 ∧ takes e = true)) = rest := by
    rw [List.filter_eq_self]
    intro e mem
    rw [decide_eq_true_iff]
    rintro ⟨tag, mark, taken⟩
    exact absurd taken (Bool.eq_false_iff.1 (pending.others e mem tag mark))
  have all := pending.values.filter fun e => ¬ (e.tag = sideTag ∧ e.mark = 1 ∧ takes e = true)
  rw [List.filter_append, gone, List.nil_append, stays] at all
  exact all.symm

/-- The marked sides on the boundary wait where only those are taken. -/
theorem Divisible.pending (divisible : g.Divisible) (coherent : g.Coherent) (w : g.WellFormed) :
    Pending Hyperedge.onBoundary g (g.halvings.filter (·.side.onBoundary))
      ((g.halvings.filter (!·.side.onBoundary)).map Halving.side ++ g.otherHyperedges) := by
  have awaits := divisible.awaits coherent w
  refine ⟨coherent, w, ?values, fun c mem => awaits.each c (List.mem_filter.1 mem).1,
    fun c mem => (List.mem_filter.1 mem).2, ?others⟩
  case values =>
    rw [← List.append_assoc, ← List.map_append]
    exact awaits.values.trans (((List.filter_append_perm _ g.halvings).symm.map _).append_right _)
  case others =>
    intro e mem tag mark
    rcases List.mem_append.1 mem with mem | mem
    · obtain ⟨c, listed, rfl⟩ := List.mem_map.1 mem
      exact Bool.not_eq_eq_eq_not.1 (List.mem_filter.1 listed).2
    · exact absurd mark (awaits.others e mem tag)

end Hypergraph

namespace Rules

open Hypermesh.Hypergraph

/-- Splitting the marked sides on the boundary and then all that are left comes to the same as splitting
all marked sides, and takes as many applications. The first of these runs puts the halves of the marked
sides on the boundary in their place and changes no other hyperedge. -/
theorem boundary_first (asks : Bool) (host : Hypergraph) (reachable : host.Reachable) (w : host.WellFormed)
    (divisible : host.Divisible) :
    let s : Settings := { consultAcceptance := asks }
    let outer := host.halvings.filter (·.side.onBoundary)
    let inner := host.halvings.filter (!·.side.onBoundary)
    (outer.map Halving.side = host.markedSides.filter Hyperedge.onBoundary ∧ ∀ c ∈ outer, c.Of host) ∧
      ∃ first second whole,
        splitBoundarySide.Exhausts {} host outer.length first ∧
        splitSide.Exhausts s first inner.length second ∧
        splitSide.Exhausts s host (outer.length + inner.length) whole ∧ second.Alike whole ∧
        first.WellFormed ∧ first.nodes.values ~ outer.map Halving.middle ++ host.nodes.values ∧
        first.hyperedges.values ~ outer.flatMap Halving.halves ++ host.hyperedges.values.filter fun e =>
          ¬ (e.tag = sideTag ∧ e.mark = 1 ∧ e.onBoundary = true) := by
  intro s outer inner
  have c := reachable.coherent
  obtain ⟨sides, each⟩ := divisible.each w
  have perm : outer ++ inner ~ host.halvings := List.filter_append_perm _ _
  have each_inner : ∀ c ∈ inner, c.Of host := fun c mem => each c (List.mem_filter.1 mem).1
  have all := divisible.awaits c w
  have pending := divisible.pending c w
  have none_asked : ∀ e : Hyperedge, true = false → s.consultAcceptance = true := fun _ => nofun
  -- The two runs that come one after the other.
  have novel : host.Novel (outer ++ inner) := divisible.novel.perm perm.symm
  obtain ⟨first, ends, split, novel'⟩ :=
    pending.ends_reserves (s := {}) halver_splitBoundarySide (fun _ _ => rfl) novel
  have pending' : Pending (fun _ => true) first inner (outer.flatMap Halving.halves ++ host.otherHyperedges) :=
    split.pending w each_inner (fun _ _ => rfl) fun e mem tag mark => absurd mark (all.others e mem tag)
  obtain ⟨second, ends', split', -⟩ :=
    pending'.ends_reserves halver_splitSide none_asked (List.append_nil inner ▸ novel')
  -- The run that takes all sides at once.
  obtain ⟨whole, ends'', split'', -⟩ :=
    all.pending.ends_reserves halver_splitSide none_asked (List.append_nil host.halvings ▸ divisible.novel)
  have count : host.halvings.length = outer.length + inner.length := by
    rw [← perm.length_eq, List.length_append]
  rw [count] at ends''
  refine ⟨⟨?sides, fun c mem => each c (List.mem_filter.1 mem).1⟩, first, second, whole, ?boundary, ?rest,
    ?all, split.alike split' split'' perm, split.wellFormed, split.nodes, ?hyperedges⟩
  case sides => rw [← sides, List.filter_map]; rfl
  case boundary => exact ends.exhausts rfl halver_splitBoundarySide.blind
  case rest => exact ends'.exhausts rfl halver_splitSide.blind
  case all => exact ends''.exhausts rfl halver_splitSide.blind
  case hyperedges => exact split.hyperedges.trans (pending.rest_perm.append_left _)

/-- The side inside matches first. It is passed over and split afterwards. -/
theorem boundary_first_corner :
    let host := markedCorner
    host.Reachable ∧ host.WellFormed ∧ host.Divisible ∧
      ∃ first second whole, splitBoundarySide.Exhausts {} host 1 first ∧
        splitSide.Exhausts {} first 1 second ∧ splitSide.Exhausts {} host 2 whole ∧ second.Alike whole ∧
        first.hyperedges.values.map (fun e => (e.label, e.mark)) ~
          [("E_b_mid(b|c)", 0), ("E_mid(b|c)_c", 0), ("E_b_a", 1), ("E_c_a", 0)] := by
  intro host
  have w : host.WellFormed := .build _ (by decide +kernel)
  have divisible : host.Divisible := ⟨by decide +kernel, by decide +kernel, by decide +kernel⟩
  have one : (host.halvings.filter (·.side.onBoundary)).length = 1 := by decide +kernel
  have other : (host.halvings.filter (!·.side.onBoundary)).length = 1 := by decide +kernel
  have runs := boundary_first true host (.build _) w divisible
  simp only [one, other] at runs
  obtain ⟨-, first, second, whole, boundary, rest, all, alike, -, -, hyperedges⟩ := runs
  refine ⟨.build _, w, divisible, first, second, whole, boundary, rest, all, alike, ?_⟩
  exact (hyperedges.map _).trans (.of_eq (by decide +kernel))

end Rules

end Hypermesh
