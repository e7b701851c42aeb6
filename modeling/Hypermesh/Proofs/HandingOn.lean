import Hypermesh.Proofs.Refining
import Hypermesh.Proofs.Transcript

/-!
The rule that hands the mark of a pentagon on to its sides. Its pattern asks for sides that are not marked
yet, so that a pentagon is passed over once one of its sides has been marked for a neighbour. A run takes
the pentagons in the order in which they are found, and those it takes have no side in common.
-/

namespace Hypermesh

/-! ### Taking what is free -/

section

variable {α β : Type} [DecidableEq β] {parts : α → List β} {taken ts : List β} {a : α} {as : List α}
  {b : β}

/-- None of the parts is taken. -/
def Free (parts : α → List β) (taken : List β) (a : α) : Prop := ∀ b ∈ parts a, ¬ b ∈ taken

instance (parts : α → List β) (taken : List β) (a : α) : Decidable (Free parts taken a) :=
  inferInstanceAs (Decidable (∀ b ∈ parts a, ¬ b ∈ taken))

/-- Takes one after the other, unless some part of it has been taken by then. -/
def pick (parts : α → List β) (taken : List β) : List α → List α
  | [] => []
  | a :: as =>
    if Free parts taken a then a :: pick parts (taken ++ parts a) as else pick parts taken as

omit [DecidableEq β] in
theorem free_append : Free parts (taken ++ ts) a ↔ Free parts taken a ∧ Free parts ts a := by
  simp only [Free, List.mem_append, not_or]
  exact forall₂_and

theorem pick_cons_of_free (free : Free parts taken a) :
    pick parts taken (a :: as) = a :: pick parts (taken ++ parts a) as := if_pos free

theorem pick_cons_of_not_free (used : ¬ Free parts taken a) :
    pick parts taken (a :: as) = pick parts taken as := if_neg used

theorem pick_sublist (taken : List β) (as : List α) : (pick parts taken as).Sublist as := by
  induction as generalizing taken with
  | nil => exact .slnil
  | cons a as ih =>
    by_cases free : Free parts taken a
    · rw [pick_cons_of_free free]
      exact (ih _).cons_cons a
    · rw [pick_cons_of_not_free free]
      exact (ih _).cons a

/-- What is not free may be left out beforehand. -/
theorem pick_filter (ts taken : List β) (as : List α) :
    pick parts taken (as.filter (Free parts ts)) = pick parts (ts ++ taken) as := by
  induction as generalizing taken with
  | nil => rfl
  | cons a as ih =>
    by_cases kept : Free parts ts a
    · rw [List.filter_cons_of_pos (by simpa using kept)]
      by_cases free : Free parts taken a
      · rw [pick_cons_of_free free, pick_cons_of_free (free_append.2 ⟨kept, free⟩), ih, List.append_assoc]
      · rw [pick_cons_of_not_free free, pick_cons_of_not_free fun both => free (free_append.1 both).2, ih]
    · rw [List.filter_cons_of_neg (by simpa using kept),
        pick_cons_of_not_free fun both => kept (free_append.1 both).1, ih]

/-- Nothing is taken twice. -/
theorem nodup_pick (taken : List β) (nodup : ∀ a ∈ as, (parts a).Nodup) (clear : taken.Nodup) :
    (taken ++ (pick parts taken as).flatMap parts).Nodup := by
  induction as generalizing taken with
  | nil => simpa [pick] using clear
  | cons a as ih =>
    obtain ⟨first, rest⟩ := List.forall_mem_cons.1 nodup
    by_cases free : Free parts taken a
    · rw [pick_cons_of_free free, List.flatMap_cons, ← List.append_assoc]
      apply ih _ rest
      exact List.nodup_append.2 ⟨clear, first, fun b mem b' mem' same => free b' mem' (same ▸ mem)⟩
    · rw [pick_cons_of_not_free free]
      exact ih _ rest clear

/-- Whatever is not taken meets something that is. -/
theorem pick_meets (taken : List β) (mem : a ∈ as) (some : parts a ≠ []) :
    ∃ b ∈ parts a, b ∈ taken ++ (pick parts taken as).flatMap parts := by
  induction as generalizing taken with
  | nil => cases mem
  | cons a' as ih =>
    by_cases free : Free parts taken a'
    · rw [pick_cons_of_free free, List.flatMap_cons, ← List.append_assoc]
      rcases List.mem_cons.1 mem with rfl | mem
      · obtain ⟨b, mem⟩ := List.exists_mem_of_ne_nil _ some
        exact ⟨b, mem, List.mem_append_left _ (List.mem_append_right _ mem)⟩
      · exact ih _ mem
    · rw [pick_cons_of_not_free free]
      rcases List.mem_cons.1 mem with rfl | mem
      · simp only [Free, not_forall, not_not] at free
        obtain ⟨b, part, used⟩ := free
        exact ⟨b, part, List.mem_append_left _ used⟩
      · exact ih _ mem

end

namespace Rules

open Hypermesh.Hypergraph
open scoped List

variable {host host' region : Hypergraph} {m : Embedding} {s : Settings} {t : Label}

/-! ### The sides that an embedding selects -/

/-- The keys of the sides of the pentagon. -/
def pentagonSides : List Label :=
  markPentagonSides.leftSide.hyperedges.keys.filter (· ≠ Outline.pentagon.elementKey)

/-- The hyperedges that the sides are sent to. -/
def sidesOf (m : Embedding) : List Label := pentagonSides.filterMap m.find?

theorem kindOf_pentagonSides :
    ∀ key ∈ pentagonSides, markPentagonSides.leftSide.kindOf key = .surrogate sideTag 0 := by decide +kernel

theorem exists_side {key : Label} (mem : key ∈ pentagonSides)
    (embeds : markPentagonSides.leftSide.Embeds host m) :
    ∃ t e, m.find? key = some t ∧ host.hyperedge? t = some e ∧ e.tag = sideTag ∧ e.mark = 0 := by
  obtain ⟨e, found, tag, mark⟩ := kindOf_eq_surrogate_iff.1 (kindOf_pentagonSides key mem)
  obtain ⟨t, image⟩ := embeds.exists_image
    ((reachable_markPentagonSides.coherent.mem_iff key).2 (Or.inr (mem_hyperedges_iff.2 ⟨e, found⟩)))
  obtain ⟨e', found', tag', mark'⟩ := embeds.surrogate key t e image found
  exact ⟨t, e', image, found', tag'.trans tag, mark'.trans mark⟩

theorem source_of_mem_sidesOf (embeds : markPentagonSides.leftSide.Embeds host m) (mem : t ∈ sidesOf m) :
    ∃ e, host.hyperedge? t = some e ∧ e.tag = sideTag ∧ e.mark = 0 := by
  obtain ⟨key, side, image⟩ := List.mem_filterMap.1 mem
  obtain ⟨t', e, image', rest⟩ := exists_side side embeds
  cases image.symm.trans image'
  exact ⟨e, rest⟩

theorem length_sidesOf (embeds : markPentagonSides.leftSide.Embeds host m) : (sidesOf m).length = 5 := by
  have all : ∀ key ∈ pentagonSides, (m.find? key).isSome := by
    intro key mem
    obtain ⟨t, -, image, -⟩ := exists_side mem embeds
    rw [image]
    rfl
  calc
    (sidesOf m).length = pentagonSides.length := by
      rw [sidesOf, List.length_filterMap_eq_countP, List.countP_eq_length.2 all]
    _ = 5 := by decide +kernel

theorem nodup_sidesOf (embeds : markPentagonSides.leftSide.Embeds host m) : (sidesOf m).Nodup := by
  apply (markPentagonSides.leftSide.hyperedges.nodup.filter _).filterMap
  intro u v t image image'
  exact embeds.injective u v t image image'

theorem mem_pentagonSides_iff {key : Label} : key ∈ pentagonSides ↔
    key ∈ markPentagonSides.leftSide.hyperedges ∧ key ≠ Outline.pentagon.elementKey := by
  rw [pentagonSides, List.mem_filter, decide_eq_true_eq, ← Table.mem_def]

/-- The sides that the region shows are the hyperedges that the sides are sent to. -/
theorem labels_sides (w : host.WellFormed) (embeds : markPentagonSides.leftSide.Embeds host m)
    (eq : markPentagonSides.leftSide.region host m = .ok region) :
    (sides region).map Hyperedge.label ~ sidesOf m := by
  have p := reachable_markPentagonSides.coherent
  have nodup : ((sides region).map Hyperedge.label).Nodup :=
    ((labels_region p w embeds eq).nodup_iff.2 (nodup_matched embeds)).sublist (List.filter_sublist.map _)
  rw [List.perm_ext_iff_of_nodup nodup (nodup_sidesOf embeds)]
  intro t
  constructor
  · intro mem
    obtain ⟨side, shown, rfl⟩ := List.mem_map.1 mem
    obtain ⟨key, found⟩ := Table.mem_values.1 (sides_subset shown)
    obtain ⟨stored, t, image, source⟩ := edge_of_region p eq found
    have ne : key ≠ Outline.pentagon.elementKey := by
      rintro rfl
      have kind : region.kindOf Outline.pentagon.elementKey = .surrogate "P" 1 :=
        (embeds.kindOf_region p eq _).trans (by decide +kernel)
      obtain ⟨e, found', tag, -⟩ := kindOf_eq_surrogate_iff.1 kind
      cases found.symm.trans found'
      exact absurd (tag.symm.trans (tag_of_mem_sides shown)) (by decide)
    rw [w.hyperedge_label t side source]
    exact List.mem_filterMap.2 ⟨key, mem_pentagonSides_iff.2 ⟨stored, ne⟩, image⟩
  · intro mem
    obtain ⟨key, side, image⟩ := List.mem_filterMap.1 mem
    obtain ⟨e, found, tag, -⟩ := kindOf_eq_surrogate_iff.1 (kindOf_pentagonSides key side)
    obtain ⟨e', shown, tag', -⟩ := embeds.exists_edge p eq found
    obtain ⟨-, t', image', source⟩ := edge_of_region p eq shown
    cases image.symm.trans image'
    rw [← w.hyperedge_label t e' source]
    exact List.mem_map_of_mem (mem_sides shown (tag'.trans tag))

/-! ### One step -/

theorem revised_sidesOf (c : host.Coherent) (w : host.WellFormed)
    (mem : m ∈ markPentagonSides.leftSide.embeddings host)
    (eq : markPentagonSides.leftSide.region host m = .ok region) (index : Nat) :
    let h := host.replace markPentagonSides.leftSide m (markPentagonSides.rightSide region index)
    Revised (markAt (sidesOf m)) host h ∧ h.Coherent ∧ h.WellFormed := by
  have embeds := ((mem_embeddings reachable_markPentagonSides.coherent c).1 mem).2
  rw [← markAt_perm (labels_sides w embeds eq)]
  exact revised_markPentagonSides c w mem eq index

theorem kind_cases : ∀ key ∈ markPentagonSides.leftSide.hyperedges.keys, key ∈ pentagonSides ∨
    markPentagonSides.leftSide.kindOf key = .surrogate Outline.pentagon.tag 1 := by decide +kernel

/-- A hyperedge of the pattern that is tagged as a side is one. -/
theorem mem_pentagonSides_of_tag {key : Label} {e : Hyperedge}
    (found : markPentagonSides.leftSide.hyperedge? key = some e) (tag : e.tag = sideTag) :
    key ∈ pentagonSides := by
  refine (kind_cases key (mem_hyperedges_iff.2 ⟨e, found⟩)).resolve_right fun kind => ?_
  obtain ⟨e', found', tag', -⟩ := kindOf_eq_surrogate_iff.1 kind
  cases found.symm.trans found'
  exact absurd (tag'.symm.trans tag) (by decide)

/-- What still matches after a step are the embeddings whose sides the step has left alone. -/
theorem embeddings_of_marks (c : host.Coherent) (c' : host'.Coherent)
    (embeds : markPentagonSides.leftSide.Embeds host m) (revised : Revised (markAt (sidesOf m)) host host') :
    markPentagonSides.leftSide.embeddings host' =
      (markPentagonSides.leftSide.embeddings host).filter (Free sidesOf (sidesOf m)) := by
  have p := reachable_markPentagonSides.coherent
  have source (t : Label) (mem : t ∈ sidesOf m) : ∃ e, host.hyperedge? t = some e ∧ e.tag = sideTag := by
    obtain ⟨e, found, tag, -⟩ := source_of_mem_sidesOf embeds mem
    exact ⟨e, found, tag⟩
  have blank (key : Label) (e : Hyperedge) (found : markPentagonSides.leftSide.hyperedge? key = some e)
      (tag : e.tag = sideTag) : e.mark = 0 := by
    obtain ⟨e', found', -, mark⟩ :=
      kindOf_eq_surrogate_iff.1 (kindOf_pentagonSides key (mem_pentagonSides_of_tag found tag))
    cases found.symm.trans found'
    exact mark
  apply embeddings_eq_of_mem_iff p c' ((pairwise_embeddings p c).filter _)
  intro m'
  rw [mem_embeddings_marks p c c' revised source blank, List.mem_filter, decide_eq_true_eq]
  refine and_congr_right fun mem' => ⟨fun out t mem => ?_, fun free key t image mem => ?_⟩
  · obtain ⟨key, -, image⟩ := List.mem_filterMap.1 mem
    exact out key t image
  · -- What is sent to a side is tagged as one, so it is a side of the pattern.
    obtain ⟨e, found, tag⟩ := source t mem
    have embeds' := ((mem_embeddings p c).1 mem').2
    have stored : key ∈ markPentagonSides.leftSide.hyperedges := by
      by_contra regular
      exact embeds'.regular key t image regular (mem_hyperedges_iff.2 ⟨e, found⟩)
    obtain ⟨e₀, found₀⟩ := mem_hyperedges_iff.1 stored
    obtain ⟨e', found', tag', -⟩ := embeds'.surrogate key t e₀ image found₀
    cases found.symm.trans found'
    have side := mem_pentagonSides_of_tag found₀ (tag'.symm.trans tag)
    exact free t (List.mem_filterMap.2 ⟨key, side, image⟩) mem

/-- The embedding that is found first is applied. -/
theorem applies_first {es : List Embedding} (s : Settings) (c : host.Coherent)
    (found : markPentagonSides.leftSide.embeddings host = m :: es) :
    ∃ region, markPentagonSides.leftSide.region host m = .ok region ∧ markPentagonSides.Applies s host
      (host.replace markPentagonSides.leftSide m (markPentagonSides.rightSide region 0)) := by
  obtain ⟨region, eq⟩ :=
    exists_region reachable_markPentagonSides.coherent c (found ▸ List.mem_cons_self)
  have selects : markPentagonSides.Selects s host m region := by
    rw [Production.Selects, found]
    exact Production.choose_of_admits ⟨eq, fun _ => rfl⟩
  exact ⟨region, eq, selects.applies⟩

/-! ### The run -/

/-- The embeddings that a run applies, in this order. -/
def picked (host : Hypergraph) : List Embedding :=
  pick sidesOf [] (markPentagonSides.leftSide.embeddings host)

theorem sidesOf_ne_nil (c : host.Coherent) (mem : m ∈ markPentagonSides.leftSide.embeddings host) :
    sidesOf m ≠ [] := by
  have length := length_sidesOf ((mem_embeddings reachable_markPentagonSides.coherent c).1 mem).2
  exact List.ne_nil_of_length_eq_add_one length

/-- The first embedding is taken, and the run goes on with those that have no side in common with it. -/
theorem picked_cons {es : List Embedding} (c : host.Coherent) (c' : host'.Coherent)
    (found : markPentagonSides.leftSide.embeddings host = m :: es)
    (revised : Revised (markAt (sidesOf m)) host host') : picked host = m :: picked host' := by
  have mem : m ∈ markPentagonSides.leftSide.embeddings host := found ▸ List.mem_cons_self
  have embeds := ((mem_embeddings reachable_markPentagonSides.coherent c).1 mem).2
  have free : Free sidesOf [] m := fun _ _ => List.not_mem_nil
  have used : ¬ Free sidesOf (sidesOf m) m := by
    obtain ⟨t, side⟩ := List.exists_mem_of_ne_nil _ (sidesOf_ne_nil c mem)
    exact fun free => free t side side
  calc
    picked host = m :: pick sidesOf (sidesOf m) es := by rw [picked, found, pick_cons_of_free free]; rfl
    _ = m :: pick sidesOf (sidesOf m ++ []) (m :: es) := by
      rw [List.append_nil, pick_cons_of_not_free used]
    _ = m :: picked host' := by rw [picked, embeddings_of_marks c c' embeds revised, found, pick_filter]

/-- The sides of the embeddings `ms` are marked. -/
structure HandedOn (ms : List Embedding) (host final : Hypergraph) : Prop where
  revised : Revised (markAt (ms.flatMap sidesOf)) host final
  coherent : final.Coherent
  wellFormed : final.WellFormed

theorem HandedOn.nil (c : host.Coherent) (w : host.WellFormed) : HandedOn [] host host :=
  ⟨.refl fun _ _ _ => if_neg List.not_mem_nil, c, w⟩

/-- A run marks the sides of one embedding after the other. -/
theorem runFrom_hands_on (uncapped : s.maxApplications = none) (c : host.Coherent) (w : host.WellFormed)
    (rounds index : Nat) :
    let r := markPentagonSides.runFrom s markPentagonSides.leftSide rounds index host
    HandedOn ((picked host).take rounds) host r.host ∧
      r.applications = index + ((picked host).take rounds).length ∧
      ((picked host).length < rounds → r.halt = some .exhausted) := by
  induction rounds generalizing index host with
  | zero => exact ⟨.nil c w, rfl, nofun⟩
  | succ rounds ih =>
    cases found : markPentagonSides.leftSide.embeddings host with
    | nil =>
      have rests : markPentagonSides.Rests s host := by
        intro m mem
        rw [found] at mem
        cases mem
      have none : picked host = [] := by rw [picked, found, pick]
      obtain ⟨trace, eq⟩ := Production.runFrom_rests uncapped rests rounds index
      rw [eq, none]
      exact ⟨.nil c w, rfl, fun _ => rfl⟩
    | cons m es =>
      have mem : m ∈ markPentagonSides.leftSide.embeddings host := found ▸ List.mem_cons_self
      obtain ⟨region, eq, applies⟩ := applies_first s c found
      obtain ⟨revised, c', w'⟩ := revised_sidesOf c w mem eq 0
      obtain ⟨trace, run⟩ := Production.runFrom_applies uncapped (fun _ _ _ => rfl) applies rounds index
      obtain ⟨rest, count, ends⟩ := ih c' w' (index + 1)
      rw [run, picked_cons c c' found revised, List.take_succ_cons]
      refine ⟨⟨?revised, rest.coherent, rest.wellFormed⟩, ?count, fun enough => ends ?enough⟩
      case revised =>
        rw [List.flatMap_cons]
        exact (revised.trans rest.revised).congr fun l e _ => (markAt_append (sidesOf m) _ l e).symm
      case count =>
        refine count.trans ?_
        rw [List.length_cons]
        omega
      case enough => exact Nat.lt_of_succ_lt_succ enough

theorem run_hands_on (uncapped : s.maxApplications = none) (c : host.Coherent) (w : host.WellFormed)
    (rounds : Nat) :
    let r := markPentagonSides.run s rounds host
    HandedOn ((picked host).take rounds) host r.host ∧
      r.applications = ((picked host).take rounds).length ∧
      ((picked host).length < rounds → r.halt = some .exhausted) := by
  obtain ⟨handed, count, ends⟩ := runFrom_hands_on uncapped c w rounds 0
  exact ⟨handed, count.trans (Nat.zero_add _), ends⟩

theorem embeds_of_mem_picked (c : host.Coherent) (mem : m ∈ picked host) :
    markPentagonSides.leftSide.Embeds host m :=
  ((mem_embeddings reachable_markPentagonSides.coherent c).1 ((pick_sublist [] _).subset mem)).2

theorem nodup_picked (c : host.Coherent) : ((picked host).flatMap sidesOf).Nodup := by
  apply nodup_pick [] _ .nil
  intro m mem
  exact nodup_sidesOf ((mem_embeddings reachable_markPentagonSides.coherent c).1 mem).2

namespace HandedOn

variable {ms : List Embedding} {g h final : Hypergraph}

theorem differInMarks (handed : HandedOn ms host final) (c : host.Coherent)
    (embeds : ∀ m ∈ ms, markPentagonSides.leftSide.Embeds host m) :
    DifferInMarks sideTag (ms.flatMap sidesOf) host final := by
  refine .of_revised c handed.coherent handed.revised fun t mem => ?_
  obtain ⟨m, mem, side⟩ := List.mem_flatMap.1 mem
  exact source_of_mem_sidesOf (embeds m mem) side

/-- Between two hosts of a run the sides of one more embedding are marked. -/
theorem step (before : HandedOn ms host g) (after : HandedOn (ms ++ [m]) host h)
    (embeds : markPentagonSides.leftSide.Embeds host m) (nodup : ((ms ++ [m]).flatMap sidesOf).Nodup) :
    DifferInMarks sideTag (sidesOf m) g h := by
  have last : (ms ++ [m]).flatMap sidesOf = ms.flatMap sidesOf ++ sidesOf m := by
    rw [List.flatMap_append, List.flatMap_singleton]
  have both : Revised (fun l e => markAt (sidesOf m) l (markAt (ms.flatMap sidesOf) l e)) host h :=
    after.revised.congr fun l e _ => by rw [last, markAt_append]
  refine .of_revised before.coherent after.coherent (before.revised.after both) fun t side => ?_
  obtain ⟨e, found, kind⟩ := source_of_mem_sidesOf embeds side
  refine ⟨e, ?_, kind⟩
  have unmarked : ¬ t ∈ ms.flatMap sidesOf := fun mem =>
    (List.nodup_append.1 (last ▸ nodup)).2.2 t mem t side rfl
  rw [before.revised.hyperedge, found, Option.map_some, markAt, if_neg unmarked]

end HandedOn

/-- The round that applies the embedding `m` marks its sides and changes nothing else. -/
theorem run_hands_on_one (uncapped : s.maxApplications = none) (c : host.Coherent) (w : host.WellFormed)
    {i : Nat} (taken : (picked host)[i]? = some m) :
    DifferInMarks sideTag (sidesOf m) (markPentagonSides.run s i host).host
      (markPentagonSides.run s (i + 1) host).host := by
  obtain ⟨before, -⟩ := run_hands_on uncapped c w i
  obtain ⟨after, -⟩ := run_hands_on uncapped c w (i + 1)
  have nodup : (((picked host).take (i + 1)).flatMap sidesOf).Nodup :=
    (nodup_picked c).sublist ((List.take_sublist (i + 1) (picked host)).flatMap sidesOf)
  rw [List.take_add_one, taken, Option.toList_some] at after nodup
  exact before.step after (embeds_of_mem_picked c (List.mem_of_getElem? taken)) nodup

/-- A run comes to an end, and each of its applications has marked five sides, none of which is marked
again by another. Nothing else is changed, by one application or by all. -/
theorem run_marks_five_sides (s : Settings) (uncapped : s.maxApplications = none) (host : Hypergraph)
    (reachable : host.Reachable) (w : host.WellFormed) :
    ∃ groups : List (List Label), (∀ ts ∈ groups, ts.length = 5) ∧ groups.flatten.Nodup ∧
      (∀ rounds, groups.length < rounds → let r := markPentagonSides.run s rounds host
        r.halt = some .exhausted ∧ r.applications = groups.length ∧
          DifferInMarks sideTag groups.flatten host r.host) ∧
      ∀ i ts, groups[i]? = some ts → DifferInMarks sideTag ts
        (markPentagonSides.run s i host).host (markPentagonSides.run s (i + 1) host).host := by
  have c := reachable.coherent
  have embeds (m : Embedding) (mem : m ∈ picked host) := embeds_of_mem_picked c mem
  refine ⟨(picked host).map sidesOf, ?five, ?apart, ?whole, ?each⟩
  case five =>
    intro ts listed
    obtain ⟨m, mem, rfl⟩ := List.mem_map.1 listed
    exact length_sidesOf (embeds m mem)
  case apart =>
    rw [← List.flatMap_def]
    exact nodup_picked c
  case whole =>
    intro rounds enough
    rw [List.length_map] at enough ⊢
    obtain ⟨handed, count, ends⟩ := run_hands_on uncapped c w rounds
    rw [List.take_of_length_le (Nat.le_of_lt enough)] at handed count
    rw [← List.flatMap_def]
    exact ⟨ends enough, count, handed.differInMarks c embeds⟩
  case each =>
    intro i ts found
    rw [List.getElem?_map, Option.map_eq_some_iff] at found
    obtain ⟨m, found, rfl⟩ := found
    exact run_hands_on_one uncapped c w found

/-- Two marked pentagons that have a side in common. -/
def pairOfPentagons : List Operation :=
  let node (label : Label) : Node := { x := .zero, y := .zero, label }
  let ring (a b c d e : Label) : List Operation :=
    [.addHyperedge (.side (node a) (node b)) false, .addHyperedge (.side (node b) (node c)) false,
      .addHyperedge (.side (node c) (node d)) false, .addHyperedge (.side (node d) (node e)) false,
      .addHyperedge (.side (node e) (node a)) false,
      .addHyperedge { members := [node a, node b, node c, node d, node e], tag := "P", mark := 1,
                      two_le_length := by simp } false]
  ring "a" "b" "c" "d" "e" ++ ring "a" "b" "f" "g" "h"

theorem wellFormed_pair : (Operation.build pairOfPentagons).WellFormed := .build _ (by decide +kernel)

/-- Only the pentagon that is found first is taken. -/
theorem picked_pair :
    let host := Operation.build pairOfPentagons
    (picked host).map sidesOf = [["E_a_b", "E_b_c", "E_c_d", "E_d_e", "E_e_a"]] ∧
      ∃ m ∈ markPentagonSides.leftSide.embeddings host, "E_b_f" ∈ sidesOf m := by
  decide +kernel

theorem run_pair :
    let host := Operation.build pairOfPentagons
    let r := markPentagonSides.run {} 2 host
    HandedOn (picked host) host r.host ∧ r.applications = 1 ∧ r.halt = some .exhausted := by
  intro host r
  have one : (picked host).length = 1 := by simpa using congrArg List.length picked_pair.1
  obtain ⟨handed, count, ends⟩ :=
    run_hands_on (s := {}) rfl (Reachable.build pairOfPentagons).coherent wellFormed_pair 2
  rw [List.take_of_length_le (one ▸ Nat.le_succ 1)] at handed count
  exact ⟨handed, count.trans one, ends (one ▸ Nat.lt_succ_self 1)⟩

theorem run_marks_five_sides_pair :
    let host := Operation.build pairOfPentagons
    ∃ groups : List (List Label), groups.length = 1 ∧ (∀ ts ∈ groups, ts.length = 5) ∧
      ∀ ts ∈ groups, DifferInMarks sideTag ts host (markPentagonSides.run {} 1 host).host := by
  intro host
  obtain ⟨groups, five, -, whole, each⟩ :=
    run_marks_five_sides {} rfl host (.build pairOfPentagons) wellFormed_pair
  obtain ⟨-, count, exhausted⟩ := run_pair
  -- The run has come to its end by then.
  obtain ⟨-, again, -⟩ := whole (2 + groups.length) (by omega)
  rw [Production.run_stable exhausted] at again
  have one : groups.length = 1 := again.symm.trans count
  obtain ⟨ts, rfl⟩ := List.length_eq_one_iff.1 one
  have first := each 0 ts rfl
  rw [Production.host_run_zero] at first
  exact ⟨[ts], one, five, List.forall_mem_singleton.2 first⟩

/-! ### Which pentagons are left out -/

/-- A run marks the sides of pentagons that have none in common, one after the other, and passes over a
pentagon only if one of its sides has been marked for another one. So a pentagon that has no side in common
with others, or only with those that have the same five sides, has all of its sides marked. -/
theorem run_marks_picked (s : Settings) (uncapped : s.maxApplications = none) (host : Hypergraph)
    (reachable : host.Reachable) (w : host.WellFormed) :
    let es := markPentagonSides.leftSide.embeddings host
    let taken := pick sidesOf [] es
    let marked := taken.flatMap sidesOf
    let r := markPentagonSides.run s (es.length + 1) host
    r.halt = some .exhausted ∧ r.applications = taken.length ∧
      (∀ i m, taken[i]? = some m → DifferInMarks sideTag (sidesOf m)
        (markPentagonSides.run s i host).host (markPentagonSides.run s (i + 1) host).host) ∧
      DifferInMarks sideTag marked host r.host ∧
      ∀ m ∈ es, (sidesOf m).length = 5 ∧ (sidesOf m).Nodup ∧ (∃ t ∈ sidesOf m, t ∈ marked) ∧
        ((∀ m' ∈ es, (∃ t ∈ sidesOf m', t ∈ sidesOf m) → sidesOf m ⊆ sidesOf m') →
          sidesOf m ⊆ marked) := by
  intro es taken marked r
  have c := reachable.coherent
  have fewer : (picked host).length ≤ es.length := (pick_sublist [] es).length_le
  obtain ⟨handed, count, ends⟩ := run_hands_on uncapped c w (es.length + 1)
  rw [List.take_of_length_le (Nat.le_succ_of_le fewer)] at handed count
  refine ⟨ends (Nat.lt_succ_of_le fewer), count, fun i m => run_hands_on_one uncapped c w,
    handed.differInMarks c fun m => embeds_of_mem_picked c, fun m mem => ?_⟩
  have embeds := ((mem_embeddings reachable_markPentagonSides.coherent c).1 mem).2
  have meets : ∃ t ∈ sidesOf m, t ∈ marked := pick_meets [] mem (sidesOf_ne_nil c mem)
  refine ⟨length_sidesOf embeds, nodup_sidesOf embeds, meets, ?_⟩
  intro alone t side
  obtain ⟨u, side', mem'⟩ := meets
  obtain ⟨m', picked, side''⟩ := List.mem_flatMap.1 mem'
  have inside := alone m' ((pick_sublist [] es).subset picked) ⟨u, side'', side'⟩
  exact List.mem_flatMap.2 ⟨m', picked, inside side⟩

/-- One of two pentagons with a side in common is taken, and the other one is left with unmarked sides
beside the common one. -/
theorem run_marks_picked_pair :
    let host := Operation.build pairOfPentagons
    let es := markPentagonSides.leftSide.embeddings host
    let r := markPentagonSides.run {} (es.length + 1) host
    let marked := ["E_a_b", "E_b_c", "E_c_d", "E_d_e", "E_e_a"]
    host.WellFormed ∧ es.length = 20 ∧ r.halt = some .exhausted ∧ r.applications = 1 ∧
      DifferInMarks sideTag marked host r.host ∧
      ∃ m ∈ es, (∃ t ∈ sidesOf m, t ∈ marked) ∧ "E_b_f" ∈ sidesOf m ∧ ¬ "E_b_f" ∈ marked := by
  intro host es r marked
  obtain ⟨first, m, mem, side⟩ := picked_pair
  have one : (picked host).length = 1 := by simpa using congrArg List.length first
  have sides : (picked host).flatMap sidesOf = marked := by
    rw [List.flatMap_def, first]
    rfl
  obtain ⟨halted, count, -, marks, each⟩ :=
    run_marks_picked {} rfl host (.build pairOfPentagons) wellFormed_pair
  obtain ⟨-, -, meets, -⟩ := each m mem
  exact ⟨wellFormed_pair, by decide +kernel, halted, count.trans one, sides ▸ marks,
    m, mem, sides ▸ meets, side, by decide⟩

/-- Of two pentagons with a side in common, one keeps unmarked sides when nothing matches any more. -/
theorem sides_left_unmarked :
    let host := Operation.build pairOfPentagons
    let r := markPentagonSides.run {} 2 host
    host.Reachable ∧ host.WellFormed ∧ r.halt = some .exhausted ∧
      ¬ ∀ m ∈ markPentagonSides.leftSide.embeddings host, ∀ t ∈ sidesOf m,
        ∃ e, r.host.hyperedge? t = some e ∧ e.mark = 1 := by
  intro host r
  obtain ⟨handed, -, exhausted⟩ := run_pair
  refine ⟨.build pairOfPentagons, wellFormed_pair, exhausted, fun all => ?_⟩
  obtain ⟨first, m, mem, side⟩ := picked_pair
  obtain ⟨e, found, mark⟩ := all m mem "E_b_f" side
  have unmarked : ¬ ("E_b_f" : Label) ∈ (picked host).flatMap sidesOf := by
    rw [List.flatMap_def, first]
    decide
  have before : (host.hyperedge? "E_b_f").map (·.mark) = some 0 := by decide +kernel
  rw [handed.revised.hyperedge, Option.map_eq_some_iff] at found
  obtain ⟨e₀, found, rfl⟩ := found
  rw [markAt, if_neg unmarked] at mark
  rw [found, Option.map_some, mark] at before
  exact absurd before (by decide)

end Rules

end Hypermesh
