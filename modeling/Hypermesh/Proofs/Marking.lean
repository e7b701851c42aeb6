import Hypermesh.Proofs.Library
import Hypermesh.Proofs.Locality
import Hypermesh.Proofs.Revising
import Hypermesh.Proofs.Termination.Rules

/-!
The rules that mark elements. A step writes the sides of an element back as they were and marks the
element. Neighbours share these sides, but what they match is not disturbed, and a marked element is not
matched any more. So a run marks each element that the initial host lets match, once, whichever of its
embeddings comes first.
-/

namespace Hypermesh.Rules

open Hypermesh.Hypergraph
open scoped List

variable {o : Outline} {name : String} {host host' region : Hypergraph} {m : Embedding} {s : Settings}
  {element : Hyperedge} {t : Label} {ts : List Label}

/-! ### The pattern -/

/-- The left side of the rule that marks an element: nothing in it is marked yet. -/
def unmarked (o : Outline) : Hypergraph := Side.graph ((o.whole 0 0).mapError .graph)

theorem leftSide_markElement (name : String) (o : Outline) :
    (markElement name o).leftSide = unmarked o := rfl

/-- The element is unmarked, and every other hyperedge of the pattern is a side. -/
structure Framed (o : Outline) : Prop where
  tag : o.tag ≠ sideTag
  element : (unmarked o).kindOf o.elementKey = .surrogate o.tag 0
  side : ∀ key ∈ (unmarked o).hyperedges.keys, key ≠ o.elementKey →
    (unmarked o).kindOf key = .surrogate sideTag 0

theorem framed_quad : Framed .quad := ⟨by decide, by decide +kernel, by decide +kernel⟩

theorem framed_hexagon : Framed .hexagon := ⟨by decide, by decide +kernel, by decide +kernel⟩

theorem framed_heptagon : Framed .heptagon := ⟨by decide, by decide +kernel, by decide +kernel⟩

theorem coherent_unmarked (o : Outline) : (unmarked o).Coherent := (reachable_markElement "" o).coherent

theorem Framed.exists_target (framed : Framed o) (embeds : (unmarked o).Embeds host m) :
    ∃ t, m.find? o.elementKey = some t := by
  obtain ⟨e, found, -⟩ := kindOf_eq_surrogate_iff.1 framed.element
  apply embeds.exists_image
  exact ((coherent_unmarked o).mem_iff _).2 (Or.inr (mem_hyperedges_iff.2 ⟨e, found⟩))

/-- The element is sent to an unmarked hyperedge of its tag. -/
theorem Framed.target (framed : Framed o) (embeds : (unmarked o).Embeds host m)
    (image : m.find? o.elementKey = some t) :
    ∃ e, host.hyperedge? t = some e ∧ e.tag = o.tag ∧ e.mark = 0 := by
  obtain ⟨e, found, tag, mark⟩ := kindOf_eq_surrogate_iff.1 framed.element
  obtain ⟨e', found', tag', mark'⟩ := embeds.surrogate _ t e image found
  exact ⟨e', found', tag'.trans tag, mark'.trans mark⟩

/-- Nothing but the element is sent to a hyperedge of its tag. -/
theorem Framed.avoids (framed : Framed o) (embeds : (unmarked o).Embeds host m)
    (found : host.hyperedge? t = some element) (tag : element.tag = o.tag)
    (other : m.find? o.elementKey ≠ some t) {u t' : Label} (image : m.find? u = some t') : t' ≠ t := by
  rintro rfl
  by_cases stored : u ∈ (unmarked o).hyperedges
  · have ne : u ≠ o.elementKey := fun same => other (same ▸ image)
    obtain ⟨e, found', tag', -⟩ := kindOf_eq_surrogate_iff.1 (framed.side u stored ne)
    obtain ⟨e', found'', same, -⟩ := embeds.surrogate u t' e image found'
    cases found.symm.trans found''
    exact framed.tag (tag.symm.trans (same.trans tag'))
  · exact embeds.regular u t' image stored (mem_hyperedges_iff.2 ⟨element, found⟩)

/-! ### One step -/

/-- Marks the hyperedges under the labels `ts`. -/
def markAt (ts : List Label) (l : Label) (e : Hyperedge) : Hyperedge :=
  if l ∈ ts then e.withMark 1 else e

theorem markAt_append (ts ts' : List Label) (l : Label) (e : Hyperedge) :
    markAt (ts ++ ts') l e = markAt ts' l (markAt ts l e) := by
  unfold markAt
  by_cases first : l ∈ ts <;> by_cases later : l ∈ ts' <;> simp [first, later, Hyperedge.withMark]

theorem markAt_perm {ts ts' : List Label} (perm : ts ~ ts') : markAt ts = markAt ts' := by
  funext l e
  simp only [markAt, perm.mem_iff]

theorem keepsMembers_markAt (ts : List Label) : KeepsMembers (markAt ts) := by
  intro l e
  unfold markAt
  split <;> exact ⟨rfl, rfl⟩

theorem map_markAt {ts : List Label} {edges : List Hyperedge} (listed : ∀ e ∈ edges, e.label ∈ ts) :
    (edges.map fun e => markAt ts e.label e) = edges.map (·.withMark 1) :=
  List.map_congr_left fun e mem => if_pos (listed e mem)

theorem map_markAt_of_not_mem {ts : List Label} {edges : List Hyperedge}
    (apart : ∀ e ∈ edges, ¬ e.label ∈ ts) : (edges.map fun e => markAt ts e.label e) = edges :=
  (List.map_congr_left fun e mem => if_neg (apart e mem)).trans (List.map_id _)

/-- A step that writes each matched hyperedge back, marked if its label is listed. -/
theorem revised_marks {pattern : Hypergraph} {ts : List Label} {edges : List Hyperedge} (c : host.Coherent)
    (w : host.WellFormed) (mem : m ∈ pattern.embeddings host)
    (holds : host.Holds (pattern.matched m) edges) (listed : ts ⊆ edges.map Hyperedge.label) :
    let h := host.replace pattern m ((edges.map fun e => markAt ts e.label e).foldl insertHyperedge ∅)
    Revised (markAt ts) host h ∧ h.Coherent ∧ h.WellFormed :=
  revised_replace c w mem (keepsMembers_markAt ts) holds fun _ _ unmatched =>
    if_neg fun mem => unmatched (holds.labels.mem_iff.1 (listed mem))

theorem not_mem_sides (tag : element.tag ≠ sideTag) : ¬ element ∈ sides region := fun mem =>
  tag (tag_of_mem_sides mem)

/-- A region shows its element and sides. -/
theorem values_region_of_sides {pattern : Hypergraph} {key : Label} (p : pattern.Coherent)
    (w : host.WellFormed) (embeds : pattern.Embeds host m) (eq : pattern.region host m = .ok region)
    (found : region.hyperedge? key = some element) (tag : element.tag ≠ sideTag)
    (side : ∀ k ∈ pattern.hyperedges.keys, k ≠ key →
      ∃ mark, pattern.kindOf k = .surrogate sideTag mark) :
    region.hyperedges.values ~ sides region ++ [element] := by
  have nodup := nodup_values_region p w embeds eq
  have nodup' : (sides region ++ [element]).Nodup := by
    rw [List.nodup_append_comm, List.singleton_append, List.nodup_cons]
    exact ⟨not_mem_sides tag, nodup.filter _⟩
  rw [List.perm_ext_iff_of_nodup nodup nodup']
  intro e
  rw [List.mem_append, List.mem_singleton]
  constructor
  · intro mem
    obtain ⟨k, found'⟩ := Table.mem_values.1 mem
    by_cases same : k = key
    · subst same
      cases found.symm.trans found'
      exact Or.inr rfl
    · obtain ⟨stored, -⟩ := edge_of_region p eq found'
      obtain ⟨mark, kind⟩ := side k stored same
      obtain ⟨e₀, found₀, side, -⟩ := kindOf_eq_surrogate_iff.1 kind
      obtain ⟨e', shown, tag', -⟩ := embeds.exists_edge p eq found₀
      cases found'.symm.trans shown
      exact Or.inl (mem_sides found' (tag'.trans side))
  · rintro (mem | rfl)
    · exact sides_subset mem
    · exact mem_values_of_hyperedge? found

theorem Framed.values_region (framed : Framed o) (w : host.WellFormed)
    (embeds : (unmarked o).Embeds host m) (eq : (unmarked o).region host m = .ok region)
    (found : region.hyperedge? o.elementKey = some element) (tag : element.tag = o.tag) :
    region.hyperedges.values ~ sides region ++ [element] :=
  values_region_of_sides (coherent_unmarked o) w embeds eq found (tag ▸ framed.tag)
    fun k stored ne => ⟨0, framed.side k stored ne⟩

theorem rightSide_markElement (name : String) (index : Nat)
    (found : region.hyperedge? o.elementKey = some element) :
    (markElement name o).rightSide region index =
      (sides region ++ [element.withMark 1]).foldl insertHyperedge ∅ := by
  simp only [Production.rightSide, markElement, requireHyperedge, found, List.foldl_append]
  rfl

/-- A step marks the hyperedge that the element is sent to. The sides come back as they were. -/
theorem Framed.revised_step (framed : Framed o) (name : String) (c : host.Coherent) (w : host.WellFormed)
    (mem : m ∈ (unmarked o).embeddings host) (eq : (unmarked o).region host m = .ok region)
    (image : m.find? o.elementKey = some t) (index : Nat) :
    let host' := host.replace (unmarked o) m ((markElement name o).rightSide region index)
    Revised (markAt [t]) host host' ∧ host'.Coherent ∧ host'.WellFormed := by
  have p := coherent_unmarked o
  have embeds := ((mem_embeddings p c).1 mem).2
  obtain ⟨e₀, stored, tag₀, -⟩ := kindOf_eq_surrogate_iff.1 framed.element
  obtain ⟨element, found, same, -⟩ := embeds.exists_edge p eq stored
  have tag := same.trans tag₀
  obtain rfl : element.label = t := by
    obtain ⟨-, t', image', source⟩ := edge_of_region p eq found
    cases image.symm.trans image'
    exact w.hyperedge_label t element source
  have holds := holds_of_region p w embeds eq (framed.values_region w embeds eq found tag)
  have apart (e : Hyperedge) (mem : e ∈ sides region) : ¬ e.label ∈ [element.label] := by
    rw [List.mem_singleton]
    exact (holds.perm (List.perm_append_singleton ..)).label_ne_first mem
  have written : sides region ++ [element.withMark 1] =
      (sides region ++ [element]).map fun e => markAt [element.label] e.label e := by
    rw [List.map_append, map_markAt_of_not_mem apart, map_markAt (by simp), List.map_singleton]
  simp only [rightSide_markElement name index found, written]
  exact revised_marks c w mem holds (by simp)

/-- Marks take away the embeddings that select one of the marked hyperedges, and no others. -/
theorem mem_embeddings_marks {pattern : Hypergraph} {tag : String} (p : pattern.Coherent) (c : host.Coherent)
    (c' : host'.Coherent) (revised : Revised (markAt ts) host host')
    (source : ∀ t ∈ ts, ∃ e, host.hyperedge? t = some e ∧ e.tag = tag)
    (blank : ∀ key e, pattern.hyperedge? key = some e → e.tag = tag → e.mark = 0) (m : Embedding) :
    m ∈ pattern.embeddings host' ↔
      m ∈ pattern.embeddings host ∧ ∀ key t, m.find? key = some t → ¬ t ∈ ts := by
  have same {l : Label} (out : ¬ l ∈ ts) : host.SameAt host' l := revised.sameAt c c' fun e _ => if_neg out
  rw [mem_embeddings p c, mem_embeddings p c', and_assoc]
  refine and_congr_right fun _ => ⟨fun embeds => ?_, fun ⟨embeds, out⟩ => ?_⟩
  · have out (key t : Label) (image : m.find? key = some t) : ¬ t ∈ ts := by
      intro mem
      obtain ⟨e, found, tag⟩ := source t mem
      have found' : host'.hyperedge? t = some (e.withMark 1) := by
        rw [revised.hyperedge, found, Option.map_some, markAt, if_pos mem]
      by_cases stored : key ∈ pattern.hyperedges
      · obtain ⟨e₀, found₀⟩ := mem_hyperedges_iff.1 stored
        obtain ⟨e', found'', tag', mark⟩ := embeds.surrogate key t e₀ image found₀
        cases found'.symm.trans found''
        have clash : (1 : UInt8) = 0 := mark.trans (blank key e₀ found₀ (tag'.symm.trans tag))
        cases clash
      · exact embeds.regular key t image stored (mem_hyperedges_iff.2 ⟨_, found'⟩)
    exact ⟨embeds.transfer fun u l image => (same (out u l image)).symm, out⟩
  · exact embeds.transfer fun u l image => same (out u l image)

/-- Marking an element takes its own embeddings away, and no others. -/
theorem Framed.mem_embeddings_iff (framed : Framed o) (c : host.Coherent) (c' : host'.Coherent)
    (revised : Revised (markAt [t]) host host') (found : host.hyperedge? t = some element)
    (tag : element.tag = o.tag) (m : Embedding) :
    m ∈ (unmarked o).embeddings host' ↔
      m ∈ (unmarked o).embeddings host ∧ m.find? o.elementKey ≠ some t := by
  have p := coherent_unmarked o
  have blank (key : Label) (e : Hyperedge) (found : (unmarked o).hyperedge? key = some e)
      (_ : e.tag = o.tag) : e.mark = 0 := by
    obtain ⟨tag, kind⟩ : ∃ tag, (unmarked o).kindOf key = .surrogate tag 0 := by
      by_cases same : key = o.elementKey
      · exact ⟨_, same ▸ framed.element⟩
      · exact ⟨_, framed.side key (mem_hyperedges_iff.2 ⟨e, found⟩) same⟩
    obtain ⟨e', found', -, mark⟩ := kindOf_eq_surrogate_iff.1 kind
    cases found.symm.trans found'
    exact mark
  rw [mem_embeddings_marks p c c' revised (by simpa using ⟨element, found, tag⟩) blank]
  refine and_congr_right fun mem => ⟨fun out image => out _ t image (by simp), fun other key t' image => ?_⟩
  rw [List.mem_singleton]
  exact framed.avoids ((mem_embeddings p c).1 mem).2 found tag other image

/-! ### The run -/

/-- The hyperedges of the host that some embedding sends `key` to. -/
def images (pattern host : Hypergraph) (key : Label) : List Label :=
  host.hyperedges.keys.filter fun t => ∃ m ∈ pattern.embeddings host, m.find? key = some t

theorem nodup_images (pattern host : Hypergraph) (key : Label) : (images pattern host key).Nodup :=
  host.hyperedges.nodup.filter _

theorem Framed.mem_images (framed : Framed o) (c : host.Coherent) :
    t ∈ images (unmarked o) host o.elementKey ↔
      ∃ m ∈ (unmarked o).embeddings host, m.find? o.elementKey = some t := by
  rw [images, List.mem_filter, decide_eq_true_eq]
  refine and_iff_right_of_imp fun ⟨m, mem, image⟩ => ?_
  obtain ⟨e, found, -⟩ := framed.target ((mem_embeddings (coherent_unmarked o) c).1 mem).2 image
  exact mem_hyperedges_iff.2 ⟨e, found⟩

theorem Framed.source (framed : Framed o) (c : host.Coherent)
    (mem : t ∈ images (unmarked o) host o.elementKey) :
    ∃ e, host.hyperedge? t = some e ∧ e.tag = o.tag ∧ e.mark = 0 := by
  obtain ⟨m, found, image⟩ := (framed.mem_images c).1 mem
  exact framed.target ((mem_embeddings (coherent_unmarked o) c).1 found).2 image

theorem Framed.embeddings_eq_nil (framed : Framed o) (c : host.Coherent)
    (none_listed : images (unmarked o) host o.elementKey = []) : (unmarked o).embeddings host = [] := by
  apply List.eq_nil_iff_forall_not_mem.2
  intro m mem
  obtain ⟨t, image⟩ := framed.exists_target ((mem_embeddings (coherent_unmarked o) c).1 mem).2
  have listed := (framed.mem_images c).2 ⟨m, mem, image⟩
  rw [none_listed] at listed
  cases listed

/-- A step takes the label that it marks from the list, and no other. -/
theorem Framed.images_perm (framed : Framed o) (c : host.Coherent) (c' : host'.Coherent)
    (revised : Revised (markAt [t]) host host') (mem : t ∈ images (unmarked o) host o.elementKey) :
    images (unmarked o) host o.elementKey ~ t :: images (unmarked o) host' o.elementKey := by
  obtain ⟨element, source, tag, -⟩ := framed.source c mem
  have left := framed.mem_embeddings_iff c c' revised source tag
  have rest (l : Label) : l ∈ images (unmarked o) host' o.elementKey ↔
      l ∈ images (unmarked o) host o.elementKey ∧ l ≠ t := by
    rw [framed.mem_images c, framed.mem_images c']
    constructor
    · rintro ⟨m', mem', image'⟩
      obtain ⟨mem', other⟩ := (left m').1 mem'
      exact ⟨⟨m', mem', image'⟩, fun same => other (same ▸ image')⟩
    · rintro ⟨⟨m', mem', image'⟩, ne⟩
      refine ⟨m', (left m').2 ⟨mem', fun same => ne ?_⟩, image'⟩
      exact Option.some.inj (image'.symm.trans same)
  have nodup : (t :: images (unmarked o) host' o.elementKey).Nodup :=
    List.nodup_cons.2 ⟨fun again => ((rest t).1 again).2 rfl, nodup_images ..⟩
  rw [List.perm_ext_iff_of_nodup (nodup_images ..) nodup]
  intro l
  rw [List.mem_cons, rest]
  constructor
  · intro mem
    by_cases same : l = t
    · exact Or.inl same
    · exact Or.inr ⟨mem, same⟩
  · rintro (rfl | ⟨mem, -⟩)
    · exact mem
    · exact mem

/-- The host at the end of a run: the elements `ts` are marked, and none is left to mark. -/
structure Marked (o : Outline) (ts : List Label) (host final : Hypergraph) : Prop where
  revised : Revised (markAt ts) host final
  coherent : final.Coherent
  wellFormed : final.WellFormed
  none_left : (unmarked o).embeddings final = []

/-- Every step marks one of the elements that match, and the others go on matching. -/
theorem Framed.ends (framed : Framed o) (name : String) (s : Settings) (c : host.Coherent)
    (w : host.WellFormed) :
    ∃ final, (markElement name o).Ends s host (images (unmarked o) host o.elementKey).length final ∧
      Marked o (images (unmarked o) host o.elementKey) host final := by
  have p := coherent_unmarked o
  induction count : (images (unmarked o) host o.elementKey).length generalizing host with
  | zero =>
    have none_listed := List.length_eq_zero_iff.1 count
    have unmatched := framed.embeddings_eq_nil c none_listed
    have rests : (markElement name o).Rests s host := by
      intro m mem
      rw [leftSide_markElement, unmatched] at mem
      cases mem
    refine ⟨host, .rests rests, .refl fun l e _ => ?_, c, w, unmatched⟩
    rw [none_listed]
    rfl
  | succ n ih =>
    obtain ⟨t₀, rest, listed⟩ := List.exists_cons_of_length_eq_add_one count
    obtain ⟨m₀, found, -⟩ := (framed.mem_images c).1 (listed ▸ List.mem_cons_self)
    obtain ⟨m, region, mem, eq, applies⟩ :=
      Production.exists_applies (P := markElement name o) (fun _ => rfl) s p c found
    obtain ⟨t, image⟩ := framed.exists_target ((mem_embeddings p c).1 mem).2
    obtain ⟨revised, c', w'⟩ := framed.revised_step name c w mem eq image 0
    have split := framed.images_perm c c' revised ((framed.mem_images c).2 ⟨m, mem, image⟩)
    have fewer := split.length_eq.symm.trans count
    rw [List.length_cons, Nat.succ_inj] at fewer
    obtain ⟨final, ends, marked⟩ := ih c' w' fewer
    refine ⟨final, .applies applies ends, ?_, marked.coherent, marked.wellFormed,
      marked.none_left⟩
    rw [markAt_perm split]
    exact (revised.trans marked.revised).congr fun l e _ => (markAt_append [t] _ l e).symm

/-- The rules that mark elements, each with the outline of its elements. -/
def markers : List (Production × Outline) :=
  [(markQuad, .quad), (markHexagon, .hexagon), (markHeptagon, .heptagon)]

theorem exists_framed {P : Production} (rule : (P, o) ∈ markers) :
    ∃ name, P = markElement name o ∧ Framed o := by
  simp only [markers, List.mem_cons, Prod.mk.injEq, List.not_mem_nil, or_false] at rule
  obtain ⟨rfl, rfl⟩ | ⟨rfl, rfl⟩ | ⟨rfl, rfl⟩ := rule
  · exact ⟨_, rfl, framed_quad⟩
  · exact ⟨_, rfl, framed_hexagon⟩
  · exact ⟨_, rfl, framed_heptagon⟩

/-- Two hosts that differ in the marks of the elements `ts` and in nothing else but the order of their
tables. -/
structure DifferInMarks (tag : String) (ts : List Label) (host final : Hypergraph) : Prop where
  node : ∀ l, final.node? l = host.node? l
  marked : ∀ t ∈ ts, ∃ e, host.hyperedge? t = some e ∧ e.tag = tag ∧ e.mark = 0 ∧
    final.hyperedge? t = some (e.withMark 1)
  hyperedge : ∀ l, ¬ l ∈ ts → final.hyperedge? l = host.hyperedge? l
  vertex : ∀ l, l ∈ final ↔ l ∈ host
  surrogate : ∀ l, final.surrogate? l = host.surrogate? l
  incident : ∀ a b, b ∈ final.neighbours a ↔ b ∈ host.neighbours a

theorem DifferInMarks.of_revised {tag : String} {final : Hypergraph} (c : host.Coherent)
    (c' : final.Coherent) (revised : Revised (markAt ts) host final)
    (source : ∀ t ∈ ts, ∃ e, host.hyperedge? t = some e ∧ e.tag = tag ∧ e.mark = 0) :
    DifferInMarks tag ts host final where
  node := revised.node
  marked t mem := by
    obtain ⟨e, found, tag, mark⟩ := source t mem
    refine ⟨e, found, tag, mark, ?_⟩
    rw [revised.hyperedge, found, Option.map_some, markAt, if_pos mem]
  hyperedge l unmarked := by
    rw [revised.hyperedge]
    cases host.hyperedge? l with
    | none => rfl
    | some e => rw [Option.map_some, markAt, if_neg unmarked]
  vertex l := revised.mem_iff c c'
  surrogate := revised.surrogate? c c' (keepsMembers_markAt _)
  incident := revised.incident

/-- A run makes as many applications as there are elements that match at its start, and marks these. The
next run makes none. -/
theorem run_marks_elements (P : Production) (o : Outline) (rule : (P, o) ∈ markers) (s : Settings)
    (uncapped : s.maxApplications = none) (host : Hypergraph) (reachable : host.Reachable)
    (w : host.WellFormed) :
    let M := images P.leftSide host o.elementKey
    let r := P.run s (M.length + 1) host
    (M.Nodup ∧ ∀ t, t ∈ M ↔ ∃ m ∈ P.leftSide.embeddings host, m.find? o.elementKey = some t) ∧
      r.halt = some .exhausted ∧ r.applications = M.length ∧ DifferInMarks o.tag M host r.host ∧
      ∀ rounds, let again := P.run s (rounds + 1) r.host
        again.applications = 0 ∧ again.halt = some .exhausted ∧ again.host = r.host := by
  obtain ⟨name, rfl, framed⟩ := exists_framed rule
  have c := reachable.coherent
  obtain ⟨final, ends, marked⟩ := framed.ends name s c w
  obtain ⟨trace, eq⟩ := Production.runFrom_of_ends uncapped (fun _ _ _ => rfl) ends 0
  have last : ((markElement name o).run s
      ((images (unmarked o) host o.elementKey).length + 1) host).host = final := congrArg Run.host eq
  refine ⟨⟨nodup_images .., fun t => framed.mem_images c⟩, (congrArg Run.halt eq :), ?_, ?_, ?_⟩
  · exact (congrArg Run.applications eq :).trans (Nat.zero_add _)
  · exact last ▸ .of_revised c marked.coherent marked.revised fun t => framed.source c
  · have none : ((markElement name o).choose s (unmarked o) final 0
        ((unmarked o).embeddings final)).1 = .none := by
      rw [marked.none_left]
      rfl
    rw [leftSide_markElement, last]
    exact Production.run_of_none none (Production.capReached?_of_uncapped uncapped 0)

/-- Two quads that share a side. -/
def pairOfQuads : List Operation :=
  let node (label : Label) : Node := { x := .zero, y := .zero, label }
  let ring (a b c d : Label) : List Operation :=
    [.addHyperedge (.side (node a) (node b)) false, .addHyperedge (.side (node b) (node c)) false,
      .addHyperedge (.side (node c) (node d)) false, .addHyperedge (.side (node d) (node a)) false,
      .addHyperedge (.quad (node a) (node b) (node c) (node d)) false]
  ring "a" "b" "c" "d" ++ ring "c" "b" "e" "f"

theorem run_marks_elements_pair :
    let host := Operation.build pairOfQuads
    let r := markQuad.run {} 3 host
    images markQuad.leftSide host Outline.quad.elementKey = ["Q_a_b_c_d", "Q_c_b_e_f"] ∧
      r.applications = 2 ∧ DifferInMarks "Q" ["Q_a_b_c_d", "Q_c_b_e_f"] host r.host ∧
      (markQuad.run {} 1 r.host).applications = 0 := by
  let host := Operation.build pairOfQuads
  have w : host.WellFormed := .build _ (by decide +kernel)
  have M : images markQuad.leftSide host Outline.quad.elementKey = ["Q_a_b_c_d", "Q_c_b_e_f"] := by
    decide +kernel
  have run := run_marks_elements markQuad .quad (by simp [markers]) {} rfl host (.build _) w
  simp only [M] at run
  obtain ⟨-, -, count, marks, again⟩ := run
  exact ⟨M, count, marks, (again 0).1⟩

end Hypermesh.Rules
