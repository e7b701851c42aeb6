import Hypermesh.Proofs.Persistence
import Hypermesh.Proofs.Refining
import Hypermesh.Proofs.Termination.Budget

/-!
The rules of the library always have an answer. A region shows a record under every key that a rule looks
up, whatever host it is taken from, so that no side fails to be assembled and the hyperedges that are taken
out are never left without others in their place.
-/

namespace Hypermesh

open Hypermesh.Hypergraph

variable {P : Production} {s : Settings} {g host region out : Hypergraph} {side : Side} {m : Embedding}
  {edges : List Hyperedge} {event : Event} {call : Call} {t u : Trace} {index rounds : Nat}

/-- A side that fails is empty. -/
theorem Side.eq_ok (nonempty : side.graph.isEmpty = false) : side = .ok side.graph := by
  cases side with
  | error _ => cases nonempty
  | ok g => rfl

/-! ### Events that report no error -/

/-- No event of the transcript reports an error. -/
def Trace.Quiet (t : Trace) : Prop := ∀ event ∈ t.events, event.level ≠ .error

theorem Trace.mem_events : event ∈ t.events ↔ .event event ∈ t := by
  rw [events, List.mem_filterMap]
  constructor
  · rintro ⟨entry, mem, eq⟩
    cases entry with
    | event e =>
      cases eq
      exact mem
    | call c => cases eq
  · exact fun mem => ⟨_, mem, rfl⟩

theorem Trace.Quiet.append (quiet : Quiet t) (quiet' : Quiet u) : Quiet (t ++ u) := by
  intro event mem
  rw [events_append, List.mem_append] at mem
  exact mem.elim (quiet event) (quiet' event)

theorem Trace.quiet_flatMap {α : Type} {f : α → Trace} {as : List α} (each : ∀ a ∈ as, Quiet (f a)) :
    Quiet (as.flatMap f) := by
  intro event mem
  obtain ⟨a, mem, inside⟩ := List.mem_flatMap.1 (mem_events.1 mem)
  exact each a mem event (mem_events.2 inside)

theorem Trace.quiet_map {events : List Event} (each : ∀ event ∈ events, event.level ≠ .error) :
    Quiet (events.map .event) := by
  intro event mem
  obtain ⟨e, mem, eq⟩ := List.mem_map.1 (mem_events.1 mem)
  cases eq
  exact each event mem

namespace Production

/-- The region has a record for every vertex of the left side. Over it the right side can be assembled,
and hyperedges come in for those that go. -/
structure Answers (P : Production) (region : Hypergraph) (index : Nat) : Prop where
  shown : P.leftSide.Shows region
  assembled : P.right region index = .ok (P.rightSide region index)
  nonempty : (P.rightSide region index).isEmpty = false
  replaced : (P.rightSide region index).hyperedges.isEmpty = false

/-- A right side that ends with the insertion of hyperedges. -/
theorem Answers.of_insertAll (shown : P.leftSide.Shows region) (c : g.Coherent) (nonempty : edges ≠ [])
    (written : P.rightSide region index = edges.foldl insertHyperedge g) : P.Answers region index := by
  obtain ⟨e, rest, rfl⟩ := List.exists_cons_of_ne_nil nonempty
  have stored : e.label ∈ (P.rightSide region index).hyperedges := by
    rw [written, mem_hyperedges_insertAll]
    exact Or.inr ⟨e, List.mem_cons_self, rfl⟩
  have coherent : (P.rightSide region index).Coherent := by
    rw [written]
    exact Coherent.kept.grows (.foldl grows_insertHyperedge _ g) c
  have filled : (P.rightSide region index).isEmpty = false := by
    rw [isEmpty_eq_false_iff, ← Table.length_keys]
    exact List.length_pos_of_mem ((coherent.mem_iff _).2 (Or.inr stored))
  refine ⟨shown, Side.eq_ok filled, filled, ?_⟩
  rw [Table.isEmpty, List.isEmpty_eq_false_iff, ← List.length_pos_iff, ← Table.size, ← Table.length_keys]
  exact List.length_pos_of_mem stored

theorem Answers.of_assemble {back new : List Hyperedge} {node : Node} (shown : P.leftSide.Shows region)
    (nonempty : new ≠ []) (written : P.rightSide region index = assemble back node new) :
    P.Answers region index := by
  have c : (back.foldl insertHyperedge ∅).Coherent :=
    Coherent.kept.grows (.foldl grows_insertHyperedge back ∅) .empty
  exact .of_insertAll shown (c.addNode node) nonempty written

/-! ### A run that gets its answers -/

/-- The production is told that regions are refused, which is no error. -/
theorem quiet_asking (P : Production) (s : Settings) (candidate : Nat) (shown : List Hypergraph) :
    Trace.Quiet (P.asking s candidate shown) := by
  refine .append (Trace.quiet_flatMap fun (region, i) _ => ?refused) ?accepted
  case refused =>
    intro event mem
    obtain rfl : event = .rejected P.name i := by simpa [rejection, Trace.events] using mem
    rintro ⟨⟩
  case accepted =>
    split
    · intro event mem
      simp [Trace.mem_events] at mem
    · exact List.forall_mem_nil _

theorem quiet_application (answers : P.Answers region index) :
    Trace.Quiet (P.application index region) := by
  intro event mem
  rw [application, answers.assembled] at mem
  obtain rfl : event = _ := by simpa [Side.events, Trace.events] using mem
  rintro ⟨⟩

/-- Whatever embedding is taken, the production answers. -/
def AlwaysAnswers (P : Production) : Prop :=
  ∀ region index, P.leftSide.Shows region → P.Answers region index

theorem quiet_iteration (always : P.AlwaysAnswers) (p : P.leftSide.Coherent) (c : host.Coherent)
    (index : Nat) : Trace.Quiet (P.iteration s index host) := by
  refine .append (.append (Trace.quiet_map ?searched) (P.quiet_asking s 0 _)) (Trace.quiet_flatMap ?applied)
  case searched =>
    intro event mem
    unfold searchEvents at mem
    split at mem
    · cases List.mem_singleton.1 mem
      rintro ⟨⟩
    · cases mem
  case applied =>
    intro region accepted
    obtain ⟨m, mem, eq⟩ := mem_regions.1 (mem_of_accepted? (Option.mem_toList.1 accepted))
    have embeds := ((mem_embeddings p c).1 mem).2
    exact quiet_application (always region index (embeds.shows p c eq))

theorem quiet_run (always : P.AlwaysAnswers) (left : P.left = .ok P.leftSide) (p : P.leftSide.Coherent)
    (c : host.Coherent) (rounds : Nat) : Trace.Quiet (P.run s rounds host).trace := by
  obtain ⟨n, recounts⟩ := runFrom_recounts (s := s) p c rounds 0
  have silent : P.left.events P.name = [] := by rw [left, Side.events]
  have whole : (P.run s rounds host).trace = .call .left :: (P.left.events P.name).map .event ++
      (P.runFrom s P.leftSide rounds 0 host).trace ++ (P.summary (P.run s rounds host)).map .event := rfl
  rw [whole, silent, recounts.trace]
  refine .append (.append ?left (.append (Trace.quiet_flatMap ?iterations) ?warning)) ?summary
  case left =>
    intro event mem
    cases mem
  case iterations =>
    intro i _
    exact quiet_iteration always p (Coherent.kept.run P s i c) _
  case warning =>
    refine Trace.quiet_flatMap fun halt _ => ?_
    intro event mem
    unfold warning at mem
    split at mem
    · obtain ⟨cap, -, rfl⟩ : ∃ cap, s.maxApplications = some cap ∧ .limitReached P.name cap = event := by
        simpa [Trace.mem_events] using mem
      rintro ⟨⟩
    · cases mem
  case summary =>
    apply Trace.quiet_map
    intro event mem
    unfold summary at mem
    split at mem
    · cases mem
    · cases List.mem_singleton.1 mem
      rintro ⟨⟩

end Production

/-! ### The rules of the library -/

namespace Rules

variable {o : Outline} {name : String}

theorem answers_markElement
    (kind : (markElement name o).leftSide.kindOf o.elementKey = .surrogate o.tag 0) :
    (markElement name o).AlwaysAnswers := by
  intro region index shows
  obtain ⟨element, found, -⟩ := exists_element shows.kind kind
  exact .of_insertAll shows .empty (by simp) (rightSide_markElement name index found)

theorem answers_markPentagonSides : markPentagonSides.AlwaysAnswers := by
  intro region index shows
  have kind : markPentagonSides.leftSide.kindOf Outline.pentagon.elementKey =
      .surrogate Outline.pentagon.tag 1 := by decide +kernel
  obtain ⟨element, found, -⟩ := exists_element shows.kind kind
  have written : markPentagonSides.rightSide region index =
      (element :: (sides region).map (·.withMark 1)).foldl insertHyperedge ∅ := by
    rw [rightSide_markPentagonSides found, List.foldl_cons]
  exact .of_insertAll shows .empty (by simp) written

theorem answers_halves {hanging : Hyperedge → Bool} (left : P.leftSide = splitSide.leftSide)
    (right : ∀ region index, P.right region index = halves hanging region) : P.AlwaysAnswers := by
  intro region index shows
  have kind : P.leftSide.kindOf sideKey = .surrogate sideTag 1 := by rw [left]; decide +kernel
  have vertex : corner 0 ∈ P.leftSide ∧ P.leftSide.kindOf (corner 0) = .regular := by
    rw [left]
    decide +kernel
  have vertex' : corner 1 ∈ P.leftSide ∧ P.leftSide.kindOf (corner 1) = .regular := by
    rw [left]
    decide +kernel
  obtain ⟨side, found, -⟩ := kindOf_eq_surrogate_iff.1 ((shows.kind _).trans kind)
  obtain ⟨a, shown⟩ := shows.node _ vertex.1 vertex.2
  obtain ⟨b, shown'⟩ := shows.node _ vertex'.1 vertex'.2
  have written : P.rightSide region index =
      assemble [] (middle hanging side a b) (halfEdges side a (middle hanging side a b) b) :=
    (rightSide_halves right found shown shown' index).trans (assemble_pair ..).symm
  exact .of_assemble shows (by simp [halfEdges]) written

theorem fanEdges_ne_nil {centre : Node} {ring : List (Node × Node)} (nonempty : ring ≠ []) :
    fanEdges centre (slices ring) ≠ [] := by
  intro none
  have slices_nil : slices ring = [] := List.eq_nil_iff_forall_not_mem.2 fun slice mem =>
    absurd (List.flatMap_eq_nil_iff.1 none slice mem) (by simp [sliceEdges])
  rw [← map_fst_slices ring, slices_nil] at nonempty
  exact nonempty rfl

theorem answers_breakElement (ringed : Ringed o) (name : String) (corners : o.splitKeys ≠ []) :
    (breakElement name o).AlwaysAnswers := by
  intro region index shows
  obtain ⟨element, node, found, -, -, shown⟩ := ringed.exists_ring shows
  exact .of_assemble shows (fanEdges_ne_nil (by simpa [nodeRing] using corners))
    (rightSide_breakElement name index found shown)

theorem always_answers : ∀ P ∈ all, P.AlwaysAnswers := by
  simp only [all, List.forall_mem_cons]
  exact ⟨answers_markElement (by decide +kernel), answers_halves rfl fun _ _ => rfl,
    answers_halves rfl fun _ _ => rfl, answers_markPentagonSides,
    answers_breakElement ringed_pentagon _ (by decide), answers_markElement (by decide +kernel),
    answers_breakElement ringed_hexagon _ (by decide), answers_markElement (by decide +kernel),
    List.forall_mem_nil _⟩

/-- No left side of the library is empty, so each of them has been assembled. -/
theorem isEmpty_leftSide : ∀ P ∈ all, P.leftSide.isEmpty = false := by
  simp only [all, List.forall_mem_cons]
  refine ⟨?_, ?_, ?_, ?_, ?_, ?_, ?_, ?_, List.forall_mem_nil _⟩ <;> decide +kernel

/-- The left sides of the library are assembled, and so are the right sides that they are answered with:
each key that is looked up is in the region, and hyperedges come in for those that are taken out. No run
of a rule reports an error, under any settings. -/
theorem library_answers (P : Production) (rule : P ∈ all) :
    (P.left = .ok P.leftSide ∧ P.leftSide.isEmpty = false) ∧
    ∀ host, host.Reachable →
      (∀ m ∈ P.leftSide.embeddings host, ∃ region, P.leftSide.region host m = .ok region ∧
        ∀ index, P.Answers region index) ∧
      ∀ s rounds, let r := P.run s rounds host
        (∀ event ∈ r.trace.events, event.level ≠ .error) ∧
        ∀ region index, .right region index ∈ r.trace.calls → P.Answers region index := by
  have p := (reachable_leftSide P rule).coherent
  have nonempty := isEmpty_leftSide P rule
  have left : P.left = .ok P.leftSide := Side.eq_ok nonempty
  have always := always_answers P rule
  have answers {g region : Hypergraph} {m : Embedding} (c : g.Coherent)
      (mem : m ∈ P.leftSide.embeddings g) (eq : P.leftSide.region g m = .ok region) (index : Nat) :
      P.Answers region index := by
    have embeds := ((mem_embeddings p c).1 mem).2
    exact always region index (embeds.shows p c eq)
  refine ⟨⟨left, nonempty⟩, fun host reachable => ⟨?embeddings, fun s rounds => ⟨?quiet, ?calls⟩⟩⟩
  case embeddings =>
    intro m mem
    obtain ⟨region, eq⟩ := exists_region p reachable.coherent mem
    exact ⟨region, eq, answers reachable.coherent mem eq⟩
  case quiet => exact P.quiet_run always left p reachable.coherent rounds
  case calls =>
    intro region index mem
    obtain ⟨r, -, m, mem, eq⟩ := Production.run_shows mem rfl
    exact answers (Coherent.kept.run P s r reachable.coherent) mem eq index

/-- A marked side is split though a node goes by its label. -/
theorem library_answers_namesake :
    let host := Operation.build Production.namesake
    let r := splitSide.run {} 2 host
    splitSide ∈ all ∧ host.Reachable ∧ r.applications = 1 ∧ (∀ event ∈ r.trace.events, event.level ≠ .error) ∧
      ∃ m region, m ∈ splitSide.leftSide.embeddings host ∧ splitSide.leftSide.region host m = .ok region ∧
        splitSide.Answers region 0 := by
  intro host r
  have rule : splitSide ∈ all := List.mem_cons_of_mem _ List.mem_cons_self
  have reachable : host.Reachable := .build _
  obtain ⟨-, answers⟩ := library_answers splitSide rule
  obtain ⟨embeddings, runs⟩ := answers host reachable
  have some : 0 < (splitSide.leftSide.embeddings host).length := by decide +kernel
  obtain ⟨m, mem⟩ := List.exists_mem_of_length_pos some
  obtain ⟨region, eq, answered⟩ := embeddings m mem
  exact ⟨rule, reachable, by decide +kernel, (runs {} 2).1, m, region, mem, eq, answered 0⟩

end Rules

end Hypermesh
