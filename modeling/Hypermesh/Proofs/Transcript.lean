import Hypermesh.Proofs.InducedRegion

/-!
The transcript of a run. The calls to the production and the reported events are those of its iterations,
one after the other, between the call for the left side and the summary. What an iteration leaves in the
transcript depends on its host, its number and the answers of the production alone.
-/

namespace Hypermesh

/-- A run looks for a match once for each application, and once more where it finds none. -/
def Run.iterations (r : Run) : Nat := r.applications + if r.halt = some .exhausted then 1 else 0

/-- The region that a choice has selected. -/
def Choice.region? : Choice → Option Hypergraph
  | .none => Option.none
  | .stale _ => Option.none
  | .selected _ region => some region

namespace Hypergraph

variable {left host region : Hypergraph} {m : Embedding} {ms : List Embedding}

/-- The regions of candidates, in the order of the candidates. -/
def regions (left host : Hypergraph) (ms : List Embedding) : List Hypergraph :=
  ms.filterMap fun m => (left.region host m).toOption

theorem regions_cons (found : left.region host m = .ok region) (ms : List Embedding) :
    left.regions host (m :: ms) = region :: left.regions host ms := by
  rw [regions, List.filterMap_cons_some (b := region)]
  · rfl
  · rw [found]
    rfl

/-- What a search reports is what there is: each vertex is a node or a hyperedge, the candidates are all
embeddings, once each and by the labels they select, and each has its region. -/
structure Surveys (left host : Hypergraph) : Prop where
  vertices : ∀ l, l ∈ host ↔ l ∈ host.nodes ∨ l ∈ host.hyperedges
  candidates : ∀ m, m ∈ left.embeddings host ↔ left.isEmpty = false ∧ left.Embeds host m
  ordered : (left.embeddings host).Pairwise (·.values < ·.values)
  shown : (left.embeddings host).map (left.region host) =
    (left.regions host (left.embeddings host)).map .ok

theorem mem_regions : region ∈ left.regions host ms ↔ ∃ m ∈ ms, left.region host m = .ok region := by
  rw [regions, List.mem_filterMap]
  refine exists_congr fun m => and_congr_right fun _ => ?_
  cases left.region host m <;> simp [Except.toOption]

theorem map_region (found : ∀ m ∈ ms, ∃ region, left.region host m = .ok region) :
    ms.map (left.region host) = (left.regions host ms).map .ok := by
  induction ms with
  | nil => rfl
  | cons m ms ih =>
    obtain ⟨⟨region, head⟩, tail⟩ := List.forall_mem_cons.1 found
    rw [regions_cons head, List.map_cons, List.map_cons, head, ih tail]

theorem surveys (p : left.Coherent) (c : host.Coherent) : left.Surveys host where
  vertices := c.mem_iff
  candidates _ := mem_embeddings p c
  ordered := pairwise_embeddings p c
  shown := map_region fun _ => exists_region p c

/-- Every hyperedge of the pattern has its image. -/
theorem length_matched (p : left.Coherent) (embeds : left.Embeds host m) :
    (left.matched m).length = left.hyperedges.size := by
  have image (key : Label) (stored : key ∈ left.hyperedges.keys) : (m.find? key).isSome := by
    obtain ⟨t, eq⟩ := embeds.exists_image ((p.mem_iff key).2 (Or.inr stored))
    rw [eq]
    rfl
  rw [matched, List.length_filterMap_eq_countP, List.countP_eq_length.2 image, Table.keys, List.length_map,
    Table.size]

end Hypergraph

namespace Production

open Hypermesh.Hypergraph

variable {P : Production} {s : Settings} {left host g region : Hypergraph} {m : Embedding}
  {ms : List Embedding} {shown : List Hypergraph} {candidate index rounds : Nat}

/-- The regions that are refused before one is accepted. Where nobody is asked, there is none. -/
def refused (P : Production) (s : Settings) (shown : List Hypergraph) : List Hypergraph :=
  if s.consultAcceptance then shown.takeWhile fun region => !P.accepts region else []

/-- The first region that is accepted, or the first at all where nobody is asked. -/
def accepted? (P : Production) (s : Settings) (shown : List Hypergraph) : Option Hypergraph :=
  if s.consultAcceptance then shown.find? P.accepts else shown.head?

def rejection (P : Production) (region : Hypergraph) (candidate : Nat) : Trace :=
  [.call (.accepts region false), .event (.rejected P.name candidate)]

/-- The production is asked about one region after the other, up to the first that it accepts. -/
def asking (P : Production) (s : Settings) (candidate : Nat) (shown : List Hypergraph) : Trace :=
  ((P.refused s shown).zipIdx candidate).flatMap (fun (region, i) => P.rejection region i) ++
    if s.consultAcceptance then
      (P.accepted? s shown).toList.map fun region => .call (.accepts region true)
    else []

/-- The right side is asked for once. It may report that it cannot be assembled. -/
def application (P : Production) (index : Nat) (region : Hypergraph) : Trace :=
  .call (.right region index) :: ((P.right region index).events P.name).map .event ++
    [.event (.applied P.name index P.leftSide.hyperedges.size (P.rightSide region index).hyperedges.size)]

/-- The regions of all candidates in a host. -/
def shownIn (P : Production) (host : Hypergraph) : List Hypergraph :=
  P.leftSide.regions host (P.leftSide.embeddings host)

/-- One iteration: the search, the questions, and the application if a region is accepted. -/
def iteration (P : Production) (s : Settings) (index : Nat) (host : Hypergraph) : Trace :=
  (P.leftSide.searchEvents host (P.leftSide.embeddings host)).map .event ++
    P.asking s 0 (P.shownIn host) ++
      (P.accepted? s (P.shownIn host)).toList.flatMap (P.application index)

/-- The warning with which a run ends at the cap. -/
def warning (P : Production) (s : Settings) (halt : Halt) : Trace :=
  if halt = .limit then s.maxApplications.toList.map fun cap => .event (.limitReached P.name cap) else []

/-- How the transcript of a run ends, if the run does. -/
def closing (P : Production) (s : Settings) (r : Run) : Trace :=
  match r.halt with
  | none => []
  | some halt => P.warning s halt ++
    [.event (.finished P.name r.applications halt r.host.counts (Digest.short r.host.digest))]

/-! ### The questions -/

theorem asking_nil (candidate : Nat) : P.asking s candidate [] = [] := by
  cases asked : s.consultAcceptance <;> simp [asking, refused, accepted?, asked]

theorem asking_of_unasked (unasked : s.consultAcceptance = false) (candidate : Nat)
    (shown : List Hypergraph) : P.asking s candidate shown = [] := by
  simp [asking, refused, unasked]

theorem asking_cons_of_accepted (asked : s.consultAcceptance = true) (accepted : P.accepts region = true) :
    P.asking s candidate (region :: shown) = [.call (.accepts region true)] := by
  simp [asking, refused, accepted?, asked, accepted]

theorem asking_cons_of_refused (asked : s.consultAcceptance = true) (refuses : P.accepts region = false) :
    P.asking s candidate (region :: shown) =
      P.rejection region candidate ++ P.asking s (candidate + 1) shown := by
  simp [asking, refused, accepted?, asked, refuses]

theorem accepted?_cons_of_refused (asked : s.consultAcceptance = true)
    (refuses : P.accepts region = false) : P.accepted? s (region :: shown) = P.accepted? s shown := by
  simp [accepted?, asked, refuses]

theorem mem_of_accepted? (eq : P.accepted? s shown = some region) : region ∈ shown := by
  unfold accepted? at eq
  split at eq
  · exact List.mem_of_find?_eq_some eq
  · exact List.mem_of_head? eq

/-- What the choice leaves in the transcript, and which region it comes to. -/
theorem choose_transcript (found : ∀ m ∈ ms, ∃ region, left.region host m = .ok region)
    (candidate : Nat) :
    (P.choose s left host candidate ms).2 = P.asking s candidate (left.regions host ms) ∧
      (P.choose s left host candidate ms).1.region? = P.accepted? s (left.regions host ms) := by
  induction ms generalizing candidate with
  | nil =>
    refine ⟨(asking_nil candidate).symm, ?_⟩
    cases asked : s.consultAcceptance <;> simp [choose, accepted?, asked, Choice.region?, regions]
  | cons m ms ih =>
    obtain ⟨⟨region, head⟩, tail⟩ := List.forall_mem_cons.1 found
    obtain ⟨trace, choice⟩ := ih tail (candidate + 1)
    rw [regions_cons head, choose, head]
    cases asked : s.consultAcceptance with
    | false =>
      rw [asking_of_unasked asked]
      simp [accepted?, asked, Choice.region?]
    | true =>
      cases answer : P.accepts region with
      | true =>
        rw [asking_cons_of_accepted asked answer]
        simp [accepted?, asked, answer, Choice.region?]
      | false =>
        rw [asking_cons_of_refused asked answer, accepted?_cons_of_refused asked answer, ← trace, ← choice]
        simp [rejection, answer]

/-! ### One iteration and all of them -/

theorem round_transcript (p : P.leftSide.Coherent) (c : host.Coherent) (index : Nat) :
    (P.round s P.leftSide host index).2 = P.iteration s index host := by
  obtain ⟨trace, choice⟩ := choose_transcript (P := P) (s := s) (fun m => exists_region p c (m := m)) 0
  rw [round, iteration, shownIn, ← trace, ← choice]
  cases chosen : P.choose s P.leftSide host 0 (P.leftSide.embeddings host) with
  | mk next trace =>
    cases next with
    | none => simp [Choice.region?]
    | stale label =>
      have known : ∀ m ∈ P.leftSide.embeddings host, ∃ region, P.leftSide.region host m = .ok region :=
        fun m => exists_region p c
      exact absurd (congrArg Prod.fst chosen) (choose_ne_stale known label)
    | selected m region =>
      have mem := (choose_selected (congrArg Prod.fst chosen)).1
      have removed := length_matched p ((mem_embeddings p c).1 mem).2
      rw [matched] at removed
      simp [Choice.region?, applyAt, application, removed, rightSide]

/-- A round goes on with another host just if a region is accepted, and ends the run for want of one. -/
theorem round_outcome (p : P.leftSide.Coherent) (c : host.Coherent) (index : Nat) :
    (P.round s P.leftSide host index).1 = .halted .exhausted ∧ P.accepted? s (P.shownIn host) = none ∨
      ∃ m region, (P.round s P.leftSide host index).1 =
          .applied (host.replace P.leftSide m (P.rightSide region index)) ∧
        P.accepted? s (P.shownIn host) = some region := by
  have choice := (choose_transcript (P := P) (s := s) (fun m => exists_region p c (m := m)) 0).2
  rw [shownIn, ← choice]
  rcases P.selected_or_none s p c with ⟨m, region, chosen⟩ | none
  · exact Or.inr ⟨m, region, round_of_selected index chosen, by rw [chosen, Choice.region?]⟩
  · exact Or.inl ⟨round_of_none index none, by rw [none, Choice.region?]⟩

theorem capReached?_eq_some_iff {cap : Nat} :
    s.capReached? index = some cap ↔ s.maxApplications = some cap ∧ cap ≤ index := by
  rw [Settings.capReached?, Option.filter_eq_some_iff, decide_eq_true_eq]

/-- Where an iteration starts, of a run that makes `total` applications: as many have been made as its number
says, and it makes another one if it accepts a region. -/
structure Iterates (P : Production) (s : Settings) (i total : Nat) (before : Run) : Prop where
  number : before.applications = i
  below : s.capReached? i = none
  applies : i < total ↔ (P.accepted? s (P.shownIn before.host)).isSome

/-- What is known of a run that starts with a number and has `n` iterations. They go on from this number,
and only the warning may come after them. -/
structure Recounts (P : Production) (s : Settings) (index : Nat) (g : Hypergraph) (r : Run) (n : Nat) :
    Prop where
  start : index ≤ r.applications
  iterations : r.iterations = index + n
  trace : r.trace = (List.range n).flatMap
    (fun i => P.iteration s (index + i) (P.runFrom s P.leftSide i index g).host) ++
      r.halt.toList.flatMap (P.warning s)
  each : ∀ i < n, P.Iterates s (index + i) r.applications (P.runFrom s P.leftSide i index g)
  limit : r.halt = some .limit → ∃ cap, s.capReached? r.applications = some cap

/-- A round that goes on comes before the iterations of the rest. -/
theorem Recounts.step {r : Run} {n : Nat} (p : P.leftSide.Coherent) (c : g.Coherent)
    (below : s.capReached? index = none)
    (eq : (P.round s P.leftSide g index).1 = .applied host)
    (accepted : (P.accepted? s (P.shownIn g)).isSome) (rest : P.Recounts s (index + 1) host r n) :
    P.Recounts s index g { r with trace := (P.round s P.leftSide g index).2 ++ r.trace } (n + 1) where
  start := Nat.le_of_succ_le rest.start
  iterations := by
    rw [Nat.add_comm n, ← Nat.add_assoc]
    exact rest.iterations
  trace := by
    have later (i : Nat) : P.runFrom s P.leftSide (i + 1) index g = _ := runFrom_applied below eq
    rw [List.range_succ_eq_map, List.flatMap_cons, List.flatMap_map]
    simp only [later, round_transcript p c, rest.trace, Nat.add_zero, List.append_assoc,
      Nat.succ_eq_add_one, Nat.add_assoc, Nat.add_comm 1]
    rfl
  each i lt := by
    cases i with
    | zero => exact ⟨rfl, below, iff_of_true rest.start accepted⟩
    | succ i =>
      have later := rest.each i (Nat.lt_of_succ_lt_succ lt)
      rw [runFrom_applied below eq, ← Nat.add_assoc, Nat.add_right_comm]
      exact ⟨later.number, later.below, later.applies⟩
  limit := rest.limit

theorem runFrom_recounts (p : P.leftSide.Coherent) (c : g.Coherent) (rounds index : Nat) :
    ∃ n, P.Recounts s index g (P.runFrom s P.leftSide rounds index g) n := by
  induction rounds generalizing index g with
  | zero => exact ⟨0, Nat.le_refl index, rfl, rfl, nofun, nofun⟩
  | succ rounds ih =>
    cases reached : s.capReached? index with
    | some cap =>
      obtain ⟨eq, -⟩ := capReached?_eq_some_iff.1 reached
      rw [runFrom_limit reached]
      exact ⟨0, Nat.le_refl index, rfl, by simp [warning, eq], nofun, fun _ => ⟨cap, reached⟩⟩
    | none =>
      rcases round_outcome (s := s) p c index with ⟨eq, none⟩ | ⟨m, region, eq, accepted⟩
      · rw [runFrom_halted reached eq, round_transcript p c]
        refine ⟨1, Nat.le_refl index, rfl, by simp [warning, runFrom], fun i lt => ?_, nofun⟩
        obtain rfl := Nat.lt_one_iff.1 lt
        exact ⟨rfl, reached, iff_of_false (Nat.lt_irrefl index) (by simp [runFrom, none])⟩
      · obtain ⟨n, rest⟩ := ih (Coherent.kept.replace P.leftSide m _ c) (index + 1)
        rw [runFrom_applied reached eq]
        exact ⟨n + 1, rest.step p c reached eq (by rw [accepted]; rfl)⟩

/-- A run without a cap ends for want of a candidate, if it ends. -/
theorem exhausted_of_halted (uncapped : s.maxApplications = none) (p : P.leftSide.Coherent)
    (c : g.Coherent) (halted : (P.runFrom s P.leftSide rounds index g).halt.isSome) :
    (P.runFrom s P.leftSide rounds index g).halt = some .exhausted := by
  obtain ⟨halt, eq⟩ := Option.isSome_iff_exists.1 halted
  cases halt with
  | exhausted => exact eq
  | staleMatch => exact absurd eq (runFrom_ne_stale p c rounds index)
  | limit =>
    obtain ⟨n, recounts⟩ := runFrom_recounts (s := s) p c rounds index
    obtain ⟨cap, reached⟩ := recounts.limit eq
    rw [(capReached?_eq_some_iff.1 reached).1] at uncapped
    cases uncapped

/-- The transcript of a run is that of its iterations, between the call for the left side and the summary.
Each iteration searches its host below the cap and has the number of the applications before it. All of
them apply the production, but for the last one of a run that is exhausted. -/
theorem run_transcript (P : Production) (s : Settings) (rounds : Nat) (host : Hypergraph)
    (left : P.leftSide.Reachable) (reachable : host.Reachable) :
    let r := P.run s rounds host
    r.trace = .call .left :: (P.left.events P.name).map .event ++
        (List.range r.iterations).flatMap (fun i => P.iteration s i (P.run s i host).host) ++
          P.closing s r ∧
      (∀ i < r.iterations, P.Iterates s i r.applications (P.run s i host) ∧
        P.leftSide.Surveys (P.run s i host).host) ∧
      r.halt ≠ some .staleMatch ∧
      (r.halt = some .limit → s.maxApplications = some r.applications) := by
  intro r
  obtain ⟨n, -, number, trace, each, limit⟩ :=
    runFrom_recounts (s := s) left.coherent reachable.coherent rounds 0
  simp only [Nat.zero_add] at number trace each
  have iterations : r.iterations = n := number
  refine ⟨?trace, ?iterations, runFrom_ne_stale left.coherent reachable.coherent rounds 0, ?limit⟩
  case trace =>
    have closing : P.closing s r = r.halt.toList.flatMap (P.warning s) ++ (P.summary r).map .event := by
      cases halt : r.halt <;> simp [closing, summary, halt]
    have whole : r.trace = .call .left :: (P.left.events P.name).map .event ++
        (P.runFrom s P.leftSide rounds 0 host).trace ++ (P.summary r).map .event := rfl
    rw [whole, trace, closing, iterations, ← List.append_assoc, ← List.append_assoc]
    rfl
  case iterations =>
    intro i lt
    have start := each i (iterations ▸ lt)
    exact ⟨⟨start.number, start.below, start.applies⟩,
      surveys left.coherent (Coherent.kept.run P s i reachable.coherent)⟩
  case limit =>
    intro halted
    obtain ⟨cap, reached⟩ := limit halted
    obtain ⟨eq, le⟩ := capReached?_eq_some_iff.1 reached
    have all : r.applications = n := by simpa [Run.iterations, halted] using iterations
    -- The iteration before was below the cap.
    have ge : r.applications ≤ cap := by
      by_contra gt
      have before := (each cap (by omega)).below
      rw [capReached?_eq_some_iff.2 ⟨eq, Nat.le_refl cap⟩] at before
      cases before
    rw [eq, show r.applications = cap from Nat.le_antisymm ge le]

theorem run_transcript_polish :
    let host := Operation.build (chain ["a", "b", "c"])
    let r := polish.run {} 2 host
    r.iterations = 2 ∧
      r.trace = .call .left :: polish.iteration {} 0 host ++
        polish.iteration {} 1 (polish.run {} 1 host).host ++ polish.closing {} r ∧
      (polish.iteration {} 0 host).events =
        [.searched 3 5 4, .rejected "polish" 0, .rejected "polish" 1, .applied "polish" 0 1 1] ∧
      (polish.iteration {} 1 (polish.run {} 1 host).host).events =
        [.searched 3 5 2, .rejected "polish" 0, .rejected "polish" 1] ∧
      polish.Iterates {} 1 r.applications (polish.run {} 1 host) := by
  intro host r
  have iterations : r.iterations = 2 := by decide +kernel
  obtain ⟨trace, each, -, -⟩ :=
    run_transcript polish {} 2 host (Reachable.build _) (Reachable.build _)
  refine ⟨iterations, ?_, by decide +kernel, by decide +kernel, (each 1 (by rw [iterations]; decide)).1⟩
  have silent : polish.left.events polish.name = [] := rfl
  have start : (polish.run {} 0 host).host = host := rfl
  rw [trace, iterations, silent, List.range_succ, List.range_one, List.flatMap_append,
    List.flatMap_singleton, List.flatMap_singleton, start]
  simp only [List.map_nil, List.cons_append, List.nil_append, List.append_assoc, r]

end Production

end Hypermesh
