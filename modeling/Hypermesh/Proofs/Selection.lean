import Hypermesh.Proofs.Region
import Hypermesh.Script

/-!
Which embeddings a run applies. Every round below the cap applies the first embedding that is not
refused. A run that is exhausted leaves a host in which all embeddings are refused, so that applying the
production again changes nothing.
-/

namespace Hypermesh

namespace Production

open Hypermesh.Hypergraph

variable {P : Production} {s : Settings} {left host region : Hypergraph} {m : Embedding} {index : Nat}
  {before after : Run}

/-- Every embedding has its region, so none is stale. -/
theorem selected_or_none (P : Production) (s : Settings) (p : left.Coherent) (c : host.Coherent) :
    (∃ m region, (P.choose s left host 0 (left.embeddings host)).1 = .selected m region) ∨
      (P.choose s left host 0 (left.embeddings host)).1 = .none := by
  cases chosen : (P.choose s left host 0 (left.embeddings host)).1 with
  | none => exact Or.inr rfl
  | stale label => exact absurd chosen (choose_ne_stale (fun m => exists_region p c) label)
  | selected m region => exact Or.inl ⟨m, region, rfl⟩

/-- The embedding that is selected is the least one that is not refused. -/
theorem selected_iff (p : left.Coherent) (c : host.Coherent) :
    (P.choose s left host 0 (left.embeddings host)).1 = .selected m region ↔
      m ∈ left.embeddings host ∧ P.Admits s left host m region ∧
        ∀ m' ∈ left.embeddings host, m'.values < m.values → P.Refuses s left host m' := by
  have sorted := pairwise_embeddings p c
  rw [choose_eq_selected_iff]
  constructor
  · rintro ⟨admits, front, back, eq, refused⟩
    rw [eq] at sorted ⊢
    refine ⟨by simp, admits, fun m' mem lt => ?_⟩
    rcases List.mem_append.1 mem with mem | mem
    · exact refused m' mem
    · have after := List.pairwise_cons.1 (List.pairwise_append.1 sorted).2.1
      rcases List.mem_cons.1 mem with rfl | mem
      · exact absurd lt (List.lt_irrefl _)
      · exact absurd (List.lt_trans lt (after.1 m' mem)) (List.lt_irrefl _)
  · rintro ⟨mem, admits, refused⟩
    obtain ⟨front, back, eq⟩ := List.append_of_mem mem
    refine ⟨admits, front, back, eq, fun m' mem' => refused m' ?_ ?_⟩
    · exact eq ▸ List.mem_append_left _ mem'
    · rw [eq] at sorted
      exact (List.pairwise_append.1 sorted).2.2 m' mem' m List.mem_cons_self

/-- What another round makes of a run: the first embedding that is not refused is applied, and every
one before it is, or all are refused and the run ends. -/
inductive Advances (P : Production) (s : Settings) (before after : Run) : Prop
  | applies (front back : List Embedding) (m : Embedding) (region : Hypergraph) :
      P.leftSide.embeddings before.host = front ++ m :: back →
      (∀ m' ∈ front, P.Refuses s P.leftSide before.host m') →
      (s.consultAcceptance = false → front = []) →
      P.Admits s P.leftSide before.host m region →
      after.host = before.host.replace P.leftSide m (P.rightSide region before.applications) →
      after.applications = before.applications + 1 → after.halt = none → Advances P s before after
  | ends : (∀ m ∈ P.leftSide.embeddings before.host, P.Refuses s P.leftSide before.host m) →
      after.host = before.host → after.applications = before.applications →
      after.halt = some .exhausted → Advances P s before after

/-- Where nobody is asked, nothing is refused. -/
theorem eq_nil_of_refuses {ms : List Embedding} (unasked : s.consultAcceptance = false)
    (refused : ∀ m ∈ ms, P.Refuses s left host m) : ms = [] := by
  apply List.eq_nil_iff_forall_not_mem.2
  intro m mem
  have asked := (refused m mem).1
  rw [unasked] at asked
  cases asked

theorem Advances.congr {after' : Run} (advances : P.Advances s before after)
    (host : after'.host = after.host) (applications : after'.applications = after.applications)
    (halt : after'.halt = after.halt) : P.Advances s before after' := by
  cases advances with
  | applies front back m region eq refused unasked admits host' applications' halt' =>
    exact .applies front back m region eq refused unasked admits (host.trans host')
      (applications.trans applications') (halt.trans halt')
  | ends refused host' applications' halt' =>
    exact .ends refused (host.trans host') (applications.trans applications') (halt.trans halt')

theorem advances_runFrom (p : P.leftSide.Coherent) (c : before.host.Coherent)
    (below : s.capReached? before.applications = none) :
    P.Advances s before (P.runFrom s P.leftSide 1 before.applications before.host) := by
  rcases P.selected_or_none s p c with ⟨m, region, chosen⟩ | none
  · obtain ⟨admits, front, back, eq, refused⟩ := choose_eq_selected_iff.1 chosen
    rw [runFrom_applied below (round_of_selected before.applications chosen)]
    exact .applies front back m region eq refused (eq_nil_of_refuses · refused) admits rfl rfl rfl
  · rw [runFrom_halted below (round_of_none before.applications none)]
    exact .ends (choose_eq_none_iff.1 none) rfl rfl rfl

theorem advances_run (p : P.leftSide.Coherent) {rounds : Nat}
    (c : (P.run s rounds host).host.Coherent) (going : (P.run s rounds host).halt = none)
    (below : s.capReached? (P.run s rounds host).applications = none) :
    P.Advances s (P.run s rounds host) (P.run s (rounds + 1) host) := by
  have next := runFrom_add going 1
  apply (advances_runFrom p c below).congr
  · exact (congrArg Run.host next :)
  · exact (congrArg Run.applications next :)
  · exact (congrArg Run.halt next :)

/-- Where every embedding is refused, applying the production changes nothing. -/
theorem run_of_none (none : (P.choose s P.leftSide host 0 (P.leftSide.embeddings host)).1 = .none)
    (below : s.capReached? 0 = Option.none) (rounds : Nat) :
    (P.run s (rounds + 1) host).applications = 0 ∧
      (P.run s (rounds + 1) host).halt = some .exhausted ∧ (P.run s (rounds + 1) host).host = host := by
  have eq : P.runFrom s P.leftSide (rounds + 1) 0 host = ⟨host, 0, some .exhausted, _⟩ :=
    runFrom_halted below (round_of_none 0 none)
  exact ⟨(congrArg Run.applications eq :), (congrArg Run.halt eq :), (congrArg Run.host eq :)⟩

/-- In every round below the cap the first embedding is applied that is not refused. What an exhausted
run leaves has refused embeddings only, and a further run makes no application and no change. -/
theorem run_exhausts (P : Production) (s : Settings) (host : Hypergraph) (left : P.leftSide.Reachable)
    (reachable : host.Reachable) :
    (∀ rounds, (P.run s rounds host).halt = none →
      s.capReached? (P.run s rounds host).applications = none →
      P.Advances s (P.run s rounds host) (P.run s (rounds + 1) host)) ∧
    ∀ rounds, (P.run s rounds host).halt = some .exhausted →
      let final := (P.run s rounds host).host
      (∀ m ∈ P.leftSide.embeddings final, P.Refuses s P.leftSide final m) ∧
      (s.consultAcceptance = false → P.leftSide.embeddings final = []) ∧
      ∀ rounds', let again := P.run { s with maxApplications := none } (rounds' + 1) final
        again.applications = 0 ∧ again.halt = some .exhausted ∧ again.host = final := by
  refine ⟨?first, ?exhausted⟩
  case first =>
    intro rounds
    exact advances_run left.coherent (Coherent.kept.run P s rounds reachable.coherent)
  case exhausted =>
    intro rounds exhausted
    have none := none_of_exhausted exhausted
    have refused := choose_eq_none_iff.1 none
    refine ⟨refused, (eq_nil_of_refuses · refused), run_of_none ?_ rfl⟩
    -- The cap has no part in the choice.
    exact choose_eq_none_iff.2 refused

/-- Marks the sides of which neither end is `a`. -/
def polish : Production :=
  Script.production
    { name := "polish"
      left := Operation.build (chain ["u", "v"])
      conditions := [.notLabel "u" "a", .notLabel "v" "a"]
      actions := [.keep "E_u_v" { mark := some 1 }] }

theorem run_exhausts_polish :
    let host := Operation.build (chain ["a", "b", "c"])
    let final := (polish.run {} 2 host).host
    (polish.run {} 0 host).halt = none ∧
      polish.Advances {} (polish.run {} 0 host) (polish.run {} 1 host) ∧
      (polish.run {} 2 host).applications = 1 ∧ (polish.run {} 2 host).halt = some .exhausted ∧
      (polish.leftSide.embeddings final).map Table.values = [["a", "b", "E_a_b"], ["b", "a", "E_a_b"]] ∧
      (∀ m ∈ polish.leftSide.embeddings final, polish.Refuses {} polish.leftSide final m) ∧
      (polish.run {} 1 final).applications = 0 := by
  let host := Operation.build (chain ["a", "b", "c"])
  have going : (polish.run {} 0 host).halt = none := rfl
  have exhausted : (polish.run {} 2 host).halt = some .exhausted := by decide +kernel
  obtain ⟨first, last⟩ := run_exhausts polish {} host (Reachable.build _) (Reachable.build _)
  obtain ⟨refused, -, again⟩ := last 2 exhausted
  refine ⟨going, first 0 going rfl, ?_, exhausted, ?_, refused, (again 0).1⟩ <;> decide +kernel

end Production

end Hypermesh
