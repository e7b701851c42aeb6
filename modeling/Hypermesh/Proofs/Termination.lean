import Hypermesh.Proofs.Library
import Hypermesh.Proofs.Termination.Rules

/-!
The library terminates. Every application of one of its rules lowers the work that the hyperedges of the
host hold, whichever rule and match are taken, so that no sequence of applications goes on for ever and
the sweeps over the library come to one that applies nothing.
-/

namespace Hypermesh.Rules

open Hypermesh.Hypergraph
open scoped List

variable {bound rounds sweeps : Nat} {g h : Hypergraph} {P : Production} {Ps : List Production}
  {s : Settings}

/-- An application of some rule of the library at some embedding, accepted or not. -/
inductive Step : Hypergraph → Hypergraph → Prop
  | apply {P : Production} {g region : Hypergraph} {m : Embedding} (index : Nat) : P ∈ all →
      m ∈ P.leftSide.embeddings g → P.leftSide.region g m = .ok region →
      Step g (g.replace P.leftSide m (P.rightSide region index))

/-- The work that the rules can still do. -/
def potential (bound : Nat) (g : Hypergraph) : Nat := load bound g.hyperedges.values

/-- What an application keeps while the potential falls. -/
structure Ready (bound : Nat) (g : Hypergraph) : Prop where
  labelled : g.Labelled
  bounded : Bounded bound g.hyperedges.values

theorem Ready.build (os : List Operation) : ∃ bound, Ready bound (Operation.build os) := by
  obtain ⟨bound, bounded⟩ := exists_bounded (Operation.build os).hyperedges.values
  exact ⟨bound, Labelled.kept.performAll os Labelled.empty, bounded⟩

theorem Step.drops (step : Step g h) (ready : Ready bound g) :
    Ready bound h ∧ potential bound h < potential bound g := by
  obtain @⟨P, g, region, m, index, mem, found, shown⟩ := step
  have p := (reachable_leftSide P mem).coherent
  have depicts := ready.labelled.depicts p found shown
  obtain ⟨kept, whole, rest⟩ :=
    values_replace p ready.labelled.coherent found shown (P.rightSide region index)
  have inside : region.hyperedges.values ⊆ g.hyperedges.values := fun e mem =>
    whole.mem_iff.2 (List.mem_append_left _ mem)
  have outside : kept ⊆ g.hyperedges.values := fun e mem =>
    whole.mem_iff.2 (List.mem_append_right _ mem)
  obtain ⟨es, written, bounded, lighter⟩ :=
    lightens_all P mem bound region index depicts (ready.bounded.subset inside)
  have after := rest.trans ((List.subperm_append_right kept).2 written)
  refine ⟨⟨?labelled, ?bounded⟩, ?lower⟩
  case labelled => exact Labelled.kept.replace P.leftSide m _ ready.labelled
  case bounded => exact (bounded.append (ready.bounded.subset outside)).subset after.subset
  case lower =>
    calc
      potential bound _ ≤ load bound es + load bound kept := by
        rw [← load_append]
        exact load_le bound after
      _ < load bound region.hyperedges.values + load bound kept := Nat.add_lt_add_right lighter _
      _ = potential bound g := by rw [← load_append, potential, load_perm whole]

theorem Ready.no_infinite_sequence (ready : Ready bound g) :
    ¬ ∃ f : Nat → Hypergraph, f 0 = g ∧ ∀ n, Step (f n) (f (n + 1)) := by
  rintro ⟨f, rfl, steps⟩
  have fallen (n : Nat) : Ready bound (f n) ∧ potential bound (f n) + n ≤ potential bound (f 0) := by
    induction n with
    | zero => exact ⟨ready, Nat.le_refl _⟩
    | succ n ih =>
      obtain ⟨next, lower⟩ := (steps n).drops ih.1
      exact ⟨next, by omega⟩
  have beyond := (fallen (potential bound (f 0) + 1)).2
  omega

/-! ### Sweeps -/

/-- The host and the number of applications when a rule has halted, if it has by then. -/
def exhaust? (s : Settings) (rounds : Nat) (P : Production) (g : Hypergraph) :
    Option (Hypergraph × Nat) :=
  let r := P.run s rounds g
  if r.halt.isSome then some (r.host, r.applications) else none

/-- Runs one rule after the other, and counts their applications. -/
def sweep? (s : Settings) (rounds : Nat) : List Production → Hypergraph → Option (Hypergraph × Nat)
  | [], g => some (g, 0)
  | P :: Ps, g => do
    let (h, n) ← exhaust? s rounds P g
    let (f, n') ← sweep? s rounds Ps h
    return (f, n + n')

/-- Sweeps over the library until one applies nothing, if that happens in time. -/
def settle? (s : Settings) (rounds : Nat) : (sweeps : Nat) → Hypergraph → Option Hypergraph
  | 0, _ => none
  | sweeps + 1, g => do
    let (h, n) ← sweep? s rounds all g
    if n = 0 then return h else settle? s rounds sweeps h

theorem runFrom_drops (mem : P ∈ all) (ready : Ready bound g) (enough : potential bound g < rounds)
    (index : Nat) :
    let r := P.runFrom s P.leftSide rounds index g
    r.halt.isSome ∧ Ready bound r.host ∧
      potential bound r.host + r.applications ≤ potential bound g + index := by
  intro r
  have step (index : Nat) (g host : Hypergraph) (ready : Ready bound g)
      (eq : (P.round s P.leftSide g index).1 = .applied host) :
      Ready bound host ∧ potential bound host + 1 ≤ potential bound g := by
    obtain ⟨m, region, chosen, rfl⟩ := Production.selected_of_round eq
    obtain ⟨found, shown, -⟩ := Production.choose_selected chosen
    exact (Step.apply index mem found shown).drops ready
  obtain ⟨last, fallen, halted⟩ := Production.runFrom_lowers Nat.one_pos step rounds index ready
  rw [Nat.one_mul, Nat.one_mul] at fallen
  exact ⟨halted enough, last, fallen⟩

theorem exhaust?_drops (mem : P ∈ all) (ready : Ready bound g) (enough : potential bound g < rounds) :
    ∃ h n, exhaust? s rounds P g = some (h, n) ∧ Ready bound h ∧
      potential bound h + n ≤ potential bound g := by
  obtain ⟨halted, last, fallen⟩ := runFrom_drops (s := s) mem ready enough 0
  exact ⟨_, _, if_pos halted, last, fallen⟩

theorem sweep?_drops (sub : Ps ⊆ all) (ready : Ready bound g) (enough : potential bound g < rounds) :
    ∃ h n, sweep? s rounds Ps g = some (h, n) ∧ Ready bound h ∧
      potential bound h + n ≤ potential bound g := by
  induction Ps generalizing g with
  | nil => exact ⟨g, 0, rfl, ready, Nat.le_refl _⟩
  | cons P Ps ih =>
    obtain ⟨mem, sub⟩ := List.cons_subset.1 sub
    obtain ⟨h, n, first, ready, fallen⟩ := exhaust?_drops (s := s) mem ready enough
    obtain ⟨f, n', rest, ready, fallen'⟩ := ih sub ready (by omega)
    refine ⟨f, n + n', ?_, ready, by omega⟩
    rw [sweep?, first]
    simp only [Option.bind_eq_bind, Option.bind_some, rest]
    rfl

theorem settle?_isSome (ready : Ready bound g) (enough : potential bound g < rounds)
    (enough' : potential bound g < sweeps) : ∃ f, settle? s rounds sweeps g = some f := by
  induction sweeps generalizing g with
  | zero => cases enough'
  | succ sweeps ih =>
    obtain ⟨h, n, swept, ready, fallen⟩ :=
      sweep?_drops (s := s) (List.Subset.refl all) ready enough
    rw [settle?, swept]
    by_cases idle : n = 0
    · exact ⟨h, by simp [idle]⟩
    · obtain ⟨f, settled⟩ := ih ready (by omega) (by omega)
      exact ⟨f, by simp [idle, settled]⟩

/-- From no host can the rules of the library be applied for ever, in whatever order and at whatever
matches. So the sweeps over the library settle, under all settings. -/
theorem library_terminates (os : List Operation) :
    (¬ ∃ f : Nat → Hypergraph, f 0 = Operation.build os ∧ ∀ n, Step (f n) (f (n + 1))) ∧
      ∀ s, ∃ rounds sweeps f, settle? s rounds sweeps (Operation.build os) = some f := by
  obtain ⟨bound, ready⟩ := Ready.build os
  refine ⟨ready.no_infinite_sequence, fun s => ?_⟩
  exact ⟨_, _, settle?_isSome ready (Nat.lt_succ_self _) (Nat.lt_succ_self _)⟩

/-- The halves of a split side are left as they are. -/
example : (settle? {} 2 2 splitSide.leftSide).map (·.hyperedges.keys) =
    some ["E_n1_mid(n1|n2)", "E_mid(n1|n2)_n2"] := by decide +kernel

end Hypermesh.Rules
