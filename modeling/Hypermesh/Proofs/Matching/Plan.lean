import Hypermesh.Embedding.Plan
import Mathlib.Data.Fintype.Card

/-!
The plan places every vertex of a pattern once. An anchor is a neighbour of the vertex that it is for.
-/

namespace Hypermesh

namespace Incidence

variable {n : Nat} {I : Incidence n} {placed : List (Fin n)} {v w : Fin n}

theorem next?_not_mem (h : I.next? placed = some v) : ¬ v ∈ placed := by
  unfold next? at h
  obtain ⟨best, -, last⟩ := Option.bind_eq_some_iff.1 h
  have waiting := (List.mem_filter.1 (List.maxOn?_mem last)).1
  simpa using (List.mem_filter.1 waiting).2

theorem mem_of_next?_eq_none (h : I.next? placed = none) (v : Fin n) : v ∈ placed := by
  by_contra waits
  have waiting : v ∈ (List.finRange n).filter (· ∉ placed) := by
    simpa using waits
  obtain ⟨best, eq⟩ := Option.isSome_iff_exists.1
    (List.isSome_maxOn?_of_mem waiting (f := I.links placed))
  have top : best ∈ ((List.finRange n).filter (· ∉ placed)).filter
      (I.links placed · = I.links placed best) :=
    List.mem_filter.2 ⟨List.maxOn?_mem eq, by simp⟩
  have next := List.isSome_maxOn?_of_mem top (f := I.degree)
  rw [next?, eq, Option.bind_some] at h
  rw [h] at next
  cases next

theorem adjacent_of_anchor? (h : I.anchor? placed v = some w) : I.Adjacent v w :=
  List.mem_of_find?_eq_some h

/-- A sequence of placements that goes on from `placed` until every vertex is placed. -/
inductive Completes (I : Incidence n) : List (Fin n) → List (Placement n) → Prop
  | done {placed : List (Fin n)} : (∀ v, v ∈ placed) → Completes I placed []
  | place {placed : List (Fin n)} {v : Fin n} {rest : List (Placement n)} : ¬ v ∈ placed →
      Completes I (v :: placed) rest → Completes I placed (⟨v, I.anchor? placed v⟩ :: rest)

theorem mem_of_nodup_of_le_length (nodup : placed.Nodup) (h : n ≤ placed.length) (v : Fin n) :
    v ∈ placed := by
  have card : placed.toFinset.card = Fintype.card (Fin n) := by
    have le := nodup.length_le_card
    rw [List.toFinset_card_of_nodup nodup, Fintype.card_fin]
    rw [Fintype.card_fin] at le
    exact Nat.le_antisymm le h
  rw [← List.mem_toFinset, Finset.eq_univ_of_card _ card]
  exact Finset.mem_univ v

theorem completes_planFrom (I : Incidence n) {steps : Nat} (nodup : placed.Nodup)
    (enough : n ≤ placed.length + steps) : I.Completes placed (I.planFrom steps placed) := by
  induction steps generalizing placed with
  | zero => exact .done (mem_of_nodup_of_le_length nodup enough)
  | succ steps ih =>
    rw [planFrom]
    cases eq : I.next? placed with
    | none => exact .done (mem_of_next?_eq_none eq)
    | some v =>
      have fresh := next?_not_mem eq
      apply Completes.place fresh
      apply ih (List.nodup_cons.2 ⟨fresh, nodup⟩)
      rw [List.length_cons]
      omega

theorem completes_plan (I : Incidence n) : I.Completes [] I.plan :=
  I.completes_planFrom List.nodup_nil (by simp)

theorem Completes.not_mem {rest : List (Placement n)} (h : I.Completes placed rest) :
    ∀ next ∈ rest, ¬ next.vertex ∈ placed := by
  induction h with
  | done _ =>
    intro next mem
    cases mem
  | place fresh _ ih =>
    intro next mem
    rcases List.mem_cons.1 mem with rfl | mem
    · exact fresh
    · intro old
      exact ih next mem (List.mem_cons_of_mem _ old)

end Incidence

end Hypermesh
