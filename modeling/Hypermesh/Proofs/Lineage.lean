import Hypermesh.Proofs.Euler

/-!
Where labels come from. All that the rules make up is made from labels that are in use. So two hosts whose
labels come from different names never come to share one, whatever is applied to either.
-/

namespace Hypermesh

namespace Label

variable {names names' : Label → Prop} {l : Label}

/-- Made from names by taking midpoints, and centres of hyperedges. -/
inductive From (names : Label → Prop) : Label → Prop
  | name {l : Label} : names l → From names l
  | midpoint {a b : Label} : From names a → From names b → From names (midpoint a b)
  | centre {tag : String} {members : List Label} : Sealed tag → members ≠ [] →
      (∀ l ∈ members, From names l) → From names (centre (hyperedge tag members))

namespace From

theorem mono (within : ∀ l, names l → names' l) (made : From names l) : From names' l := by
  induction made with
  | name mem => exact .name (within _ mem)
  | midpoint _ _ first second => exact .midpoint first second
  | centre tag some _ members => exact .centre tag some members

theorem sealed (plain : ∀ l, names l → Plain l) (made : From names l) : Sealed l := by
  induction made with
  | name mem => exact (plain _ mem).sealed
  | midpoint _ _ first second => exact sealed_midpoint first second
  | centre tag some _ members => exact sealed_centre tag members

/-- A label tells what it was made from. -/
theorem apart (plain : ∀ l, names l → Plain l) (plain' : ∀ l, names' l → Plain l)
    (apart : ∀ l, names l → ¬ names' l) (made : From names l) : ¬ From names' l := by
  -- However the label is made from the other names, it is the same way, and from the same parts.
  induction made with
  | name mem =>
    intro made'
    cases made' with
    | name mem' => exact apart _ mem mem'
    | midpoint => exact not_plain_midpoint _ _ (plain _ mem)
    | centre => exact not_plain_centre _ (plain _ mem)
  | @midpoint a b first second ih ih' =>
    intro made'
    generalize eq : Label.midpoint a b = l at made'
    cases made' with
    | name mem' => exact not_plain_midpoint a b (eq ▸ plain' _ mem')
    | midpoint first' second' =>
      rcases midpoint_injective (first.sealed plain) (second.sealed plain) (first'.sealed plain')
        (second'.sealed plain') eq with ⟨rfl, rfl⟩ | ⟨rfl, rfl⟩
      · exact ih first'
      · exact ih second'
    | centre => exact midpoint_ne_centre _ _ _ eq
  | @centre tag members sealed some made ih =>
    intro made'
    generalize eq : Label.centre (hyperedge tag members) = l at made'
    cases made' with
    | name mem' => exact not_plain_centre _ (eq ▸ plain' _ mem')
    | midpoint => exact midpoint_ne_centre _ _ _ eq.symm
    | centre sealed' _ made' =>
      obtain ⟨-, rfl⟩ := hyperedge_injective sealed sealed' (fun l mem => (made l mem).sealed plain)
        (fun l mem => (made' l mem).sealed plain') (centre_injective eq)
      obtain ⟨l, mem⟩ := List.exists_mem_of_ne_nil _ some
      exact ih l mem (made' l mem)

end From

end Label

namespace Rules

open Hypermesh.Hypergraph Label

variable {P : Production} {s : Settings} {g h f g' : Hypergraph} {names names' : Label → Prop} {n : Nat}
  {labels : List Label} {l : Label}

/-- A tidy host whose nodes are made from names. -/
structure Over (names : Label → Prop) (g : Hypergraph) : Prop where
  tidy : g.Tidy
  node : ∀ l ∈ g.nodes, From names l

/-! ### What the rules keep -/

theorem Effect.lineage (effect : Effect g h labels) (lineage : Over names g) : Over names h := by
  refine ⟨effect.tidy lineage.tidy, fun l mem => ?_⟩
  cases effect with
  | marks ts revised =>
    rw [mem_nodes_iff, revised.node, ← mem_nodes_iff] at mem
    exact lineage.node l mem
  | refines _ r x =>
    have known {e : Hyperedge} (stored : e ∈ g.hyperedges.values) : ∀ k ∈ e.memberLabels, From names k :=
      fun k member => lineage.node k (lineage.tidy.member stored member)
    rcases (x.mem_nodes_iff lineage.tidy.wellFormed).1 mem with rfl | mem
    · cases r with
      | halve a b stored _ joins label =>
        rw [label]
        exact .midpoint (known stored _ (joins.mem_iff.2 (Or.inl rfl)))
          (known stored _ (joins.mem_iff.2 (Or.inr rfl)))
      | fan stored =>
        exact .centre (lineage.tidy.tag _ stored) (Hyperedge.memberLabels_ne_nil _) (known stored)
    · exact lineage.node l mem

namespace Over

theorem step (lineage : Over names g) (step : Step g h) : Over names h := by
  obtain ⟨labels, effect⟩ := step.effect lineage.tidy
  exact effect.lineage lineage

theorem applies (lineage : Over names g) (rule : P ∈ all) (applies : P.Applies s g h) : Over names h := by
  obtain ⟨m, region, selects, rfl⟩ := applies
  obtain ⟨mem, shown, -⟩ := Production.choose_selected selects
  exact lineage.step (.apply 0 rule mem shown)

theorem steps (lineage : Over names g) (rule : P ∈ all) (steps : Relation.ReflTransGen (P.Applies s) g h) :
    Over names h := by
  induction steps with
  | refl => exact lineage
  | tail _ applies ih => exact ih.applies rule applies

theorem ends (lineage : Over names g) (rule : P ∈ all) (ends : P.Ends s g n f) : Over names f :=
  lineage.steps rule ends.steps

/-! ### Hosts over different names -/

/-- A label is that of a node or of a hyperedge over such. -/
theorem label (lineage : Over names g) (mem : l ∈ g) : From names l ∨ ∃ tag members, Sealed tag ∧
    members ≠ [] ∧ (∀ k ∈ members, From names k) ∧ l = hyperedge tag members := by
  rcases (lineage.tidy.coherent.mem_iff l).1 mem with mem | stored
  · exact Or.inl (lineage.node l mem)
  · obtain ⟨e, found⟩ := mem_hyperedges_iff.1 stored
    have mem : e ∈ g.hyperedges.values := Table.mem_values.2 ⟨l, found⟩
    refine Or.inr ⟨e.tag, e.memberLabels, lineage.tidy.tag e mem, e.memberLabels_ne_nil, ?_, ?_⟩
    · exact fun k member => lineage.node k (lineage.tidy.member mem member)
    · exact (lineage.tidy.wellFormed.hyperedge_label l e found).symm

variable (plain : ∀ l, names l → Plain l) (plain' : ∀ l, names' l → Plain l)
  (apart : ∀ l, names l → ¬ names' l)
include plain plain' apart

theorem separate (lineage : Over names g) (lineage' : Over names' g') : g.Separate g' := by
  intro l mem mem'
  rcases lineage.label mem with made | ⟨tag, members, sealed, some, made, rfl⟩
  · rcases lineage'.label mem' with made' | ⟨tag', members', sealed', some', made', rfl⟩
    · exact made.apart plain plain' apart made'
    · exact not_sealed_hyperedge sealed' some' (made.sealed plain)
  · rcases lineage'.label mem' with made' | ⟨tag', members', sealed', some', made', eq⟩
    · exact not_sealed_hyperedge sealed some (made'.sealed plain')
    · obtain ⟨-, rfl⟩ := hyperedge_injective sealed sealed' (fun l mem => (made l mem).sealed plain)
        (fun l mem => (made' l mem).sealed plain') eq
      obtain ⟨l, mem⟩ := List.exists_mem_of_ne_nil _ some
      exact (made l mem).apart plain plain' apart (made' l mem)

/-- Hosts over different names never come to share a label. -/
theorem foreign (rule : P ∈ all) (lineage : Over names g) (lineage' : Over names' g') : P.Foreign s g g' := by
  rintro l ⟨h, steps, mem⟩ ⟨h', steps', mem'⟩
  exact (lineage.steps rule steps).separate plain plain' apart (lineage'.steps rule steps') l mem mem'

end Over

end Rules

end Hypermesh
