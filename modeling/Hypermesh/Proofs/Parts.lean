import Hypermesh.Proofs.Lineage

/-!
What two hosts that share no label have in common with their union. It holds the records of both, and is
well-formed, straight and plain where they are.
-/

namespace Hypermesh

open scoped List

theorem Table.values_perm_append {β : Type} {t t₁ t₂ : Table β} {name : β → Label}
    (named₁ : ∀ key value, t₁.find? key = some value → name value = key)
    (named₂ : ∀ key value, t₂.find? key = some value → name value = key)
    (found : ∀ l, t.find? l = (t₁.find? l <|> t₂.find? l)) (apart : ∀ l ∈ t₁, ¬ l ∈ t₂) :
    t.values ~ t₁.values ++ t₂.values := by
  have found_iff (l : Label) (value : β) :
      t.find? l = some value ↔ t₁.find? l = some value ∨ t₂.find? l = some value := by
    rw [found]
    cases eq : t₁.find? l with
    | none => simp
    | some value' =>
      have none := find?_eq_none_iff.2 (apart l (mem_iff.2 ⟨value', eq⟩))
      simp [none]
  have named (key : Label) (value : β) (eq : t.find? key = some value) : name value = key :=
    ((found_iff key value).1 eq).elim (named₁ key value) (named₂ key value)
  apply values_perm_of_find? named
  · rw [List.map_append, map_values named₁, map_values named₂]
    exact t₁.nodup.append t₂.nodup fun l mem mem' => apart l mem mem'
  · intro value
    rw [found_iff, List.mem_append, mem_values, mem_values]
    constructor
    · exact Or.imp (fun eq => ⟨_, eq⟩) (fun eq => ⟨_, eq⟩)
    · rintro (⟨key, eq⟩ | ⟨key, eq⟩)
      · exact Or.inl (named₁ key value eq ▸ eq)
      · exact Or.inr (named₂ key value eq ▸ eq)

namespace Hypergraph

variable {g g₁ g₂ : Hypergraph} {l : Label} {e : Hyperedge}

namespace UnionOf

variable (union : g.UnionOf g₁ g₂) (apart : g₁.Separate g₂) (w₁ : g₁.WellFormed) (w₂ : g₂.WellFormed)
include union apart w₁ w₂

theorem nodes_perm : g.nodes.values ~ g₁.nodes.values ++ g₂.nodes.values :=
  Table.values_perm_append w₁.node_label w₂.node_label union.node fun l mem mem' =>
    apart l ((union.first.mem_iff l).2 (Or.inl mem)) ((union.second.mem_iff l).2 (Or.inl mem'))

theorem hyperedges_perm : g.hyperedges.values ~ g₁.hyperedges.values ++ g₂.hyperedges.values :=
  Table.values_perm_append w₁.hyperedge_label w₂.hyperedge_label union.hyperedge fun l mem mem' =>
    apart l ((union.first.mem_iff l).2 (Or.inr mem)) ((union.second.mem_iff l).2 (Or.inr mem'))

theorem tally (tags : List String) : g.tally tags = g₁.tally tags + g₂.tally tags := by
  unfold Hypergraph.tally
  rw [(union.hyperedges_perm apart w₁ w₂).countP_eq, List.countP_append]

/-- Sides with the same members lie in the same part. -/
theorem straight (s₁ : g₁.Straight) (s₂ : g₂.Straight) : g.Straight := by
  have mem_iff {e : Hyperedge} :
      e ∈ g.hyperedges.values ↔ e ∈ g₁.hyperedges.values ∨ e ∈ g₂.hyperedges.values := by
    rw [(union.hyperedges_perm apart w₁ w₂).mem_iff, List.mem_append]
  have foreign {e e' : Hyperedge} (mem : e ∈ g₁.hyperedges.values) (mem' : e' ∈ g₂.hyperedges.values) :
      ¬ e.memberLabels ~ e'.memberLabels := by
    intro same
    obtain ⟨l, member⟩ := List.exists_mem_of_ne_nil _ e.memberLabels_ne_nil
    have known := w₁.mem_nodes ⟨e, w₁.mem_values_iff.1 mem, member⟩
    have known' := w₂.mem_nodes ⟨e', w₂.mem_values_iff.1 mem', same.mem_iff.1 member⟩
    exact apart l ((union.first.mem_iff l).2 (Or.inl known)) ((union.second.mem_iff l).2 (Or.inl known'))
  constructor
  · intro e mem
    exact (mem_iff.1 mem).elim (s₁.two e) (s₂.two e)
  · intro e mem e' mem' tag tag' same
    rcases mem_iff.1 mem with mem | mem <;> rcases mem_iff.1 mem' with mem' | mem'
    · exact s₁.single e mem e' mem' tag tag' same
    · exact absurd same (foreign mem mem')
    · exact absurd same.symm (foreign mem' mem)
    · exact s₂.single e mem e' mem' tag tag' same

theorem clean (w : g.WellFormed) (clean₁ : g₁.Clean) (clean₂ : g₂.Clean) : g.Clean where
  wellFormed := w
  node l mem := (union.mem_nodes.1 mem).elim (clean₁.node l) (clean₂.node l)
  tag e mem := by
    rw [(union.hyperedges_perm apart w₁ w₂).mem_iff, List.mem_append] at mem
    exact mem.elim (clean₁.tag e) (clean₂.tag e)
  straight := union.straight apart w₁ w₂ clean₁.straight clean₂.straight

end UnionOf

end Hypergraph

end Hypermesh
