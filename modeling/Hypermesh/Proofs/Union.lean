import Hypermesh.Proofs.Region
import Hypermesh.Proofs.Unambiguous

/-!
A hypergraph made of two parts. A mutation whose labels are none of the second part changes the first
part and leaves the second one as it is; so does a whole replacement step.
-/

universe u

namespace Hypermesh

namespace Hypergraph

variable {g g₁ g₂ h pattern replacement : Hypergraph} {m : Embedding} {a b k l label : Label}
  {node : Node} {edge : Hyperedge}

/-! ### Labels that are not in use -/

theorem Coherent.node?_eq_none (c : g.Coherent) (fresh : ¬ l ∈ g) : g.node? l = none :=
  Table.find?_eq_none_iff.2 fun mem => fresh ((c.mem_iff l).2 (Or.inl mem))

theorem Coherent.hyperedge?_eq_none (c : g.Coherent) (fresh : ¬ l ∈ g) : g.hyperedge? l = none :=
  Table.find?_eq_none_iff.2 fun mem => fresh ((c.mem_iff l).2 (Or.inr mem))

theorem Coherent.mem_of_linked (c : g.Coherent) (linked : b ∈ g.neighbours a) : a ∈ g ∧ b ∈ g :=
  ⟨mem_of_mem_neighbours linked, mem_of_mem_neighbours (c.symmetric a b linked)⟩

/-- Two hypergraphs show the same at a label. -/
structure SameAt (g h : Hypergraph) (l : Label) : Prop where
  mem : l ∈ g ↔ l ∈ h
  node : g.node? l = h.node? l
  hyperedge : g.hyperedge? l = h.hyperedge? l
  incident : ∀ k, k ∈ g.neighbours l ↔ k ∈ h.neighbours l

theorem SameAt.symm (same : g.SameAt h l) : h.SameAt g l :=
  ⟨same.mem.symm, same.node.symm, same.hyperedge.symm, fun k => (same.incident k).symm⟩

/-- An embedding is one into any hypergraph that shows the same at its images. -/
theorem Embeds.transfer (embeds : pattern.Embeds g m)
    (same : ∀ u t, m.find? u = some t → g.SameAt h t) : pattern.Embeds h m where
  keys := embeds.keys
  target u t image := (same u t image).mem.1 (embeds.target u t image)
  injective := embeds.injective
  surrogate u t e image stored := by
    rw [← (same u t image).hyperedge]
    exact embeds.surrogate u t e image stored
  regular u t image regular := by
    rw [← Table.find?_eq_none_iff, ← hyperedge?, ← (same u t image).hyperedge]
    exact Table.find?_eq_none_iff.2 (embeds.regular u t image regular)
  incident u v s t image image' := by
    rw [← (same u s image).incident]
    exact embeds.incident u v s t image image'

/-! ### Two parts -/

/-- No label is in use in both. -/
def Separate (g h : Hypergraph) : Prop := ∀ l, l ∈ g → ¬ l ∈ h

theorem Separate.symm (apart : g.Separate h) : h.Separate g := fun l mem mem' => apart l mem' mem

/-- What is stored in the whole is stored in the first part or else in the second one, and what is linked
in it is linked in one of them. -/
structure UnionOf (g g₁ g₂ : Hypergraph) : Prop where
  whole : g.Coherent
  first : g₁.Coherent
  second : g₂.Coherent
  node : ∀ l, g.node? l = (g₁.node? l <|> g₂.node? l)
  hyperedge : ∀ l, g.hyperedge? l = (g₁.hyperedge? l <|> g₂.hyperedge? l)
  incident : ∀ a b, b ∈ g.neighbours a ↔ b ∈ g₁.neighbours a ∨ b ∈ g₂.neighbours a

namespace UnionOf

theorem mem_nodes (u : g.UnionOf g₁ g₂) : l ∈ g.nodes ↔ l ∈ g₁.nodes ∨ l ∈ g₂.nodes := by
  rw [mem_nodes_iff, mem_nodes_iff, mem_nodes_iff, u.node]
  cases g₁.node? l <;> simp

theorem mem_iff (u : g.UnionOf g₁ g₂) : l ∈ g ↔ l ∈ g₁ ∨ l ∈ g₂ := by
  have hyperedges : l ∈ g.hyperedges ↔ l ∈ g₁.hyperedges ∨ l ∈ g₂.hyperedges := by
    rw [mem_hyperedges_iff, mem_hyperedges_iff, mem_hyperedges_iff, u.hyperedge]
    cases g₁.hyperedge? l <;> simp
  rw [u.whole.mem_iff, u.first.mem_iff, u.second.mem_iff, u.mem_nodes, hyperedges]
  exact or_or_or_comm

theorem surrogate? (u : g.UnionOf g₁ g₂) (l : Label) :
    g.surrogate? l = (g₁.surrogate? l <|> g₂.surrogate? l) := by
  rw [u.whole.surrogate, u.first.surrogate, u.second.surrogate, u.hyperedge]
  cases g₁.hyperedge? l <;> rfl

/-- Outside the second part the whole is the first one. -/
theorem sameAt (u : g.UnionOf g₁ g₂) (fresh : ¬ l ∈ g₂) : g.SameAt g₁ l where
  mem := u.mem_iff.trans (or_iff_left fresh)
  node := by
    rw [u.node, u.second.node?_eq_none fresh]
    cases g₁.node? l <;> rfl
  hyperedge := by
    rw [u.hyperedge, u.second.hyperedge?_eq_none fresh]
    cases g₁.hyperedge? l <;> rfl
  incident k := (u.incident l k).trans
    (or_iff_left fun linked => fresh (u.second.mem_of_linked linked).1)

theorem symm (u : g.UnionOf g₁ g₂) (apart : g₁.Separate g₂) : g.UnionOf g₂ g₁ where
  whole := u.whole
  first := u.second
  second := u.first
  node l := by
    rw [u.node]
    by_cases mem : l ∈ g₁
    · rw [u.second.node?_eq_none (apart l mem)]
      cases g₁.node? l <;> rfl
    · rw [u.first.node?_eq_none mem]
      cases g₂.node? l <;> rfl
  hyperedge l := by
    rw [u.hyperedge]
    by_cases mem : l ∈ g₁
    · rw [u.second.hyperedge?_eq_none (apart l mem)]
      cases g₁.hyperedge? l <;> rfl
    · rw [u.first.hyperedge?_eq_none mem]
      cases g₂.hyperedge? l <;> rfl
  incident a b := (u.incident a b).trans or_comm

/-! ### Mutations of the first part -/

theorem remove (u : g.UnionOf g₁ g₂) (fresh : ¬ label ∈ g₂) :
    (g.remove label).UnionOf (g₁.remove label) g₂ where
  whole := u.whole.remove label
  first := u.first.remove label
  second := u.second
  node l := by
    rw [node?_remove, node?_remove]
    split
    · next eq =>
      rw [eq, u.second.node?_eq_none fresh]
      rfl
    · exact u.node l
  hyperedge l := by
    rw [hyperedge?_remove, hyperedge?_remove]
    split
    · next eq =>
      rw [eq, u.second.hyperedge?_eq_none fresh]
      rfl
    · exact u.hyperedge l
  incident a b := by
    rw [mem_neighbours_remove u.whole.symmetric, mem_neighbours_remove u.first.symmetric, u.incident]
    have kept (linked : b ∈ g₂.neighbours a) : a ≠ label ∧ b ≠ label := by
      obtain ⟨mem, mem'⟩ := u.second.mem_of_linked linked
      exact ⟨fun eq => fresh (eq ▸ mem), fun eq => fresh (eq ▸ mem')⟩
    constructor
    · rintro ⟨ne, ne', linked | linked⟩
      · exact Or.inl ⟨ne, ne', linked⟩
      · exact Or.inr linked
    · rintro (⟨ne, ne', linked⟩ | linked)
      · exact ⟨ne, ne', Or.inl linked⟩
      · exact ⟨(kept linked).1, (kept linked).2, Or.inr linked⟩

theorem addNewNode (u : g.UnionOf g₁ g₂) (fresh : ¬ node.label ∈ g₂) :
    (g.addNewNode node).UnionOf (g₁.addNewNode node) g₂ where
  whole := Coherent.kept.grows (grows_addNewNode g node) u.whole
  first := Coherent.kept.grows (grows_addNewNode g₁ node) u.first
  second := u.second
  node l := by
    rw [node?_addNewNode, node?_addNewNode, u.node]
    by_cases eq : l = node.label
    · rw [eq, u.second.node?_eq_none fresh]
      cases g₁.node? node.label <;> simp
    · simp [eq]
  hyperedge l := by
    rw [hyperedge?_addNewNode, hyperedge?_addNewNode]
    exact u.hyperedge l
  incident a b := by
    rw [neighbours_addNewNode, neighbours_addNewNode]
    exact u.incident a b

theorem insertHyperedge (u : g.UnionOf g₁ g₂) (fresh : ¬ edge.label ∈ g₂)
    (fresh' : ∀ k ∈ edge.memberLabels, ¬ k ∈ g₂) :
    (g.insertHyperedge edge).UnionOf (g₁.insertHyperedge edge) g₂ where
  whole := u.whole.insertHyperedge edge
  first := u.first.insertHyperedge edge
  second := u.second
  node l := by
    rw [node?_insertHyperedge, node?_insertHyperedge, u.node]
    cases found : edge.members.find? (·.label = l) with
    | none => simp
    | some member =>
      have same : member.label = l := by simpa using List.find?_some found
      have mem : l ∈ edge.memberLabels :=
        List.mem_map.2 ⟨member, List.mem_of_find?_eq_some found, same⟩
      rw [u.second.node?_eq_none (fresh' l mem)]
      cases g₁.node? l <;> rfl
  hyperedge l := by
    rw [hyperedge?_insertHyperedge, hyperedge?_insertHyperedge]
    split
    · rfl
    · exact u.hyperedge l
  incident a b := by
    have stored : edge.label ∈ g.hyperedges ↔ edge.label ∈ g₁.hyperedges := by
      rw [mem_hyperedges_iff, mem_hyperedges_iff, (u.sameAt fresh).hyperedge]
    have kept (linked : b ∈ g₂.neighbours a) : a ≠ edge.label ∧ b ≠ edge.label := by
      obtain ⟨mem, mem'⟩ := u.second.mem_of_linked linked
      exact ⟨fun eq => fresh (eq ▸ mem), fun eq => fresh (eq ▸ mem')⟩
    rw [mem_neighbours_insertHyperedge u.whole.symmetric u.whole.covered,
      mem_neighbours_insertHyperedge u.first.symmetric u.first.covered, u.incident, stored]
    constructor
    · rintro (new | ⟨clear, linked | linked⟩)
      · exact Or.inl (Or.inl new)
      · exact Or.inl (Or.inr ⟨clear, linked⟩)
      · exact Or.inr linked
    · rintro ((new | ⟨clear, linked⟩) | linked)
      · exact Or.inl new
      · exact Or.inr ⟨clear, Or.inl linked⟩
      · exact Or.inr ⟨fun _ => kept linked, Or.inr linked⟩

theorem foldl {α : Type u} {f : Hypergraph → α → Hypergraph} {l : List α}
    (step : ∀ a ∈ l, ∀ {g g₁ : Hypergraph}, g.UnionOf g₁ g₂ → (f g a).UnionOf (f g₁ a) g₂)
    (u : g.UnionOf g₁ g₂) : (l.foldl f g).UnionOf (l.foldl f g₁) g₂ := by
  induction l generalizing g g₁ with
  | nil => exact u
  | cons a l ih =>
    exact ih (fun b mem => step b (List.mem_cons_of_mem _ mem)) (step a List.mem_cons_self u)

/-- A step in the first part touches the labels that are removed from it and those that come in. -/
theorem replace (u : g.UnionOf g₁ g₂) (removed : ∀ l ∈ pattern.matched m, ¬ l ∈ g₂)
    (nodes : ∀ node ∈ replacement.nodes.values, ¬ node.label ∈ g₂)
    (hyperedges : ∀ edge ∈ replacement.hyperedges.values,
      ¬ edge.label ∈ g₂ ∧ ∀ k ∈ edge.memberLabels, ¬ k ∈ g₂) :
    (g.replace pattern m replacement).UnionOf (g₁.replace pattern m replacement) g₂ := by
  apply foldl
  · intro edge mem g g₁ u
    exact u.insertHyperedge (hyperedges edge mem).1 (hyperedges edge mem).2
  · apply foldl
    · intro node mem g g₁ u
      exact u.addNewNode (nodes node mem)
    · apply foldl _ u
      intro label mem g g₁ u
      exact u.remove (removed label mem)

end UnionOf

end Hypergraph

end Hypermesh
