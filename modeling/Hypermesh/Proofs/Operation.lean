import Hypermesh.Hypergraph.Merge
import Hypermesh.Proofs.Run

/-!
The operations that a caller has on a hypergraph. All of them come down to three mutations: a node is
added, a hyperedge is inserted with its members, a label is removed. What these three keep is kept by
every sequence of operations.
-/

namespace Hypermesh

/-- What a caller may do to a hypergraph. An application is followed for a number of rounds, whether it
has come to an end by then or not. -/
inductive Operation
  | addNode (node : Node)
  | addHyperedge (edge : Hyperedge) (checked : Bool)
  | remove (label : Label)
  | merge (other : Hypergraph)
  | apply (P : Production) (s : Settings) (rounds : Nat)

/-- A hypergraph that an operation refuses stays as it is. -/
def Operation.perform (g : Hypergraph) : Operation → Hypergraph
  | .addNode node => g.addNode node
  | .addHyperedge edge true => (g.addHyperedge edge).toOption.getD g
  | .addHyperedge edge false => g.insertHyperedge edge
  | .remove label => g.remove label
  | .merge other => (g.merge other).1
  | .apply P s rounds => (P.run s rounds g).host

/-- What a sequence of operations makes of the empty hypergraph. -/
def Operation.build (os : List Operation) : Hypergraph := os.foldl perform ∅

namespace Hypergraph

variable {g h k : Hypergraph} {edge : Hyperedge}

theorem addHyperedge_eq_ok (eq : g.addHyperedge edge = .ok h) : h = g.insertHyperedge edge := by
  unfold addHyperedge at eq
  split at eq
  · cases eq
  · cases eq
    rfl

theorem perform_addHyperedge_cases (g : Hypergraph) (edge : Hyperedge) (checked : Bool) :
    (Operation.addHyperedge edge checked).perform g = g ∨
      (Operation.addHyperedge edge checked).perform g = g.insertHyperedge edge := by
  cases checked with
  | false => exact Or.inr rfl
  | true =>
    rw [Operation.perform]
    cases eq : g.addHyperedge edge with
    | error _ => exact Or.inl rfl
    | ok h => exact Or.inr (addHyperedge_eq_ok eq)

/-- Insertions alone lead from `g` to this hypergraph. -/
inductive Grows (g : Hypergraph) : Hypergraph → Prop
  | refl : Grows g g
  | addNode {h : Hypergraph} (node : Node) : Grows g h → Grows g (h.addNode node)
  | insertHyperedge {h : Hypergraph} (edge : Hyperedge) : Grows g h →
      Grows g (h.insertHyperedge edge)

theorem Grows.trans (first : g.Grows h) (second : h.Grows k) : g.Grows k := by
  induction second with
  | refl => exact first
  | addNode node _ ih => exact ih.addNode node
  | insertHyperedge edge _ ih => exact ih.insertHyperedge edge

theorem Grows.foldl {α : Type} {f : Hypergraph → α → Hypergraph}
    (step : ∀ (g : Hypergraph) a, g.Grows (f g a)) (l : List α) (g : Hypergraph) :
    g.Grows (l.foldl f g) := by
  induction l generalizing g with
  | nil => exact .refl
  | cons a l ih => exact (step g a).trans (ih (f g a))

theorem grows_addNode (g : Hypergraph) (node : Node) : g.Grows (g.addNode node) := .addNode node .refl

theorem grows_insertHyperedge (g : Hypergraph) (edge : Hyperedge) : g.Grows (g.insertHyperedge edge) :=
  .insertHyperedge edge .refl

theorem grows_addNewNode (g : Hypergraph) (node : Node) : g.Grows (g.addNewNode node) := by
  unfold addNewNode
  split
  · exact .refl
  · exact g.grows_addNode node

theorem grows_addAll (g : Hypergraph) (edges : List Hyperedge) : g.Grows (g.addAll edges).1 := by
  induction edges generalizing g with
  | nil => exact .refl
  | cons edge edges ih =>
    rw [addAll]
    split
    · next h eq =>
      cases addHyperedge_eq_ok eq
      exact (g.grows_insertHyperedge edge).trans (ih _)
    · exact .refl

theorem grows_merge (g other : Hypergraph) : g.Grows (g.merge other).1 :=
  (Grows.foldl grows_addNode _ g).trans (grows_addAll _ _)

theorem grows_overlay (g other : Hypergraph) : g.Grows (g.overlay other) :=
  (Grows.foldl grows_addNewNode _ g).trans (Grows.foldl grows_insertHyperedge _ _)

theorem grows_performAddHyperedge (g : Hypergraph) (edge : Hyperedge) (checked : Bool) :
    g.Grows ((Operation.addHyperedge edge checked).perform g) := by
  rcases g.perform_addHyperedge_cases edge checked with eq | eq
  · rw [eq]
    exact .refl
  · rw [eq]
    exact g.grows_insertHyperedge edge

end Hypergraph

namespace Production

variable {P : Production} {s : Settings} {left host : Hypergraph} {ms : List Embedding}
  {m : Embedding} {region : Hypergraph}

/-- What is selected is one of the candidates, and its region is accepted if anybody is asked. -/
theorem choose_selected {candidate : Nat}
    (eq : (P.choose s left host candidate ms).1 = .selected m region) :
    m ∈ ms ∧ left.region host m = .ok region ∧ (s.consultAcceptance → P.accepts region) := by
  obtain ⟨admits, front, back, rfl, -⟩ := choose_eq_selected_iff.1 eq
  exact ⟨List.mem_append_right _ List.mem_cons_self, admits.found, admits.accepted⟩

/-- What one round keeps under a condition on the hosts, a run keeps under it. The hosts of a run are
those that fewer rounds lead to. -/
theorem runFrom_keeps {I C : Hypergraph → Prop}
    (step : ∀ index g host, I g → C g → (P.round s left g index).1 = .applied host → C host → I host)
    (rounds index : Nat) {g : Hypergraph} (hg : I g)
    (condition : ∀ r ≤ rounds, C (P.runFrom s left r index g).host) :
    I (P.runFrom s left rounds index g).host := by
  induction rounds generalizing index g with
  | zero => exact hg
  | succ rounds ih =>
    rcases P.runFrom_cases s left index g with ⟨halt, trace, -, eq⟩ | ⟨host, below, eq⟩
    · rw [eq]
      exact hg
    · have later (r : Nat) : (P.runFrom s left (r + 1) index g).host =
          (P.runFrom s left r (index + 1) host).host := by
        rw [runFrom_applied below eq]
      have rest (r : Nat) (le : r ≤ rounds) : C (P.runFrom s left r (index + 1) host).host := by
        rw [← later]
        exact condition (r + 1) (Nat.succ_le_succ le)
      rw [later]
      apply ih (index + 1) _ rest
      exact step index g host hg (condition 0 (Nat.zero_le _)) eq (rest 0 (Nat.zero_le _))

end Production

/-- A property that the mutations of a hypergraph keep. -/
structure Kept (I : Hypergraph → Prop) : Prop where
  addNode : ∀ {g} (node : Node), I g → I (g.addNode node)
  insertHyperedge : ∀ {g} (edge : Hyperedge), I g → I (g.insertHyperedge edge)
  remove : ∀ {g} (label : Label), I g → I (g.remove label)

namespace Kept

variable {I : Hypergraph → Prop} {g h pattern : Hypergraph}

theorem grows (kept : Kept I) (growth : g.Grows h) (hg : I g) : I h := by
  induction growth with
  | refl => exact hg
  | addNode node _ ih => exact kept.addNode node ih
  | insertHyperedge edge _ ih => exact kept.insertHyperedge edge ih

theorem replace (kept : Kept I) (pattern : Hypergraph) (m : Embedding) (replacement : Hypergraph)
    (hg : I g) : I (g.replace pattern m replacement) := by
  apply kept.grows (Hypergraph.grows_overlay _ replacement)
  apply List.foldlRecOn _ _ hg
  intro g hg label _
  exact kept.remove label hg

theorem run (kept : Kept I) (P : Production) (s : Settings) (rounds : Nat) (hg : I g) :
    I (P.run s rounds g).host := by
  apply Production.runFrom_keeps (C := fun _ => True) _ rounds 0 hg (fun _ _ => trivial)
  intro index g host hg _ eq _
  obtain ⟨m, region, -, rfl⟩ := Production.selected_of_round eq
  exact kept.replace P.leftSide m _ hg

theorem perform (kept : Kept I) (o : Operation) (hg : I g) : I (o.perform g) := by
  cases o with
  | addNode node => exact kept.addNode node hg
  | addHyperedge edge checked => exact kept.grows (g.grows_performAddHyperedge edge checked) hg
  | remove label => exact kept.remove label hg
  | merge other => exact kept.grows (g.grows_merge other) hg
  | apply P s rounds => exact kept.run P s rounds hg

theorem performAll (kept : Kept I) (os : List Operation) (hg : I g) :
    I (os.foldl Operation.perform g) := by
  induction os generalizing g with
  | nil => exact hg
  | cons o os ih => exact ih (kept.perform o hg)

end Kept

end Hypermesh
