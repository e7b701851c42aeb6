import Hypermesh.Proofs.Depiction
import Hypermesh.Proofs.Merging
import Hypermesh.Proofs.Selection
import Mathlib.Logic.Relation

/-!
Rewriting is local. An embedding of a connected pattern lies in one of two parts that share no label, and
a step that applies it changes that part only. So a run on the whole takes the steps of the runs on the
parts, in some order, and ends with what the two end with.
-/

namespace Hypermesh

namespace Hypergraph

variable {g g₁ g₂ h pattern other replacement : Hypergraph} {m : Embedding} {l u v t : Label}
  {node : Node} {edge : Hyperedge}

/-! ### Labels of a replacement -/

theorem Grows.of_mem {α : Type} {f : Hypergraph → α → Hypergraph}
    (step : ∀ (g : Hypergraph) a, g.Grows (f g a)) {a : α} {as : List α} (mem : a ∈ as)
    (g : Hypergraph) : ∃ h, (f h a).Grows (as.foldl f g) := by
  induction as generalizing g with
  | nil => cases mem
  | cons b as ih =>
    rcases List.mem_cons.1 mem with rfl | mem
    · exact ⟨g, Grows.foldl step as _⟩
    · exact ih mem (f g b)

theorem node_mem_overlay (mem : node ∈ other.nodes.values) : node.label ∈ (g.overlay other).nodes := by
  obtain ⟨h, growth⟩ := Grows.of_mem grows_addNewNode mem g
  have rest := Grows.foldl grows_insertHyperedge other.hyperedges.values
    (other.nodes.values.foldl addNewNode g)
  apply (growth.trans rest).within.nodes
  rw [mem_nodes_iff, node?_addNewNode]
  cases h.node? node.label <;> simp

theorem edge_mem_overlay (mem : edge ∈ other.hyperedges.values) :
    edge.label ∈ (g.overlay other).hyperedges ∧
      ∀ k ∈ edge.memberLabels, k ∈ (g.overlay other).nodes := by
  obtain ⟨h, growth⟩ := Grows.of_mem grows_insertHyperedge mem (other.nodes.values.foldl addNewNode g)
  refine ⟨growth.within.hyperedges _ (h.label_mem_hyperedges edge), fun k member => ?_⟩
  exact growth.within.nodes k (mem_nodes_insertHyperedge.2 (Or.inr member))

/-- A step is a step of the first part if its match and its result are. -/
theorem UnionOf.step (u : g.UnionOf g₁ g₂) (mem : m ∈ pattern.embeddings g₁) (apart : g₁.Separate g₂)
    (apart' : (g₁.replace pattern m replacement).Separate g₂) :
    (g.replace pattern m replacement).UnionOf (g₁.replace pattern m replacement) g₂ := by
  have c := Coherent.kept.replace pattern m replacement u.first
  apply u.replace
  · intro l selected
    exact apart l ((u.first.mem_iff l).2 (Or.inr (mem_hyperedges_of_mem_matched mem selected)))
  · intro node mem
    exact apart' _ ((c.mem_iff _).2 (Or.inl (node_mem_overlay mem)))
  · intro edge mem
    obtain ⟨label, members⟩ := edge_mem_overlay mem
    exact ⟨apart' _ ((c.mem_iff _).2 (Or.inr label)),
      fun k member => apart' k ((c.mem_iff k).2 (Or.inl (members k member)))⟩

/-! ### Connected patterns -/

/-- Links lead from every vertex to every other one. -/
def Connected (g : Hypergraph) : Prop :=
  ∀ u ∈ g, ∀ v ∈ g, Relation.ReflTransGen (fun a b => b ∈ g.neighbours a) u v

/-- The vertices within a number of links. -/
def reach (g : Hypergraph) (hub : Label) : Nat → List Label
  | 0 => [hub]
  | n + 1 => (reach g hub n).flatMap fun u => u :: g.neighbours u

theorem path_of_mem_reach {hub : Label} {n : Nat} (mem : u ∈ reach g hub n) :
    Relation.ReflTransGen (fun a b => b ∈ g.neighbours a) hub u := by
  induction n generalizing u with
  | zero =>
    rw [List.mem_singleton.1 mem]
  | succ n ih =>
    obtain ⟨v, before, mem⟩ := List.mem_flatMap.1 mem
    rcases List.mem_cons.1 mem with rfl | linked
    · exact ih before
    · exact (ih before).tail linked

/-- A hypergraph is connected if links lead from one of its vertices to every other. -/
theorem connected_of_reach (hub : Label) (sym : g.Symmetric) (n : Nat)
    (covered : ∀ u ∈ g.vertices.keys, u ∈ reach g hub n) : g.Connected := by
  intro u mem v mem'
  have inward : Relation.ReflTransGen (fun a b => b ∈ g.neighbours a) u hub :=
    Relation.ReflTransGen.mono (fun a b => sym b a) _ _
      (Relation.ReflTransGen.swap _ _ (path_of_mem_reach (covered u mem)))
  exact inward.trans (path_of_mem_reach (covered v mem'))

theorem connected_of_hub (hub : Label) (sym : g.Symmetric)
    (spokes : ∀ u ∈ g.vertices.keys, u = hub ∨ u ∈ g.neighbours hub) : g.Connected := by
  apply connected_of_reach hub sym 1
  intro u mem
  rw [reach, reach, List.flatMap_singleton, List.mem_cons]
  exact spokes u mem

theorem mem_of_mem_embeddings (p : pattern.Coherent) (c : g.Coherent) (mem : m ∈ pattern.embeddings g)
    (image : m.find? u = some t) : t ∈ g :=
  ((mem_embeddings p c).1 mem).2.target u t image

/-- An embedding that enters the first part stays in it. -/
theorem Embeds.stays (embeds : pattern.Embeds g m) (union : g.UnionOf g₁ g₂) (apart : g₁.Separate g₂)
    (path : Relation.ReflTransGen (fun a b => b ∈ pattern.neighbours a) u v)
    (enters : ∀ s, m.find? u = some s → s ∈ g₁) (image : m.find? v = some t) : t ∈ g₁ := by
  induction path generalizing t with
  | refl => exact enters t image
  | @tail a b path linked ih =>
    have vertex : a ∈ m := by
      rw [Table.mem_def, embeds.keys]
      exact mem_of_mem_neighbours linked
    obtain ⟨s, before⟩ := Table.mem_iff.1 vertex
    have within : s ∈ g₁ := ih before
    rcases (union.incident s t).1 ((embeds.incident a b s t before image).1 linked) with link | link
    · exact (union.first.mem_of_linked link).2
    · exact absurd (union.second.mem_of_linked link).1 (apart s within)

namespace UnionOf

theorem sameAt_image (union : g.UnionOf g₁ g₂) (apart : g₁.Separate g₂) (p : pattern.Coherent)
    (mem : m ∈ pattern.embeddings g₁) (image : m.find? u = some t) : g.SameAt g₁ t :=
  union.sameAt (apart t (mem_of_mem_embeddings p union.first mem image))

theorem mem_embeddings_of_first (union : g.UnionOf g₁ g₂) (apart : g₁.Separate g₂)
    (p : pattern.Coherent) (mem : m ∈ pattern.embeddings g₁) : m ∈ pattern.embeddings g := by
  obtain ⟨nonempty, embeds⟩ := (mem_embeddings p union.first).1 mem
  apply (mem_embeddings p union.whole).2 ⟨nonempty, _⟩
  exact embeds.transfer fun u t image => (union.sameAt_image apart p mem image).symm

theorem mem_embeddings_of_enters (union : g.UnionOf g₁ g₂) (apart : g₁.Separate g₂)
    (p : pattern.Coherent) (connected : pattern.Connected) (mem : m ∈ pattern.embeddings g)
    (image : m.find? u = some t) (enters : t ∈ g₁) : m ∈ pattern.embeddings g₁ := by
  obtain ⟨nonempty, embeds⟩ := (mem_embeddings p union.whole).1 mem
  have vertex {v s : Label} (image : m.find? v = some s) : v ∈ pattern :=
    (embeds.keys ▸ Table.mem_iff.2 ⟨s, image⟩ : v ∈ pattern.vertices.keys)
  apply (mem_embeddings p union.first).2 ⟨nonempty, embeds.transfer _⟩
  intro v s image'
  apply union.sameAt
  apply apart
  apply embeds.stays union apart (connected u (vertex image) v (vertex image')) _ image'
  intro s' image''
  rw [image] at image''
  cases image''
  exact enters

/-- An embedding of a connected pattern is one into the first part or into the second one. -/
theorem mem_embeddings (union : g.UnionOf g₁ g₂) (apart : g₁.Separate g₂) (p : pattern.Coherent)
    (connected : pattern.Connected) :
    m ∈ pattern.embeddings g ↔ m ∈ pattern.embeddings g₁ ∨ m ∈ pattern.embeddings g₂ := by
  have swapped := union.symm apart
  constructor
  · intro mem
    obtain ⟨nonempty, embeds⟩ := (Hypergraph.mem_embeddings p union.whole).1 mem
    -- The first vertex of the pattern decides.
    obtain ⟨u, vertex⟩ := List.exists_mem_of_length_pos
      (pattern.vertices.length_keys ▸ isEmpty_eq_false_iff.1 nonempty)
    rw [← embeds.keys] at vertex
    obtain ⟨t, image⟩ := Table.mem_iff.1 vertex
    rcases union.mem_iff.1 (embeds.target u t image) with enters | enters
    · exact Or.inl (union.mem_embeddings_of_enters apart p connected mem image enters)
    · exact Or.inr (swapped.mem_embeddings_of_enters apart.symm p connected mem image enters)
  · rintro (mem | mem)
    · exact union.mem_embeddings_of_first apart p mem
    · exact swapped.mem_embeddings_of_first apart.symm p mem

theorem region_eq (union : g.UnionOf g₁ g₂) (apart : g₁.Separate g₂) (p : pattern.Coherent)
    (mem : m ∈ pattern.embeddings g₁) : pattern.region g m = pattern.region g₁ m := by
  apply region_congr
  intro u t image
  have same := union.sameAt_image apart p mem image
  exact ⟨same.node, same.hyperedge⟩

end UnionOf

end Hypergraph

namespace Production

open Hypermesh.Hypergraph

variable {P : Production} {s : Settings} {g g₁ g₂ h h' f f₁ f₂ region : Hypergraph} {m : Embedding}
  {n n₁ n₂ rounds : Nat}

/-! ### Single steps -/

/-- All embeddings are refused. -/
def Rests (P : Production) (s : Settings) (g : Hypergraph) : Prop :=
  ∀ m ∈ P.leftSide.embeddings g, P.Refuses s P.leftSide g m

/-- The least embedding that is not refused, with its region. -/
def Selects (P : Production) (s : Settings) (g : Hypergraph) (m : Embedding) (region : Hypergraph) :
    Prop :=
  (P.choose s P.leftSide g 0 (P.leftSide.embeddings g)).1 = .selected m region

theorem rests_iff : P.Rests s g ↔
    (P.choose s P.leftSide g 0 (P.leftSide.embeddings g)).1 = .none := choose_eq_none_iff.symm

theorem rests_of_unionOf (union : g.UnionOf g₁ g₂) (apart : g₁.Separate g₂)
    (p : P.leftSide.Coherent) (rests : P.Rests s g) : P.Rests s g₁ := fun m mem =>
  (rests m (union.mem_embeddings_of_first apart p mem)).congr (union.region_eq apart p mem)

/-- What the whole selects is selected in the part where it is. -/
theorem Selects.first (selects : P.Selects s g m region) (union : g.UnionOf g₁ g₂)
    (apart : g₁.Separate g₂) (p : P.leftSide.Coherent) (mem : m ∈ P.leftSide.embeddings g₁) :
    P.Selects s g₁ m region := by
  obtain ⟨-, admits, refused⟩ := (selected_iff p union.whole).1 selects
  refine (selected_iff p union.first).2 ⟨mem, admits.congr (union.region_eq apart p mem), ?_⟩
  intro m' mem' lt
  exact (refused m' (union.mem_embeddings_of_first apart p mem') lt).congr
    (union.region_eq apart p mem')

/-- One step, where the right side is the same for every index. -/
def Applies (P : Production) (s : Settings) (g h : Hypergraph) : Prop :=
  ∃ m region, P.Selects s g m region ∧ h = g.replace P.leftSide m (P.rightSide region 0)

theorem Selects.applies (selects : P.Selects s g m region) :
    P.Applies s g (g.replace P.leftSide m (P.rightSide region 0)) := ⟨m, region, selects, rfl⟩

theorem Applies.unique (first : P.Applies s g h) (second : P.Applies s g h') : h = h' := by
  obtain ⟨m, region, selects, rfl⟩ := first
  obtain ⟨m', region', selects', rfl⟩ := second
  have eq := selects.symm.trans selects'
  cases eq
  rfl

theorem Rests.not_applies (rests : P.Rests s g) : ¬ P.Applies s g h := by
  rintro ⟨m, region, selects, -⟩
  have eq := selects.symm.trans (rests_iff.1 rests)
  cases eq

theorem rests_or_selects (P : Production) (s : Settings) (p : P.leftSide.Coherent) (c : g.Coherent) :
    P.Rests s g ∨ ∃ m region, P.Selects s g m region := by
  rw [rests_iff]
  exact (selected_or_none P s p c).symm

/-- A rule that accepts every match applies where it matches first, if anything matches. -/
theorem exists_applies_first (accepts : ∀ region, P.accepts region = true) (s : Settings)
    (p : P.leftSide.Coherent) (c : g.Coherent) (mem : m ∈ P.leftSide.embeddings g) :
    ∃ m region, m ∈ P.leftSide.embeddings g ∧ P.leftSide.region g m = .ok region ∧
      P.Applies s g (g.replace P.leftSide m (P.rightSide region 0)) ∧
      ∀ m' ∈ P.leftSide.embeddings g, ¬ m'.values < m.values := by
  have never {m' : Embedding} : ¬ P.Refuses s P.leftSide g m' := by
    rintro ⟨-, region, -, refused⟩
    rw [accepts] at refused
    cases refused
  obtain ⟨m, region, selects⟩ :=
    (P.rests_or_selects s p c).resolve_left fun rests => never (rests m mem)
  obtain ⟨mem, admits, first⟩ := (selected_iff p c).1 selects
  exact ⟨m, region, mem, admits.found, selects.applies, fun m' mem' lt => never (first m' mem' lt)⟩

/-- A rule that accepts every match applies wherever something matches, though maybe elsewhere. -/
theorem exists_applies (accepts : ∀ region, P.accepts region = true) (s : Settings)
    (p : P.leftSide.Coherent) (c : g.Coherent) (mem : m ∈ P.leftSide.embeddings g) :
    ∃ m region, m ∈ P.leftSide.embeddings g ∧ P.leftSide.region g m = .ok region ∧
      P.Applies s g (g.replace P.leftSide m (P.rightSide region 0)) := by
  obtain ⟨m, region, mem, eq, applies, -⟩ := exists_applies_first accepts s p c mem
  exact ⟨m, region, mem, eq, applies⟩

/-- A rule rests where no hyperedge is of a kind that its pattern asks for. -/
theorem rests_of_lacks {key : Label} {tag : String} {mark : UInt8} (s : Settings) (p : P.leftSide.Coherent)
    (c : g.Coherent) (kind : P.leftSide.kindOf key = .surrogate tag mark)
    (lacks : ∀ e ∈ g.hyperedges.values, e.tag = tag → e.mark ≠ mark) : P.Rests s g := by
  intro m mem
  have embeds := ((mem_embeddings p c).1 mem).2
  obtain ⟨e, found, tag, mark⟩ := kindOf_eq_surrogate_iff.1 kind
  obtain ⟨t, image⟩ := embeds.exists_image ((p.mem_iff key).2 (Or.inr (mem_hyperedges_iff.2 ⟨e, found⟩)))
  obtain ⟨e', found', tag', mark'⟩ := embeds.surrogate key t e image found
  exact absurd (mark'.trans mark) (lacks e' (Table.mem_values.2 ⟨t, found'⟩) (tag'.trans tag))

theorem Applies.coherent (applies : P.Applies s g h) (c : g.Coherent) : h.Coherent := by
  obtain ⟨m, region, -, rfl⟩ := applies
  exact Coherent.kept.replace P.leftSide m _ c

/-! ### Sequences of steps -/

/-- After `n` steps from `g` nothing can be applied to `f`. -/
inductive Ends (P : Production) (s : Settings) : Hypergraph → Nat → Hypergraph → Prop
  | rests {g : Hypergraph} : P.Rests s g → Ends P s g 0 g
  | applies {g h f : Hypergraph} {n : Nat} : P.Applies s g h → Ends P s h n f → Ends P s g (n + 1) f

/-- The label is in use after some steps. -/
def Uses (P : Production) (s : Settings) (g : Hypergraph) (l : Label) : Prop :=
  ∃ h, Relation.ReflTransGen (P.Applies s) g h ∧ l ∈ h

theorem Applies.uses (applies : P.Applies s g h) {l : Label} (uses : P.Uses s h l) : P.Uses s g l := by
  obtain ⟨f, steps, mem⟩ := uses
  exact ⟨f, .head applies steps, mem⟩

theorem Ends.steps (ends : P.Ends s g n f) : Relation.ReflTransGen (P.Applies s) g f := by
  induction ends with
  | rests => exact .refl
  | applies applies _ ih => exact .head applies ih

theorem Ends.last (ends : P.Ends s g n f) : P.Ends s f 0 f := by
  induction ends with
  | rests rests => exact .rests rests
  | applies _ _ ih => exact ih

/-- No label is in use on both sides, now or later. -/
def Foreign (P : Production) (s : Settings) (g h : Hypergraph) : Prop :=
  ∀ l, P.Uses s g l → ¬ P.Uses s h l

theorem Foreign.symm (foreign : P.Foreign s g h) : P.Foreign s h g := fun l uses uses' =>
  foreign l uses' uses

theorem Foreign.separate (foreign : P.Foreign s g h) : g.Separate h := fun l mem mem' =>
  foreign l ⟨g, .refl, mem⟩ ⟨h, .refl, mem'⟩

theorem Foreign.applies (foreign : P.Foreign s g₁ g₂) (applies : P.Applies s g₁ h) :
    P.Foreign s h g₂ := fun l uses => foreign l (applies.uses uses)

/-- The step of the whole is one of the first part, and what is left of that part's steps follows. -/
theorem Selects.advance (selects : P.Selects s g m region) (union : g.UnionOf g₁ g₂)
    (foreign : P.Foreign s g₁ g₂) (p : P.leftSide.Coherent) (mem : m ∈ P.leftSide.embeddings g₁)
    (ends : P.Ends s g₁ n₁ f₁) :
    ∃ h h₁ n, n₁ = n + 1 ∧ P.Applies s g h ∧ P.Ends s h₁ n f₁ ∧ h.UnionOf h₁ g₂ ∧
      P.Foreign s h₁ g₂ := by
  have applies := (selects.first union foreign.separate p mem).applies
  cases ends with
  | rests rests => exact absurd applies rests.not_applies
  | @applies _ h₁ _ n applies' rest =>
    cases applies.unique applies'
    have foreign' := foreign.applies applies
    exact ⟨_, _, n, rfl, selects.applies, rest,
      union.step mem foreign.separate foreign'.separate, foreign'⟩

theorem Ends.of_rests (ends : P.Ends s g n f) (rests : P.Rests s g) : n = 0 ∧ f = g := by
  cases ends with
  | rests => exact ⟨rfl, rfl⟩
  | applies applies => exact absurd applies rests.not_applies

/-- The steps of two parts make up those of the whole, in the order that the whole takes them. -/
theorem Ends.unite (p : P.leftSide.Coherent) (connected : P.leftSide.Connected)
    (union : g.UnionOf g₁ g₂) (foreign : P.Foreign s g₁ g₂) (first : P.Ends s g₁ n₁ f₁)
    (second : P.Ends s g₂ n₂ f₂) : ∃ f, P.Ends s g (n₁ + n₂) f ∧ f.UnionOf f₁ f₂ := by
  induction total : n₁ + n₂ using Nat.strong_induction_on generalizing g g₁ g₂ n₁ n₂ with
  | _ total ih =>
    have apart := foreign.separate
    rcases P.rests_or_selects s p union.whole with rests | ⟨m, region, selects⟩
    · obtain ⟨rfl, rfl⟩ := first.of_rests (rests_of_unionOf union apart p rests)
      obtain ⟨rfl, rfl⟩ := second.of_rests (rests_of_unionOf (union.symm apart) apart.symm p rests)
      exact ⟨g, total ▸ .rests rests, union⟩
    · have mem := ((selected_iff p union.whole).1 selects).1
      rcases (union.mem_embeddings apart p connected).1 mem with mem | mem
      · obtain ⟨h, h₁, n, rfl, applies, rest, union', foreign'⟩ :=
          selects.advance union foreign p mem first
        obtain ⟨f, ends, result⟩ :=
          ih (n + n₂) (by omega) union' foreign' rest second rfl
        exact ⟨f, by rw [← total, Nat.add_right_comm]; exact .applies applies ends, result⟩
      · obtain ⟨h, h₂, n, rfl, applies, rest, union', foreign'⟩ :=
          selects.advance (union.symm apart) foreign.symm p mem second
        obtain ⟨f, ends, result⟩ := ih (n₁ + n) (by omega) (union'.symm foreign'.separate)
          foreign'.symm first rest rfl
        exact ⟨f, by rw [← total, ← Nat.add_assoc]; exact .applies applies ends, result⟩

/-! ### Runs -/

/-- The right side does not look at the application index. -/
def IndexBlind (P : Production) : Prop := ∀ region i j, P.rightSide region i = P.rightSide region j

theorem capReached?_of_uncapped (uncapped : s.maxApplications = none) (index : Nat) :
    s.capReached? index = none := by rw [Settings.capReached?, uncapped, Option.filter_none]

theorem runFrom_rests (uncapped : s.maxApplications = none) (rests : P.Rests s g)
    (rounds index : Nat) :
    ∃ trace, P.runFrom s P.leftSide (rounds + 1) index g = ⟨g, index, some .exhausted, trace⟩ :=
  ⟨_, runFrom_halted (capReached?_of_uncapped uncapped index) (round_of_none index (rests_iff.1 rests))⟩

theorem runFrom_applies (uncapped : s.maxApplications = none) (blind : P.IndexBlind)
    (applies : P.Applies s g h) (rounds index : Nat) :
    ∃ trace, P.runFrom s P.leftSide (rounds + 1) index g =
      let rest := P.runFrom s P.leftSide rounds (index + 1) h
      { rest with trace := trace ++ rest.trace } := by
  obtain ⟨m, region, selects, rfl⟩ := applies
  rw [blind region 0 index]
  exact ⟨_, runFrom_applied (capReached?_of_uncapped uncapped index) (round_of_selected index selects)⟩

theorem ends_of_runFrom (p : P.leftSide.Coherent) (uncapped : s.maxApplications = none)
    (blind : P.IndexBlind) (c : g.Coherent) (index : Nat)
    (ended : (P.runFrom s P.leftSide rounds index g).halt.isSome) :
    ∃ n, (P.runFrom s P.leftSide rounds index g).applications = index + n ∧
      P.Ends s g n (P.runFrom s P.leftSide rounds index g).host := by
  induction rounds generalizing index g with
  | zero => cases ended
  | succ rounds ih =>
    rcases P.rests_or_selects s p c with rests | ⟨m, region, selects⟩
    · obtain ⟨trace, eq⟩ := runFrom_rests uncapped rests rounds index
      rw [eq]
      exact ⟨0, rfl, .rests rests⟩
    · have applies := selects.applies
      obtain ⟨trace, eq⟩ := runFrom_applies uncapped blind applies rounds index
      rw [eq] at ended ⊢
      obtain ⟨n, count, ends⟩ := ih (applies.coherent c) (index + 1) ended
      exact ⟨n + 1, by simp only [count]; omega, .applies applies ends⟩

theorem runFrom_of_ends (uncapped : s.maxApplications = none) (blind : P.IndexBlind)
    (ends : P.Ends s g n f) (index : Nat) :
    ∃ trace, P.runFrom s P.leftSide (n + 1) index g = ⟨f, index + n, some .exhausted, trace⟩ := by
  induction ends generalizing index with
  | rests rests => exact runFrom_rests uncapped rests 0 index
  | @applies _ _ _ n applies _ ih =>
    obtain ⟨trace, eq⟩ := runFrom_applies uncapped blind applies (n + 1) index
    obtain ⟨trace', eq'⟩ := ih (index + 1)
    rw [eq, eq']
    exact ⟨_, by simp only [Nat.add_assoc, Nat.add_comm 1]; rfl⟩

/-- With more than `n` rounds, the run ends with `f` after `n` applications since no more can be made. -/
def Exhausts (P : Production) (s : Settings) (g : Hypergraph) (n : Nat) (f : Hypergraph) : Prop :=
  ∀ rounds, n < rounds → ∃ trace, P.run s rounds g = ⟨f, n, some .exhausted, trace⟩

theorem Ends.exhausts (uncapped : s.maxApplications = none) (blind : P.IndexBlind)
    (ends : P.Ends s g n f) : P.Exhausts s g n f := by
  intro rounds enough
  obtain ⟨more, rfl⟩ := Nat.exists_eq_add_of_le enough
  obtain ⟨trace, eq⟩ := runFrom_of_ends uncapped blind ends 0
  rw [Nat.zero_add] at eq
  have stable : P.runFrom s P.leftSide (n + 1 + more) 0 g = ⟨f, n, some .exhausted, trace⟩ :=
    (runFrom_stable (congrArg Run.halt eq) more).trans eq
  rw [run, stable]
  exact ⟨_, rfl⟩

theorem runFrom_of_steps (uncapped : s.maxApplications = none) (blind : P.IndexBlind)
    (steps : Relation.ReflTransGen (P.Applies s) g h) (index : Nat) :
    ∃ rounds, (P.runFrom s P.leftSide rounds index g).host = h := by
  induction steps using Relation.ReflTransGen.head_induction_on generalizing index with
  | refl => exact ⟨0, rfl⟩
  | head applies _ ih =>
    obtain ⟨rounds, eq⟩ := ih (index + 1)
    obtain ⟨trace, eq'⟩ := runFrom_applies uncapped blind applies rounds index
    exact ⟨rounds + 1, by rw [eq']; exact eq⟩

/-- Where two hosts share no label, now or in their runs, the run on what they are merged into ends once
both of theirs have, after as many applications, with the union of what these end with. -/
theorem run_merge (P : Production) (s : Settings) (H₁ H₂ : Hypergraph) (left : P.leftSide.Reachable)
    (connected : P.leftSide.Connected) (blind : P.IndexBlind) (uncapped : s.maxApplications = none)
    (reachable₁ : H₁.Reachable) (reachable₂ : H₂.Reachable) (w₁ : H₁.WellFormed) (w₂ : H₂.WellFormed)
    (foreign : ∀ r₁ r₂ l, l ∈ (P.run s r₁ H₁).host → ¬ l ∈ (P.run s r₂ H₂).host)
    (r₁ r₂ : Nat) (ended₁ : (P.run s r₁ H₁).halt.isSome) (ended₂ : (P.run s r₂ H₂).halt.isSome) :
    (H₁.merge H₂).2 = .ok () ∧
      ∃ rounds, let r := P.run s rounds (H₁.merge H₂).1
        r.halt = some .exhausted ∧
        r.applications = (P.run s r₁ H₁).applications + (P.run s r₂ H₂).applications ∧
        r.host.UnionOf (P.run s r₁ H₁).host (P.run s r₂ H₂).host := by
  have p := left.coherent
  have later : P.Foreign s H₁ H₂ := by
    rintro l ⟨h₁, steps₁, mem₁⟩ ⟨h₂, steps₂, mem₂⟩
    obtain ⟨r₁, rfl⟩ := runFrom_of_steps uncapped blind steps₁ 0
    obtain ⟨r₂, rfl⟩ := runFrom_of_steps uncapped blind steps₂ 0
    exact foreign r₁ r₂ l mem₁ mem₂
  obtain ⟨merged, union⟩ :=
    merge_unionOf w₁ w₂ reachable₁.coherent reachable₂.coherent later.separate
  obtain ⟨n₁, count₁, first⟩ := ends_of_runFrom p uncapped blind reachable₁.coherent 0 ended₁
  obtain ⟨n₂, count₂, second⟩ := ends_of_runFrom p uncapped blind reachable₂.coherent 0 ended₂
  obtain ⟨f, ends, result⟩ := Ends.unite p connected union later first second
  obtain ⟨trace, eq⟩ := runFrom_of_ends uncapped blind ends 0
  refine ⟨merged, n₁ + n₂ + 1, (congrArg Run.halt eq :), ?_, ?_⟩
  · refine (congrArg Run.applications eq :).trans ?_
    rw [Nat.zero_add] at count₁ count₂ ⊢
    exact (congrArg₂ (· + ·) count₁ count₂).symm
  · exact (congrArg Run.host eq :) ▸ result

/-- The mixed run marks the sides of both chains. -/
theorem run_merge_chains :
    let H₁ := Operation.build (chain ["a", "c", "e"])
    let H₂ := Operation.build (chain ["b", "d", "f"])
    let f₁ := (polish.run {} 2 H₁).host
    let f₂ := (polish.run {} 3 H₂).host
    (polish.run {} 2 H₁).applications = 1 ∧ (polish.run {} 3 H₂).applications = 2 ∧
      ∃ rounds, let r := polish.run {} rounds (H₁.merge H₂).1
        r.halt = some .exhausted ∧ r.applications = 3 ∧ r.host.UnionOf f₁ f₂ := by
  let H₁ := Operation.build (chain ["a", "c", "e"])
  let H₂ := Operation.build (chain ["b", "d", "f"])
  have count₁ : (polish.run {} 2 H₁).applications = 1 := by decide +kernel
  have count₂ : (polish.run {} 3 H₂).applications = 2 := by decide +kernel
  have halted₁ : (polish.run {} 2 H₁).halt = some .exhausted := by decide +kernel
  have halted₂ : (polish.run {} 3 H₂).halt = some .exhausted := by decide +kernel
  have connected : polish.leftSide.Connected :=
    connected_of_hub "E_u_v" (Reachable.build _).coherent.symmetric (by decide +kernel)
  have foreign : ∀ r₁ r₂ l, l ∈ (polish.run {} r₁ H₁).host → ¬ l ∈ (polish.run {} r₂ H₂).host := by
    have shown : ∀ r₁ ≤ 2, ∀ r₂ ≤ 3, ∀ l ∈ (polish.run {} r₁ H₁).host.vertices.keys,
        ¬ l ∈ (polish.run {} r₂ H₂).host := by decide +kernel
    intro r₁ r₂
    obtain ⟨r₁', le₁, eq₁⟩ := run_host_of_halted halted₁ r₁
    obtain ⟨r₂', le₂, eq₂⟩ := run_host_of_halted halted₂ r₂
    rw [eq₁, eq₂]
    exact shown r₁' le₁ r₂' le₂
  obtain ⟨-, rounds, halt, count, union⟩ :=
    run_merge polish {} H₁ H₂ (Reachable.build _) connected (fun _ _ _ => rfl) rfl (Reachable.build _)
      (Reachable.build _) (WellFormed.build _ (by decide +kernel))
      (WellFormed.build _ (by decide +kernel)) foreign 2 3 (by rw [halted₁]; rfl)
      (by rw [halted₂]; rfl)
  exact ⟨count₁, count₂, rounds, halt, by rw [count, count₁, count₂], union⟩

end Production

end Hypermesh
