import Hypermesh.Proofs.Covering

/-!
Charts of hypergraphs. A chart lists spots, the kind of vertex at each, and which spots touch. Hypergraphs
that are drawn after one chart differ in their labels only, so that an embedding of one into the other is a
map of the spots that keeps what the chart shows.
-/

namespace Hypermesh

open scoped List

structure Chart (σ : Type) where
  spots : List σ
  kind : σ → Kind
  touches : σ → σ → Prop

namespace Chart

open Hypermesh.Hypergraph

variable {σ : Type} {C : Chart σ} {φ ψ : σ → σ} {g h : Hypergraph} {label label' : σ → Label} {m : Embedding}
  {u t : Label} {s : σ}

/-- Spots go to spots, one to one, in a way that keeps kinds, touching and its absence. -/
structure Keeps (C : Chart σ) (φ : σ → σ) : Prop where
  target : ∀ s ∈ C.spots, φ s ∈ C.spots
  injective : ∀ s ∈ C.spots, ∀ t ∈ C.spots, φ s = φ t → s = t
  kind : ∀ s ∈ C.spots, C.kind (φ s) = C.kind s
  touches : ∀ s ∈ C.spots, ∀ t ∈ C.spots, C.touches (φ s) (φ t) ↔ C.touches s t

/-- The vertices of the hypergraph are the spots of the chart under their labels. -/
structure Drawn (C : Chart σ) (g : Hypergraph) (label : σ → Label) : Prop where
  mem_iff : ∀ l, l ∈ g ↔ ∃ s ∈ C.spots, label s = l
  injective : ∀ s ∈ C.spots, ∀ t ∈ C.spots, label s = label t → s = t
  kind : ∀ s ∈ C.spots, g.kindOf (label s) = C.kind s
  touches : ∀ s ∈ C.spots, ∀ t ∈ C.spots, label t ∈ g.neighbours (label s) ↔ C.touches s t

/-- The links of a spot lead to the spots that touch it. -/
theorem Drawn.neighbours_perm (drawn : C.Drawn g label) (c : g.Coherent) (mem : s ∈ C.spots) {ss : List σ}
    (nodup : ss.Nodup) (touching : ∀ t, t ∈ ss ↔ t ∈ C.spots ∧ C.touches s t) :
    g.neighbours (label s) ~ ss.map label := by
  have inside {t : σ} (listed : t ∈ ss) : t ∈ C.spots := ((touching t).1 listed).1
  have differ : (ss.map label).Nodup := List.Nodup.map_on
    (fun t listed t' listed' => drawn.injective t (inside listed) t' (inside listed')) nodup
  refine (List.perm_ext_iff_of_nodup (nodup_neighbours _ _) differ).2 fun l => ?_
  rw [List.mem_map]
  constructor
  · intro linked
    obtain ⟨t, spot, rfl⟩ := (drawn.mem_iff l).1 (c.mem_of_linked linked).2
    exact ⟨t, (touching t).2 ⟨spot, (drawn.touches s mem t spot).1 linked⟩, rfl⟩
  · rintro ⟨t, listed, rfl⟩
    obtain ⟨spot, touches⟩ := (touching t).1 listed
    exact (drawn.touches s mem t spot).2 touches

/-- Each spot of one drawing goes to the place of its image in the other. -/
def Follows (C : Chart σ) (label label' : σ → Label) (φ : σ → σ) (m : Embedding) : Prop :=
  ∀ s ∈ C.spots, m.find? (label s) = some (label' (φ s))

theorem Follows.find?_eq_some_iff (follows : C.Follows label label' φ m) (drawn : C.Drawn g label)
    (keys : m.keys = g.vertices.keys) :
    m.find? u = some t ↔ ∃ s ∈ C.spots, label s = u ∧ label' (φ s) = t := by
  constructor
  · intro found
    have vertex : u ∈ g.vertices.keys := keys ▸ Table.mem_iff.2 ⟨t, found⟩
    obtain ⟨s, mem, rfl⟩ := (drawn.mem_iff u).1 vertex
    exact ⟨s, mem, rfl, Option.some.inj ((follows s mem).symm.trans found)⟩
  · rintro ⟨s, mem, rfl, rfl⟩
    exact follows s mem

/-- A map of the spots is an embedding of one drawing into the other. -/
theorem Follows.embeds (follows : C.Follows label label' φ m) (keeps : C.Keeps φ) (drawn : C.Drawn g label)
    (drawn' : C.Drawn h label') (keys : m.keys = g.vertices.keys) : g.Embeds h m := by
  have kind (s : σ) (mem : s ∈ C.spots) : g.kindOf (label s) = h.kindOf (label' (φ s)) := by
    rw [drawn.kind s mem, drawn'.kind _ (keeps.target s mem), keeps.kind s mem]
  simp only [kindOf_eq_iff] at kind
  refine ⟨keys, ?target, ?injective, ?surrogate, ?regular, ?incident⟩ <;>
    simp only [follows.find?_eq_some_iff drawn keys]
  case target =>
    rintro u t ⟨s, mem, rfl, rfl⟩
    exact (drawn'.mem_iff _).2 ⟨φ s, keeps.target s mem, rfl⟩
  case injective =>
    rintro u v t ⟨s, mem, rfl, rfl⟩ ⟨s', mem', rfl, same⟩
    rw [keeps.injective s mem s' mem'
      (drawn'.injective _ (keeps.target s mem) _ (keeps.target s' mem') same.symm)]
  case surrogate =>
    rintro u t e ⟨s, mem, rfl, rfl⟩
    exact (kind s mem).1 e
  case regular =>
    rintro u t ⟨s, mem, rfl, rfl⟩
    exact (kind s mem).2
  case incident =>
    rintro u v t t' ⟨s, mem, rfl, rfl⟩ ⟨s', mem', rfl, rfl⟩
    rw [drawn.touches s mem s' mem', drawn'.touches _ (keeps.target s mem) _ (keeps.target s' mem'),
      keeps.touches s mem s' mem']

/-- Every embedding of one drawing into the other is a map of the spots. -/
theorem Drawn.exists_follows (drawn : C.Drawn g label) (drawn' : C.Drawn h label') (embeds : g.Embeds h m) :
    ∃ φ, C.Keeps φ ∧ C.Follows label label' φ m := by
  have image (s : σ) : ∃ t, s ∈ C.spots → t ∈ C.spots ∧ m.find? (label s) = some (label' t) := by
    by_cases mem : s ∈ C.spots
    · obtain ⟨l, found⟩ := embeds.exists_image ((drawn.mem_iff _).2 ⟨s, mem, rfl⟩)
      obtain ⟨t, mem', rfl⟩ := (drawn'.mem_iff l).1 (embeds.target _ l found)
      exact ⟨t, fun _ => ⟨mem', found⟩⟩
    · exact ⟨s, fun mem' => absurd mem' mem⟩
  choose φ image using image
  have found (s : σ) (mem : s ∈ C.spots) := (image s mem).2
  refine ⟨φ, ⟨fun s mem => (image s mem).1, ?injective, ?kind, ?touches⟩, found⟩
  case injective =>
    intro s mem t mem' same
    exact drawn.injective s mem t mem' (embeds.injective _ _ _ (found s mem) (same ▸ found t mem'))
  case kind =>
    intro s mem
    rw [← drawn'.kind _ (image s mem).1, ← drawn.kind s mem, eq_comm, kindOf_eq_iff]
    exact ⟨fun e => embeds.surrogate _ _ e (found s mem), embeds.regular _ _ (found s mem)⟩
  case touches =>
    intro s mem t mem'
    rw [← drawn'.touches _ (image s mem).1 _ (image t mem').1, ← drawn.touches s mem t mem']
    exact (embeds.incident _ _ _ _ (found s mem) (found t mem')).symm

/-- Where the label of a spot goes. -/
def send (C : Chart σ) (label label' : σ → Label) (φ : σ → σ) (l : Label) : Label :=
  ((C.spots.find? (label · = l)).map fun s => label' (φ s)).getD l

def carry (C : Chart σ) (label label' : σ → Label) (φ : σ → σ) (g : Hypergraph) : Embedding :=
  g.vertices.withValues (g.vertices.keys.map (C.send label label' φ))

theorem keys_carry (C : Chart σ) (label label' : σ → Label) (φ : σ → σ) (g : Hypergraph) :
    (C.carry label label' φ g).keys = g.vertices.keys := Table.keys_withValues (by simp)

theorem follows_carry (drawn : C.Drawn g label) (label' : σ → Label) (φ : σ → σ) :
    C.Follows label label' φ (C.carry label label' φ g) := by
  intro s mem
  rw [carry, Table.find?_withValues_eq_some_iff]
  refine ⟨(drawn.mem_iff _).2 ⟨s, mem, rfl⟩, ?_⟩
  rw [send]
  cases found : C.spots.find? (label · = label s) with
  | none => simpa using List.find?_eq_none.1 found s mem
  | some t =>
    have same : label t = label s := by simpa using List.find?_some found
    rw [drawn.injective t (List.mem_of_find?_eq_some found) s mem same]
    rfl

/-- An embedding is known when it is known where the spots go. -/
theorem Follows.eq_carry (follows : C.Follows label label' φ m) (drawn : C.Drawn g label)
    (keys : m.keys = g.vertices.keys) (same : ∀ s ∈ C.spots, φ s = ψ s) :
    m = C.carry label label' ψ g := by
  apply Table.ext_find? (keys.trans (C.keys_carry label label' ψ g).symm)
  intro u vertex
  rw [keys] at vertex
  obtain ⟨s, mem, rfl⟩ := (drawn.mem_iff u).1 vertex
  rw [follows s mem, follows_carry drawn label' ψ s mem, same s mem]

variable {φs : List (σ → σ)}

/-- The embeddings of one drawing into another, if all that keep the chart are known. -/
theorem Drawn.embeddings_perm (drawn : C.Drawn g label) (drawn' : C.Drawn h label') (c : g.Coherent)
    (c' : h.Coherent) (nonempty : C.spots ≠ []) (keeps : ∀ φ ∈ φs, C.Keeps φ)
    (all : ∀ φ, C.Keeps φ → ∃ ψ ∈ φs, ∀ s ∈ C.spots, φ s = ψ s)
    (differ : φs.Pairwise fun φ ψ => ∃ s ∈ C.spots, φ s ≠ ψ s) :
    g.embeddings h ~ φs.map (C.carry label label' · g) := by
  have filled : g.isEmpty = false := by
    obtain ⟨s, mem⟩ := List.exists_mem_of_ne_nil _ nonempty
    rw [isEmpty_eq_false_iff, ← Table.length_keys]
    exact List.length_pos_of_mem ((drawn.mem_iff _).2 ⟨s, mem, rfl⟩)
  have nodup' : (φs.map (C.carry label label' · g)).Nodup := by
    rw [List.nodup_iff_pairwise_ne, List.pairwise_map]
    apply differ.imp_of_mem
    rintro φ ψ mem mem' ⟨s, spot, ne⟩ same
    have image := follows_carry drawn label' φ s spot
    rw [same, follows_carry drawn label' ψ s spot] at image
    exact ne (drawn'.injective _ ((keeps φ mem).target s spot) _ ((keeps ψ mem').target s spot)
      (Option.some.inj image).symm)
  rw [List.perm_ext_iff_of_nodup (nodup_embeddings c c') nodup']
  intro m
  rw [mem_embeddings c c', and_iff_right filled, List.mem_map]
  constructor
  · intro embeds
    obtain ⟨φ, keeps, follows⟩ := drawn.exists_follows drawn' embeds
    obtain ⟨ψ, mem, same⟩ := all φ keeps
    exact ⟨ψ, mem, (follows.eq_carry drawn embeds.keys same).symm⟩
  · rintro ⟨φ, mem, rfl⟩
    exact (follows_carry drawn label' φ).embeds (keeps φ mem) drawn drawn' (C.keys_carry ..)

end Chart

end Hypermesh
