import Hypermesh.Embedding.Search
import Mathlib.Data.List.FinRange
import Mathlib.Data.List.Nodup

/-!
Placing a vertex is feasible exactly if the host vertex is free, of the right kind and degree, and linked
to the placed vertices as the pattern says. The counts that the search compares express the last of
these because images and sources say the same.
-/

universe u

namespace Hypermesh

theorem get_set {α : Type u} {n : Nat} (xs : Vector α n) (i j : Fin n) (x : α) :
    (xs.set i x i.isLt).get j = if j = i then x else xs.get j := by
  change (xs.set i x i.isLt)[j.1] = if j = i then x else xs[j.1]
  rw [Vector.getElem_set]
  simp [Fin.ext_iff, eq_comm]

theorem ext_get {α : Type u} {n : Nat} {xs ys : Vector α n} (h : ∀ i, xs.get i = ys.get i) :
    xs = ys := by
  apply Vector.ext
  intro i lt
  exact h ⟨i, lt⟩

variable {m n : Nat}

/-- No neighbour is listed twice. -/
def Incidence.Distinct (I : Incidence n) : Prop := ∀ v, (I.neighbours.get v).Nodup

/-- A graph without loops and multiple edges. -/
structure Incidence.Simple (I : Incidence n) : Prop where
  nodup : ∀ v, (I.neighbours.get v).Nodup
  symmetric : ∀ v w, I.Adjacent v w → I.Adjacent w v
  irreflexive : ∀ v, ¬ I.Adjacent v v

/-- A map of vertices, one to one, that keeps kinds, adjacency and its absence. -/
structure Incidence.Embeds (pattern : Incidence m) (host : Incidence n) (f : Fin m → Fin n) :
    Prop where
  injective : Function.Injective f
  kind : ∀ p, pattern.kind.get p = host.kind.get (f p)
  adjacent : ∀ p q, pattern.Adjacent p q ↔ host.Adjacent (f p) (f q)

namespace Assignment

variable {a : Assignment m n} {p q : Fin m} {h k : Fin n} {f : Fin m → Fin n}

/-- Where `a` is defined, it is `f`. -/
def Agrees (a : Assignment m n) (f : Fin m → Fin n) : Prop :=
  ∀ p h, a.image.get p = some h → f p = h

theorem image_place (a : Assignment m n) (p q : Fin m) (h : Fin n) :
    (a.place p h).image.get q = if q = p then some h else a.image.get q := get_set ..

theorem source_place (a : Assignment m n) (p : Fin m) (h k : Fin n) :
    (a.place p h).source.get k = if k = h then some p else a.source.get k := get_set ..

@[simp] theorem image_empty (p : Fin m) : (empty : Assignment m n).image.get p = none :=
  Vector.getElem_replicate p.isLt

@[simp] theorem source_empty (h : Fin n) : (empty : Assignment m n).source.get h = none :=
  Vector.getElem_replicate h.isLt

theorem agrees_empty (f : Fin m → Fin n) : empty.Agrees f := by
  intro p h eq
  rw [image_empty] at eq
  cases eq

theorem paired_empty : (empty : Assignment m n).Paired := by
  intro p h
  rw [image_empty, source_empty]
  exact iff_of_false nofun nofun

theorem Paired.place (paired : a.Paired) (unplaced : a.image.get p = none)
    (free : a.source.get h = none) : (a.place p h).Paired := by
  intro q k
  rw [image_place, source_place]
  by_cases eq : q = p
  · by_cases eq' : k = h
    · simp [eq, eq']
    · have other : a.source.get k ≠ some p := by
        rw [Ne, ← paired, unplaced]
        simp
      simp [eq, eq', other, Ne.symm eq']
  · by_cases eq' : k = h
    · have other : a.image.get q ≠ some h := by
        rw [Ne, paired, free]
        simp
      simp [eq, eq', other, Ne.symm eq]
    · rw [if_neg eq, if_neg eq']
      exact paired q k

theorem Paired.image_injective (paired : a.Paired) (hp : a.image.get p = some h)
    (hq : a.image.get q = some h) : p = q :=
  Option.some.inj (((paired p h).1 hp).symm.trans ((paired q h).1 hq))

theorem release_place (unplaced : a.image.get p = none) (free : a.source.get h = none) :
    (a.place p h).release p h = a := by
  have image : ((a.place p h).release p h).image = a.image := by
    apply ext_get
    intro q
    change (((a.place p h).image).set p none p.isLt).get q = _
    rw [get_set, image_place]
    by_cases eq : q = p
    · rw [if_pos eq, eq, unplaced]
    · rw [if_neg eq, if_neg eq]
  have source : ((a.place p h).release p h).source = a.source := by
    apply ext_get
    intro k
    change (((a.place p h).source).set h none h.isLt).get k = _
    rw [get_set, source_place]
    by_cases eq : k = h
    · rw [if_pos eq, eq, free]
    · rw [if_neg eq, if_neg eq]
  calc
    (a.place p h).release p h = ⟨a.image, a.source⟩ := by rw [← image, ← source]
    _ = a := rfl

theorem Paired.source_eq_none_iff (paired : a.Paired) :
    a.source.get h = none ↔ ∀ q, a.image.get q ≠ some h := by
  rw [Option.eq_none_iff_forall_ne_some]
  exact forall_congr' fun q => not_congr (paired q h).symm

theorem Agrees.place (agrees : a.Agrees f) (p : Fin m) : (a.place p (f p)).Agrees f := by
  intro q k eq
  rw [image_place] at eq
  split at eq
  · next same =>
    cases eq
    rw [same]
  · exact agrees q k eq

theorem Agrees.of_place (agrees : (a.place p h).Agrees f) (unplaced : a.image.get p = none) :
    a.Agrees f ∧ f p = h := by
  constructor
  · intro q k eq
    apply agrees
    rw [image_place, if_neg]
    · exact eq
    · rintro rfl
      rw [unplaced] at eq
      cases eq
  · apply agrees
    rw [image_place, if_pos rfl]

end Assignment

namespace Search

variable {pattern : Incidence m} {host : Incidence n} {a : Assignment m n} {p q : Fin m}
  {h k : Fin n} {f : Fin m → Fin n}

theorem mem_images : k ∈ images pattern a p ↔ ∃ q, pattern.Adjacent p q ∧ a.image.get q = some k :=
  List.mem_filterMap

theorem mem_taken (paired : a.Paired) :
    k ∈ taken host a h ↔ host.Adjacent h k ∧ ∃ q, a.image.get q = some k := by
  unfold taken
  rw [List.mem_filter, Option.isSome_iff_exists]
  simp only [paired _ k]
  rfl

theorem nodup_images (distinct : pattern.Distinct) (paired : a.Paired) :
    (images pattern a p).Nodup := by
  apply (distinct p).filterMap
  intro q q' k hq hq'
  exact paired.image_injective hq hq'

theorem nodup_taken (distinct : host.Distinct) : (taken host a h).Nodup := (distinct h).filter _

/-- That all images are adjacent and as many as the taken neighbours says that they are the taken
neighbours. -/
theorem linked_iff (distinct : pattern.Distinct) (distinct' : host.Distinct) (paired : a.Paired) :
    (∀ k ∈ images pattern a p, host.Adjacent h k) ∧
        (images pattern a p).length = (taken host a h).length ↔
      ∀ q k, a.image.get q = some k → (pattern.Adjacent p q ↔ host.Adjacent h k) := by
  constructor
  · rintro ⟨adjacent, length⟩ q k eq
    have subset : images pattern a p ⊆ taken host a h := by
      intro k mem
      obtain ⟨q, -, eq⟩ := mem_images.1 mem
      exact (mem_taken paired).2 ⟨adjacent k mem, q, eq⟩
    -- Neither list has repeats, so that the counts decide.
    have perm : (images pattern a p).Perm (taken host a h) :=
      (List.subperm_of_subset (nodup_images distinct paired) subset).perm_of_length_le length.ge
    constructor
    · intro adj
      exact adjacent k (mem_images.2 ⟨q, adj, eq⟩)
    · intro adj
      have mem := perm.mem_iff.2 ((mem_taken paired).2 ⟨adj, q, eq⟩)
      obtain ⟨q', adj', eq'⟩ := mem_images.1 mem
      rwa [paired.image_injective eq eq']
  · intro same
    have adjacent : ∀ k ∈ images pattern a p, host.Adjacent h k := by
      intro k mem
      obtain ⟨q, adj, eq⟩ := mem_images.1 mem
      exact (same q k eq).1 adj
    have perm : (images pattern a p).Perm (taken host a h) := by
      rw [List.perm_ext_iff_of_nodup (nodup_images distinct paired) (nodup_taken distinct')]
      intro k
      rw [mem_images, mem_taken paired]
      constructor
      · rintro ⟨q, adj, eq⟩
        exact ⟨(same q k eq).1 adj, q, eq⟩
      · rintro ⟨adj, q, eq⟩
        exact ⟨q, (same q k eq).2 adj, eq⟩
    exact ⟨adjacent, perm.length_eq⟩

theorem feasible_iff (distinct : pattern.Distinct) (distinct' : host.Distinct) (paired : a.Paired) :
    feasible pattern host a p h ↔
      a.source.get h = none ∧ pattern.kind.get p = host.kind.get h ∧
        pattern.degree p ≤ host.degree h ∧
        ∀ q k, a.image.get q = some k → (pattern.Adjacent p q ↔ host.Adjacent h k) := by
  rw [← linked_iff distinct distinct' paired]
  simp only [feasible, Bool.and_eq_true, decide_eq_true_eq, List.all_eq_true, and_assoc,
    Option.isNone_iff_eq_none]

/-- The degree condition rejects no vertex of an embedding. -/
theorem degree_le_of_embeds (distinct : pattern.Distinct) (embeds : pattern.Embeds host f)
    (p : Fin m) : pattern.degree p ≤ host.degree (f p) := by
  have nodup : ((pattern.neighbours.get p).map f).Nodup := (distinct p).map embeds.injective
  have subset : (pattern.neighbours.get p).map f ⊆ host.neighbours.get (f p) := by
    intro k mem
    obtain ⟨q, adj, rfl⟩ := List.mem_map.1 mem
    exact (embeds.adjacent p q).1 adj
  calc
    pattern.degree p = ((pattern.neighbours.get p).map f).length := (List.length_map f).symm
    _ ≤ host.degree (f p) := nodup.length_le_of_subset subset

theorem feasible_of_embeds (simple : pattern.Simple) (simple' : host.Simple) (paired : a.Paired)
    (embeds : pattern.Embeds host f) (agrees : a.Agrees f) (unplaced : a.image.get p = none) :
    feasible pattern host a p (f p) := by
  rw [feasible_iff simple.nodup simple'.nodup paired]
  refine ⟨?free, embeds.kind p, degree_le_of_embeds simple.nodup embeds p, ?linked⟩
  case free =>
    rw [paired.source_eq_none_iff]
    intro q image
    rw [embeds.injective (agrees q (f p) image), unplaced] at image
    cases image
  case linked =>
    intro q k eq
    rw [embeds.adjacent, agrees q k eq]

/-- Placed vertices are linked just if their images are. -/
def Induced (pattern : Incidence m) (host : Incidence n) (a : Assignment m n) : Prop :=
  ∀ p q h k, a.image.get p = some h → a.image.get q = some k →
    (pattern.Adjacent p q ↔ host.Adjacent h k)

theorem induced_empty : Induced pattern host .empty := by
  intro p q h k eq
  rw [Assignment.image_empty] at eq
  cases eq

theorem Induced.place (simple : pattern.Simple) (simple' : host.Simple) (induced : Induced pattern host a)
    (linked : ∀ q k, a.image.get q = some k → (pattern.Adjacent p q ↔ host.Adjacent h k)) :
    Induced pattern host (a.place p h) := by
  intro q r k l eq eq'
  rw [Assignment.image_place] at eq eq'
  split at eq
  · next same =>
    cases eq
    split at eq'
    · next same' =>
      cases eq'
      rw [same, same']
      exact iff_of_false (simple.irreflexive p) (simple'.irreflexive h)
    · rw [same]
      exact linked r l eq'
  · split at eq'
    · next same' =>
      cases eq'
      rw [same']
      have back := linked q k eq
      exact ⟨fun adj => simple'.symmetric _ _ (back.1 (simple.symmetric _ _ adj)),
        fun adj => simple.symmetric _ _ (back.2 (simple'.symmetric _ _ adj))⟩
    · exact induced q r k l eq eq'

/-- The part of a pattern that is placed is embedded. -/
structure Partial (pattern : Incidence m) (host : Incidence n) (a : Assignment m n) : Prop where
  paired : a.Paired
  kind : ∀ p h, a.image.get p = some h → pattern.kind.get p = host.kind.get h
  adjacent : ∀ p q h k, a.image.get p = some h → a.image.get q = some k →
    (pattern.Adjacent p q ↔ host.Adjacent h k)

theorem partial_empty : Partial pattern host .empty where
  paired := Assignment.paired_empty
  kind p h eq := by
    rw [Assignment.image_empty] at eq
    cases eq
  adjacent := induced_empty

theorem Partial.place (simple : pattern.Simple) (simple' : host.Simple)
    (part : Partial pattern host a) (unplaced : a.image.get p = none)
    (fits : feasible pattern host a p h) : Partial pattern host (a.place p h) := by
  obtain ⟨free, kind, -, linked⟩ := (feasible_iff simple.nodup simple'.nodup part.paired).1 fits
  refine ⟨part.paired.place unplaced free, ?kind, Induced.place simple simple' part.adjacent linked⟩
  case kind =>
    intro q k eq
    rw [Assignment.image_place] at eq
    split at eq
    · next same =>
      cases eq
      rw [same, kind]
    · exact part.kind q k eq

end Search

end Hypermesh
