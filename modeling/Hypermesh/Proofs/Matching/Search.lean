import Hypermesh.Proofs.Lists
import Hypermesh.Proofs.Matching.Feasibility
import Hypermesh.Proofs.Matching.Plan

/-!
The search finds each embedding of one incidence graph into another exactly once and leaves the
assignment that it starts from as it was. What it records is the list of completions of that
assignment, which is defined without a state.
-/

namespace Hypermesh

variable {m n : Nat}

namespace Assignment

variable {a : Assignment m n} {xs : List (Fin n)}

theorem total?_eq_some_iff :
    a.total? = some xs ↔ ∃ f : Fin m → Fin n, (∀ p, a.image.get p = some (f p)) ∧ xs = List.ofFn f := by
  have entries : a.image.toList = List.ofFn a.image.get := by
    apply List.ext_getElem
    · simp
    · intro i lt lt'
      simp only [List.getElem_ofFn]
      rfl
  rw [total?, mapM_id_eq_some_iff, entries]
  constructor
  · intro eq
    have placed (p : Fin m) : ∃ h, a.image.get p = some h := by
      have mem : a.image.get p ∈ xs.map some := eq ▸ List.mem_ofFn.2 ⟨p, rfl⟩
      obtain ⟨h, -, eq⟩ := List.mem_map.1 mem
      exact ⟨h, eq.symm⟩
    choose f image using placed
    refine ⟨f, image, ?_⟩
    apply List.map_injective_iff.2 (Option.some_injective (Fin n))
    rw [← eq, List.map_ofFn]
    congr 1
    funext p
    exact image p
  · rintro ⟨f, image, rfl⟩
    rw [List.map_ofFn]
    congr 1
    funext p
    exact image p

end Assignment

namespace Search

variable {pattern : Incidence m} {host : Incidence n} {a : Assignment m n} {xs : List (Fin n)}
  {placed : List (Fin m)} {plan : List (Placement m)} {s : Search m n}

variable (pattern host) in
/-- The complete assignments that the remaining placements lead to, in the order of their discovery. -/
def completions : List (Placement m) → Assignment m n → List (List (Fin n))
  | [], a => a.total?.toList
  | next :: rest, a =>
    ((candidates host a next.anchor).filter (feasible pattern host a next.vertex)).flatMap fun h =>
      completions rest (a.place next.vertex h)

/-! ### What the search does to its state -/

theorem record_eq (s : Search m n) :
    s.record = { s with found := s.assignment.total?.toList.reverse ++ s.found } := by
  rw [record]
  cases s.assignment.total? <;> rfl

/-- Each candidate is undone after its turn, so that the next one meets the same assignment. -/
theorem extend_eq (unplaced : ∀ next ∈ plan, s.assignment.image.get next.vertex = none)
    (nodup : (plan.map Placement.vertex).Nodup) :
    extend pattern host plan s =
      { s with found := (completions pattern host plan s.assignment).reverse ++ s.found } := by
  induction plan generalizing s with
  | nil => exact record_eq s
  | cons next rest ih =>
    obtain ⟨a, found⟩ := s
    obtain ⟨fresh, nodup⟩ := List.nodup_cons.1 nodup
    have turn (h : Fin n) (found : List (List (Fin n))) :
        extend pattern host rest ⟨a.place next.vertex h, found⟩ =
          ⟨a.place next.vertex h,
            (completions pattern host rest (a.place next.vertex h)).reverse ++ found⟩ := by
      apply ih _ nodup
      intro other mem
      rw [Assignment.image_place, if_neg]
      · exact unplaced other (List.mem_cons_of_mem _ mem)
      · intro eq
        exact fresh (eq ▸ List.mem_map_of_mem mem)
    have open' : a.image.get next.vertex = none := unplaced next List.mem_cons_self
    clear unplaced ih
    -- What is left is the loop over the candidates, with the assignment fixed.
    rw [extend, completions]
    generalize candidates host a next.anchor = hs
    induction hs generalizing found with
    | nil => rfl
    | cons h hs ih =>
      rw [List.foldl_cons]
      by_cases fits : feasible pattern host a next.vertex h
      · have free : a.source.get h = none := by
          simp only [feasible, Bool.and_eq_true, Option.isNone_iff_eq_none] at fits
          exact fits.1.1.1.1
        rw [if_pos fits, turn h, List.filter_cons_of_pos fits, List.flatMap_cons]
        simp only [Assignment.release_place open' free]
        rw [ih, List.reverse_append, List.append_assoc]
      · rw [if_neg fits, List.filter_cons_of_neg fits]
        exact ih found

/-! ### What the completions are -/

/-- The placed vertices are those that have an image. -/
def Covers (a : Assignment m n) (placed : List (Fin m)) : Prop :=
  ∀ p, (∃ h, a.image.get p = some h) ↔ p ∈ placed

theorem covers_empty : Covers (.empty : Assignment m n) [] := by
  intro p
  simp

theorem Covers.place (covers : Covers a placed) (p : Fin m) (h : Fin n) :
    Covers (a.place p h) (p :: placed) := by
  intro q
  rw [List.mem_cons, ← covers q, Assignment.image_place]
  by_cases eq : q = p
  · simp [eq]
  · simp [eq]

theorem Covers.unplaced (covers : Covers a placed) {p : Fin m} (fresh : ¬ p ∈ placed) :
    a.image.get p = none := by
  rw [Option.eq_none_iff_forall_ne_some]
  intro h eq
  exact fresh ((covers p).1 ⟨h, eq⟩)

/-- The anchor leaves out no embedding, as adjacent vertices have adjacent images. -/
theorem mem_candidates (simple : host.Simple) {f : Fin m → Fin n} (embeds : pattern.Embeds host f)
    (agrees : a.Agrees f) (p : Fin m) : f p ∈ candidates host a (pattern.anchor? placed p) := by
  unfold candidates
  split
  · next h eq =>
    obtain ⟨q, anchor, image⟩ := Option.bind_eq_some_iff.1 eq
    have adjacent := (embeds.adjacent p q).1 (Incidence.adjacent_of_anchor? anchor)
    rw [agrees q h image] at adjacent
    exact simple.symmetric _ _ adjacent
  · exact List.mem_finRange _

theorem nodup_candidates (simple : host.Simple) (anchor : Option (Fin m)) :
    (candidates host a anchor).Nodup := by
  unfold candidates
  split
  · exact simple.nodup _
  · exact List.nodup_finRange n

theorem Partial.embeds (part : Partial pattern host a) {f : Fin m → Fin n}
    (image : ∀ p, a.image.get p = some (f p)) : pattern.Embeds host f where
  injective p q eq := part.paired.image_injective (image p) (eq ▸ image q)
  kind p := part.kind p _ (image p)
  adjacent p q := part.adjacent p q _ _ (image p) (image q)

theorem mem_completions (simple : pattern.Simple) (simple' : host.Simple)
    (completes : pattern.Completes placed plan) (part : Partial pattern host a)
    (covers : Covers a placed) :
    xs ∈ completions pattern host plan a ↔
      ∃ f, pattern.Embeds host f ∧ a.Agrees f ∧ xs = List.ofFn f := by
  induction completes generalizing a with
  | done all =>
    rw [completions, Option.mem_toList, Assignment.total?_eq_some_iff]
    constructor
    · rintro ⟨f, image, eq⟩
      refine ⟨f, part.embeds image, ?_, eq⟩
      intro p h eq
      rw [image p] at eq
      exact Option.some.inj eq
    · rintro ⟨f, -, agrees, eq⟩
      refine ⟨f, ?_, eq⟩
      intro p
      obtain ⟨h, image⟩ := (covers p).2 (all p)
      rw [image, agrees p h image]
  | @place placed v rest fresh _ ih =>
    -- An embedding that agrees with the assignment chooses the candidate for `v`.
    have unplaced := covers.unplaced fresh
    have next {h : Fin n} (fits : feasible pattern host a v h) :=
      ih (part.place simple simple' unplaced fits) (covers.place v h)
    simp only [completions, List.mem_flatMap, List.mem_filter]
    constructor
    · rintro ⟨h, ⟨-, fits⟩, mem⟩
      obtain ⟨f, embeds, agrees, eq⟩ := (next fits).1 mem
      exact ⟨f, embeds, (agrees.of_place unplaced).1, eq⟩
    · rintro ⟨f, embeds, agrees, eq⟩
      have fits := feasible_of_embeds simple simple' part.paired embeds agrees unplaced
      exact ⟨f v, ⟨mem_candidates simple' embeds agrees v, fits⟩,
        (next fits).2 ⟨f, embeds, agrees.place v, eq⟩⟩

/-- Completions that begin differently differ at the vertex where they do. -/
theorem nodup_completions (simple : pattern.Simple) (simple' : host.Simple)
    (completes : pattern.Completes placed plan) (part : Partial pattern host a)
    (covers : Covers a placed) : (completions pattern host plan a).Nodup := by
  induction completes generalizing a with
  | done _ =>
    rw [completions]
    cases a.total? with
    | none => exact List.nodup_nil
    | some xs => exact List.nodup_singleton xs
  | @place placed v rest fresh completes ih =>
    have unplaced := covers.unplaced fresh
    have part' {h : Fin n} (mem : h ∈ (candidates host a (pattern.anchor? placed v)).filter
        (feasible pattern host a v)) : Partial pattern host (a.place v h) :=
      part.place simple simple' unplaced (List.mem_filter.1 mem).2
    rw [completions, List.nodup_flatMap]
    constructor
    · intro h mem
      exact ih (part' mem) (covers.place v h)
    · apply ((nodup_candidates simple' _).filter _).imp_of_mem
      intro h k memh memk ne xs mem mem'
      obtain ⟨f, -, agrees, rfl⟩ :=
        (mem_completions simple simple' completes (part' memh) (covers.place v h)).1 mem
      obtain ⟨f', -, agrees', eq⟩ :=
        (mem_completions simple simple' completes (part' memk) (covers.place v k)).1 mem'
      rw [← List.ofFn_injective eq] at agrees'
      exact ne ((agrees.of_place unplaced).2.symm.trans (agrees'.of_place unplaced).2)

/-- Kinds agree whatever the two graphs are. -/
theorem kind_of_mem_completions
    (kind : ∀ p h, a.image.get p = some h → pattern.kind.get p = host.kind.get h)
    (mem : xs ∈ completions pattern host plan a) :
    ∃ f : Fin m → Fin n, (∀ p, pattern.kind.get p = host.kind.get (f p)) ∧ xs = List.ofFn f := by
  induction plan generalizing a with
  | nil =>
    rw [completions, Option.mem_toList, Assignment.total?_eq_some_iff] at mem
    obtain ⟨f, image, eq⟩ := mem
    exact ⟨f, fun p => kind p _ (image p), eq⟩
  | cons next rest ih =>
    simp only [completions, List.mem_flatMap, List.mem_filter] at mem
    obtain ⟨h, ⟨-, fits⟩, mem⟩ := mem
    apply ih _ mem
    intro p k eq
    rw [Assignment.image_place] at eq
    split at eq
    · next same =>
      cases eq
      simp only [feasible, Bool.and_eq_true, decide_eq_true_eq] at fits
      rw [same]
      exact fits.1.1.1.2
    · exact kind p k eq

end Search

/-! ### The whole search -/

namespace Incidence

variable {pattern : Incidence m} {host : Incidence n} {xs : List (Fin n)}

theorem Completes.nodup {placed : List (Fin m)} {plan : List (Placement m)}
    (completes : pattern.Completes placed plan) : (plan.map Placement.vertex).Nodup := by
  induction completes with
  | done _ => exact List.nodup_nil
  | @place placed v rest _ completes ih =>
    apply List.nodup_cons.2 ⟨_, ih⟩
    intro mem
    obtain ⟨next, mem, eq⟩ := List.mem_map.1 mem
    exact completes.not_mem next mem (by simp [eq])

theorem assignments_eq (pattern : Incidence m) (host : Incidence n) :
    pattern.assignments host =
      (Search.completions pattern host pattern.plan .empty).reverse := by
  rw [assignments, Search.extend_eq _ pattern.completes_plan.nodup]
  · exact List.append_nil _
  · exact fun next _ => Assignment.image_empty next.vertex

theorem mem_assignments (simple : pattern.Simple) (simple' : host.Simple) :
    xs ∈ pattern.assignments host ↔ ∃ f, pattern.Embeds host f ∧ xs = List.ofFn f := by
  rw [assignments_eq, List.mem_reverse, Search.mem_completions simple simple'
    pattern.completes_plan Search.partial_empty Search.covers_empty]
  simp only [Assignment.agrees_empty, true_and]

theorem nodup_assignments (simple : pattern.Simple) (simple' : host.Simple) :
    (pattern.assignments host).Nodup := by
  rw [assignments_eq, List.nodup_reverse]
  exact Search.nodup_completions simple simple' pattern.completes_plan Search.partial_empty
    Search.covers_empty

theorem kind_of_mem_assignments (mem : xs ∈ pattern.assignments host) :
    ∃ f : Fin m → Fin n, (∀ p, pattern.kind.get p = host.kind.get (f p)) ∧ xs = List.ofFn f := by
  rw [assignments_eq, List.mem_reverse] at mem
  apply Search.kind_of_mem_completions _ mem
  intro p h eq
  rw [Assignment.image_empty] at eq
  cases eq

end Incidence

end Hypermesh
