import Mathlib.Data.List.Nodup

/-!
Lists that are folded, mapped, filtered and turned, whatever they hold, also by maps and folds that can
fail.
-/

universe u v w

namespace Hypermesh

theorem foldl_unchanged {σ : Type u} {α : Type v} {β : Type w} {f : σ → α → σ} {q : σ → β}
    (step : ∀ s a, q (f s a) = q s) (l : List α) (s : σ) : q (l.foldl f s) = q s := by
  induction l generalizing s with
  | nil => rfl
  | cons a l ih => rw [List.foldl_cons, ih, step]

theorem rotateRight_perm {α : Type u} (l : List α) (n : Nat) : (l.rotateRight n).Perm l := by
  unfold List.rotateRight
  dsimp only
  split
  · exact .refl _
  · exact List.perm_append_comm.trans (.of_eq (List.take_append_drop _ _))

theorem filterMap_of_sublist {α : Type u} {β : Type v} {f : α → Option β} {s t : List α}
    (sub : s.Sublist t) (nodup : t.Nodup) (outside : ∀ a ∈ t, ¬ a ∈ s → f a = none) :
    t.filterMap f = s.filterMap f := by
  induction sub with
  | slnil => rfl
  | @cons s t a sub ih =>
    obtain ⟨fresh, nodup⟩ := List.nodup_cons.1 nodup
    have absent : f a = none := outside a List.mem_cons_self fun mem => fresh (sub.subset mem)
    rw [List.filterMap_cons_none absent, ih nodup]
    exact fun b mem => outside b (List.mem_cons_of_mem _ mem)
  | @cons_cons s t a sub ih =>
    obtain ⟨fresh, nodup⟩ := List.nodup_cons.1 nodup
    have tail : t.filterMap f = s.filterMap f := by
      apply ih nodup
      intro b mem absent
      apply outside b (List.mem_cons_of_mem _ mem)
      rintro (_ | ⟨_, mem'⟩)
      · exact fresh mem
      · exact absent mem'
    rw [List.filterMap_cons, List.filterMap_cons, tail]

theorem exists_map_eq {α β : Type} [DecidableEq α] [Inhabited β] {keys : List α} {values : List β}
    (nodup : keys.Nodup) (length : keys.length = values.length) : ∃ f, keys.map f = values := by
  refine ⟨fun k => values.getD (keys.idxOf k) default, List.ext_getElem (by simpa) fun i h h' => ?_⟩
  simp [nodup.idxOf_getElem, h']

theorem length_le_one_iff {α : Type} {l : List α} (nodup : l.Nodup) :
    l.length ≤ 1 ↔ ∀ a ∈ l, ∀ b ∈ l, a = b := by
  match l with
  | [] => simp
  | [a] => simp
  | a :: b :: l =>
    refine iff_of_false (by simp) fun unique => (List.nodup_cons.1 nodup).1 ?_
    rw [unique a List.mem_cons_self b (List.mem_cons_of_mem a List.mem_cons_self)]
    exact List.mem_cons_self

/-- At most one element is counted if those that are counted are the same. -/
theorem countP_le_one_iff {α : Type} {l : List α} {P : α → Prop} [DecidablePred P] (nodup : l.Nodup) :
    l.countP P ≤ 1 ↔ ∀ a ∈ l, P a → ∀ b ∈ l, P b → a = b := by
  rw [List.countP_eq_length_filter, length_le_one_iff (nodup.filter _)]
  simp only [List.mem_filter, decide_eq_true_eq, and_imp]

/-! ### Maps and folds that can fail -/

theorem bind_eq_ok {ε : Type u} {α β : Type v} {x : Except ε α} {f : α → Except ε β} {b : β} :
    (x >>= f) = .ok b ↔ ∃ a, x = .ok a ∧ f a = .ok b := by
  cases x with
  | error e =>
    constructor
    · intro eq
      cases eq
    · rintro ⟨a, eq, -⟩
      cases eq
  | ok a =>
    constructor
    · exact fun eq => ⟨a, rfl, eq⟩
    · rintro ⟨a', eq, rest⟩
      cases eq
      exact rest

theorem foldlM_cons_eq_ok {ε : Type u} {α : Type v} {β : Type w} {f : β → α → Except ε β} {a : α}
    {l : List α} {b c : β} :
    (a :: l).foldlM f b = .ok c ↔ ∃ d, f b a = .ok d ∧ l.foldlM f d = .ok c := by
  rw [List.foldlM_cons, bind_eq_ok]

theorem foldlM_keeps {ε : Type u} {α : Type v} {β : Type w} {I : β → Prop}
    {f : β → α → Except ε β} {l : List α} {b c : β}
    (step : ∀ b, ∀ a ∈ l, ∀ c, I b → f b a = .ok c → I c) (h : I b) (eq : l.foldlM f b = .ok c) :
    I c := by
  induction l generalizing b with
  | nil =>
    cases eq
    exact h
  | cons a l ih =>
    obtain ⟨d, first, rest⟩ := foldlM_cons_eq_ok.1 eq
    apply ih _ _ rest
    · intro b a mem
      exact step b a (List.mem_cons_of_mem _ mem)
    · exact step b a List.mem_cons_self d h first

theorem foldlM_ok {ε : Type u} {α : Type v} {β : Type w} {f : β → α → Except ε β} {l : List α}
    (step : ∀ b, ∀ a ∈ l, ∃ c, f b a = .ok c) (b : β) : ∃ c, l.foldlM f b = .ok c := by
  induction l generalizing b with
  | nil => exact ⟨b, rfl⟩
  | cons a l ih =>
    obtain ⟨c, first⟩ := step b a List.mem_cons_self
    obtain ⟨d, rest⟩ := ih (fun b a mem => step b a (List.mem_cons_of_mem _ mem)) c
    exact ⟨d, foldlM_cons_eq_ok.2 ⟨c, first, rest⟩⟩

theorem mapM_id_eq_some_iff {α : Type} {l : List (Option α)} {xs : List α} :
    l.mapM id = some xs ↔ l = xs.map some := by
  induction l generalizing xs with
  | nil => cases xs <;> simp
  | cons x? l ih =>
    rw [List.mapM_cons]
    cases x? with
    | none => cases xs <;> simp
    | some y =>
      cases xs with
      | nil => cases l.mapM id <;> simp
      | cons x xs =>
        have tail : l.mapM id = some xs ↔ l = xs.map some := ih
        cases eq : l.mapM id with
        | none => simp [eq, ← tail]
        | some ys => simp [eq, ← tail]

theorem mapM_eq_pure {M : Type u → Type v} [Monad M] [LawfulMonad M] {α β : Type u} {f : α → M β}
    {f' : α → β} {as : List α} (each : ∀ a ∈ as, f a = pure (f' a)) : as.mapM f = pure (as.map f') := by
  induction as with
  | nil => rfl
  | cons a as ih =>
    obtain ⟨first, rest⟩ := List.forall_mem_cons.1 each
    rw [List.mapM_cons, first, ih rest, pure_bind, pure_bind, List.map_cons]

theorem mapM_cons_eq_ok {ε α β : Type u} {f : α → Except ε β} {a : α} {as : List α} {bs : List β} :
    (a :: as).mapM f = .ok bs ↔ ∃ b bs', f a = .ok b ∧ as.mapM f = .ok bs' ∧ b :: bs' = bs := by
  rw [List.mapM_cons, bind_eq_ok]
  constructor
  · rintro ⟨b, first, eq⟩
    obtain ⟨bs', rest, eq⟩ := bind_eq_ok.1 eq
    cases eq
    exact ⟨b, bs', first, rest, rfl⟩
  · rintro ⟨b, bs', first, rest, rfl⟩
    exact ⟨b, first, bind_eq_ok.2 ⟨bs', rest, rfl⟩⟩

theorem exists_of_mapM_eq_ok {ε α β : Type u} {f : α → Except ε β} {as : List α} {bs : List β}
    (eq : as.mapM f = .ok bs) : ∀ b ∈ bs, ∃ a ∈ as, f a = .ok b := by
  induction as generalizing bs with
  | nil =>
    cases eq
    nofun
  | cons a as ih =>
    obtain ⟨b, bs', first, rest, rfl⟩ := mapM_cons_eq_ok.1 eq
    intro c mem
    rcases List.mem_cons.1 mem with rfl | mem
    · exact ⟨a, List.mem_cons_self, first⟩
    · obtain ⟨a', mem', made⟩ := ih rest c mem
      exact ⟨a', List.mem_cons_of_mem _ mem', made⟩

theorem length_of_mapM {ε α β : Type u} {f : α → Except ε β} {as : List α} {bs : List β}
    (eq : as.mapM f = .ok bs) : bs.length = as.length := by
  induction as generalizing bs with
  | nil =>
    cases eq
    rfl
  | cons a as ih =>
    obtain ⟨b, bs', -, rest, rfl⟩ := mapM_cons_eq_ok.1 eq
    rw [List.length_cons, List.length_cons, ih rest]

end Hypermesh
