import Hypermesh.Label
import Mathlib.Tactic.SplitIfs

/-!
How labels nest. The label of a hyperedge strings a tag and members together, the labels of midpoints and
centres put other labels in brackets. As long as names hold no separator outside of brackets, a label can
be taken apart again, so that what was made from different labels has different labels.
-/

namespace Hypermesh

namespace Label

variable {a b c d l tag tag' : Label} {members members' : List Label} {text rest rest' : List Char}
  {n k : Nat}

/-- The number of brackets that are open after `text` when there were `n` before it. There is none if a
bracket closes that was not open, or a separator stands outside of brackets. -/
def depth : (n : Nat) → (text : List Char) → Option Nat
  | n, [] => some n
  | n, c :: text =>
    if c = '(' then depth (n + 1) text
    else if c = ')' then if n = 0 then none else depth (n - 1) text
    else if (c = '_' ∨ c = '|') ∧ n = 0 then none
    else depth n text

/-- The brackets match, and all separators stand inside of them. -/
def Sealed (l : Label) : Prop := depth 0 l.toList = some 0

instance (l : Label) : Decidable (Sealed l) := inferInstanceAs (Decidable (_ = _))

/-- Neither brackets nor separators occur. -/
def Plain (l : Label) : Prop := ∀ c ∈ l.toList, c ≠ '(' ∧ c ≠ ')' ∧ c ≠ '|' ∧ c ≠ '_'

instance (l : Label) : Decidable (Plain l) := List.decidableBAll _ l.toList

theorem depth_append (n : Nat) (text rest : List Char) :
    depth n (text ++ rest) = (depth n text).bind (depth · rest) := by
  induction text generalizing n with
  | nil => rfl
  | cons c text ih =>
    simp only [List.cons_append, depth, ih]
    split_ifs <;> rfl

/-- Text that reads well reads well inside of more brackets. -/
theorem depth_add {n' : Nat} (reads : depth n text = some n') (k : Nat) :
    depth (n + k) text = some (n' + k) := by
  induction text generalizing n with
  | nil =>
    cases reads
    rfl
  | cons c text ih =>
    rw [depth] at reads ⊢
    by_cases opens : c = '('
    · rw [if_pos opens] at reads ⊢
      rw [Nat.add_right_comm]
      exact ih reads
    · rw [if_neg opens] at reads ⊢
      by_cases closes : c = ')'
      · rw [if_pos closes] at reads ⊢
        cases n with
        | zero => cases reads
        | succ n =>
          rw [Nat.add_right_comm]
          exact ih reads
      · rw [if_neg closes] at reads ⊢
        split at reads
        · cases reads
        · next inside =>
          rw [if_neg fun outside => inside ⟨outside.1, Nat.eq_zero_of_add_eq_zero_right outside.2⟩]
          exact ih reads

theorem depth_of_plain (plain : ∀ c ∈ text, c ≠ '(' ∧ c ≠ ')' ∧ c ≠ '|' ∧ c ≠ '_') (n : Nat) :
    depth n text = some n := by
  induction text with
  | nil => rfl
  | cons c text ih =>
    obtain ⟨⟨opens, closes, bar, line⟩, plain⟩ := List.forall_mem_cons.1 plain
    rw [depth, if_neg opens, if_neg closes, if_neg (by simp [bar, line])]
    exact ih plain

/-- Text that reads well reads well without its separators of one kind. -/
theorem depth_without {separator : Char} (opening : separator ≠ '(') (closing : separator ≠ ')')
    (reads : depth n text = some k) : depth n (text.filter (· ≠ separator)) = some k := by
  induction text generalizing n with
  | nil => exact reads
  | cons c text ih =>
    by_cases same : c = separator
    · subst same
      rw [depth, if_neg opening, if_neg closing] at reads
      split at reads
      · cases reads
      · rw [List.filter_cons, if_neg (by simp)]
        exact ih reads
    · rw [List.filter_cons, if_pos (decide_eq_true same)]
      rw [depth] at reads ⊢
      split_ifs at reads ⊢ <;> exact ih reads

theorem Plain.sealed (plain : Plain l) : Sealed l := depth_of_plain plain 0

/-! ### Labels that are made of others -/

theorem Sealed.depth_succ (sealed : Sealed l) (n : Nat) : depth n l.toList = some n := by
  have inside := depth_add sealed n
  rwa [Nat.zero_add] at inside

/-- Inside of brackets the label of a hyperedge reads well. -/
theorem depth_hyperedge (tag_sealed : Sealed tag) (sealed : ∀ m ∈ members, Sealed m) (n : Nat) :
    depth (n + 1) (hyperedge tag members).toList = some (n + 1) := by
  rw [toList_hyperedge, depth_append, tag_sealed.depth_succ, Option.bind_some]
  induction members with
  | nil => rfl
  | cons m members ih =>
    obtain ⟨first, rest⟩ := List.forall_mem_cons.1 sealed
    have line : depth (n + 1) ('_' :: m.toList) = some (n + 1) := by
      rw [depth, if_neg (by decide), if_neg (by decide), if_neg (by simp)]
      exact first.depth_succ (n + 1)
    rw [List.flatMap_cons, depth_append, line, Option.bind_some, ih rest]

theorem toList_midpoint (a b : Label) : ∃ x y : Label, (x = a ∧ y = b ∨ x = b ∧ y = a) ∧
    (midpoint a b).toList = "mid(".toList ++ (x.toList ++ '|' :: (y.toList ++ [')'])) := by
  unfold midpoint
  split
  · exact ⟨a, b, Or.inl ⟨rfl, rfl⟩, by simp⟩
  · exact ⟨b, a, Or.inr ⟨rfl, rfl⟩, by simp⟩

theorem toList_centre (l : Label) : (centre l).toList = "c(".toList ++ (l.toList ++ [')']) := by
  simp [centre]

theorem sealed_midpoint (first : Sealed a) (second : Sealed b) : Sealed (midpoint a b) := by
  obtain ⟨x, y, same, eq⟩ := toList_midpoint a b
  obtain ⟨first, second⟩ : Sealed x ∧ Sealed y := by
    rcases same with ⟨rfl, rfl⟩ | ⟨rfl, rfl⟩
    · exact ⟨first, second⟩
    · exact ⟨second, first⟩
  rw [Sealed, eq, depth_append]
  have opened : depth 0 "mid(".toList = some 1 := by decide
  have bar : depth 1 ('|' :: (y.toList ++ [')'])) = depth 1 (y.toList ++ [')']) := rfl
  rw [opened, Option.bind_some, depth_append, first.depth_succ, Option.bind_some, bar, depth_append,
    second.depth_succ]
  rfl

theorem sealed_centre (tag_sealed : Sealed tag) (sealed : ∀ m ∈ members, Sealed m) :
    Sealed (centre (hyperedge tag members)) := by
  have opened : depth 0 "c(".toList = some 1 := by decide
  rw [Sealed, toList_centre, depth_append, opened, Option.bind_some, depth_append,
    depth_hyperedge tag_sealed sealed]
  rfl

/-- A member shows in the label, outside of all brackets. -/
theorem not_sealed_hyperedge (tag_sealed : Sealed tag) (some_member : members ≠ []) :
    ¬ Sealed (hyperedge tag members) := by
  obtain ⟨m, members, rfl⟩ := List.exists_cons_of_ne_nil some_member
  rw [Sealed, toList_hyperedge, depth_append, tag_sealed, Option.bind_some]
  exact nofun

/-! ### Where labels agree -/

/-- `b` begins as `a` does and goes on with an underscore. -/
def GoesOn (a b : Label) : Prop := a.toList ++ ['_'] <+: b.toList

instance (a b : Label) : Decidable (GoesOn a b) := inferInstanceAs (Decidable (_ <+: _))

/-- Where two sequences of names part, one name goes on from the other with an underscore. -/
def Overlap : List Label → List Label → Prop
  | a :: l, b :: k => if a = b then Overlap l k else GoesOn a b ∨ GoesOn b a
  | [], _ => False
  | _ :: _, [] => False

instance decidableOverlap : (l k : List Label) → Decidable (Overlap l k)
  | a :: l, b :: k =>
    have := decidableOverlap l k
    inferInstanceAs (Decidable (if a = b then Overlap l k else GoesOn a b ∨ GoesOn b a))
  | [], _ => inferInstanceAs (Decidable False)
  | _ :: _, [] => inferInstanceAs (Decidable False)

/-- An underscore before every name. -/
def joined (names : List Label) : List Char := names.flatMap fun a => '_' :: a.toList

theorem joined_cons (a : Label) (names : List Label) : joined (a :: names) = '_' :: (a.toList ++ joined names) :=
  List.flatMap_cons

theorem joined_names (tag : String) (members : List Label) :
    joined (tag :: members) = '_' :: (hyperedge tag members).toList := by
  rw [joined_cons, toList_hyperedge]
  rfl

/-- What a longer name has more begins where the shorter one ends, with the next underscore. -/
theorem goesOn_of_longer {names : List Label} {more : List Char} (longer : b.toList = a.toList ++ more)
    (eq : joined names = more ++ rest) (ne : a ≠ b) : GoesOn a b := by
  cases more with
  | nil =>
    rw [List.append_nil] at longer
    exact absurd (String.toList_inj.1 longer).symm ne
  | cons c more =>
    cases names with
    | nil => cases eq
    | cons name names =>
      rw [joined_cons] at eq
      obtain ⟨rfl, -⟩ := List.cons.inj eq
      exact ⟨more, by rw [longer, List.append_assoc]; rfl⟩

theorem eq_or_overlap_of_joined_eq {l k : List Label} (eq : joined l = joined k) : l = k ∨ Overlap l k := by
  induction l generalizing k with
  | nil =>
    cases k with
    | nil => exact Or.inl rfl
    | cons b k => cases eq
  | cons a l ih =>
    cases k with
    | nil => cases eq
    | cons b k =>
      rw [joined_cons, joined_cons] at eq
      obtain ⟨-, text⟩ := List.cons.inj eq
      rw [Overlap]
      by_cases same : a = b
      · subst same
        rw [if_pos rfl]
        exact (ih (List.append_cancel_left text)).imp_left (congrArg (a :: ·))
      · rw [if_neg same]
        refine Or.inr ?_
        rcases List.append_eq_append_iff.1 text with ⟨more, longer, rest⟩ | ⟨more, longer, rest⟩
        · exact Or.inl (goesOn_of_longer longer rest same)
        · exact Or.inr (goesOn_of_longer longer rest (Ne.symm same))

/-- Hyperedges of one label have the same tag and members, or else two of their names overlap. -/
theorem eq_or_overlap_of_hyperedge_eq (eq : hyperedge tag members = hyperedge tag' members') :
    (tag = tag' ∧ members = members') ∨ Overlap (tag :: members) (tag' :: members') := by
  have text : joined (tag :: members) = joined (tag' :: members') := by
    rw [joined_names, joined_names, eq]
  exact (eq_or_overlap_of_joined_eq text).imp_left List.cons.inj

theorem not_overlap {p : Label → Prop} (apart : ∀ a b, p a → p b → ¬ GoesOn a b) {l k : List Label}
    (all : ∀ a ∈ l, p a) (all' : ∀ b ∈ k, p b) : ¬ Overlap l k := by
  induction l generalizing k with
  | nil => exact id
  | cons a l ih =>
    cases k with
    | nil => exact id
    | cons b k =>
      obtain ⟨first, rest⟩ := List.forall_mem_cons.1 all
      obtain ⟨first', rest'⟩ := List.forall_mem_cons.1 all'
      rw [Overlap]
      split
      · exact ih rest rest'
      · exact not_or.2 ⟨apart a b first first', apart b a first' first⟩

theorem not_goesOn_of_not_mem (none : ¬ '_' ∈ b.toList) : ¬ GoesOn a b :=
  fun goes => none (goes.subset (List.mem_append_right _ List.mem_cons_self))

/-! ### Bars outside of brackets -/

/-- The brackets match and all underscores stand inside of them. Bars may stand anywhere. -/
def Bracketed (l : Label) : Prop := depth 0 (l.toList.filter (· ≠ '|')) = some 0

instance (l : Label) : Decidable (Bracketed l) := inferInstanceAs (Decidable (_ = _))

theorem Sealed.bracketed (sealed : Sealed l) : Bracketed l := depth_without (by decide) (by decide) sealed

/-- An underscore right after a bracketed name stands outside of all brackets. -/
theorem Bracketed.not_goesOn (bracketed : Bracketed a) (bracketed' : Bracketed b) : ¬ GoesOn a b := by
  rintro ⟨more, eq⟩
  rw [List.append_assoc] at eq
  rw [Bracketed, ← eq, List.filter_append, depth_append, bracketed, Option.bind_some] at bracketed'
  cases bracketed'

/-- The label of a hyperedge tells its tag and its members. -/
theorem hyperedge_injective (tag_sealed : Sealed tag) (tag_sealed' : Sealed tag')
    (sealed : ∀ m ∈ members, Sealed m) (sealed' : ∀ m ∈ members', Sealed m)
    (eq : hyperedge tag members = hyperedge tag' members') : tag = tag' ∧ members = members' := by
  refine (eq_or_overlap_of_hyperedge_eq eq).resolve_right ?_
  have apart (a b : Label) (first : Sealed a) (second : Sealed b) : ¬ GoesOn a b :=
    first.bracketed.not_goesOn second.bracketed
  exact not_overlap apart (List.forall_mem_cons.2 ⟨tag_sealed, sealed⟩)
    (List.forall_mem_cons.2 ⟨tag_sealed', sealed'⟩)

/-! ### Underscores outside of brackets -/

def unlined (text : List Char) : List Char := text.filter (· ≠ '_')

/-- The brackets match and all bars stand inside of them. Underscores may stand anywhere. -/
def Closed (l : Label) : Prop := depth 0 (unlined l.toList) = some 0

instance (l : Label) : Decidable (Closed l) := inferInstanceAs (Decidable (_ = _))

theorem unlined_append (text rest : List Char) : unlined (text ++ rest) = unlined text ++ unlined rest :=
  List.filter_append ..

theorem unlined_line (text : List Char) : unlined ('_' :: text) = unlined text := rfl

theorem unlined_of_ne {c : Char} (ne : c ≠ '_') (text : List Char) :
    unlined (c :: text) = c :: unlined text := List.filter_cons_of_pos (decide_eq_true ne)

theorem Sealed.closed (sealed : Sealed l) : Closed l := depth_without (by decide) (by decide) sealed

theorem Closed.depth_eq (closed : Closed l) (n : Nat) : depth n (unlined l.toList) = some n := by
  have inside := depth_add closed n
  rwa [Nat.zero_add] at inside

theorem closed_hyperedge (tag_closed : Closed tag) (closed : ∀ m ∈ members, Closed m) :
    Closed (hyperedge tag members) := by
  rw [Closed, toList_hyperedge, unlined_append, depth_append, tag_closed.depth_eq, Option.bind_some]
  induction members with
  | nil => rfl
  | cons m members ih =>
    obtain ⟨first, rest⟩ := List.forall_mem_cons.1 closed
    rw [List.flatMap_cons, unlined_append, unlined_line, depth_append, first.depth_eq, Option.bind_some,
      ih rest]

theorem closed_midpoint (first : Closed a) (second : Closed b) : Closed (midpoint a b) := by
  obtain ⟨x, y, same, eq⟩ := toList_midpoint a b
  obtain ⟨first, second⟩ : Closed x ∧ Closed y := by
    rcases same with ⟨rfl, rfl⟩ | ⟨rfl, rfl⟩
    · exact ⟨first, second⟩
    · exact ⟨second, first⟩
  have opened : depth 0 (unlined "mid(".toList) = some 1 := by decide
  have bar (text : List Char) : depth 1 ('|' :: text) = depth 1 text := rfl
  rw [Closed, eq, unlined_append, depth_append, opened, Option.bind_some, unlined_append, depth_append,
    first.depth_eq, Option.bind_some, unlined_of_ne (by decide), bar, unlined_append, depth_append,
    second.depth_eq]
  rfl

theorem closed_centre (closed : Closed l) : Closed (centre l) := by
  have opened : depth 0 (unlined "c(".toList) = some 1 := by decide
  rw [Closed, toList_centre, unlined_append, depth_append, opened, Option.bind_some, unlined_append,
    depth_append, closed.depth_eq]
  rfl

/-- Of two ends of one text that stand before a bar, the earlier one would leave its bar outside of brackets
in the longer one. -/
theorem Closed.eq_of_bar (closed : Closed a) (closed' : Closed b)
    (eq : a.toList ++ '|' :: rest = b.toList ++ '|' :: rest') : a = b ∧ rest = rest' := by
  have no_more {a b : Label} {rest rest' more : List Char} (closed : Closed a) (closed' : Closed b)
      (longer : b.toList = a.toList ++ more) (eq : '|' :: rest = more ++ '|' :: rest') : more = [] := by
    cases more with
    | nil => rfl
    | cons c more =>
      obtain ⟨rfl, -⟩ := List.cons.inj eq
      rw [Closed, longer, unlined_append, depth_append, closed.depth_eq, Option.bind_some] at closed'
      cases closed'
  rcases List.append_eq_append_iff.1 eq with ⟨more, longer, eq'⟩ | ⟨more, longer, eq'⟩
  · obtain rfl := no_more closed closed' longer eq'
    rw [List.append_nil] at longer
    exact ⟨(String.toList_inj.1 longer).symm, (List.cons.inj eq').2⟩
  · obtain rfl := no_more closed' closed longer eq'
    rw [List.append_nil] at longer
    exact ⟨String.toList_inj.1 longer, (List.cons.inj eq').2.symm⟩

/-- A midpoint tells the two ends, but not their order. -/
theorem eq_or_swap_of_midpoint_eq (first : Closed a) (second : Closed b) (first' : Closed c)
    (second' : Closed d) (eq : midpoint a b = midpoint c d) : a = c ∧ b = d ∨ a = d ∧ b = c := by
  obtain ⟨x, y, same, text⟩ := toList_midpoint a b
  obtain ⟨x', y', same', text'⟩ := toList_midpoint c d
  have closed : Closed x ∧ Closed x' := by
    rcases same with ⟨rfl, -⟩ | ⟨rfl, -⟩ <;> rcases same' with ⟨rfl, -⟩ | ⟨rfl, -⟩ <;>
      exact ⟨‹_›, ‹_›⟩
  rw [eq, text'] at text
  obtain ⟨front, rest⟩ := closed.2.eq_of_bar closed.1 (List.append_cancel_left text)
  have back := String.toList_inj.1 (List.append_cancel_right rest)
  rcases same with ⟨rfl, rfl⟩ | ⟨rfl, rfl⟩ <;> rcases same' with ⟨rfl, rfl⟩ | ⟨rfl, rfl⟩ <;>
    simp [front, back]

theorem midpoint_injective (first : Sealed a) (second : Sealed b) (first' : Sealed c)
    (second' : Sealed d) (eq : midpoint a b = midpoint c d) : a = c ∧ b = d ∨ a = d ∧ b = c :=
  eq_or_swap_of_midpoint_eq first.closed second.closed first'.closed second'.closed eq

theorem centre_injective (eq : centre a = centre b) : a = b := by
  have text := congrArg String.toList eq
  rw [toList_centre, toList_centre] at text
  exact String.toList_inj.1 (List.append_cancel_right (List.append_cancel_left text))

theorem midpoint_ne_centre (a b l : Label) : midpoint a b ≠ centre l := by
  intro eq
  obtain ⟨x, y, -, text⟩ := toList_midpoint a b
  rw [eq, toList_centre] at text
  cases text

theorem not_plain_midpoint (a b : Label) : ¬ Plain (midpoint a b) := by
  intro plain
  obtain ⟨x, y, -, text⟩ := toList_midpoint a b
  exact (plain '(' (by rw [text]; simp)).1 rfl

theorem not_plain_centre (l : Label) : ¬ Plain (centre l) := fun plain =>
  (plain '(' (by rw [toList_centre]; simp)).1 rfl

end Label

end Hypermesh
