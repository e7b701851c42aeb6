/-!
Sorting a list by a total order: the result holds the same items, and each is at most the next.
-/

universe u

namespace Hypermesh

variable {α : Type u} (le : α → α → Bool)

def insertInOrder (a : α) : List α → List α
  | [] => [a]
  | b :: l => if le a b then a :: b :: l else b :: insertInOrder a l

def inOrder (l : List α) : List α := l.foldr (insertInOrder le) []

@[simp] theorem inOrder_nil : inOrder le [] = [] := rfl

@[simp] theorem inOrder_cons (a : α) (l : List α) :
    inOrder le (a :: l) = insertInOrder le a (inOrder le l) := rfl

theorem insertInOrder_perm (a : α) (l : List α) : (insertInOrder le a l).Perm (a :: l) := by
  induction l with
  | nil => exact .refl _
  | cons b l ih =>
    unfold insertInOrder
    split
    · exact .refl _
    · exact (ih.cons b).trans (.swap a b l)

theorem inOrder_perm (l : List α) : (inOrder le l).Perm l := by
  induction l with
  | nil => exact .refl _
  | cons a l ih => exact (insertInOrder_perm le a _).trans (ih.cons a)

@[simp] theorem length_inOrder (l : List α) : (inOrder le l).length = l.length :=
  (inOrder_perm le l).length_eq

@[simp] theorem mem_inOrder {a : α} {l : List α} : a ∈ inOrder le l ↔ a ∈ l :=
  (inOrder_perm le l).mem_iff

variable {le}

theorem pairwise_insertInOrder (trans : ∀ a b c, le a b → le b c → le a c)
    (total : ∀ a b, le a b || le b a) (a : α) {l : List α} (h : l.Pairwise (le · ·)) :
    (insertInOrder le a l).Pairwise (le · ·) := by
  induction l with
  | nil => simp [insertInOrder]
  | cons b l ih =>
    obtain ⟨hb, hl⟩ := List.pairwise_cons.1 h
    unfold insertInOrder
    split
    · next hab =>
      refine List.pairwise_cons.2 ⟨fun c hc => ?_, h⟩
      rcases List.mem_cons.1 hc with rfl | hc
      · exact hab
      · exact trans a b c hab (hb c hc)
    · next hab =>
      refine List.pairwise_cons.2 ⟨fun c hc => ?_, ih hl⟩
      rcases List.mem_cons.1 ((insertInOrder_perm le a l).mem_iff.1 hc) with rfl | hc
      · simpa [hab] using total c b
      · exact hb c hc

theorem pairwise_inOrder (trans : ∀ a b c, le a b → le b c → le a c)
    (total : ∀ a b, le a b || le b a) (l : List α) : (inOrder le l).Pairwise (le · ·) := by
  induction l with
  | nil => exact .nil
  | cons a l ih => exact pairwise_insertInOrder trans total a ih

end Hypermesh
