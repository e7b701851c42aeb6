import Hypermesh.Label
import Mathlib.Algebra.GroupWithZero.Nat

/-!
Labels that spell numbers. Digits are no separators, so that a number can be read off a text up to the next
separator, and the separators in the label of a hyperedge over numbered nodes can be counted.
-/

namespace Hypermesh

namespace Mesh

/-- Where a text without a separator ends: at the next separator, or with the whole text. -/
def Stops (text : List Char) : Prop := ∀ c ∈ text.head?, c = '_'

theorem stops_nil : Stops [] := nofun

theorem stops_cons (text : List Char) : Stops ('_' :: text) := by
  intro c mem
  exact (Option.mem_some_iff.1 mem).symm

/-- A text without a separator can be told from what comes after it. -/
theorem front_unique {a a' b b' : List Char} (plain : ¬ '_' ∈ a) (plain' : ¬ '_' ∈ a') (stops : Stops b)
    (stops' : Stops b') (same : a ++ b = a' ++ b') : a = a' ∧ b = b' := by
  have longer {c : Char} {front rest text : List Char} (stops : Stops text) (plain : ¬ '_' ∈ c :: front) :
      ¬ text = c :: (front ++ rest) := by
    rintro rfl
    exact plain (stops c rfl ▸ List.mem_cons_self)
  induction a generalizing a' with
  | nil =>
    cases a' with
    | nil => exact ⟨rfl, same⟩
    | cons c a' => exact absurd same (longer stops plain')
  | cons c a ih =>
    cases a' with
    | nil => exact absurd same.symm (longer stops' plain)
    | cons c' a' =>
      rw [List.cons_append, List.cons_append, List.cons.injEq] at same
      obtain ⟨rfl, same⟩ := same
      rw [List.mem_cons, not_or] at plain plain'
      obtain ⟨rfl, rest⟩ := ih plain.2 plain'.2 same
      exact ⟨rfl, rest⟩

theorem toList_digits (n : Nat) : (toString n).toList = Nat.toDigits 10 n := Nat.toList_repr

theorem plain_digits (n : Nat) : ¬ '_' ∈ (toString n).toList := by
  intro mem
  rw [toList_digits] at mem
  exact absurd (Nat.isDigit_of_mem_toDigits (by decide) (by decide) mem) (by decide)

theorem digits_injective {n k : Nat} (same : (toString n).toList = (toString k).toList) : n = k := by
  rw [toList_digits, toList_digits] at same
  rw [← Nat.ofDigitChars_ten_toDigits (n := n), same, Nat.ofDigitChars_ten_toDigits]

end Mesh

namespace Label

/-- The number of separators in a label. -/
def lines (l : Label) : Nat := l.toList.count '_'

theorem lines_append (l k : Label) : lines (l ++ k) = lines l + lines k := by
  rw [lines, String.toList_append, List.count_append, lines, lines]

theorem lines_toString (n : Nat) : lines (toString n) = 0 := List.count_eq_zero.2 (Mesh.plain_digits n)

/-- Each member comes with one more separator. -/
theorem lines_hyperedge (tag : String) (members : List Label) :
    lines (hyperedge tag members) = lines tag + (members.map fun m => lines m + 1).sum := by
  have member (m : Label) : ('_' :: m.toList).count '_' = lines m + 1 := List.count_cons_self
  rw [lines, toList_hyperedge, List.count_append, List.count_flatMap, lines]
  simp only [Function.comp_def, member]

end Label

end Hypermesh
