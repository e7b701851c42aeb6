import Hypermesh.Rules.Library
import Mathlib.Algebra.GroupWithZero.Nat
import Mathlib.Algebra.Order.BigOperators.Group.List
import Mathlib.Algebra.Order.Group.Nat
import Mathlib.Data.Finset.Lattice.Fold
import Mathlib.Data.Finset.Prod
import Mathlib.Data.List.Perm.Subperm
import Mathlib.Order.Lattice.Nat

/-!
How much work a hyperedge still holds for the rules. An element counts for the mark that it lacks and for
the pieces that it can be broken into. A side counts for its splits: its halves have longer labels, so
that a bound leaves them less room than it leaves the side, and no rule marks a side that has no room.
-/

namespace Hypermesh

open scoped List

theorem Label.length_midpoint (a b : Label) :
    (Label.midpoint a b).length = a.length + b.length + 6 := by
  have front : "mid(".length = 4 := rfl
  have bar : "|".length = 1 := rfl
  have back : ")".length = 1 := rfl
  unfold midpoint
  split <;> simp only [String.length_append, front, bar, back] <;> omega

namespace Rules

variable {bound r r' : Nat} {a b c d : Label} {e half : Hyperedge} {es fs : List Hyperedge}

/-! ### Room -/

/-- What two labels leave below the bound. -/
def gap (bound : Nat) (ends : Label × Label) : Nat := bound - (ends.1.length + ends.2.length)

/-- The most that the labels of two different members leave below the bound. -/
def room (bound : Nat) (e : Hyperedge) : Nat := e.memberLabels.toFinset.offDiag.sup (gap bound)

theorem room_le (bound : Nat) (e : Hyperedge) : room bound e ≤ bound :=
  Finset.sup_le fun _ _ => Nat.sub_le _ _

theorem le_room (bound : Nat) (mem : a ∈ e.memberLabels) (mem' : b ∈ e.memberLabels) (ne : a ≠ b) :
    gap bound (a, b) ≤ room bound e := by
  apply Finset.le_sup
  simp [mem, mem', ne]

theorem room_le_of_ends (bound : Nat) (ends : e.memberLabels = [a, b]) :
    room bound e ≤ gap bound (a, b) := by
  apply Finset.sup_le
  rintro ⟨x, y⟩ mem
  simp only [ends, List.toFinset_cons, List.toFinset_nil, Finset.mem_offDiag, Finset.mem_insert,
    insert_empty_eq, Finset.mem_singleton] at mem
  obtain ⟨rfl | rfl, rfl | rfl, ne⟩ := mem
  · exact absurd rfl ne
  · exact Nat.le_refl _
  · exact Nat.le_of_eq (congrArg (bound - ·) (Nat.add_comm ..))
  · exact absurd rfl ne

/-- A hyperedge between two labels that are longer than those of two members has less room. -/
theorem room_half (mem : a ∈ e.memberLabels) (mem' : b ∈ e.memberLabels) (ne : a ≠ b)
    (ends : half.memberLabels = [c, d]) (longer : a.length + b.length < c.length + d.length) :
    room bound half ≤ room bound e - 1 := by
  have small := room_le_of_ends bound ends
  have large := le_room bound mem mem' ne
  simp only [gap] at small large
  omega

/-! ### Weights -/

/-- What an unmarked side of the given room counts: more than the marked side, and that more than two
halves of less room. -/
def pending : Nat → Nat
  | 0 => 0
  | r + 1 => 2 * pending r + 2

theorem pending_mono (le : r ≤ r') : pending r ≤ pending r' := by
  apply monotone_nat_of_le_succ _ le
  intro n
  rw [pending]
  omega

/-- What the pieces of an element count: no more than six sides and six quads. -/
def pieces (bound : Nat) (tag : String) : Nat :=
  if tag = Outline.pentagon.tag ∨ tag = Outline.hexagon.tag then 6 * (pending bound + 1) + 1 else 0

def weight (bound : Nat) (e : Hyperedge) : Nat :=
  if e.tag = sideTag then
    if e.mark = 0 then pending (room bound e)
    else if e.mark = 1 then 2 * pending (room bound e - 1) + 1
    else 0
  else pieces bound e.tag + if e.mark = 0 then 1 else 0

theorem weight_unmarked_side (tag : e.tag = sideTag) (mark : e.mark = 0) :
    weight bound e = pending (room bound e) := by rw [weight, if_pos tag, if_pos mark]

theorem weight_marked_side (tag : e.tag = sideTag) (mark : e.mark = 1) :
    weight bound e = 2 * pending (room bound e - 1) + 1 := by
  rw [weight, if_pos tag, mark, if_neg (by decide), if_pos rfl]

theorem weight_mark_element (bound : Nat) (tag : e.tag ≠ sideTag) (mark : e.mark = 0) :
    weight bound (e.withMark 1) < weight bound e := by
  have marked : weight bound (e.withMark 1) = pieces bound e.tag := if_neg tag
  have unmarked : weight bound e = pieces bound e.tag + 1 := by
    rw [weight, if_neg tag, if_pos mark]
  omega

/-- An element that can be broken counts more than its pieces. -/
theorem weight_breakable (bound : Nat)
    (tag : e.tag = Outline.pentagon.tag ∨ e.tag = Outline.hexagon.tag) :
    6 * (pending bound + 1) < weight bound e := by
  have no_side : e.tag ≠ sideTag := by rcases tag with eq | eq <;> rw [eq] <;> decide
  rw [weight, if_neg no_side, pieces, if_pos tag]
  omega

/-- Marking a side makes progress where there is room for its ends. -/
theorem weight_mark_side (tag : e.tag = sideTag) (mark : e.mark = 0) (mem : a ∈ e.memberLabels)
    (mem' : b ∈ e.memberLabels) (ne : a ≠ b) (fits : a.length + b.length < bound) :
    weight bound (e.withMark 1) < weight bound e := by
  have marked : weight bound (e.withMark 1) = 2 * pending (room bound e - 1) + 1 :=
    weight_marked_side tag rfl
  rw [marked, weight_unmarked_side tag mark]
  have large := le_room bound mem mem' ne
  simp only [gap] at large
  obtain ⟨r, eq⟩ : ∃ r, room bound e = r + 1 := Nat.exists_eq_succ_of_ne_zero (by omega)
  rw [eq, pending, Nat.add_sub_cancel]
  omega

theorem weight_half (mem : a ∈ e.memberLabels) (mem' : b ∈ e.memberLabels) (ne : a ≠ b)
    (tag : half.tag = sideTag) (mark : half.mark = 0) (ends : half.memberLabels = [c, d])
    (longer : a.length + b.length < c.length + d.length) :
    weight bound half ≤ pending (room bound e - 1) := by
  rw [weight_unmarked_side tag mark]
  exact pending_mono (room_half mem mem' ne ends longer)

/-- The halves on both sides of a midpoint count less than the marked side. -/
theorem weight_halves {front back : Hyperedge} (tag : e.tag = sideTag) (mark : e.mark = 1)
    (mem : a ∈ e.memberLabels) (mem' : b ∈ e.memberLabels) (ne : a ≠ b)
    (tags : front.tag = sideTag ∧ back.tag = sideTag) (marks : front.mark = 0 ∧ back.mark = 0)
    (ends : front.memberLabels = [a, .midpoint a b]) (ends' : back.memberLabels = [.midpoint a b, b]) :
    weight bound front + weight bound back < weight bound e := by
  have length := Label.length_midpoint a b
  have first : weight bound front ≤ pending (room bound e - 1) :=
    weight_half mem mem' ne tags.1 marks.1 ends (by omega)
  have second : weight bound back ≤ pending (room bound e - 1) :=
    weight_half mem mem' ne tags.2 marks.2 ends' (by omega)
  rw [weight_marked_side tag mark]
  omega

theorem weight_spoke (tag : e.tag = sideTag) (mark : e.mark = 0) : weight bound e ≤ pending bound := by
  rw [weight_unmarked_side tag mark]
  exact pending_mono (room_le bound e)

/-! ### Sums of weights -/

def load (bound : Nat) (es : List Hyperedge) : Nat := (es.map (weight bound)).sum

@[simp] theorem load_nil (bound : Nat) : load bound [] = 0 := rfl

@[simp] theorem load_cons (bound : Nat) (e : Hyperedge) (es : List Hyperedge) :
    load bound (e :: es) = weight bound e + load bound es := List.sum_cons

@[simp] theorem load_append (bound : Nat) (es fs : List Hyperedge) :
    load bound (es ++ fs) = load bound es + load bound fs := by
  rw [load, List.map_append, List.sum_append, load, load]

theorem load_perm (perm : es ~ fs) : load bound es = load bound fs := (perm.map _).sum_eq

theorem load_le (bound : Nat) (sub : es <+~ fs) : load bound es ≤ load bound fs := by
  obtain ⟨gs, perm, sub⟩ := sub
  rw [← load_perm perm]
  exact (sub.map _).sum_le_sum fun _ _ => Nat.zero_le _

theorem weight_le_load (bound : Nat) (mem : e ∈ es) : weight bound e ≤ load bound es := by
  have single := load_le bound (List.singleton_subperm_iff.2 mem)
  rwa [load_cons, load_nil, Nat.add_zero] at single

theorem load_flatMap_le {α : Type} {new : α → List Hyperedge} {k : Nat}
    (each : ∀ a, load bound (new a) ≤ k) (as : List α) : load bound (as.flatMap new) ≤ as.length * k := by
  induction as with
  | nil => exact Nat.zero_le _
  | cons a as ih =>
    rw [List.flatMap_cons, load_append, List.length_cons, Nat.succ_mul, Nat.add_comm]
    exact Nat.add_le_add ih (each a)

theorem load_map_lt {f : Hyperedge → Hyperedge} (nonempty : es ≠ [])
    (lt : ∀ e ∈ es, weight bound (f e) < weight bound e) : load bound (es.map f) < load bound es := by
  rw [load, List.map_map]
  exact List.sum_lt_sum_of_ne_nil nonempty _ _ lt

/-! ### The bound -/

/-- The bound leaves room for every two labels of members of a pentagon. -/
def Bounded (bound : Nat) (es : List Hyperedge) : Prop :=
  ∀ e ∈ es, e.tag = Outline.pentagon.tag → ∀ l ∈ e.memberLabels, 2 * l.length < bound

theorem Bounded.subset (bounded : Bounded bound fs) (sub : es ⊆ fs) : Bounded bound es :=
  fun e mem => bounded e (sub mem)

theorem Bounded.append (bounded : Bounded bound es) (bounded' : Bounded bound fs) :
    Bounded bound (es ++ fs) := List.forall_mem_append.2 ⟨bounded, bounded'⟩

theorem Bounded.map_withMark (bounded : Bounded bound es) (mark : UInt8) :
    Bounded bound (es.map (·.withMark mark)) := List.forall_mem_map.2 bounded

/-- Sides and quads are no pentagons. -/
theorem bounded_of_tags (tags : ∀ e ∈ es, e.tag = sideTag ∨ e.tag = quadTag) : Bounded bound es := by
  intro e mem tag
  rcases tags e mem with eq | eq
  · exact absurd (eq.symm.trans tag) (by decide)
  · exact absurd (eq.symm.trans tag) (by decide)

theorem exists_bounded (es : List Hyperedge) : ∃ bound, Bounded bound es := by
  let lengths := (es.flatMap Hyperedge.memberLabels).map String.length
  refine ⟨2 * lengths.sum + 1, fun e mem _ l member => ?_⟩
  have le : l.length ≤ lengths.sum :=
    List.le_sum_of_mem (List.mem_map_of_mem (List.mem_flatMap.2 ⟨e, mem, member⟩))
  omega

end Rules

end Hypermesh
