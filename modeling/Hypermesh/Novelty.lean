/-!
Which items of a list are new, when items of one identity count once. Nodes go by their label,
hyperedges by their tag and member set.
-/

universe u

namespace Hypermesh

variable {α : Type u} (same : α → α → Prop) [DecidableRel same]

/-- For each item, whether nothing in `seen` or before it is the same. -/
def noveltyFrom (seen : List α) : List α → List Bool
  | [] => []
  | a :: l => (!seen.any (same a ·)) :: noveltyFrom (a :: seen) l

def novelty (l : List α) : List Bool := noveltyFrom same [] l

@[simp] theorem length_noveltyFrom (seen l : List α) : (noveltyFrom same seen l).length = l.length := by
  induction l generalizing seen with
  | nil => rfl
  | cons a l ih => simp [noveltyFrom, ih]

/-- An item is new if it is the same as none that has been seen and none before it. -/
theorem getElem?_noveltyFrom (seen l : List α) (i : Nat) :
    (noveltyFrom same seen l)[i]? = some true ↔
      ∃ a, l[i]? = some a ∧ (∀ b ∈ seen, ¬ same a b) ∧ ∀ b ∈ l.take i, ¬ same a b := by
  induction l generalizing seen i with
  | nil => simp [noveltyFrom]
  | cons c l ih =>
    cases i with
    | zero => simp [noveltyFrom]
    | succ i =>
      rw [noveltyFrom, List.getElem?_cons_succ, ih]
      simp only [List.getElem?_cons_succ, List.take_succ_cons, List.forall_mem_cons]
      refine exists_congr fun a => and_congr_right fun _ => ?_
      exact and_assoc.trans and_left_comm

theorem getElem?_novelty (l : List α) (i : Nat) :
    (novelty same l)[i]? = some true ↔ ∃ a, l[i]? = some a ∧ ∀ b ∈ l.take i, ¬ same a b := by
  simp [novelty, getElem?_noveltyFrom]

end Hypermesh
