/-!
Labels name every vertex of a mesh, nodes and hyperedges alike. The label of a hyperedge spells its
tag and its members; the label of a midpoint or a centre spells what it was made from.
-/

namespace Hypermesh

abbrev Label := String

namespace Label

/-- The tag and then every member in order, each after an underscore. -/
def hyperedge (tag : String) : List Label → Label
  | [] => tag
  | member :: members => hyperedge (tag ++ "_" ++ member) members

/-- Both orders of the ends give the same label: the smaller end is written first. -/
def midpoint (a b : Label) : Label :=
  if a ≤ b then "mid(" ++ a ++ "|" ++ b ++ ")" else "mid(" ++ b ++ "|" ++ a ++ ")"

def centre (element : Label) : Label := "c(" ++ element ++ ")"

/-- Whether a sequence of labels comes before another one or is the same: the first labels that differ
decide, and a shorter sequence comes before its continuations. -/
def seqLe : List Label → List Label → Bool
  | [], _ => true
  | _ :: _, [] => false
  | a :: l, b :: m => if a = b then seqLe l m else a ≤ b

@[simp] theorem hyperedge_nil (tag : String) : hyperedge tag [] = tag := rfl

@[simp] theorem hyperedge_cons (tag : String) (member : Label) (members : List Label) :
    hyperedge tag (member :: members) = hyperedge (tag ++ "_" ++ member) members := rfl

theorem toList_hyperedge (tag : String) (members : List Label) :
    (hyperedge tag members).toList = tag.toList ++ members.flatMap fun m => '_' :: m.toList := by
  induction members generalizing tag with
  | nil => simp
  | cons member members ih => simp [ih]

theorem midpoint_comm (a b : Label) : midpoint a b = midpoint b a := by
  unfold midpoint
  by_cases h : a ≤ b <;> by_cases h' : b ≤ a
  · rw [String.le_antisymm h h']
  · simp [h, h']
  · simp [h, h']
  · exact absurd (String.le_total a b) (by simp [h, h'])

theorem seqLe_total (l m : List Label) : seqLe l m || seqLe m l := by
  induction l generalizing m with
  | nil => simp [seqLe]
  | cons a l ih =>
    cases m with
    | nil => simp [seqLe]
    | cons b m =>
      by_cases h : a = b
      · simpa [seqLe, h] using ih m
      · simpa [seqLe, h, Ne.symm h] using String.le_total a b

theorem seqLe_trans (l m k : List Label) : seqLe l m → seqLe m k → seqLe l k := by
  induction l generalizing m k with
  | nil => simp [seqLe]
  | cons a l ih =>
    cases m with
    | nil => simp [seqLe]
    | cons b m =>
      cases k with
      | nil => simp [seqLe]
      | cons c k =>
        by_cases hab : a = b
        · subst hab
          by_cases hac : a = c
          · simpa [seqLe, hac] using ih m k
          · simp [seqLe, hac]
        · by_cases hbc : b = c
          · subst hbc
            intro h _
            simpa [seqLe, hab] using h
          · intro h h'
            simp only [seqLe, hab, hbc, if_false, decide_eq_true_eq] at h h'
            have hac : a ≠ c := by
              rintro rfl
              exact hab (String.le_antisymm h h')
            simpa [seqLe, hac] using String.le_trans h h'

end Label

end Hypermesh
