import Hypermesh.Incidence

/-!
The order in which the vertices of a pattern are placed. Next comes the vertex with the most links to
those already placed, then the one of highest degree, then the first. Its anchor is a placed neighbour.
-/

namespace Hypermesh

structure Placement (n : Nat) where
  vertex : Fin n
  anchor : Option (Fin n)
  deriving DecidableEq

namespace Incidence

variable {n : Nat}

def links (I : Incidence n) (placed : List (Fin n)) (v : Fin n) : Nat :=
  (I.neighbours.get v).countP (· ∈ placed)

/-- Of the vertices that are not placed yet, those with the most links come into question, of these
those of highest degree, and of these the first. -/
def next? (I : Incidence n) (placed : List (Fin n)) : Option (Fin n) :=
  let waiting := (List.finRange n).filter (· ∉ placed)
  (waiting.maxOn? (I.links placed)).bind fun best =>
    (waiting.filter (I.links placed · = I.links placed best)).maxOn? I.degree

def anchor? (I : Incidence n) (placed : List (Fin n)) (v : Fin n) : Option (Fin n) :=
  (I.neighbours.get v).find? (· ∈ placed)

/-- At most `steps` further placements, the placed vertices being given newest first. -/
def planFrom (I : Incidence n) : (steps : Nat) → (placed : List (Fin n)) → List (Placement n)
  | 0, _ => []
  | steps + 1, placed =>
    match I.next? placed with
    | none => []
    | some v => ⟨v, I.anchor? placed v⟩ :: I.planFrom steps (v :: placed)

def plan (I : Incidence n) : List (Placement n) := I.planFrom n []

end Incidence

end Hypermesh
