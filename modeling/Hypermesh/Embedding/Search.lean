import Hypermesh.Embedding.Plan

/-!
Backtracking search for the embeddings of one incidence graph into another. The pattern's vertices are
placed in the order of the plan; a host vertex is feasible when it is free, of the right kind and
degree, and linked to the images of the placed vertices exactly as the pattern demands.
-/

namespace Hypermesh

variable {m n : Nat}

/-- A partial map from pattern vertices to host vertices, kept in both directions. -/
structure Assignment (m n : Nat) where
  image : Vector (Option (Fin n)) m
  source : Vector (Option (Fin m)) n

namespace Assignment

def empty : Assignment m n := ⟨.replicate m none, .replicate n none⟩

def place (a : Assignment m n) (p : Fin m) (h : Fin n) : Assignment m n where
  image := a.image.set p (some h) p.isLt
  source := a.source.set h (some p) h.isLt

def release (a : Assignment m n) (p : Fin m) (h : Fin n) : Assignment m n where
  image := a.image.set p none p.isLt
  source := a.source.set h none h.isLt

/-- The images of all pattern vertices in order, if every one is placed. -/
def total? (a : Assignment m n) : Option (List (Fin n)) := a.image.toList.mapM id

/-- Images and sources say the same. -/
def Paired (a : Assignment m n) : Prop :=
  ∀ (p : Fin m) (h : Fin n), a.image.get p = some h ↔ a.source.get h = some p

end Assignment

/-- A search carries the current assignment and the complete ones found so far, newest first. -/
structure Search (m n : Nat) where
  assignment : Assignment m n := .empty
  found : List (List (Fin n)) := []

namespace Search

variable (pattern : Incidence m) (host : Incidence n)

/-- A placed neighbour restricts the choice to the neighbours of its image. -/
def candidates (a : Assignment m n) (anchor : Option (Fin m)) : List (Fin n) :=
  match anchor.bind a.image.get with
  | some h => host.neighbours.get h
  | none => List.finRange n

def images (a : Assignment m n) (p : Fin m) : List (Fin n) :=
  (pattern.neighbours.get p).filterMap a.image.get

def taken (a : Assignment m n) (h : Fin n) : List (Fin n) :=
  (host.neighbours.get h).filter (a.source.get · |>.isSome)

/-- Whether `p` may go to `h`. Every image next to `p` must be next to `h`, and there are as many of
them as there are images next to `h`, so that there are no others. -/
def feasible (a : Assignment m n) (p : Fin m) (h : Fin n) : Bool :=
  (a.source.get h).isNone && pattern.kind.get p = host.kind.get h && pattern.degree p ≤ host.degree h &&
    (images pattern a p).all (host.Adjacent h ·) &&
    (images pattern a p).length = (taken host a h).length

def record (s : Search m n) : Search m n :=
  { s with found := s.assignment.total?.toList ++ s.found }

/-- Tries every feasible host vertex for the next placement and undoes each one after its turn. -/
def extend : List (Placement m) → Search m n → Search m n
  | [], s => s.record
  | next :: rest, s =>
    (candidates host s.assignment next.anchor).foldl (fun s h =>
      if feasible pattern host s.assignment next.vertex h then
        let t := extend rest { s with assignment := s.assignment.place next.vertex h }
        { t with assignment := t.assignment.release next.vertex h }
      else s) s

end Search

def Incidence.assignments (pattern : Incidence m) (host : Incidence n) : List (List (Fin n)) :=
  (Search.extend pattern host pattern.plan {}).found

end Hypermesh
