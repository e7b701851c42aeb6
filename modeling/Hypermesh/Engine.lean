import Hypermesh.Region
import Hypermesh.Settings
import Hypermesh.Trace

/-!
The engine applies a production to a host until nothing matches or the cap is reached. Each round
searches for all embeddings of the left side and replaces the first one whose region is accepted.
-/

namespace Hypermesh

inductive Choice
  | none
  | stale (label : Label)
  | selected (m : Embedding) (region : Hypergraph)

inductive Outcome
  | applied (host : Hypergraph)
  | halted (halt : Halt)

/-- The host after some rounds, the applications so far, and why the run ended, if it has. -/
structure Run where
  host : Hypergraph
  applications : Nat
  halt : Option Halt
  trace : Trace

namespace Production

variable (P : Production) (s : Settings)

/-- Takes the first candidate whose region is accepted, or the first at all if nobody is asked. -/
def choose (left host : Hypergraph) : (candidate : Nat) → List Embedding → Choice × Trace
  | _, [] => (.none, [])
  | candidate, m :: ms =>
    match left.region host m with
    | .error label => (.stale label, [])
    | .ok region =>
      if s.consultAcceptance then
        if P.accepts region then (.selected m region, [.call (.accepts region true)])
        else
          let (choice, trace) := choose left host (candidate + 1) ms
          (choice,
            .call (.accepts region false) :: .event (.rejected P.name candidate) :: trace)
      else (.selected m region, [])

def applyAt (left host : Hypergraph) (m : Embedding) (region : Hypergraph) (index : Nat) :
    Hypergraph × Trace :=
  let side := P.right region index
  let removed := (left.hyperedges.keys.filterMap m.find?).length
  (host.replace left m side.graph,
    .call (.right region index) :: (side.events P.name).map .event ++
      [.event (.applied P.name index removed side.graph.hyperedges.size)])

def round (left host : Hypergraph) (index : Nat) : Outcome × Trace :=
  let embeddings := left.embeddings host
  let searched : Trace := (left.searchEvents host embeddings).map .event
  match choose P s left host 0 embeddings with
  | (.none, trace) => (.halted .exhausted, searched ++ trace)
  | (.stale label, trace) =>
    (.halted .staleMatch, searched ++ trace ++ [.event (.stale P.name label)])
  | (.selected m region, trace) =>
    let (host, applied) := P.applyAt left host m region index
    (.applied host, searched ++ trace ++ applied)

/-- At most `rounds` further rounds. -/
def runFrom (left : Hypergraph) : (rounds : Nat) → (index : Nat) → (host : Hypergraph) → Run
  | 0, index, host => ⟨host, index, none, []⟩
  | rounds + 1, index, host =>
    match s.capReached? index with
    | some cap => ⟨host, index, some .limit, [.event (.limitReached P.name cap)]⟩
    | none =>
      match round P s left host index with
      | (.halted halt, trace) => ⟨host, index, some halt, trace⟩
      | (.applied host, trace) =>
        let rest := runFrom left rounds (index + 1) host
        { rest with trace := trace ++ rest.trace }

def summary (r : Run) : List Event :=
  match r.halt with
  | none => []
  | some halt => [.finished P.name r.applications halt r.host.counts (Digest.short r.host.digest)]

/-- Applies the production from the start, for at most `rounds` rounds. -/
def run (rounds : Nat) (host : Hypergraph) : Run :=
  let rest := runFrom P s P.leftSide rounds 0 host
  { rest with
    trace := .call .left :: (P.left.events P.name).map .event ++ rest.trace ++
      (P.summary rest).map .event }

end Production

end Hypermesh
