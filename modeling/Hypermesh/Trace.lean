import Hypermesh.Digest
import Hypermesh.Embedding
import Hypermesh.Production

/-!
What a run leaves behind: the events it reports, each with a level, a message and fields, and the calls
it makes to its production, all in the order in which they happen.
-/

namespace Hypermesh

inductive Halt
  | exhausted
  | staleMatch
  | limit
  deriving DecidableEq

def Halt.name : Halt → String
  | .exhausted => "Exhausted"
  | .staleMatch => "StaleMatch"
  | .limit => "Limit"

inductive Level
  | error
  | warn
  | info
  | debug
  | trace
  deriving DecidableEq

namespace Level

def name : Level → String
  | .error => "ERROR"
  | .warn => "WARN"
  | .info => "INFO"
  | .debug => "DEBUG"
  | .trace => "TRACE"

/-- More verbose levels come later. -/
def verbosity : Level → Nat
  | .error => 0
  | .warn => 1
  | .info => 2
  | .debug => 3
  | .trace => 4

instance : LE Level := ⟨fun a b => a.verbosity ≤ b.verbosity⟩

instance (a b : Level) : Decidable (a ≤ b) :=
  inferInstanceAs (Decidable (a.verbosity ≤ b.verbosity))

end Level

inductive Event
  | searched (patternVertices hostVertices embeddings : Nat)
  | applied (production : String) (index removed inserted : Nat)
  | rejected (production : String) (candidate : Nat)
  | stale (production : String) (label : Label)
  | limitReached (production : String) (cap : Nat)
  | finished (production : String) (applications : Nat) (halt : Halt) (counts : Counts)
      (state : String)
  | sideFailed (production : String) (error : RuleError)
  deriving DecidableEq

inductive FieldValue
  | number (n : Nat)
  | text (s : String)
  deriving DecidableEq

namespace Event

def level : Event → Level
  | .searched .. => .trace
  | .applied .. => .debug
  | .rejected .. => .debug
  | .stale .. => .warn
  | .limitReached .. => .warn
  | .finished .. => .info
  | .sideFailed .. => .error

def message : Event → String
  | .searched .. => "subgraph search finished"
  | .applied .. => "production applied"
  | .rejected .. => "match rejected by acceptance predicate"
  | .stale .. => "stale match, stopping"
  | .limitReached .. => "application cap reached, stopping"
  | .finished .. => "apply finished"
  | .sideFailed .. => "failed to assemble production side"

def fields : Event → List (String × FieldValue)
  | .searched patternVertices hostVertices embeddings =>
    [("pattern_vertices", .number patternVertices), ("host_vertices", .number hostVertices),
      ("embeddings", .number embeddings)]
  | .applied production index removed inserted =>
    [("production", .text production), ("index", .number index), ("removed", .number removed),
      ("inserted", .number inserted)]
  | .rejected production candidate =>
    [("production", .text production), ("candidate", .number candidate)]
  | .stale production label => [("production", .text production), ("label", .text label)]
  | .limitReached production cap => [("production", .text production), ("cap", .number cap)]
  | .finished production applications halt counts state =>
    [("production", .text production), ("applications", .number applications),
      ("halt", .text halt.name), ("nodes", .number counts.regular),
      ("hyperedges", .number counts.hyper), ("state", .text state)]
  | .sideFailed production error =>
    [("production", .text production), ("error", .text error.message)]

end Event

/-- A call to a production, with the region it is shown and what it answers or is told. -/
inductive Call
  | left
  | accepts (region : Hypergraph) (answer : Bool)
  | right (region : Hypergraph) (index : Nat)

def Call.region? : Call → Option Hypergraph
  | .left => none
  | .accepts region _ => some region
  | .right region _ => some region

inductive Entry
  | event (event : Event)
  | call (call : Call)

abbrev Trace := List Entry

namespace Trace

def events (t : Trace) : List Event :=
  t.filterMap fun
    | .event e => some e
    | .call _ => none

def calls (t : Trace) : List Call :=
  t.filterMap fun
    | .event _ => none
    | .call c => some c

def lastRegion? (t : Trace) : Option Hypergraph := (t.calls.filterMap Call.region?).getLast?

@[simp] theorem events_nil : events [] = [] := rfl

@[simp] theorem calls_nil : calls [] = [] := rfl

@[simp] theorem events_append (t u : Trace) : events (t ++ u) = events t ++ events u :=
  List.filterMap_append

@[simp] theorem calls_append (t u : Trace) : calls (t ++ u) = calls t ++ calls u :=
  List.filterMap_append

@[simp] theorem calls_events (events : List Event) : calls (events.map .event) = [] := by
  rw [calls, List.filterMap_map]
  exact List.filterMap_eq_nil_iff.2 fun _ _ => rfl

end Trace

/-- Events that are reported at `level`: those of that level and the more severe ones. -/
def Event.reported (level : Level) (events : List Event) : List Event :=
  events.filter (·.level ≤ level)

def Side.events (production : String) : Side → List Event
  | .ok _ => []
  | .error e => [.sideFailed production e]

/-- The report of a search that has found `embeddings`, if one took place. -/
def Hypergraph.searchEvents (pattern host : Hypergraph) (embeddings : List Embedding) :
    List Event :=
  if pattern.Fits host then
    [.searched pattern.vertices.size host.vertices.size embeddings.length]
  else []

end Hypermesh
