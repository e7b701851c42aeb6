import Hypermesh.Production

/-!
Productions given as data: conditions on the matched region, all of which have to hold for it to be
accepted, and actions that assemble the right side from it step by step.
-/

namespace Hypermesh

inductive Condition
  | boundary (key : Label) (value : Bool)
  | label (key : Label) (value : Label)
  | notLabel (key : Label) (value : Label)
  | never

def Condition.holds (region : Hypergraph) : Condition → Bool
  | .boundary key value => (region.hyperedge? key).any (·.onBoundary = value)
  | .label key value => (region.node? key).any (·.label = value)
  | .notLabel key value => !(region.node? key).any (·.label = value)
  | .never => false

/-- A member of a new hyperedge: a node known under a key, or a fresh one. -/
inductive Member
  | known (key : Label)
  | fresh (node : Node)

/-- An action that needs a record of the region does nothing where there is none. -/
inductive Action
  | keep (key : Label) (revision : Revision)
  | node (node : Node)
  | take (key : Label) (x : Option Coord) (hanging : Option Bool)
  | edge (tag : String) (members : List Member) (revision : Revision)

namespace Script

/-- Writes the application index for every `#`, so that each application has labels of its own. -/
def stamp (index : Nat) (label : Label) : Label :=
  .ofList (label.toList.flatMap fun c => if c = '#' then (toString index).toList else [c])

def stampNode (index : Nat) (node : Node) : Node := { node with label := stamp index node.label }

/-- A known node is looked for in the region first and then among those added so far. -/
def resolve (region : Hypergraph) (index : Nat) (out : Hypergraph) : Member → Option Node
  | .known key => region.node? key <|> out.node? key
  | .fresh node => some (stampNode index node)

def perform (region : Hypergraph) (index : Nat) (out : Hypergraph) : Action → Hypergraph
  | .keep key revision =>
    match region.hyperedge? key with
    | some e => out.insertHyperedge (e.revise revision)
    | none => out
  | .node node => out.addNode (stampNode index node)
  | .take key x hanging =>
    match region.node? key with
    | some n => out.addNode { n with x := x.getD n.x, hanging := hanging.getD n.hanging }
    | none => out
  | .edge tag members revision =>
    match Hyperedge.ofMembers (members.filterMap (resolve region index out)) tag with
    | .ok e => out.insertHyperedge (e.revise revision)
    | .error _ => out

end Script

structure Script where
  name : String
  left : Hypergraph
  conditions : List Condition
  actions : List Action

def Script.production (s : Script) : Production where
  name := s.name
  left := .ok s.left
  accepts := fun region => s.conditions.all (Condition.holds region)
  right := fun region index => .ok (s.actions.foldl (Script.perform region index) ∅)

end Hypermesh
