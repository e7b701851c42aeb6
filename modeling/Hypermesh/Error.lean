import Hypermesh.Label

/-!
The ways in which building a mesh or a side of a production fails, and what is said about each.
-/

namespace Hypermesh

inductive GraphError
  | tooFewMembers (tag : String) (arity : Nat)
  | unknownNode (label : Label)
  deriving DecidableEq

def GraphError.message : GraphError → String
  | .tooFewMembers tag arity =>
    "hyperedge `" ++ tag ++ "` needs at least 2 nodes, got " ++ toString arity
  | .unknownNode label => "node `" ++ label ++ "` does not exist in the hypergraph"

inductive RuleError
  | graph (error : GraphError)
  | missingVertex (key : Label)
  deriving DecidableEq

def RuleError.message : RuleError → String
  | .graph error => error.message
  | .missingVertex key => "matched region has no vertex `" ++ key ++ "`"

end Hypermesh
