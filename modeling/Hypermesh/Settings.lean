/-!
What an engine is told before a run: how many applications it may make, and whether it asks the
production to accept a match.
-/

namespace Hypermesh

structure Settings where
  maxApplications : Option Nat := none
  consultAcceptance : Bool := true
  deriving DecidableEq

def Settings.capReached? (s : Settings) (applications : Nat) : Option Nat :=
  s.maxApplications.filter (· ≤ applications)

end Hypermesh
