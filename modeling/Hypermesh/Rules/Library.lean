import Hypermesh.Rules.Breaking
import Hypermesh.Rules.Splitting

/-!
The library of refinement rules.
-/

namespace Hypermesh.Rules

def all : List Production :=
  [markQuad, splitSide, splitBoundarySide, markPentagonSides, breakPentagon, markHexagon,
    breakHexagon, markHeptagon]

def find? (name : String) : Option Production := all.find? (·.name = name)

end Hypermesh.Rules
