import Hypermesh.Hypergraph

/-!
Elements of a mesh: sides join two nodes, and an element is a hyperedge over the corners of a polygon
whose sides form a ring.
-/

namespace Hypermesh

abbrev sideTag : String := "E"

abbrev quadTag : String := "Q"

def Hyperedge.side (a b : Node) : Hyperedge := .join a b sideTag

def Hyperedge.quad (a b c d : Node) : Hyperedge where
  members := [a, b, c, d]
  tag := quadTag
  two_le_length := by simp

namespace Hypergraph

def addNodes (g : Hypergraph) (nodes : List Node) : Hypergraph := nodes.foldl addNode g

/-- Adds a ring: the nodes, and a side, altered by `f`, from each node to the next. -/
def addRing (g : Hypergraph) (nodes : List Node) (f : Hyperedge → Hyperedge) :
    Except GraphError Hypergraph :=
  (nodes.zip (nodes.rotateLeft 1)).foldlM (fun g (a, b) => g.addHyperedge (f (.side a b)))
    (g.addNodes nodes)

def addElement (g : Hypergraph) (members : List Node) (tag : String) (mark : UInt8) :
    Except GraphError Hypergraph := do
  g.addHyperedge ((← Hyperedge.ofMembers members tag).withMark mark)

end Hypergraph

end Hypermesh
