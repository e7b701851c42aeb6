import Hypermesh.Hypergraph
import Hypermesh.InOrder

/-!
The canonical bytes of a hypergraph: its nodes and then its hyperedges, each in the order of their keys.
Counts and texts carry their length in front, so that no two states share their bytes. Coordinates and
labels of surrogates are derived from the rest and left out.
-/

universe u

namespace Hypermesh

namespace Canonical

def word (w : UInt64) : List UInt8 :=
  (List.range 8).map fun i => (w >>> (8 * i).toUInt64).toUInt8

def count (n : Nat) : List UInt8 := word n.toUInt64

def text (s : String) : List UInt8 := count s.utf8ByteSize ++ s.toUTF8.data.toList

def flag (b : Bool) : List UInt8 := [if b then 1 else 0]

/-- Unset, false and true. -/
def boundary : Option Bool → List UInt8
  | none => [0]
  | some false => [1]
  | some true => [2]

def node (key : Label) (n : Node) : List UInt8 :=
  text key ++ word n.x.bits ++ word n.y.bits ++ flag n.hanging

def hyperedge (key : Label) (e : Hyperedge) : List UInt8 :=
  text key ++ text e.tag ++ [e.mark] ++ boundary e.attributes.boundary ++
    count e.members.length ++ e.memberLabels.flatMap text

end Canonical

def Table.sorted {β : Type u} (t : Table β) : List (Label × β) :=
  inOrder (fun a b => a.1 ≤ b.1) t.entries

def Hypergraph.canonicalBytes (g : Hypergraph) : List UInt8 :=
  Canonical.count g.nodes.size ++ g.nodes.sorted.flatMap (fun (key, n) => Canonical.node key n) ++
    (Canonical.count g.hyperedges.size ++
      g.hyperedges.sorted.flatMap (fun (key, e) => Canonical.hyperedge key e))

end Hypermesh
