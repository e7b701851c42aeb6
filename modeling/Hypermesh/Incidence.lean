import Hypermesh.Hypergraph

/-!
The incidence graph of a hypergraph with its vertices numbered in insertion order. A vertex is regular
or stands for a hyperedge with a tag and a mark; its neighbours are listed by number.
-/

namespace Hypermesh

inductive Kind
  | regular
  | surrogate (tag : String) (mark : UInt8)
  deriving DecidableEq

def Hyperedge.kind (e : Hyperedge) : Kind := .surrogate e.tag e.mark

structure Incidence (n : Nat) where
  label : Vector Label n
  kind : Vector Kind n
  neighbours : Vector (List (Fin n)) n

namespace Incidence

variable {n : Nat}

def degree (I : Incidence n) (v : Fin n) : Nat := (I.neighbours.get v).length

def Adjacent (I : Incidence n) (v w : Fin n) : Prop := w ∈ I.neighbours.get v

instance (I : Incidence n) (v w : Fin n) : Decidable (I.Adjacent v w) :=
  inferInstanceAs (Decidable (_ ∈ _))

end Incidence

namespace Hypergraph

def kindOf (g : Hypergraph) (key : Label) : Kind :=
  match g.hyperedge? key with
  | some e => e.kind
  | none => .regular

def vertexKeys (g : Hypergraph) : Vector Label g.vertices.size :=
  ⟨g.vertices.keys.toArray, by simp⟩

def incidence (g : Hypergraph) : Incidence g.vertices.size :=
  let keys := g.vertexKeys
  { label := keys
    kind := keys.map g.kindOf
    neighbours := keys.map fun key =>
      let incident := g.neighbours key
      (List.finRange _).filter fun w => keys[w] ∈ incident }

end Hypergraph

end Hypermesh
