import Hypermesh.Hyperedge
import Hypermesh.Table

/-!
A hypergraph stores nodes and hyperedges under their labels, and beside them the incidence graph: one
vertex for each node, one surrogate for each hyperedge, and a link between a surrogate and each of its
members. All three tables keep insertion order.
-/

namespace Hypermesh

/-- A vertex of the incidence graph: its surrogate node, if it stands for a hyperedge, and its links. -/
structure Vertex where
  surrogate : Option Node := none
  incident : LabelSet := ∅

namespace Vertex

def meet (v : Vertex) (label : Label) : Vertex := { v with incident := v.incident.add label }

def leave (v : Vertex) (label : Label) : Vertex := { v with incident := v.incident.erase label }

end Vertex

structure Hypergraph where
  nodes : Table Node := ∅
  hyperedges : Table Hyperedge := ∅
  vertices : Table Vertex := ∅

structure Counts where
  regular : Nat
  hyper : Nat
  deriving DecidableEq

namespace Hypergraph

instance : EmptyCollection Hypergraph := ⟨{}⟩

instance : Inhabited Hypergraph := ⟨∅⟩

instance : Membership Label Hypergraph := ⟨fun g label => label ∈ g.vertices⟩

instance (label : Label) (g : Hypergraph) : Decidable (label ∈ g) :=
  inferInstanceAs (Decidable (label ∈ g.vertices))

def node? (g : Hypergraph) (label : Label) : Option Node := g.nodes.find? label

def hyperedge? (g : Hypergraph) (label : Label) : Option Hyperedge := g.hyperedges.find? label

/-- The vertex under `key`; a fresh one has no surrogate and no links. -/
def vertex (g : Hypergraph) (key : Label) : Vertex := (g.vertices.find? key).getD {}

def surrogate? (g : Hypergraph) (label : Label) : Option Node := (g.vertex label).surrogate

def neighbours (g : Hypergraph) (label : Label) : List Label := (g.vertex label).incident.keys

def counts (g : Hypergraph) : Counts := ⟨g.nodes.size, g.hyperedges.size⟩

def isEmpty (g : Hypergraph) : Bool := g.vertices.isEmpty

/-- The nodes and surrogates, in the order in which their vertices came in. -/
def incidenceOrder (g : Hypergraph) : List Node :=
  g.vertices.entries.filterMap fun (key, v) => v.surrogate <|> g.node? key

/-- Stores a node under `key`, which need not be its label. -/
def putNode (g : Hypergraph) (key : Label) (node : Node) : Hypergraph :=
  { g with
    nodes := g.nodes.insert key node
    vertices := g.vertices.insert key (g.vertex key) }

/-- Stores a node under its label. A surrogate comes in as a regular node. -/
def addNode (g : Hypergraph) (node : Node) : Hypergraph := g.putNode node.label node.regular

def link (g : Hypergraph) (a b : Label) : Hypergraph :=
  if a ∈ g ∧ b ∈ g then
    { g with vertices := (g.vertices.modify a (·.meet b)).modify b (·.meet a) }
  else g

def leaveAll (key : Label) (others : List Label) (vertices : Table Vertex) : Table Vertex :=
  others.foldl (fun t other => t.modify other (·.leave key)) vertices

def unlink (g : Hypergraph) (key : Label) : Hypergraph :=
  { g with
    vertices := leaveAll key (g.neighbours key) (g.vertices.modify key ({ · with incident := ∅ })) }

/-- Stores a hyperedge and its surrogate under `key`, without links. -/
def putHyperedge (g : Hypergraph) (key : Label) (edge : Hyperedge) : Hypergraph :=
  let g := if key ∈ g.hyperedges then g.unlink key else g
  { g with
    hyperedges := g.hyperedges.insert key edge
    vertices := g.vertices.insert key { g.vertex key with surrogate := some (edge.surrogate key) } }

/-- Links the hyperedge under `key` to a member, which comes in as a node where there is none. -/
def attach (g : Hypergraph) (key : Label) (member : Node) : Hypergraph :=
  (if member.label ∈ g.nodes then g else g.addNode member).link key member.label

/-- Stores a hyperedge under its label; members that are not stored come in after its surrogate. -/
def insertHyperedge (g : Hypergraph) (edge : Hyperedge) : Hypergraph :=
  edge.members.foldl (·.attach edge.label ·) (g.putHyperedge edge.label edge)

/-- Stores a hyperedge whose members are all stored nodes. -/
def addHyperedge (g : Hypergraph) (edge : Hyperedge) : Except GraphError Hypergraph :=
  match edge.memberLabels.find? (· ∉ g.nodes) with
  | some label => .error (.unknownNode label)
  | none => .ok (g.insertHyperedge edge)

/-- Removes the node or hyperedge under `label` with its links. Members and hyperedges stay. -/
def remove (g : Hypergraph) (label : Label) : Hypergraph where
  nodes := g.nodes.erase label
  hyperedges := g.hyperedges.erase label
  vertices := leaveAll label (g.neighbours label) (g.vertices.erase label)

@[simp] theorem nodes_addNode (g : Hypergraph) (node : Node) :
    (g.addNode node).nodes = g.nodes.insert node.label node.regular := rfl

@[simp] theorem hyperedges_addNode (g : Hypergraph) (node : Node) :
    (g.addNode node).hyperedges = g.hyperedges := rfl

@[simp] theorem nodes_link (g : Hypergraph) (a b : Label) : (g.link a b).nodes = g.nodes := by
  unfold link
  split <;> rfl

@[simp] theorem hyperedges_link (g : Hypergraph) (a b : Label) :
    (g.link a b).hyperedges = g.hyperedges := by
  unfold link
  split <;> rfl

@[simp] theorem nodes_putHyperedge (g : Hypergraph) (key : Label) (edge : Hyperedge) :
    (g.putHyperedge key edge).nodes = g.nodes := by
  unfold putHyperedge
  split <;> rfl

@[simp] theorem hyperedges_putHyperedge (g : Hypergraph) (key : Label) (edge : Hyperedge) :
    (g.putHyperedge key edge).hyperedges = g.hyperedges.insert key edge := by
  unfold putHyperedge
  split <;> rfl

@[simp] theorem hyperedges_attach (g : Hypergraph) (key : Label) (member : Node) :
    (g.attach key member).hyperedges = g.hyperedges := by
  unfold attach
  split <;> simp

@[simp] theorem hyperedges_insertHyperedge (g : Hypergraph) (edge : Hyperedge) :
    (g.insertHyperedge edge).hyperedges = g.hyperedges.insert edge.label edge := by
  have key (members : List Node) (g : Hypergraph) :
      (members.foldl (·.attach edge.label ·) g).hyperedges = g.hyperedges := by
    induction members generalizing g with
    | nil => rfl
    | cons member members ih => rw [List.foldl_cons, ih, hyperedges_attach]
  rw [insertHyperedge, key, hyperedges_putHyperedge]

@[simp] theorem nodes_remove (g : Hypergraph) (label : Label) :
    (g.remove label).nodes = g.nodes.erase label := rfl

@[simp] theorem hyperedges_remove (g : Hypergraph) (label : Label) :
    (g.remove label).hyperedges = g.hyperedges.erase label := rfl

end Hypergraph

end Hypermesh
