import Hypermesh.Proofs.Rewriting
import Hypermesh.Rules.Splitting

/-!
Which nodes outlive a run. Removal goes by label, so a matched hyperedge takes a node of the same label
with it; every other node stays as it is. What is under such a label afterwards is what the replacement
brings in.
-/

namespace Hypermesh

namespace Hypergraph

variable {host pattern replacement other : Hypergraph} {m : Embedding} {l : Label}

/-- What comes in where nothing is stored under a label does not depend on the rest. -/
theorem node?_foldl_empty {α : Type} {f : Hypergraph → α → Hypergraph} {new : α → Label → Option Node}
    (step : ∀ g a l, (f g a).node? l = (g.node? l <|> new a l)) (as : List α) (g : Hypergraph)
    (l : Label) : (as.foldl f g).node? l = (g.node? l <|> (as.foldl f ∅).node? l) := by
  have empty : (∅ : Hypergraph).node? l = none := rfl
  induction as generalizing g with
  | nil =>
    rw [List.foldl_nil, List.foldl_nil, empty]
    cases g.node? l <;> rfl
  | cons a as ih =>
    rw [List.foldl_cons, List.foldl_cons, ih, ih (f ∅ a), step, step, empty]
    cases g.node? l <;> rfl

/-- A stored node wins over what comes in, and the members of hyperedges come in as nodes do. -/
theorem node?_overlay_empty (g other : Hypergraph) (l : Label) :
    (g.overlay other).node? l = (g.node? l <|> (overlay ∅ other).node? l) := by
  have nodes := node?_foldl_empty node?_addNewNode other.nodes.values
  have edges := node?_foldl_empty node?_insertHyperedge other.hyperedges.values
  have empty : (∅ : Hypergraph).node? l = none := rfl
  rw [overlay, overlay, edges, nodes, edges (other.nodes.values.foldl addNewNode ∅)]
  cases g.node? l <;> rfl

/-- A replacement step node by node, whatever the labels of nodes and hyperedges have in common. -/
theorem node?_replace_eq (host pattern : Hypergraph) (m : Embedding) (replacement : Hypergraph)
    (l : Label) :
    (host.replace pattern m replacement).node? l =
      ((if l ∈ pattern.matched m then none else host.node? l) <|>
        (overlay ∅ replacement).node? l) := by
  have kept := lookup_removeAll node?_remove host (pattern.matched m) l
  rw [replace, node?_overlay_empty]
  exact congrArg (· <|> (overlay ∅ replacement).node? l) kept

end Hypergraph

namespace Production

open Hypermesh.Hypergraph

variable {P : Production} {s : Settings} {left g host : Hypergraph} {l : Label} {node : Node}
  {index : Nat}

/-- A round that drops the node under `l`: a matched hyperedge has the same label. -/
structure Drops (P : Production) (s : Settings) (left host : Hypergraph) (index : Nat) (l : Label)
    (host' : Hypergraph) : Prop where
  stored : l ∈ host.nodes ∧ l ∈ host.hyperedges
  matched : ∃ m region, (P.choose s left host 0 (left.embeddings host)).1 = .selected m region ∧
    l ∈ left.matched m ∧ host'.node? l = (overlay ∅ (P.rightSide region index)).node? l

/-- A node stays as it is in a round, unless the round drops it. -/
theorem round_keeps_or_drops (found : g.node? l = some node)
    (applied : (P.round s left g index).1 = .applied host) :
    host.node? l = some node ∨ P.Drops s left g index l host := by
  obtain ⟨m, region, chosen, rfl⟩ := selected_of_round applied
  have eq := node?_replace_eq g left m (P.rightSide region index) l
  by_cases matched : l ∈ left.matched m
  · rw [if_pos matched] at eq
    have hyperedge := mem_hyperedges_of_mem_matched (choose_selected chosen).1 matched
    exact Or.inr ⟨⟨mem_nodes_iff.2 ⟨node, found⟩, hyperedge⟩, m, region, chosen, matched, eq⟩
  · rw [if_neg matched, found] at eq
    exact Or.inl eq

/-- A node outlives a run as it is, or some round of the run drops it. -/
theorem runFrom_keeps_or_drops (P : Production) (s : Settings) (left : Hypergraph) (rounds index : Nat)
    (found : g.node? l = some node) :
    (P.runFrom s left rounds index g).host.node? l = some node ∨
      ∃ r < rounds, (P.runFrom s left r index g).host.node? l = some node ∧
        P.Drops s left (P.runFrom s left r index g).host (index + r) l
          (P.runFrom s left (r + 1) index g).host := by
  induction rounds generalizing index g with
  | zero => exact Or.inl found
  | succ rounds ih =>
    rcases P.runFrom_cases s left index g with ⟨halt, trace, -, eq⟩ | ⟨host, below, eq⟩
    · rw [eq]
      exact Or.inl found
    · have later (r : Nat) : (P.runFrom s left (r + 1) index g).host =
          (P.runFrom s left r (index + 1) host).host := by
        rw [runFrom_applied below eq]
      rcases round_keeps_or_drops found eq with kept | drops
      · rw [later]
        refine (ih (index + 1) kept).imp_right ?_
        rintro ⟨r, lt, before, drops⟩
        refine ⟨r + 1, Nat.succ_lt_succ lt, ?_⟩
        rw [later, later, ← Nat.add_assoc, Nat.add_right_comm]
        exact ⟨before, drops⟩
      · refine Or.inr ⟨0, Nat.succ_pos _, found, ?_⟩
        rw [later]
        exact drops

/-- A run keeps every node as it is up to a round in which a matched hyperedge has the label of the node.
As long as the labels of nodes and hyperedges differ there is no such round. -/
theorem run_keeps_or_drops_nodes (P : Production) (s : Settings) (rounds : Nat) (host : Hypergraph)
    (l : Label) (node : Node) (found : host.node? l = some node) :
    ((P.run s rounds host).host.node? l = some node ∨
      ∃ r < rounds, (P.run s r host).host.node? l = some node ∧
        P.Drops s P.leftSide (P.run s r host).host r l (P.run s (r + 1) host).host) ∧
    ((∀ r < rounds, (P.run s r host).host.Unambiguous) →
      (P.run s rounds host).host.node? l = some node) := by
  have outcome := runFrom_keeps_or_drops P s P.leftSide rounds 0 found
  simp only [Nat.zero_add] at outcome
  refine ⟨outcome, fun apart => ?_⟩
  rcases outcome with kept | ⟨r, lt, -, drops⟩
  · exact kept
  · exact absurd drops.stored.2 (apart r lt l drops.stored.1)

theorem run_keeps_or_drops_nodes_chain :
    let host := Operation.build (chain ["a", "b", "d"])
    (∀ r < 2, (detour.run {} r host).host.Unambiguous) ∧
      ∃ node, host.node? "a" = some node ∧ (detour.run {} 2 host).host.node? "a" = some node := by
  have apart : ∀ r < 2, (detour.run {} r (Operation.build (chain ["a", "b", "d"]))).host.Unambiguous := by
    decide +kernel
  obtain ⟨node, found⟩ := mem_nodes_iff.1
    (by decide +kernel : ("a" : Label) ∈ (Operation.build (chain ["a", "b", "d"])).nodes)
  exact ⟨apart, node, found, (run_keeps_or_drops_nodes detour {} 2 _ "a" node found).2 apart⟩

/-- A marked side and a node of the same label. -/
def namesake : List Operation :=
  let node (label : Label) : Node := { x := .zero, y := .zero, label }
  [.addHyperedge ((Hyperedge.side (node "a") (node "b")).withMark 1) false, .addNode (node "E_a_b")]

/-- Labels that name one thing are needed: splitting a side drops the node of the same label for good. -/
theorem not_run_keeps_nodes : ¬ ∀ host : Hypergraph, host.Reachable →
    ∀ (P : Production) (s : Settings) (rounds : Nat) (l : Label) (node : Node),
      host.node? l = some node → (P.run s rounds host).host.node? l = some node := by
  intro keeps
  let host := Operation.build namesake
  obtain ⟨node, found⟩ := mem_nodes_iff.1 (by decide +kernel : ("E_a_b" : Label) ∈ host.nodes)
  have kept := keeps host (.build _) Rules.splitSide {} 1 "E_a_b" node found
  have gone : ¬ ("E_a_b" : Label) ∈ (Rules.splitSide.run {} 1 host).host.nodes := by decide +kernel
  exact gone (mem_nodes_iff.2 ⟨node, kept⟩)

end Production

end Hypermesh
