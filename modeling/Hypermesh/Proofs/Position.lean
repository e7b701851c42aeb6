import Hypermesh.Proofs.Consistency
import Hypermesh.Proofs.Everywhere
import Hypermesh.Proofs.Nesting

/-!
Where surrogates lie. A hyperedge keeps copies of its members and its surrogate lies at the mean of these.
A stored node can be replaced by one that lies elsewhere, and no hyperedge follows it. As long as all that
comes in under a label lies at one place, copies and stored nodes lie there.
-/

namespace Hypermesh

def Node.position (n : Node) : Coord × Coord := (n.x, n.y)

/-- The sums of the coordinates, in order and from zero, divided by the number of places. -/
def mean (places : List (Coord × Coord)) : Coord × Coord :=
  let sum := places.foldl (fun (x, y) p => (x + p.1, y + p.2)) (Coord.zero, Coord.zero)
  (sum.1 / places.length, sum.2 / places.length)

theorem Hyperedge.centroid_eq_mean (e : Hyperedge) :
    e.centroid = mean (e.members.map Node.position) := by
  rw [centroid, mean, List.foldl_map, List.length_map]
  rfl

/-! ### One place for a label -/

/-- The node lies at `p` if its label is `l`. -/
def Node.LiesAt (l : Label) (p : Coord × Coord) (n : Node) : Prop := n.label = l → n.position = p

instance (l : Label) (p : Coord × Coord) : DecidablePred (Node.LiesAt l p) :=
  fun _ => inferInstanceAs (Decidable (_ → _))

def Hyperedge.LiesAt (l : Label) (p : Coord × Coord) (e : Hyperedge) : Prop :=
  ∀ n ∈ e.members, n.LiesAt l p

instance (l : Label) (p : Coord × Coord) : DecidablePred (Hyperedge.LiesAt l p) :=
  fun e => inferInstanceAs (Decidable (∀ n ∈ e.members, _))

/-- The nodes that are stored, and those that hyperedges keep, lie at `p` if their label is `l`. -/
def Hypergraph.LiesAt (l : Label) (p : Coord × Coord) (g : Hypergraph) : Prop :=
  g.Everywhere (Node.LiesAt l p) (Hyperedge.LiesAt l p)

instance (l : Label) (p : Coord × Coord) (g : Hypergraph) : Decidable (g.LiesAt l p) :=
  inferInstanceAs (Decidable (g.Everywhere _ _))

theorem Hypergraph.inherited_liesAt {l : Label} {p : Coord × Coord} :
    Inherited (Node.LiesAt l p) (Hyperedge.LiesAt l p) := ⟨id, id⟩

/-- The rules make nodes under labels with a bracket only. -/
theorem Rules.refinable_liesAt {l : Label} {p : Coord × Coord} (bare : '(' ∉ l.toList) :
    Refinable (Node.LiesAt l p) (Hyperedge.LiesAt l p) where
  toInherited := Hypergraph.inherited_liesAt
  midpoint {a b} _ _ _ eq := by
    obtain ⟨x, y, -, text⟩ := Label.toList_midpoint a.label b.label
    rw [← eq, Node.label_midpoint, text] at bare
    exact absurd (by simp) bare
  centre {e} _ eq := by
    rw [← eq, Hyperedge.centre, Label.toList_centre] at bare
    exact absurd (by simp) bare
  side first second := List.forall_mem_cons.2 ⟨first, List.forall_mem_singleton.2 second⟩
  quad {a b c d} first second third fourth := by
    change ∀ n ∈ [a, b, c, d], n.LiesAt l p
    simp only [List.forall_mem_cons]
    exact ⟨first, second, third, fourth, nofun⟩
  withMark _ lies := lies
  withBoundary _ lies := lies
  withAttributes _ lies := lies

/-! ### Runs -/

namespace Production

open Hypermesh.Hypergraph

variable {P : Production} {s : Settings} {left g host : Hypergraph} {index : Nat} {halt : Halt}
  {N : Node → Prop} {E : Hyperedge → Prop}

/-- The right sides that a run puts in, one for each application. -/
def putIn (P : Production) (t : Trace) : List Hypergraph :=
  t.calls.filterMap fun
    | .right region index => some (P.rightSide region index)
    | .left | .accepts .. => none

@[simp] theorem putIn_append (P : Production) (t u : Trace) :
    P.putIn (t ++ u) = P.putIn t ++ P.putIn u := by
  simp [putIn]

@[simp] theorem putIn_events (P : Production) (events : List Event) :
    P.putIn (events.map .event) = [] := by
  rw [putIn, Trace.calls_events, List.filterMap_nil]

@[simp] theorem putIn_nil (P : Production) : P.putIn [] = [] := rfl

@[simp] theorem putIn_left (P : Production) (t : Trace) : P.putIn (.call .left :: t) = P.putIn t := rfl

@[simp] theorem putIn_event (P : Production) (event : Event) (t : Trace) :
    P.putIn (.event event :: t) = P.putIn t := rfl

@[simp] theorem putIn_right (P : Production) (region : Hypergraph) (index : Nat) (t : Trace) :
    P.putIn (.call (.right region index) :: t) = P.rightSide region index :: P.putIn t := rfl

theorem putIn_choose (P : Production) (s : Settings) (left host : Hypergraph) (candidate : Nat)
    (ms : List Embedding) : P.putIn (P.choose s left host candidate ms).2 = [] := by
  induction ms generalizing candidate with
  | nil => rfl
  | cons m ms ih =>
    rw [choose]
    split
    · rfl
    · split
      · split
        · rfl
        · exact ih (candidate + 1)
      · rfl

theorem putIn_of_halted (eq : (P.round s left g index).1 = .halted halt) :
    P.putIn (P.round s left g index).2 = [] := by
  have asked := P.putIn_choose s left g 0 (left.embeddings g)
  rw [round] at eq ⊢
  cases chosen : P.choose s left g 0 (left.embeddings g) with
  | mk choice trace =>
    rw [chosen] at eq asked
    cases choice with
    | none => simp [asked]
    | stale label => simp [asked]
    | selected m region => cases eq

/-- A round that goes on puts in one right side, over the region that it selects. -/
theorem putIn_of_applied (eq : (P.round s left g index).1 = .applied host) :
    ∃ m region, left.region g m = .ok region ∧ host = g.replace left m (P.rightSide region index) ∧
      P.putIn (P.round s left g index).2 = [P.rightSide region index] := by
  have asked := P.putIn_choose s left g 0 (left.embeddings g)
  rw [round] at eq ⊢
  cases chosen : P.choose s left g 0 (left.embeddings g) with
  | mk choice trace =>
    rw [chosen] at eq asked
    cases choice with
    | none => cases eq
    | stale label => cases eq
    | selected m region =>
      cases eq
      have shown := (choose_selected (congrArg Prod.fst chosen)).2.1
      refine ⟨m, region, shown, rfl, ?_⟩
      simp [asked, applyAt]

/-- A run puts in nothing and is at its end, or it puts in one right side and goes on from there. -/
theorem putIn_runFrom_cases (P : Production) (s : Settings) (left : Hypergraph) (rounds index : Nat)
    (g : Hypergraph) :
    let r := P.runFrom s left (rounds + 1) index g
    (r.host = g ∧ r.applications = index ∧ P.putIn r.trace = []) ∨
      ∃ m region, left.region g m = .ok region ∧
        let side := P.rightSide region index
        let rest := P.runFrom s left rounds (index + 1) (g.replace left m side)
        r.host = rest.host ∧ r.applications = rest.applications ∧
          P.putIn r.trace = side :: P.putIn rest.trace := by
  intro r
  cases reached : s.capReached? index with
  | some cap =>
    rw [show r = _ from runFrom_limit reached]
    exact Or.inl ⟨rfl, rfl, rfl⟩
  | none =>
    cases eq : (P.round s left g index).1 with
    | halted halt =>
      rw [show r = _ from runFrom_halted reached eq]
      exact Or.inl ⟨rfl, rfl, putIn_of_halted eq⟩
    | applied host =>
      obtain ⟨m, region, shown, rfl, side⟩ := putIn_of_applied eq
      rw [show r = _ from runFrom_applied reached eq]
      refine Or.inr ⟨m, region, shown, rfl, rfl, ?_⟩
      rw [putIn_append, side, List.singleton_append]

theorem length_putIn_runFrom (P : Production) (s : Settings) (left : Hypergraph) (rounds index : Nat)
    (g : Hypergraph) :
    (P.runFrom s left rounds index g).applications =
      index + (P.putIn (P.runFrom s left rounds index g).trace).length := by
  induction rounds generalizing index g with
  | zero => rfl
  | succ rounds ih =>
    rcases P.putIn_runFrom_cases s left rounds index g with
      ⟨-, count, none⟩ | ⟨m, region, -, -, count, first⟩
    · rw [count, none, List.length_nil, Nat.add_zero]
    · rw [count, first, ih, List.length_cons]
      omega

/-- Where right sides take a property over from the regions that are shown, all that a run puts in has
it. -/
theorem everywhere_putIn (i : Inherited N E)
    (answers : ∀ region index, region.Everywhere N E → (P.rightSide region index).Everywhere N E)
    (rounds index : Nat) (h : g.Everywhere N E) :
    ∀ side ∈ P.putIn (P.runFrom s left rounds index g).trace, side.Everywhere N E := by
  induction rounds generalizing index g with
  | zero => nofun
  | succ rounds ih =>
    rcases P.putIn_runFrom_cases s left rounds index g with
      ⟨-, -, none⟩ | ⟨m, region, shown, -, -, first⟩
    · rw [none]
      nofun
    · have side := answers region index (h.region shown)
      rw [first, List.forall_mem_cons]
      exact ⟨side, ih (index + 1) (i.replace h side left m)⟩

/-- A run leaves a host with the property if what it puts in has it. -/
theorem everywhere_runFrom (i : Inherited N E) (rounds index : Nat) (h : g.Everywhere N E)
    (sides : ∀ side ∈ P.putIn (P.runFrom s left rounds index g).trace, side.Everywhere N E) :
    (P.runFrom s left rounds index g).host.Everywhere N E := by
  induction rounds generalizing index g with
  | zero => exact h
  | succ rounds ih =>
    rcases P.putIn_runFrom_cases s left rounds index g with
      ⟨host, -, -⟩ | ⟨m, region, -, host, -, first⟩
    · rw [host]
      exact h
    · rw [first, List.forall_mem_cons] at sides
      rw [host]
      exact ih (index + 1) (i.replace h sides.1 left m) sides.2

theorem putIn_run (P : Production) (s : Settings) (rounds : Nat) (g : Hypergraph) :
    P.putIn (P.run s rounds g).trace = P.putIn (P.runFrom s P.leftSide rounds 0 g).trace := by
  simp [run]

theorem length_putIn_run (P : Production) (s : Settings) (rounds : Nat) (g : Hypergraph) :
    (P.putIn (P.run s rounds g).trace).length = (P.run s rounds g).applications := by
  rw [putIn_run, ← Nat.zero_add (List.length _)]
  exact (P.length_putIn_runFrom s P.leftSide rounds 0 g).symm

end Production

/-! ### Operations -/

/-- What the operation brings in under the label `l`, if anything, lies at `p`. A run is held to the right
sides that it puts in on its way. -/
def Operation.KeepsTo (l : Label) (p : Coord × Coord) (g : Hypergraph) : Operation → Prop
  | .addNode node => node.LiesAt l p
  | .addHyperedge edge _ => edge.LiesAt l p
  | .remove _ => True
  | .merge other => other.LiesAt l p
  | .apply P s rounds => ∀ side ∈ P.putIn (P.run s rounds g).trace, side.LiesAt l p

instance (l : Label) (p : Coord × Coord) (g : Hypergraph) (o : Operation) :
    Decidable (o.KeepsTo l p g) :=
  match o with
  | .addNode _ => inferInstanceAs (Decidable (Node.LiesAt _ _ _))
  | .addHyperedge _ _ => inferInstanceAs (Decidable (Hyperedge.LiesAt _ _ _))
  | .remove _ => inferInstanceAs (Decidable True)
  | .merge _ => inferInstanceAs (Decidable (Hypergraph.LiesAt _ _ _))
  | .apply P s rounds =>
    inferInstanceAs (Decidable (∀ side ∈ P.putIn (P.run s rounds g).trace, side.LiesAt l p))

/-- A sequence of such operations, each on the result of those before it. -/
def Operation.AllKeepTo (l : Label) (p : Coord × Coord) (g : Hypergraph) : List Operation → Prop
  | [] => True
  | o :: os => o.KeepsTo l p g ∧ AllKeepTo l p (o.perform g) os

instance Operation.decidableAllKeepTo (l : Label) (p : Coord × Coord) (g : Hypergraph)
    (os : List Operation) : Decidable (AllKeepTo l p g os) :=
  match os with
  | [] => inferInstanceAs (Decidable True)
  | o :: os =>
    have := decidableAllKeepTo l p (o.perform g) os
    inferInstanceAs (Decidable (_ ∧ _))

/-- The rules bring in nothing under a name, as opposed to the label of a midpoint or of a centre, that
lies elsewhere than what their host has under it. -/
theorem Operation.keepsTo_of_rule {P : Production} {l : Label} {p : Coord × Coord} {g : Hypergraph}
    (rule : P ∈ Rules.all) (bare : '(' ∉ l.toList) (lies : g.LiesAt l p) (s : Settings) (rounds : Nat) :
    (Operation.apply P s rounds).KeepsTo l p g := by
  intro side mem
  rw [P.putIn_run] at mem
  exact Production.everywhere_putIn Hypergraph.inherited_liesAt
    (fun _ index h => (Rules.refinable_liesAt bare).rightSide_of_rule h rule index) rounds 0 lies side mem

namespace Hypergraph

variable {l : Label} {p : Coord × Coord} {g : Hypergraph} {e : Hyperedge}

theorem LiesAt.perform (lies : g.LiesAt l p) {o : Operation} (keeps : o.KeepsTo l p g) :
    (o.perform g).LiesAt l p := by
  cases o with
  | addNode node => exact inherited_liesAt.addNode lies keeps
  | addHyperedge edge checked =>
    rcases g.perform_addHyperedge_cases edge checked with eq | eq
    · rw [eq]
      exact lies
    · rw [eq]
      exact inherited_liesAt.insertHyperedge lies keeps
  | remove label => exact lies.remove label
  | merge other => exact inherited_liesAt.merge lies keeps
  | apply P s rounds =>
    refine Production.everywhere_runFrom inherited_liesAt rounds 0 lies ?_
    rw [← P.putIn_run]
    exact keeps

theorem LiesAt.performAll (lies : g.LiesAt l p) {os : List Operation}
    (keep : Operation.AllKeepTo l p g os) : (os.foldl Operation.perform g).LiesAt l p := by
  induction os generalizing g with
  | nil => exact lies
  | cons o os ih => exact ih (lies.perform keep.1) keep.2

/-! ### Copies and stored nodes -/

/-- The node that is stored under the label of a copy lies where the copy does. -/
def Agrees (g : Hypergraph) (copy : Node) : Prop :=
  (g.node? copy.label).map Node.position = some copy.position

instance (g : Hypergraph) (copy : Node) : Decidable (g.Agrees copy) :=
  inferInstanceAs (Decidable (_ = _))

/-- The nodes that are stored under the labels, in their order. -/
def Stores (g : Hypergraph) (labels : List Label) (nodes : List Node) : Prop :=
  labels.map g.node? = nodes.map some

instance (g : Hypergraph) (labels : List Label) (nodes : List Node) : Decidable (g.Stores labels nodes) :=
  inferInstanceAs (Decidable (_ = _))

theorem LiesAt.agrees {copy : Node} (lies : g.LiesAt copy.label copy.position) (labelled : g.Labelled)
    (stored : copy.label ∈ g.nodes) : g.Agrees copy := by
  obtain ⟨node, found⟩ := mem_nodes_iff.1 stored
  rw [Agrees, found, Option.map_some, lies.node _ node found (labelled.node_label _ node found)]

theorem positions_eq_of_agrees {copies nodes : List Node} (agree : ∀ n ∈ copies, g.Agrees n)
    (stores : g.Stores (copies.map Node.label) nodes) :
    copies.map Node.position = nodes.map Node.position := by
  induction copies generalizing nodes with
  | nil => rw [List.map_eq_nil_iff.1 (Eq.symm stores)]
  | cons n copies ih =>
    cases nodes with
    | nil => cases stores
    | cons node nodes =>
      obtain ⟨first, rest⟩ := List.cons.inj stores
      obtain ⟨here, agree⟩ := List.forall_mem_cons.1 agree
      rw [Agrees, first, Option.map_some] at here
      rw [List.map_cons, List.map_cons, ih agree rest, Option.some.inj here]

theorem Stores.mem_nodes {labels : List Label} {nodes : List Node} (stores : g.Stores labels nodes)
    (mem : l ∈ labels) : l ∈ g.nodes := by
  have found : g.node? l ∈ nodes.map some := stores ▸ List.mem_map_of_mem mem
  obtain ⟨node, -, eq⟩ := List.mem_map.1 found
  exact mem_nodes_iff.2 ⟨node, eq.symm⟩

/-- A surrogate lies at the mean of the members that its hyperedge keeps. It lies at the mean of the nodes
stored under their labels where each of these lies where the copy does, and it does if operations have
brought in nothing under its label that lies elsewhere. -/
theorem surrogate_position (g : Hypergraph) (reachable : g.Reachable) (l : Label) (e : Hyperedge)
    (found : g.hyperedge? l = some e) :
    ∃ s, g.surrogate? l = some s ∧ s.position = mean (e.members.map Node.position) ∧
      ∀ nodes, g.Stores e.memberLabels nodes →
        (∀ n ∈ e.members, g.Agrees n ∨
          ∃ os, g = Operation.build os ∧ Operation.AllKeepTo n.label n.position ∅ os) →
        s.position = mean (nodes.map Node.position) := by
  refine ⟨e.surrogate l, ?_, e.centroid_eq_mean, ?_⟩
  · rw [reachable.coherent.surrogate, found, Option.map_some]
  · intro nodes stores places
    have agree : ∀ n ∈ e.members, g.Agrees n := by
      intro n mem
      rcases places n mem with agrees | ⟨os, rfl, keep⟩
      · exact agrees
      · have labelled := Labelled.kept.performAll os Labelled.empty
        exact (LiesAt.performAll Everywhere.empty keep).agrees labelled
          (stores.mem_nodes (List.mem_map_of_mem mem))
    exact positions_eq_of_agrees agree stores ▸ e.centroid_eq_mean

/-- A marked triangle is refined, and then one of its corners is moved. -/
def refinedAndMoved : List Operation :=
  let node (label : Label) (x y : Nat) : Node := { x := .ofNat x, y := .ofNat y, label }
  let ring := [node "a" 0 0, node "b" 12 0, node "c" 0 24]
  let element : Hyperedge := { members := ring, tag := "T", mark := 1, two_le_length := by simp [ring] }
  let side : Node × Node → Operation := fun (a, b) =>
    .addHyperedge ((Hyperedge.side a b).withMark 1) false
  (ring.zip (ring.rotateLeft 1)).map side ++ [.addHyperedge element true, .apply Rules.splitSide {} 3,
    .apply (Rules.breakElement "triangle/break" (.full "T" 3)) {} 1, .addNode (node "c" 0 48)]

/-- The quad of another corner lies where its nodes are stored: midpoints and the centre come in at one
place, though several right sides bring them in. -/
theorem surrogate_position_refined :
    let g := Operation.build refinedAndMoved
    let node (label : Label) (x y : Nat) (hanging : Bool) : Node :=
      { x := .ofNat x, y := .ofNat y, label, hanging }
    let corners := [node "a" 0 0 false, node "mid(a|b)" 6 0 true, node "c(T_a_b_c)" 4 8 false,
      node "mid(a|c)" 0 12 true]
    let quad := "Q_a_mid(a|b)_c(T_a_b_c)_mid(a|c)"
    ∃ e, g.hyperedge? quad = some e ∧ g.Stores e.memberLabels corners ∧
      ∃ s, g.surrogate? quad = some s ∧ s.position = mean (corners.map Node.position) := by
  intro g node corners quad
  let e : Hyperedge := (Hyperedge.quad (node "a" 0 0 false) (node "mid(a|b)" 6 0 true)
    (node "c(T_a_b_c)" 4 8 false) (node "mid(a|c)" 0 12 true)).withBoundary false
  -- One evaluation of the run serves for all.
  have checked : g.hyperedge? quad = some e ∧ g.Stores e.memberLabels corners ∧
      ∀ n ∈ e.members, Operation.AllKeepTo n.label n.position ∅ refinedAndMoved := by
    decide +kernel
  obtain ⟨found, stores, keep⟩ := checked
  obtain ⟨s, shown, -, lies⟩ := surrogate_position g (Reachable.build _) quad e found
  have centre := lies corners stores fun n mem => Or.inr ⟨refinedAndMoved, rfl, keep n mem⟩
  exact ⟨e, found, stores, s, shown, centre⟩

/-- The surrogate does not follow a node that is replaced by one that lies elsewhere. -/
theorem not_surrogate_follows_nodes :
    let a : Node := { x := .zero, y := .zero, label := "a" }
    let b : Node := { x := .ofNat 2, y := .zero, label := "b" }
    let moved : Node := { x := .ofNat 4, y := .zero, label := "a" }
    let side := Hyperedge.join a b "E"
    let g := Operation.build [.addNode a, .addNode b, .addHyperedge side true, .addNode moved]
    g.hyperedge? "E_a_b" = some side ∧ g.Stores side.memberLabels [moved, b] ∧
      (g.surrogate? "E_a_b").map Node.position = some (.ofNat 1, .zero) ∧
      mean ([moved, b].map Node.position) = (.ofNat 3, .zero) := by
  decide +kernel

end Hypergraph

end Hypermesh
