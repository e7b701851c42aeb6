import Hypermesh.Proofs.Selection
import Hypermesh.Proofs.Union
import Hypermesh.Proofs.WellFormed
import Mathlib.Data.List.Sort

/-!
The orders of the tables do not matter. Two hypergraphs that store and link the same have the same
embeddings in the same order and show the same regions, so that a production treats them alike in every
round of a run and leaves them alike.
-/

namespace Hypermesh

namespace Hypergraph

variable {g h pattern left : Hypergraph} {m : Embedding}

/-- Embeddings come in the order of their images, so that they are known once it is known which there are. -/
theorem embeddings_eq_of_mem_iff {ms : List Embedding} (p : pattern.Coherent) (c : g.Coherent)
    (sorted : ms.Pairwise (·.values < ·.values)) (same : ∀ m, m ∈ pattern.embeddings g ↔ m ∈ ms) :
    pattern.embeddings g = ms := by
  have irrefl : Std.Irrefl fun m m' : Embedding => m.values < m'.values :=
    ⟨fun m => List.lt_irrefl m.values⟩
  have antisymm : Std.Antisymm fun m m' : Embedding => m.values < m'.values :=
    ⟨fun m m' lt lt' => absurd (List.lt_trans lt lt') (List.lt_irrefl m.values)⟩
  exact (pairwise_embeddings p c).eq_of_mem_iff sorted same

theorem embeddings_congr (p : pattern.Coherent) (c : g.Coherent) (d : h.Coherent)
    (same : ∀ m, pattern.Embeds g m ↔ pattern.Embeds h m) :
    pattern.embeddings g = pattern.embeddings h := by
  apply embeddings_eq_of_mem_iff p c (pairwise_embeddings p d)
  intro m
  rw [mem_embeddings p c, mem_embeddings p d, same]

/-- The same is stored and linked under every label, in whatever orders. -/
structure Alike (g h : Hypergraph) : Prop where
  node : ∀ l, g.node? l = h.node? l
  hyperedge : ∀ l, g.hyperedge? l = h.hyperedge? l
  incident : ∀ a b, b ∈ g.neighbours a ↔ b ∈ h.neighbours a

theorem find?_ext_iff {β : Type} {t u : Table β} :
    (∀ l, t.find? l = u.find? l) ↔ ∀ l ∈ t.keys ++ u.keys, t.find? l = u.find? l := by
  refine ⟨fun all l _ => all l, fun stored l => ?_⟩
  by_cases mem : l ∈ t.keys ++ u.keys
  · exact stored l mem
  · rw [List.mem_append, not_or] at mem
    rw [Table.find?_eq_none_iff.2 mem.1, Table.find?_eq_none_iff.2 mem.2]

theorem alike_iff_stored : g.Alike h ↔
    (∀ l ∈ g.nodes.keys ++ h.nodes.keys, g.nodes.find? l = h.nodes.find? l) ∧
    (∀ l ∈ g.hyperedges.keys ++ h.hyperedges.keys, g.hyperedges.find? l = h.hyperedges.find? l) ∧
    (∀ a ∈ g.vertices.keys, ∀ b ∈ g.neighbours a, b ∈ h.neighbours a) ∧
    ∀ a ∈ h.vertices.keys, ∀ b ∈ h.neighbours a, b ∈ g.neighbours a := by
  rw [← find?_ext_iff, ← find?_ext_iff]
  constructor
  · intro alike
    exact ⟨alike.node, alike.hyperedge, fun a _ b => (alike.incident a b).1,
      fun a _ b => (alike.incident a b).2⟩
  · rintro ⟨node, hyperedge, there, back⟩
    refine ⟨node, hyperedge, fun a b => ⟨fun linked => ?_, fun linked => ?_⟩⟩
    · exact there a (mem_of_mem_neighbours linked) b linked
    · exact back a (mem_of_mem_neighbours linked) b linked

instance (g h : Hypergraph) : Decidable (g.Alike h) := decidable_of_iff' _ alike_iff_stored

/-- Well-formed hypergraphs that store the same are linked in the same way. -/
theorem WellFormed.alike (w : g.WellFormed) (w' : h.WellFormed) (node : ∀ l, g.node? l = h.node? l)
    (hyperedge : ∀ l, g.hyperedge? l = h.hyperedge? l) : g.Alike h where
  node := node
  hyperedge := hyperedge
  incident a b := by
    rw [w.incident, w'.incident]
    unfold Lists
    rw [hyperedge, hyperedge]

namespace Alike

theorem unionOf (alike : g.Alike h) (c : g.Coherent) (d : h.Coherent) : g.UnionOf h ∅ where
  whole := c
  first := d
  second := Coherent.empty
  node l := by
    rw [alike.node]
    cases h.node? l <;> rfl
  hyperedge l := by
    rw [alike.hyperedge]
    cases h.hyperedge? l <;> rfl
  incident a b := (alike.incident a b).trans (or_iff_left (by nofun)).symm

theorem of_unionOf (u : g.UnionOf h ∅) : g.Alike h where
  node l := (u.sameAt (by nofun)).node
  hyperedge l := (u.sameAt (by nofun)).hyperedge
  incident a b := (u.sameAt (by nofun)).incident b

theorem sameAt (alike : g.Alike h) (c : g.Coherent) (d : h.Coherent) (l : Label) : g.SameAt h l :=
  (alike.unionOf c d).sameAt (by nofun)

/-- Hypergraphs that are alike have the same vertices. -/
theorem mem_iff (alike : g.Alike h) (c : g.Coherent) (d : h.Coherent) (l : Label) : l ∈ g ↔ l ∈ h :=
  (alike.sameAt c d l).mem

theorem surrogate? (alike : g.Alike h) (c : g.Coherent) (d : h.Coherent) (l : Label) :
    g.surrogate? l = h.surrogate? l := by
  rw [c.surrogate, d.surrogate, alike.hyperedge]

theorem embeddings_eq (alike : g.Alike h) (p : pattern.Coherent) (c : g.Coherent) (d : h.Coherent) :
    pattern.embeddings g = pattern.embeddings h := by
  apply embeddings_congr p c d
  intro m
  constructor
  · exact fun embeds => embeds.transfer fun u t _ => alike.sameAt c d t
  · exact fun embeds => embeds.transfer fun u t _ => (alike.sameAt c d t).symm

theorem region_eq (alike : g.Alike h) (pattern : Hypergraph) (m : Embedding) :
    pattern.region g m = pattern.region h m :=
  region_congr fun _ t _ => ⟨alike.node t, alike.hyperedge t⟩

theorem replace (alike : g.Alike h) (c : g.Coherent) (d : h.Coherent) (pattern : Hypergraph)
    (m : Embedding) (replacement : Hypergraph) :
    (g.replace pattern m replacement).Alike (h.replace pattern m replacement) := by
  apply of_unionOf
  apply (alike.unionOf c d).replace
  · nofun
  · nofun
  · exact fun _ _ => ⟨by nofun, by nofun⟩

end Alike

end Hypergraph

namespace Production

open Hypermesh.Hypergraph

variable {P : Production} {s : Settings} {left g h : Hypergraph}

theorem round_alike (alike : g.Alike h) (p : left.Coherent) (c : g.Coherent) (d : h.Coherent)
    (index : Nat) :
    (P.round s left g index).2.calls = (P.round s left h index).2.calls ∧
      ((∃ halt, (P.round s left g index).1 = .halted halt ∧
          (P.round s left h index).1 = .halted halt) ∨
        ∃ g' h', (P.round s left g index).1 = .applied g' ∧
          (P.round s left h index).1 = .applied h' ∧ g'.Alike h' ∧ g'.Coherent ∧ h'.Coherent) := by
  have choice : P.choose s left g 0 (left.embeddings g) = P.choose s left h 0 (left.embeddings h) := by
    rw [alike.embeddings_eq p c d]
    exact choose_congr fun m _ => alike.region_eq left m
  simp only [round, choice]
  cases P.choose s left h 0 (left.embeddings h) with
  | mk choice trace =>
    cases choice with
    | none => exact ⟨by simp [Trace.calls_events], Or.inl ⟨_, rfl, rfl⟩⟩
    | stale label => exact ⟨by simp [Trace.calls_events], Or.inl ⟨_, rfl, rfl⟩⟩
    | selected m region =>
      refine ⟨by simp [Trace.calls_events, applyAt], Or.inr ⟨_, _, rfl, rfl, ?_, ?_, ?_⟩⟩
      · exact alike.replace c d left m _
      · exact Coherent.kept.replace left m _ c
      · exact Coherent.kept.replace left m _ d

theorem runFrom_alike (alike : g.Alike h) (p : left.Coherent) (c : g.Coherent) (d : h.Coherent)
    (rounds index : Nat) :
    let r := P.runFrom s left rounds index g
    let r' := P.runFrom s left rounds index h
    r.host.Alike r'.host ∧ r.trace.calls = r'.trace.calls ∧ r.applications = r'.applications ∧
      r.halt = r'.halt := by
  induction rounds generalizing index g h with
  | zero => exact ⟨alike, rfl, rfl, rfl⟩
  | succ rounds ih =>
    cases reached : s.capReached? index with
    | some cap =>
      rw [runFrom_limit reached, runFrom_limit reached]
      exact ⟨alike, rfl, rfl, rfl⟩
    | none =>
      obtain ⟨calls, ⟨halt, eq, eq'⟩ | ⟨g', h', eq, eq', alike', c', d'⟩⟩ :=
        round_alike (P := P) (s := s) alike p c d index
      · rw [runFrom_halted reached eq, runFrom_halted reached eq']
        exact ⟨alike, calls, rfl, rfl⟩
      · rw [runFrom_applied reached eq, runFrom_applied reached eq']
        obtain ⟨hosts, rest, same⟩ := ih alike' c' d' (index + 1)
        refine ⟨hosts, ?_, same⟩
        rw [Trace.calls_append, Trace.calls_append, calls, rest]

/-- Hosts that are alike stay so. The production is asked and answers the same in both runs, and they end
in the same way after the same number of applications, or neither ends. -/
theorem run_alike (P : Production) (s : Settings) (g h : Hypergraph) (left : P.leftSide.Reachable)
    (reachable : g.Reachable) (reachable' : h.Reachable) (alike : g.Alike h) (rounds : Nat) :
    let r := P.run s rounds g
    let r' := P.run s rounds h
    r.host.Alike r'.host ∧ r.trace.calls = r'.trace.calls ∧ r.applications = r'.applications ∧
      r.halt = r'.halt := by
  obtain ⟨hosts, calls, same⟩ := runFrom_alike (P := P) (s := s) alike left.coherent
    reachable.coherent reachable'.coherent rounds 0
  refine ⟨hosts, ?_, same⟩
  simp only [run, Trace.calls_append, Trace.calls_events, calls]

theorem run_alike_reordered :
    let g := Operation.build (chain ["a", "b", "c"])
    let h := Operation.build (chain ["b", "c"] ++ chain ["a", "b"])
    let r := polish.run {} 2 g
    let r' := polish.run {} 2 h
    g.vertices.keys = ["a", "b", "c", "E_a_b", "E_b_c"] ∧
      h.vertices.keys = ["b", "c", "E_b_c", "a", "E_a_b"] ∧ g.Alike h ∧ r.applications = 1 ∧
      r.host.Alike r'.host ∧ r.trace.calls = r'.trace.calls ∧ r.applications = r'.applications ∧
      r.halt = r'.halt := by
  let g := Operation.build (chain ["a", "b", "c"])
  let h := Operation.build (chain ["b", "c"] ++ chain ["a", "b"])
  have alike : g.Alike h := by decide +kernel
  refine ⟨by decide +kernel, by decide +kernel, alike, by decide +kernel, ?_⟩
  exact run_alike polish {} g h (Reachable.build _) (Reachable.build _) (Reachable.build _) alike 2

end Production

end Hypermesh
