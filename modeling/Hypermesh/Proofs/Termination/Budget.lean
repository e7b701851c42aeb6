import Hypermesh.Proofs.Termination
import Hypermesh.Proofs.Transcript

/-!
How often a rule of the library applies. Each rule uses up hyperedges of some tag and mark: an application
takes a fixed number of them away and writes none, whatever else it writes or overwrites. So the hyperedges
of this kind that a host starts with bound the applications, also where labels clash or members are missing.
-/

namespace Hypermesh

namespace Hypergraph

open scoped List

variable {g h : Hypergraph}

theorem map_kind_values (g : Hypergraph) :
    g.hyperedges.values.map Hyperedge.kind = g.hyperedges.keys.map g.kindOf := by
  rw [Table.values, Table.keys, List.map_map, List.map_map]
  apply List.map_congr_left
  rintro ⟨key, e⟩ mem
  have found : g.hyperedge? key = some e := Table.find?_eq_some_iff.2 mem
  simp only [Function.comp_apply, kindOf, found]

/-- The kinds of what is stored tell how many hyperedges of each kind there are. -/
theorem kinds_perm (same : ∀ key, g.kindOf key = h.kindOf key) :
    g.hyperedges.values.map Hyperedge.kind ~ h.hyperedges.values.map Hyperedge.kind := by
  have keys : g.hyperedges.keys ~ h.hyperedges.keys := by
    rw [List.perm_ext_iff_of_nodup g.hyperedges.nodup h.hyperedges.nodup]
    intro key
    have regular : ¬ key ∈ g.hyperedges ↔ ¬ key ∈ h.hyperedges := by
      rw [← kindOf_eq_regular_iff, ← kindOf_eq_regular_iff, same]
    exact not_iff_not.1 regular
  rw [map_kind_values, map_kind_values, List.map_congr_left fun key _ => same key]
  exact keys.map h.kindOf

end Hypergraph

namespace Rules

open Hypermesh.Hypergraph
open scoped List

/-- Whether a hyperedge has the tag and the mark. -/
def ofKind (tag : String) (mark : UInt8) (e : Hyperedge) : Bool := e.tag = tag ∧ e.mark = mark

/-- What the applications of a rule are paid with: a share of the hyperedges that are counted. -/
structure Budget where
  rule : Production
  share : Nat
  counts : Hyperedge → Bool

def budgets : List Budget :=
  [⟨markQuad, 1, ofKind "Q" 0⟩, ⟨splitSide, 1, ofKind "E" 1⟩,
    ⟨splitBoundarySide, 1, fun e => ofKind "E" 1 e && e.onBoundary⟩, ⟨markPentagonSides, 5, ofKind "E" 0⟩,
    ⟨breakPentagon, 1, ofKind "P" 1⟩, ⟨markHexagon, 1, ofKind "S" 0⟩, ⟨breakHexagon, 1, ofKind "S" 1⟩,
    ⟨markHeptagon, 1, ofKind "T" 0⟩]

/-- The number of hyperedges that are counted. -/
def Budget.funds (b : Budget) (g : Hypergraph) : Nat := g.hyperedges.values.countP b.counts

variable {b : Budget} {g host region : Hypergraph} {s : Settings} {o : Outline} {P : Production}
  {tag name : String} {mark : UInt8} {e : Hyperedge} {index : Nat}

theorem ofKind_eq_true_iff : ofKind tag mark e = true ↔ e.tag = tag ∧ e.mark = mark :=
  decide_eq_true_iff

theorem countP_ofKind (g : Hypergraph) (tag : String) (mark : UInt8) :
    g.hyperedges.values.countP (ofKind tag mark) =
      (g.hyperedges.values.map Hyperedge.kind).countP (· = .surrogate tag mark) := by
  rw [List.countP_map]
  apply List.countP_congr
  intro e _
  simp [ofKind, Hyperedge.kind]

namespace Budget

/-- An application takes its share away and writes nothing that is counted. -/
structure Balanced (b : Budget) : Prop where
  positive : 0 < b.share
  taken : ∀ region, (∀ key, region.kindOf key = b.rule.leftSide.kindOf key) →
    b.rule.accepts region = true → b.share ≤ b.funds region
  written : ∀ region index, (∀ key, region.kindOf key = b.rule.leftSide.kindOf key) →
    ∀ e ∈ (b.rule.rightSide region index).hyperedges.values, b.counts e = false

theorem Balanced.lowers (balanced : b.Balanced) (asked : s.consultAcceptance = true)
    (p : b.rule.leftSide.Coherent) (c : g.Coherent)
    (eq : (b.rule.round s b.rule.leftSide g index).1 = .applied host) :
    host.Coherent ∧ b.funds host + b.share ≤ b.funds g := by
  obtain ⟨m, region, chosen, rfl⟩ := Production.selected_of_round eq
  obtain ⟨found, shown, accepted⟩ := Production.choose_selected chosen
  have same := ((mem_embeddings p c).1 found).2.kindOf_region p shown
  obtain ⟨kept, before, after⟩ := values_replace p c found shown (b.rule.rightSide region index)
  have nothing : b.funds (b.rule.rightSide region index) = 0 := by
    apply List.countP_eq_zero.2
    intro e mem
    rw [balanced.written region index same e mem]
    exact Bool.false_ne_true
  refine ⟨Coherent.kept.replace b.rule.leftSide m _ c, ?_⟩
  calc
    _ ≤ b.funds (b.rule.rightSide region index) + kept.countP b.counts + b.share :=
      Nat.add_le_add_right (List.countP_append ▸ after.countP_le b.counts) _
    _ ≤ kept.countP b.counts + b.funds region := by
      rw [nothing, Nat.zero_add]
      exact Nat.add_le_add_left (balanced.taken region same (accepted asked)) _
    _ = b.funds g := by rw [funds, funds, before.countP_eq, List.countP_append, Nat.add_comm]

/-- Where the kind decides what is counted, the left side tells how much is taken. -/
theorem taken_ofKind (enough : b.share ≤ b.funds b.rule.leftSide) (counts : b.counts = ofKind tag mark)
    (same : ∀ key, region.kindOf key = b.rule.leftSide.kindOf key) : b.share ≤ b.funds region := by
  rw [funds, counts, countP_ofKind] at enough ⊢
  rwa [(kinds_perm same).countP_eq]

end Budget

/-! ### Each rule -/

theorem exists_element (same : ∀ key, region.kindOf key = P.leftSide.kindOf key)
    (kind : P.leftSide.kindOf o.elementKey = .surrogate o.tag mark) :
    ∃ element, region.hyperedge? o.elementKey = some element ∧ element.tag = o.tag := by
  obtain ⟨element, found, tag, -⟩ := kindOf_eq_surrogate_iff.1 ((same o.elementKey).trans kind)
  exact ⟨element, found, tag⟩

theorem balanced_markElement (other : o.tag ≠ sideTag)
    (kind : (markElement name o).leftSide.kindOf o.elementKey = .surrogate o.tag 0)
    (enough : 1 ≤ Budget.funds ⟨markElement name o, 1, ofKind o.tag 0⟩ (markElement name o).leftSide) :
    Budget.Balanced ⟨markElement name o, 1, ofKind o.tag 0⟩ where
  positive := Nat.one_pos
  taken _ same _ := Budget.taken_ofKind enough rfl same
  written region index same e mem := by
    obtain ⟨element, found, -⟩ := exists_element same kind
    have right : (markElement name o).rightSide region index =
        (keepSides region).insertHyperedge (element.withMark 1) := by
      simp only [Production.rightSide, markElement, requireHyperedge, found]
      rfl
    simp only [right] at mem
    have mem := (values_insertHyperedge ..).subset mem
    rcases List.mem_cons.1 mem with rfl | mem
    · exact decide_eq_false fun kind => absurd (show (1 : UInt8) = 0 from kind.2) (by decide)
    · have side := tag_of_mem_sides ((values_keepSides region).subset mem)
      exact decide_eq_false fun kind => other (kind.1.symm.trans side)

/-- The halves of a side are unmarked. -/
theorem mark_of_mem_halves {hanging : Hyperedge → Bool}
    (right : ∀ region index, P.right region index = halves hanging region)
    (mem : e ∈ (P.rightSide region index).hyperedges.values) : e.mark = 0 := by
  rw [Production.rightSide, right] at mem
  cases written : halves hanging region with
  | error _ =>
    rw [written] at mem
    cases mem
  | ok out =>
    rw [written] at mem
    obtain ⟨side, -, written⟩ := bind_eq_ok.1 written
    obtain ⟨a, -, written⟩ := bind_eq_ok.1 written
    obtain ⟨b, -, written⟩ := bind_eq_ok.1 written
    rw [← Except.ok.inj written] at mem
    rcases List.mem_cons.1 ((values_insertHyperedge ..).subset mem) with rfl | mem
    · rfl
    · rcases List.mem_cons.1 ((values_insertHyperedge ..).subset mem) with rfl | mem
      · rfl
      · cases mem

theorem balanced_splitSide : Budget.Balanced ⟨splitSide, 1, ofKind "E" 1⟩ where
  positive := Nat.one_pos
  taken _ same _ := Budget.taken_ofKind (by decide +kernel) rfl same
  written region index _ e mem := by
    have unmarked : e.mark = 0 := mark_of_mem_halves (fun _ _ => rfl) mem
    exact decide_eq_false fun kind => absurd (unmarked.symm.trans kind.2) (by decide)

/-- Only a side on the boundary is accepted. -/
theorem balanced_splitBoundarySide :
    Budget.Balanced ⟨splitBoundarySide, 1, fun e => ofKind "E" 1 e && e.onBoundary⟩ where
  positive := Nat.one_pos
  taken region same accepted := by
    have kind : splitBoundarySide.leftSide.kindOf sideKey = .surrogate "E" 1 := by decide +kernel
    obtain ⟨side, found, tag, mark⟩ := kindOf_eq_surrogate_iff.1 ((same sideKey).trans kind)
    simp only [splitBoundarySide, found, Option.any_some] at accepted
    apply List.countP_pos_iff.2
    exact ⟨side, mem_values_of_hyperedge? found,
      Bool.and_eq_true_iff.2 ⟨ofKind_eq_true_iff.2 ⟨tag, mark⟩, accepted⟩⟩
  written region index _ e mem := by
    have unmarked : e.mark = 0 := mark_of_mem_halves (fun _ _ => rfl) mem
    have other : ofKind "E" 1 e = false :=
      decide_eq_false fun kind => absurd (unmarked.symm.trans kind.2) (by decide)
    exact Bool.and_eq_false_imp.2 fun counted => absurd (other.symm.trans counted) (by decide)

theorem balanced_markPentagonSides : Budget.Balanced ⟨markPentagonSides, 5, ofKind "E" 0⟩ where
  positive := by decide
  taken _ same _ := Budget.taken_ofKind (by decide +kernel) rfl same
  written region index same e mem := by
    have kind : markPentagonSides.leftSide.kindOf Outline.pentagon.elementKey =
        .surrogate Outline.pentagon.tag 1 := by decide +kernel
    obtain ⟨element, found, tag⟩ := exists_element same kind
    simp only [rightSide_markPentagonSides found index] at mem
    rcases List.mem_append.1 ((values_insertAll ..).subset mem) with mem | mem
    · obtain ⟨side, -, rfl⟩ := List.mem_map.1 mem
      exact decide_eq_false fun kind => absurd (show (1 : UInt8) = 0 from kind.2) (by decide)
    · rcases List.mem_cons.1 ((values_insertHyperedge ∅ element).subset mem) with rfl | mem
      · exact decide_eq_false fun kind => absurd (tag.symm.trans kind.1) (by decide)
      · cases mem

theorem tag_of_mem_sliceEdges {centre : Node} {slices : List ((Node × Node) × Node)}
    (mem : e ∈ slices.flatMap (sliceEdges centre)) : e.tag = quadTag ∨ e.tag = sideTag := by
  obtain ⟨⟨⟨corner, next⟩, previous⟩, -, mem⟩ := List.mem_flatMap.1 mem
  simp only [sliceEdges, List.mem_cons, List.not_mem_nil, or_false] at mem
  exact mem.imp (fun eq => by rw [eq]; rfl) (fun eq => by rw [eq]; rfl)

theorem balanced_breakElement (other : o.tag ≠ sideTag ∧ o.tag ≠ quadTag)
    (kind : (breakElement name o).leftSide.kindOf o.elementKey = .surrogate o.tag 1)
    (enough : 1 ≤ Budget.funds ⟨breakElement name o, 1, ofKind o.tag 1⟩ (breakElement name o).leftSide) :
    Budget.Balanced ⟨breakElement name o, 1, ofKind o.tag 1⟩ where
  positive := Nat.one_pos
  taken _ same _ := Budget.taken_ofKind enough rfl same
  written region index same e mem := by
    obtain ⟨element, found, -⟩ := exists_element same kind
    obtain ⟨slices, -, values⟩ := values_breakElement name found index
    have tag : e.tag = quadTag ∨ e.tag = sideTag := by
      rcases List.mem_append.1 (values.subset mem) with mem | mem
      · exact tag_of_mem_sliceEdges mem
      · exact Or.inr (tag_of_mem_sides mem)
    apply decide_eq_false
    rintro ⟨same, -⟩
    rw [same] at tag
    exact tag.elim other.2 other.1

theorem balanced_budgets : ∀ b ∈ budgets, b.Balanced := by
  simp only [budgets, List.forall_mem_cons]
  exact ⟨balanced_markElement (o := .quad) (by decide) (by decide +kernel) (by decide +kernel),
    balanced_splitSide, balanced_splitBoundarySide, balanced_markPentagonSides,
    balanced_breakElement (o := .pentagon) (by decide) (by decide +kernel) (by decide +kernel),
    balanced_markElement (o := .hexagon) (by decide) (by decide +kernel) (by decide +kernel),
    balanced_breakElement (o := .hexagon) (by decide) (by decide +kernel) (by decide +kernel),
    balanced_markElement (o := .heptagon) (by decide) (by decide +kernel) (by decide +kernel), nofun⟩

/-- Every rule of the library comes to an end on every host, and its applications stay within the budget
that the host starts with. -/
theorem library_within_budget (host : Hypergraph) (reachable : host.Reachable) :
    budgets.map Budget.rule = all ∧ ∀ b ∈ budgets, ∀ rounds,
      b.share * (b.rule.run {} rounds host).applications ≤ b.funds host ∧
        (b.funds host < rounds → (b.rule.run {} rounds host).halt = some .exhausted) := by
  refine ⟨rfl, fun b mem rounds => ?_⟩
  have rule : b.rule ∈ all := List.mem_map_of_mem (f := Budget.rule) mem
  have p := (reachable_leftSide b.rule rule).coherent
  have balanced := balanced_budgets b mem
  obtain ⟨-, spent, halted⟩ := Production.runFrom_lowers balanced.positive
    (fun index g next c eq => balanced.lowers (s := {}) rfl p c eq) rounds 0 reachable.coherent
  rw [Nat.mul_zero, Nat.add_zero] at spent
  refine ⟨Nat.le_of_add_left_le spent, fun enough => ?_⟩
  exact Production.exhausted_of_halted rfl p reachable.coherent (halted enough)

/-- The five sides of a marked pentagon are marked at one go. -/
theorem library_within_budget_pentagon :
    let b : Budget := ⟨markPentagonSides, 5, ofKind "E" 0⟩
    let host := markPentagonSides.leftSide
    host.Reachable ∧ b ∈ budgets ∧ b.funds host = 5 ∧ b.funds host < 6 ∧
      b.share * (b.rule.run {} 6 host).applications ≤ 5 ∧
      (b.rule.run {} 6 host).halt = some .exhausted ∧ (b.rule.run {} 6 host).applications = 1 := by
  intro b host
  have mem : b ∈ budgets := by simp [b, budgets]
  have funds : b.funds host = 5 := by decide +kernel
  have enough : b.funds host < 6 := by rw [funds]; decide
  obtain ⟨-, within⟩ := library_within_budget host reachable_markPentagonSides
  obtain ⟨spent, ends⟩ := within b mem 6
  exact ⟨reachable_markPentagonSides, mem, funds, enough, funds ▸ spent, ends enough, by decide +kernel⟩

end Rules

end Hypermesh
