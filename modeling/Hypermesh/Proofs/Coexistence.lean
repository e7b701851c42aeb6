import Hypermesh.Proofs.Coherence
import Hypermesh.Proofs.Matching.Embedding
import Hypermesh.Proofs.Nesting

/-!
Hyperedges beside one that comes in. A hyperedge takes the place of what is stored under its own label,
and of nothing else: every other record stays as it is, with its links in order up to those of the new
label. Two hyperedges can have one label only if a name of one goes on from a name of the other with an
underscore, and then one replaces the other.
-/

namespace Hypermesh

namespace Hyperedge

variable {e e' : Hyperedge}

/-- The names that the label spells. -/
def names (e : Hyperedge) : List Label := e.tag :: e.memberLabels

/-- In the tag and in every member label the brackets match and underscores stand inside of them only. -/
def Bracketed (e : Hyperedge) : Prop := ∀ name ∈ e.names, Label.Bracketed name

instance (e : Hyperedge) : Decidable e.Bracketed := inferInstanceAs (Decidable (∀ name ∈ e.names, _))

/-- Neither the tag nor a member label holds an underscore. -/
def Unlined (e : Hyperedge) : Prop := ∀ name ∈ e.names, ¬ '_' ∈ name.toList

instance (e : Hyperedge) : Decidable e.Unlined := inferInstanceAs (Decidable (∀ name ∈ e.names, _))

theorem Bracketed.not_overlap (bracketed : e.Bracketed) (bracketed' : e'.Bracketed) :
    ¬ Label.Overlap e.names e'.names :=
  Label.not_overlap (fun _ _ first second => first.not_goesOn second) bracketed bracketed'

theorem Unlined.not_overlap (unlined : e.Unlined) (unlined' : e'.Unlined) :
    ¬ Label.Overlap e.names e'.names :=
  Label.not_overlap (fun _ _ _ second => Label.not_goesOn_of_not_mem second) unlined unlined'

end Hyperedge

namespace Hypergraph

variable {g : Hypergraph} {key : Label} {e : Hyperedge}

/-- What is stored as a hyperedge under `key` is in `h` as it was in `g`: the record, the surrogate, and
the links in their order, up to those to `new`. -/
structure Retains (g h : Hypergraph) (key new : Label) : Prop where
  hyperedge : h.hyperedge? key = g.hyperedge? key
  surrogate : h.surrogate? key = g.surrogate? key
  links : (h.neighbours key).filter (· ≠ new) = (g.neighbours key).filter (· ≠ new)

theorem Retains.refl (g : Hypergraph) (key new : Label) : g.Retains g key new := ⟨rfl, rfl, rfl⟩

theorem filter_cleared (ne : key ≠ e.label) :
    (g.cleared e.label key).filter (· ≠ e.label) = (g.neighbours key).filter (· ≠ e.label) := by
  rw [cleared, if_neg ne]
  split
  · rw [List.filter_filter]
    simp
  · rfl

theorem retains_insertHyperedge (c : g.Coherent) (ne : key ≠ e.label) :
    g.Retains (g.insertHyperedge e) key e.label where
  hyperedge := by rw [hyperedge?_insertHyperedge, if_neg ne]
  surrogate := by rw [surrogate?_insertHyperedge, if_neg ne]
  links := by
    rw [neighbours_insertHyperedge c.symmetric c.covered, if_neg ne, ← filter_cleared ne]
    split
    · rw [List.filter_append]
      simp
    · rfl

/-- A hyperedge that is no member of the new one, nor linked to the one that it replaces. -/
structure Untouched (g : Hypergraph) (key : Label) (e : Hyperedge) : Prop where
  member : ¬ key ∈ e.memberLabels
  link : e.label ∈ g.hyperedges → ¬ e.label ∈ g.neighbours key

theorem neighbours_insertHyperedge_of_untouched (c : g.Coherent) (ne : key ≠ e.label)
    (untouched : g.Untouched key e) : (g.insertHyperedge e).neighbours key = g.neighbours key := by
  rw [neighbours_insertHyperedge c.symmetric c.covered, if_neg ne, if_neg (fun h => untouched.member h.1),
    cleared, if_neg ne]
  split
  · next stored =>
    rw [List.filter_eq_self]
    intro l mem
    exact decide_eq_true fun eq => untouched.link stored (eq ▸ mem)
  · rfl

/-- A hyperedge that comes in, checked or not, leaves alone all that is stored under other labels than its
own. Under its own label there is none that differs in tag or members, unless one goes on from the other
with an underscore where their names part. They do not without underscores, nor with all of them inside of
matching brackets. -/
theorem addHyperedge_retains_others (g : Hypergraph) (reachable : g.Reachable) (e : Hyperedge)
    (checked : Bool) :
    let h := (Operation.addHyperedge e checked).perform g
    (∀ key other, g.hyperedge? key = some other → key ≠ e.label →
      h.hyperedge? key = some other ∧ g.Retains h key e.label ∧
        (g.Untouched key e → h.neighbours key = g.neighbours key)) ∧
    (∀ other, g.hyperedge? other.label = some other →
      (other.tag ≠ e.tag ∨ other.memberLabels ≠ e.memberLabels) → ¬ Label.Overlap other.names e.names →
        other.label ≠ e.label ∧ h.hyperedge? other.label = some other) ∧
    ∀ other : Hyperedge, (other.Unlined ∧ e.Unlined) ∨ (other.Bracketed ∧ e.Bracketed) →
      ¬ Label.Overlap other.names e.names := by
  intro h
  have kept (key : Label) (ne : key ≠ e.label) :
      g.Retains h key e.label ∧ (g.Untouched key e → h.neighbours key = g.neighbours key) := by
    rcases g.perform_addHyperedge_cases e checked with eq | eq
    · rw [show h = g from eq]
      exact ⟨.refl g key e.label, fun _ => rfl⟩
    · rw [show h = g.insertHyperedge e from eq]
      exact ⟨retains_insertHyperedge reachable.coherent ne,
        neighbours_insertHyperedge_of_untouched reachable.coherent ne⟩
  refine ⟨?others, ?distinct, ?apart⟩
  case others =>
    intro key other found ne
    exact ⟨(kept key ne).1.hyperedge.trans found, kept key ne⟩
  case distinct =>
    intro other found differ apart
    have ne : other.label ≠ e.label := by
      intro eq
      obtain ⟨tag, members⟩ := (Label.eq_or_overlap_of_hyperedge_eq eq).resolve_right apart
      exact differ.elim (· tag) (· members)
    exact ⟨ne, (kept other.label ne).1.hyperedge.trans found⟩
  case apart =>
    rintro other (⟨unlined, unlined'⟩ | ⟨bracketed, bracketed'⟩)
    · exact unlined.not_overlap unlined'
    · exact bracketed.not_overlap bracketed'

/-- Brackets that do not match and bars do no harm, and underscores none in the label of a midpoint. -/
theorem addHyperedge_retains_others_bracketed :
    let node (label : Label) : Node := { x := .zero, y := .zero, label }
    let side (a b : Label) : Hyperedge := .join (node a) (node b) "E"
    let g := Operation.build
      [.addHyperedge (side "a)|" "b(") false, .addHyperedge (side "mid(a_b|c)" "d") false]
    let new := side "a|c" "d"
    let h := (Operation.addHyperedge new false).perform g
    g.Reachable ∧ (side "a)|" "b(").Unlined ∧ (side "mid(a_b|c)" "d").Bracketed ∧
      ∀ other ∈ [side "a)|" "b(", side "mid(a_b|c)" "d"],
        g.hyperedge? other.label = some other ∧ g.Untouched other.label new ∧
          h.hyperedge? other.label = some other ∧ h.neighbours other.label = other.memberLabels := by
  intro node side g new h
  have unlined : (side "a)|" "b(").Unlined ∧ new.Unlined := by decide +kernel
  have bracketed : (side "mid(a_b|c)" "d").Bracketed ∧ new.Bracketed := by decide +kernel
  obtain ⟨others, distinct, apart⟩ := addHyperedge_retains_others g (.build _) new false
  have kept (other : Hyperedge) (found : g.hyperedge? other.label = some other)
      (differ : other.tag ≠ new.tag ∨ other.memberLabels ≠ new.memberLabels)
      (untouched : g.Untouched other.label new) (before : g.neighbours other.label = other.memberLabels)
      (names : (other.Unlined ∧ new.Unlined) ∨ (other.Bracketed ∧ new.Bracketed)) :
      g.hyperedge? other.label = some other ∧ g.Untouched other.label new ∧
        h.hyperedge? other.label = some other ∧ h.neighbours other.label = other.memberLabels := by
    obtain ⟨ne, stored⟩ := distinct other found differ (apart other names)
    obtain ⟨-, -, links⟩ := others other.label other found ne
    exact ⟨found, untouched, stored, (links untouched).trans before⟩
  refine ⟨.build _, unlined.1, bracketed.1, List.forall_mem_cons.2 ⟨?_, List.forall_mem_singleton.2 ?_⟩⟩
  · exact kept _ (by decide +kernel) (Or.inr (by decide +kernel)) ⟨by decide +kernel, by decide +kernel⟩
      (by decide +kernel) (Or.inl unlined)
  · exact kept _ (by decide +kernel) (Or.inr (by decide +kernel)) ⟨by decide +kernel, by decide +kernel⟩
      (by decide +kernel) (Or.inr bracketed)

/-- Where one name goes on from another with an underscore, different hyperedges can have one label, and the
later one replaces the earlier. A hyperedge can also have the label of another one among its members: it comes in as
a link of that one, and goes when that one is stored once more. -/
theorem addHyperedge_disturbs_others :
    let node (label : Label) : Node := { x := .zero, y := .zero, label }
    let side (a b : Label) : Hyperedge := .join (node a) (node b) "E"
    let upper : Hyperedge := .join (node "E_a_b") (node "c") "X"
    let stored := Operation.build
      [.addNode (node "a"), .addNode (node "b_c"), .addHyperedge (side "a_b" "c") false]
    let lower := Operation.build [.addHyperedge (side "a" "b") false]
    let both := Operation.build [.addHyperedge (side "a" "b") false, .addHyperedge upper false]
    (stored.Reachable ∧ stored.hyperedge? "E_a_b_c" = some (side "a_b" "c") ∧
      (side "a_b" "c").memberLabels ≠ (side "a" "b_c").memberLabels ∧
      ∀ checked, ((Operation.addHyperedge (side "a" "b_c") checked).perform stored).hyperedge? "E_a_b_c" =
        some (side "a" "b_c")) ∧
    (lower.hyperedge? "E_a_b" = some (side "a" "b") ∧ lower.neighbours "E_a_b" = ["a", "b"] ∧
      ((Operation.addHyperedge upper false).perform lower).neighbours "E_a_b" =
        ["a", "b", "X_E_a_b_c"]) ∧
    (both.hyperedge? "X_E_a_b_c" = some upper ∧ both.neighbours "X_E_a_b_c" = ["E_a_b", "c"] ∧
      ((Operation.addHyperedge (side "a" "b") false).perform both).neighbours "X_E_a_b_c" = ["c"]) := by
  intro node side upper stored lower both
  refine ⟨⟨.build _, ?_, ?_, ?_⟩, ?_, ?_⟩ <;> decide +kernel

end Hypergraph

end Hypermesh
