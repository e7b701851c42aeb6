import Hypermesh.Proofs.Library
import Hypermesh.Proofs.Tidy

/-!
Patterns laid over a host. What the search finds is known; here it is put to use the other way round. A host
that holds a hyperedge for every hyperedge of a pattern, over nodes chosen for the pattern's nodes, lets it
match. Polygons are a case of this: it is enough to know a ring of sides and the element within.
-/

namespace Hypermesh

namespace Table

universe u v

variable {β : Type u} {γ : Type v}

theorem find?_withValues_eq_some_iff {t : Table β} {f : Label → γ} {key : Label} {value : γ} :
    (t.withValues (t.keys.map f)).find? key = some value ↔ key ∈ t ∧ f key = value := by
  have entries : (t.withValues (t.keys.map f)).entries = t.keys.map fun k => (k, f k) :=
    List.map_prod_left_eq_zip.symm
  rw [find?_eq_some_iff, entries, List.mem_map]
  constructor
  · rintro ⟨k, mem, eq⟩
    cases eq
    exact ⟨mem, rfl⟩
  · rintro ⟨mem, rfl⟩
    exact ⟨key, mem, rfl⟩

end Table

/-- The tag and the mark are those of `e`, and of the places where `f` sends the keys those of the members
of `e` are members. There may be other members. -/
structure Hyperedge.Covers (f : Label → Label) (keys : List Label) (e' e : Hyperedge) : Prop where
  tag : e'.tag = e.tag
  mark : e'.mark = e.mark
  member_iff : ∀ k ∈ keys, f k ∈ e'.memberLabels ↔ k ∈ e.memberLabels

instance (f : Label → Label) (keys : List Label) (e' e : Hyperedge) : Decidable (e'.Covers f keys e) :=
  decidable_of_iff
    (e'.tag = e.tag ∧ e'.mark = e.mark ∧ ∀ k ∈ keys, f k ∈ e'.memberLabels ↔ k ∈ e.memberLabels)
    ⟨fun ⟨tag, mark, members⟩ => ⟨tag, mark, members⟩,
      fun covers => ⟨covers.tag, covers.mark, covers.member_iff⟩⟩

namespace Hypergraph

variable {pattern host : Hypergraph} {f : Label → Label} {target : Hyperedge → Hyperedge} {e e' : Hyperedge}
  {l s t u v : Label}

/-- No relation lies under two labels. -/
def Simple (g : Hypergraph) : Prop :=
  ∀ e ∈ g.hyperedges.values, ∀ e' ∈ g.hyperedges.values, e.Same e' → e.label = e'.label

instance (g : Hypergraph) : Decidable g.Simple :=
  inferInstanceAs (Decidable (∀ e ∈ g.hyperedges.values, _))

/-! ### Covered patterns -/

/-- The host has nodes for the nodes of the pattern and hyperedges over them for its hyperedges. -/
structure Lays (pattern host : Hypergraph) (f : Label → Label) (target : Hyperedge → Hyperedge) : Prop where
  node : ∀ k ∈ pattern.nodes, f k ∈ host.nodes
  apart : ∀ k ∈ pattern.nodes, ∀ k' ∈ pattern.nodes, f k = f k' → k = k'
  stored : ∀ e ∈ pattern.hyperedges.values, target e ∈ host.hyperedges.values
  covers : ∀ e ∈ pattern.hyperedges.values, (target e).Covers f pattern.nodes.keys e

/-- Where a vertex of the pattern goes. -/
inductive Sends (pattern : Hypergraph) (f : Label → Label) (target : Hyperedge → Hyperedge) :
    Label → Label → Prop
  | node {l : Label} : l ∈ pattern.nodes → Sends pattern f target l (f l)
  | hyperedge {e : Hyperedge} : e ∈ pattern.hyperedges.values →
      Sends pattern f target e.label (target e).label

def sendTo (pattern : Hypergraph) (f : Label → Label) (target : Hyperedge → Hyperedge) (key : Label) :
    Label :=
  match pattern.hyperedge? key with
  | some e => (target e).label
  | none => f key

theorem sendTo_of_node (pw : pattern.WellFormed) (mem : l ∈ pattern.nodes) :
    pattern.sendTo f target l = f l := by
  have none : pattern.hyperedge? l = none := Table.find?_eq_none_iff.2 (pw.unambiguous l mem)
  rw [sendTo, none]

theorem sendTo_label (pw : pattern.WellFormed) (mem : e ∈ pattern.hyperedges.values) :
    pattern.sendTo f target e.label = (target e).label := by rw [sendTo, pw.mem_values_iff.1 mem]

theorem sends_sendTo (p : pattern.Coherent) (pw : pattern.WellFormed) (vertex : l ∈ pattern) :
    pattern.Sends f target l (pattern.sendTo f target l) := by
  by_cases stored : l ∈ pattern.hyperedges
  · obtain ⟨e, found⟩ := mem_hyperedges_iff.1 stored
    have mem := Table.mem_values.2 ⟨l, found⟩
    rw [← pw.hyperedge_label l e found, sendTo_label pw mem]
    exact .hyperedge mem
  · have mem := ((p.mem_iff l).1 vertex).resolve_right stored
    rw [sendTo_of_node pw mem]
    exact .node mem

namespace Lays

variable (lays : pattern.Lays host f target) (pw : pattern.WellFormed) (w : host.WellFormed)
include lays

/-- Hyperedges with one target have the same members. -/
theorem subset (pw : pattern.WellFormed) (mem : e ∈ pattern.hyperedges.values)
    (mem' : e' ∈ pattern.hyperedges.values) (same : target e = target e') :
    ∀ k ∈ e.memberLabels, k ∈ e'.memberLabels := by
  intro k member
  have known : k ∈ pattern.nodes := pw.mem_nodes ⟨e, pw.mem_values_iff.1 mem, member⟩
  rw [← (lays.covers e' mem').member_iff k known, ← same, (lays.covers e mem).member_iff k known]
  exact member

include w

theorem hyperedge? (mem : e ∈ pattern.hyperedges.values) :
    host.hyperedge? (target e).label = some (target e) := w.mem_values_iff.1 (lays.stored e mem)

/-- Nodes and hyperedges are kept apart. -/
theorem not_hyperedge (mem : l ∈ pattern.nodes) : ¬ f l ∈ host.hyperedges :=
  w.unambiguous (f l) (lays.node l mem)

theorem ne (mem : l ∈ pattern.nodes) (mem' : e ∈ pattern.hyperedges.values) : f l ≠ (target e).label := by
  intro same
  apply lays.not_hyperedge w mem
  rw [same]
  exact mem_hyperedges_iff.2 ⟨_, lays.hyperedge? w mem'⟩

theorem injective (pw : pattern.WellFormed) (simple : pattern.Simple)
    (sends : pattern.Sends f target u s) (sends' : pattern.Sends f target v t) (same : s = t) : u = v := by
  cases sends with
  | node mem =>
    cases sends' with
    | node mem' => exact lays.apart u mem v mem' same
    | hyperedge mem' => exact absurd same (lays.ne w mem mem')
  | @hyperedge e mem =>
    cases sends' with
    | node mem' => exact absurd same.symm (lays.ne w mem' mem)
    | @hyperedge e' mem' =>
      have eq := List.inj_on_of_nodup_map w.labels_nodup (lays.stored e mem) (lays.stored e' mem') same
      have tags := (lays.covers e mem).tag.symm.trans ((congrArg _ eq).trans (lays.covers e' mem').tag)
      exact simple e mem e' mem' ⟨tags, lays.subset pw mem mem' eq, lays.subset pw mem' mem eq.symm⟩

theorem lists_iff (pw : pattern.WellFormed) (sends : pattern.Sends f target u s)
    (sends' : pattern.Sends f target v t) : pattern.Lists u v ↔ host.Lists s t := by
  cases sends with
  | node mem =>
    have none : ¬ pattern.Lists u v := fun lists => pw.unambiguous u mem lists.stored
    have none' : ¬ host.Lists (f u) t := fun lists => lays.not_hyperedge w mem lists.stored
    exact iff_of_false none none'
  | @hyperedge e mem =>
    have found := pw.mem_values_iff.1 mem
    have found' := lays.hyperedge? w mem
    have pattern_lists : pattern.Lists e.label v ↔ v ∈ e.memberLabels := by simp [Lists, found]
    have host_lists : host.Lists (target e).label t ↔ t ∈ (target e).memberLabels := by simp [Lists, found']
    rw [pattern_lists, host_lists]
    cases sends' with
    | node mem' => exact ((lays.covers e mem).member_iff v mem').symm
    | @hyperedge e' mem' =>
      -- No hyperedge lies under the label of a member.
      have none : ¬ e'.label ∈ e.memberLabels := fun member =>
        pw.unambiguous _ (pw.mem_nodes ⟨e, found, member⟩)
          (mem_hyperedges_iff.2 ⟨e', pw.mem_values_iff.1 mem'⟩)
      have none' : ¬ (target e').label ∈ (target e).memberLabels := fun member =>
        w.unambiguous _ (w.mem_nodes ⟨_, found', member⟩)
          (mem_hyperedges_iff.2 ⟨_, lays.hyperedge? w mem'⟩)
      exact iff_of_false none none'

/-- A map of the vertices to where they go is an embedding. -/
theorem embeds {m : Embedding} (c : host.Coherent) (pw : pattern.WellFormed) (simple : pattern.Simple)
    (keys : m.keys = pattern.vertices.keys)
    (sends : ∀ u t, m.find? u = some t → pattern.Sends f target u t) : pattern.Embeds host m where
  keys := keys
  target u t found := by
    rw [← mem_def, c.mem_iff]
    cases sends u t found with
    | node mem => exact Or.inl (lays.node u mem)
    | hyperedge mem => exact Or.inr (mem_hyperedges_iff.2 ⟨_, lays.hyperedge? w mem⟩)
  injective u v t found found' := lays.injective w pw simple (sends u t found) (sends v t found') rfl
  surrogate u t e found stored := by
    cases sends u t found with
    | node mem => exact absurd (mem_hyperedges_iff.2 ⟨e, stored⟩) (pw.unambiguous u mem)
    | @hyperedge e' mem =>
      cases stored.symm.trans (pw.mem_values_iff.1 mem)
      exact ⟨_, lays.hyperedge? w mem, (lays.covers e mem).tag, (lays.covers e mem).mark⟩
  regular u t found regular := by
    cases sends u t found with
    | node mem => exact lays.not_hyperedge w mem
    | hyperedge mem => exact absurd (mem_hyperedges_iff.2 ⟨_, pw.mem_values_iff.1 mem⟩) regular
  incident u v s t found found' := by
    rw [pw.incident, w.incident, lays.lists_iff w pw (sends u s found) (sends v t found'),
      lays.lists_iff w pw (sends v t found') (sends u s found)]

end Lays

/-- The embedding that sends each vertex where it goes. -/
def laid (pattern : Hypergraph) (f : Label → Label) (target : Hyperedge → Hyperedge) : Embedding :=
  pattern.vertices.withValues (pattern.vertices.keys.map (pattern.sendTo f target))

theorem find?_laid_eq_some_iff :
    (pattern.laid f target).find? u = some t ↔ u ∈ pattern ∧ pattern.sendTo f target u = t :=
  Table.find?_withValues_eq_some_iff

theorem Lays.mem_embeddings (lays : pattern.Lays host f target) (p : pattern.Coherent)
    (pw : pattern.WellFormed) (c : host.Coherent) (w : host.WellFormed) (nonempty : pattern.isEmpty = false)
    (simple : pattern.Simple) : pattern.laid f target ∈ pattern.embeddings host := by
  refine (Hypergraph.mem_embeddings p c).2 ⟨nonempty, ?_⟩
  refine lays.embeds w c pw simple (Table.keys_withValues (by simp)) fun u t found => ?_
  obtain ⟨vertex, rfl⟩ := find?_laid_eq_some_iff.1 found
  exact sends_sendTo p pw vertex

/-- A host that covers a pattern lets it match. -/
theorem exists_embedding (p : pattern.Coherent) (pw : pattern.WellFormed) (c : host.Coherent)
    (w : host.WellFormed) (nonempty : pattern.isEmpty = false) (simple : pattern.Simple)
    (lays : pattern.Lays host f target) :
    ∃ m ∈ pattern.embeddings host, (∀ k ∈ pattern.nodes, m.find? k = some (f k)) ∧
      ∀ e ∈ pattern.hyperedges.values, m.find? e.label = some (target e).label := by
  refine ⟨pattern.laid f target, lays.mem_embeddings p pw c w nonempty simple,
    fun k mem => find?_laid_eq_some_iff.2 ⟨?node, sendTo_of_node pw mem⟩,
    fun e mem => find?_laid_eq_some_iff.2 ⟨?hyperedge, sendTo_label pw mem⟩⟩
  case node => exact (p.mem_iff k).2 (Or.inl mem)
  case hyperedge => exact (p.mem_iff _).2 (Or.inr (mem_hyperedges_iff.2 ⟨e, pw.mem_values_iff.1 mem⟩))

/-! ### Polygons -/

/-- Each element with the next one around the ring. -/
def pairs {α : Type} (ring : List α) : List (α × α) := ring.zip (ring.rotateLeft 1)

theorem pairs_map {α β : Type} (f : α → β) (ring : List α) :
    pairs (ring.map f) = (pairs ring).map (Prod.map f f) := by
  have rotated : (ring.map f).rotateLeft 1 = (ring.rotateLeft 1).map f := by
    simp only [List.rotateLeft, List.length_map]
    split <;> simp
  rw [pairs, rotated, List.zip_map, pairs]

theorem pairs_cons {α : Type} (a : α) (l : List α) : pairs (a :: l) = (a :: l).zip (l ++ [a]) := by
  cases l with
  | nil => rfl
  | cons b l => simp [pairs, List.rotateLeft]

theorem map_fst_pairs {α : Type} (ring : List α) : (pairs ring).map Prod.fst = ring := by
  cases ring with
  | nil => rfl
  | cons a l => rw [pairs_cons, List.map_fst_zip (by simp)]

theorem mem_pairs {α : Type} {ring : List α} {k : α × α} (mem : k ∈ pairs ring) :
    k.1 ∈ ring ∧ k.2 ∈ ring := by
  cases ring with
  | nil => cases mem
  | cons a l =>
    rw [pairs_cons] at mem
    obtain ⟨first, second⟩ := List.of_mem_zip mem
    exact ⟨first, by simpa [or_comm] using second⟩

theorem exists_pair {α : Type} {a : α} {ring : List α} (mem : a ∈ ring) : ∃ k ∈ pairs ring, k.1 = a := by
  rwa [← map_fst_pairs ring, List.mem_map] at mem

/-- The ring with a new element after each. -/
def subdivide {α : Type} (between : α → α → α) (ring : List α) : List α :=
  (pairs ring).flatMap fun k => [k.1, between k.1 k.2]

theorem mem_subdivide {α : Type} {between : α → α → α} {ring : List α} {a : α} :
    a ∈ subdivide between ring ↔ ∃ k ∈ pairs ring, a = k.1 ∨ a = between k.1 k.2 := by
  simp only [subdivide, List.mem_flatMap, List.mem_cons, List.not_mem_nil, or_false]

theorem length_subdivide {α : Type} (between : α → α → α) (ring : List α) :
    (subdivide between ring).length = 2 * ring.length := by
  have length := congrArg List.length (map_fst_pairs ring)
  rw [List.length_map] at length
  rw [subdivide, List.length_flatMap, ← length]
  simp [Nat.mul_comm]

/-- A path from `a` to `b`, and the same with a new element on every link. -/
theorem zip_subdivide {α : Type} (between : α → α → α) (a b : α) (l : List α) :
    let links := (a :: l).zip (l ++ [b])
    let new := links.flatMap fun k => [k.1, between k.1 k.2]
    new.zip (new.tail ++ [b]) =
      links.flatMap fun k => [(k.1, between k.1 k.2), (between k.1 k.2, k.2)] := by
  induction l generalizing a with
  | nil => rfl
  | cons c l ih =>
    have rest := ih c
    cases l <;> simp_all

theorem pairs_subdivide {α : Type} (between : α → α → α) (ring : List α) :
    pairs (subdivide between ring) =
      (pairs ring).flatMap fun k => [(k.1, between k.1 k.2), (between k.1 k.2, k.2)] := by
  cases ring with
  | nil => rfl
  | cons a l =>
    rw [subdivide, pairs_cons, ← zip_subdivide between a a l]
    cases l <;> simp [pairs_cons]

theorem mem_pairs_subdivide {α : Type} {between : α → α → α} {ring : List α} {k : α × α} :
    k ∈ pairs (subdivide between ring) ↔
      ∃ k' ∈ pairs ring, k = (k'.1, between k'.1 k'.2) ∨ k = (between k'.1 k'.2, k'.2) := by
  simp only [pairs_subdivide, List.mem_flatMap, List.mem_cons, List.not_mem_nil, or_false]

/-- Sides with one mark around a ring of nodes, and an element over some of these. -/
structure Polygon (pattern : Hypergraph) (ring : List Label) (sideMark : UInt8) (tag : String) (mark : UInt8)
    (spanned : List Label) : Prop where
  coherent : pattern.Coherent
  wellFormed : pattern.WellFormed
  nonempty : pattern.isEmpty = false
  simple : pattern.Simple
  node : ∀ k ∈ pattern.nodes.keys, k ∈ ring
  hyperedge : ∀ e ∈ pattern.hyperedges.values,
    (e.tag = tag ∧ e.mark = mark ∧ e.memberLabels = spanned) ∨
      e.tag = sideTag ∧ e.mark = sideMark ∧ ∃ k ∈ pairs ring, e.memberLabels = [k.1, k.2]

theorem Grows.polygon {ring spanned : List Label} {sideMark mark : UInt8} {tag : String}
    (growth : Grows ∅ pattern)
    (shape : pattern.Unambiguous ∧ pattern.isEmpty = false ∧ pattern.Simple ∧
      (∀ k ∈ pattern.nodes.keys, k ∈ ring) ∧ ∀ e ∈ pattern.hyperedges.values,
        (e.tag = tag ∧ e.mark = mark ∧ e.memberLabels = spanned) ∨
          e.tag = sideTag ∧ e.mark = sideMark ∧ ∃ k ∈ pairs ring, e.memberLabels = [k.1, k.2]) :
    pattern.Polygon ring sideMark tag mark spanned := by
  obtain ⟨unambiguous, nonempty, simple, node, hyperedge⟩ := shape
  exact ⟨Coherent.kept.grows growth Coherent.empty, growth.wellFormed unambiguous, nonempty, simple, node,
    hyperedge⟩

/-- A side with the mark joins `a` and `b`, and has no other node of the ring as a member. -/
def Bounds (g : Hypergraph) (mark : UInt8) (ring : List Label) (a b : Label) : Prop :=
  ∃ e ∈ g.hyperedges.values, e.tag = sideTag ∧ e.mark = mark ∧
    ∀ l ∈ ring, l ∈ e.memberLabels ↔ l = a ∨ l = b

/-- Sides with the mark lead from each node of the ring to the next. -/
structure Encircled (g : Hypergraph) (mark : UInt8) (ring : List Label) : Prop where
  nodup : ring.Nodup
  node : ∀ l ∈ ring, l ∈ g.nodes
  side : ∀ k ∈ pairs ring, g.Bounds mark ring k.1 k.2

variable {ring spanned : List Label} {sideMark mark : UInt8} {tag : String} {element : Hyperedge}

/-- An element in a ring of sides lets a polygon match. -/
theorem Polygon.exists_embedding (polygon : pattern.Polygon ring sideMark tag mark spanned)
    (c : host.Coherent) (w : host.WellFormed) (encircled : host.Encircled sideMark (ring.map f))
    (stored : element ∈ host.hyperedges.values) (tagged : element.tag = tag) (marked : element.mark = mark)
    (members : element.memberLabels = spanned.map f) :
    ∃ m ∈ pattern.embeddings host, ∀ e ∈ pattern.hyperedges.values, e.tag = tag → tag ≠ sideTag →
      m.find? e.label = some element.label := by
  have inside {k : Label} (mem : k ∈ pattern.nodes.keys) : f k ∈ ring.map f :=
    List.mem_map_of_mem (polygon.node k mem)
  have inj {k k' : Label} (mem : k ∈ ring) (mem' : k' ∈ ring) (same : f k = f k') : k = k' :=
    List.inj_on_of_nodup_map encircled.nodup mem mem' same
  have covered : ∀ e ∈ pattern.hyperedges.values, ∃ e', e' ∈ host.hyperedges.values ∧
      e'.Covers f pattern.nodes.keys e ∧ (e.tag = tag → tag ≠ sideTag → e' = element) := by
    intro e mem
    rcases polygon.hyperedge e mem with ⟨tag, mark, spans⟩ | ⟨tag, mark, k, pair, ends⟩
    · refine ⟨element, stored, ⟨tagged.trans tag.symm, marked.trans mark.symm, fun l node => ?_⟩,
        fun _ _ => rfl⟩
      rw [members, spans, List.mem_map]
      refine ⟨?_, fun member => ⟨l, member, rfl⟩⟩
      rintro ⟨k, member, same⟩
      have known : k ∈ pattern.nodes :=
        polygon.wellFormed.mem_nodes ⟨e, polygon.wellFormed.mem_values_iff.1 mem, spans ▸ member⟩
      rwa [← inj (polygon.node k known) (polygon.node l node) same]
    · have pair' : (f k.1, f k.2) ∈ pairs (ring.map f) := by
        rw [pairs_map]
        exact List.mem_map_of_mem pair
      obtain ⟨e', stored', tag', mark', joins⟩ := encircled.side _ pair'
      refine ⟨e', stored', ⟨tag'.trans tag.symm, mark'.trans mark.symm, fun l node => ?_⟩, fun eq ne => ?_⟩
      · obtain ⟨first, second⟩ := mem_pairs pair
        rw [joins _ (inside node), ends, List.mem_pair]
        exact or_congr ⟨inj (polygon.node l node) first, congrArg f⟩
          ⟨inj (polygon.node l node) second, congrArg f⟩
      · exact absurd (eq.symm.trans tag) ne
  choose! target stored covers only using covered
  have lays : pattern.Lays host f target := by
    refine ⟨fun k mem => ?_, fun k mem k' mem' same => ?_, stored, covers⟩
    · exact encircled.node _ (inside mem)
    · exact inj (polygon.node k mem) (polygon.node k' mem') same
  obtain ⟨m, mem, -, image⟩ := Hypergraph.exists_embedding polygon.coherent polygon.wellFormed c w
    polygon.nonempty polygon.simple lays
  refine ⟨m, mem, fun e stored' eq ne => ?_⟩
  rw [image e stored', only e stored' eq ne]

end Hypergraph

end Hypermesh
