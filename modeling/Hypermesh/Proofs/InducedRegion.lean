import Hypermesh.Proofs.OrderIndependence
import Hypermesh.Proofs.Rewriting
import Hypermesh.Proofs.Selection

/-!
The region of an embedding is the part of the host that the embedding selects, under the pattern's labels
and in the order of the pattern's vertices. Its links are rebuilt from the hyperedges of the pattern
alone; no link is missed, for each has a hyperedge at one end. No run meets an embedding without a region.
-/

namespace Hypermesh

namespace Hypergraph

variable {g pattern host region copied : Hypergraph} {m : Embedding} {a b k l key label : Label}
  {keys others : List Label} {node : Node} {edge : Hyperedge}

/-! ### Links and hyperedges -/

/-- A hyperedge is stored under one end of every link. -/
def Anchored (g : Hypergraph) : Prop :=
  ∀ a b, b ∈ g.neighbours a → a ∈ g.hyperedges ∨ b ∈ g.hyperedges

namespace Anchored

theorem empty : Anchored ∅ := by
  intro a b linked
  cases linked

theorem addNode (anchored : g.Anchored) (node : Node) : (g.addNode node).Anchored := by
  intro a b linked
  rw [neighbours_addNode] at linked
  exact anchored a b linked

theorem insertHyperedge (anchored : g.Anchored) (c : g.Coherent) (edge : Hyperedge) :
    (g.insertHyperedge edge).Anchored := by
  intro a b linked
  rw [mem_neighbours_insertHyperedge c.symmetric c.covered] at linked
  rw [mem_hyperedges_insertHyperedge, mem_hyperedges_insertHyperedge]
  rcases linked with (⟨rfl, -⟩ | ⟨rfl, -⟩) | ⟨-, linked⟩
  · exact Or.inl (Or.inl rfl)
  · exact Or.inr (Or.inl rfl)
  · exact (anchored a b linked).imp Or.inr Or.inr

theorem remove (anchored : g.Anchored) (c : g.Coherent) (label : Label) :
    (g.remove label).Anchored := by
  intro a b linked
  rw [mem_neighbours_remove c.symmetric] at linked
  rw [hyperedges_remove, Table.mem_erase, Table.mem_erase]
  exact (anchored a b linked.2.2).imp (⟨linked.1, ·⟩) (⟨linked.2.1, ·⟩)

theorem kept : Kept fun g => g.Coherent ∧ g.Anchored where
  addNode node h := ⟨h.1.addNode node, h.2.addNode node⟩
  insertHyperedge edge h := ⟨h.1.insertHyperedge edge, h.2.insertHyperedge h.1 edge⟩
  remove label h := ⟨h.1.remove label, h.2.remove h.1 label⟩

end Anchored

/-! ### The keys of the copies -/

theorem keys_copyVertex (c : g.Coherent) (fresh : ¬ key ∈ g)
    (eq : pattern.copyVertex host m g key = .ok copied) :
    copied.vertices.keys = g.vertices.keys ++ [key] ∧
      copied.hyperedges.keys = g.hyperedges.keys ++ [key].filter (· ∈ pattern.hyperedges) ∧
      copied.nodes.keys = g.nodes.keys ++ [key].filter (· ∉ pattern.hyperedges) := by
  have new := fresh
  rw [c.mem_iff, not_or] at new
  rcases copyVertex_eq_ok eq with ⟨stored, e, -, rfl⟩ | ⟨regular, n, -, rfl⟩
  · refine ⟨?_, ?_, ?_⟩
    · rw [vertices_keys_putHyperedge, if_neg fresh]
    · rw [hyperedges_putHyperedge, Table.keys_insert, if_neg new.2]
      simp [stored]
    · rw [nodes_putHyperedge]
      simp [stored]
  · refine ⟨?_, ?_, ?_⟩
    · exact (Table.keys_insert ..).trans (if_neg fresh)
    · simp [putNode, regular]
    · refine (Table.keys_insert ..).trans ((if_neg new.1).trans ?_)
      simp [regular]

theorem keys_copies (c : g.Coherent) (h : host.Coherent)
    (eq : keys.foldlM (pattern.copyVertex host m) g = .ok copied)
    (nodup : (g.vertices.keys ++ keys).Nodup) :
    copied.vertices.keys = g.vertices.keys ++ keys ∧
      copied.hyperedges.keys = g.hyperedges.keys ++ keys.filter (· ∈ pattern.hyperedges) ∧
      copied.nodes.keys = g.nodes.keys ++ keys.filter (· ∉ pattern.hyperedges) := by
  induction keys generalizing g with
  | nil =>
    cases eq
    simp
  | cons key keys ih =>
    obtain ⟨next, first, rest⟩ := foldlM_cons_eq_ok.1 eq
    have fresh : ¬ key ∈ g := fun mem => (List.nodup_append.1 nodup).2.2 key mem key List.mem_cons_self rfl
    obtain ⟨vertices, hyperedges, nodes⟩ := keys_copyVertex c fresh first
    have apart : (next.vertices.keys ++ keys).Nodup := by
      rwa [vertices, List.append_assoc]
    obtain ⟨vertices', hyperedges', nodes'⟩ := ih (c.copyVertex h first) rest apart
    rw [vertices', hyperedges', nodes', vertices, hyperedges, nodes]
    simp only [List.append_assoc, ← List.filter_append, List.singleton_append, and_self]

/-- The copies come without links. -/
theorem neighbours_copies (eq : keys.foldlM (pattern.copyVertex host m) ∅ = .ok copied) (k l : Label) :
    ¬ k ∈ copied.neighbours l := by
  have unlinked : ∀ l k, ¬ k ∈ copied.neighbours l := by
    apply foldlM_keeps (I := fun g => ∀ l k, ¬ k ∈ g.neighbours l) _ _ eq
    · intro g key _ copied unlinked eq l k linked
      rcases copyVertex_eq_ok eq with ⟨-, e, -, rfl⟩ | ⟨-, n, -, rfl⟩
      · have symmetric : g.Symmetric := fun a b linked => absurd linked (unlinked a b)
        rw [mem_neighbours_putHyperedge symmetric] at linked
        exact unlinked l k linked.2
      · rw [neighbours_putNode] at linked
        exact unlinked l k linked
    · intro l k linked
      cases linked
  exact unlinked l k

/-! ### The links of the region -/

theorem mem_neighbours_linkAll (hk : key ∈ g) (ho : ∀ other ∈ others, other ∈ g ∧ key ≠ other) :
    k ∈ (others.foldl (·.link key ·) g).neighbours l ↔
      k ∈ g.neighbours l ∨ (l = key ∧ k ∈ others ∨ k = key ∧ l ∈ others) := by
  induction others generalizing g with
  | nil => simp
  | cons other others ih =>
    obtain ⟨⟨stored, ne⟩, rest⟩ := List.forall_mem_cons.1 ho
    have rest' : ∀ other' ∈ others, other' ∈ g.link key other ∧ key ≠ other' :=
      fun other' mem => ⟨mem_link.2 (rest other' mem).1, (rest other' mem).2⟩
    rw [List.foldl_cons, ih (mem_link.2 hk) rest', mem_neighbours_link hk stored ne, List.mem_cons,
      List.mem_cons]
    constructor
    · rintro ((old | ⟨rfl, rfl⟩ | ⟨rfl, rfl⟩) | ⟨rfl, mem⟩ | ⟨rfl, mem⟩)
      · exact Or.inl old
      · exact Or.inr (Or.inl ⟨rfl, Or.inl rfl⟩)
      · exact Or.inr (Or.inr ⟨rfl, Or.inl rfl⟩)
      · exact Or.inr (Or.inl ⟨rfl, Or.inr mem⟩)
      · exact Or.inr (Or.inr ⟨rfl, Or.inr mem⟩)
    · rintro (old | ⟨rfl, rfl | mem⟩ | ⟨rfl, rfl | mem⟩)
      · exact Or.inl (Or.inl old)
      · exact Or.inl (Or.inr (Or.inl ⟨rfl, rfl⟩))
      · exact Or.inr (Or.inl ⟨rfl, mem⟩)
      · exact Or.inl (Or.inr (Or.inr ⟨rfl, rfl⟩))
      · exact Or.inr (Or.inr ⟨rfl, mem⟩)

@[simp] theorem vertices_keys_linkLike (pattern g : Hypergraph) (key : Label) :
    (pattern.linkLike g key).vertices.keys = g.vertices.keys :=
  foldl_unchanged (q := (·.vertices.keys)) (fun _ _ => vertices_keys_link ..) _ g

@[simp] theorem hyperedges_linkLike (pattern g : Hypergraph) (key : Label) :
    (pattern.linkLike g key).hyperedges = g.hyperedges :=
  foldl_unchanged (fun _ _ => hyperedges_link ..) _ g

@[simp] theorem nodes_linkLike (pattern g : Hypergraph) (key : Label) :
    (pattern.linkLike g key).nodes = g.nodes :=
  foldl_unchanged (fun _ _ => nodes_link ..) _ g

/-- Linking as in the pattern restores the links that have one of `keys` at an end. -/
theorem mem_neighbours_linkLikes (p : pattern.Coherent) (vertices : ∀ l, l ∈ pattern → l ∈ g)
    (keys_mem : ∀ key ∈ keys, key ∈ pattern) :
    k ∈ (keys.foldl (linkLike pattern) g).neighbours l ↔
      k ∈ g.neighbours l ∨ (l ∈ keys ∨ k ∈ keys) ∧ k ∈ pattern.neighbours l := by
  induction keys generalizing g with
  | nil => simp
  | cons key keys ih =>
    obtain ⟨mem, rest⟩ := List.forall_mem_cons.1 keys_mem
    have vertices' : ∀ l, l ∈ pattern → l ∈ pattern.linkLike g key := by
      intro l stored
      rw [mem_def, Table.mem_def, vertices_keys_linkLike]
      exact vertices l stored
    have ends : ∀ other ∈ pattern.neighbours key, other ∈ g ∧ key ≠ other := by
      intro other linked
      refine ⟨vertices other (mem_of_mem_neighbours (p.symmetric _ _ linked)), ?_⟩
      rintro rfl
      exact p.irreflexive key linked
    have one : k ∈ (pattern.linkLike g key).neighbours l ↔
        k ∈ g.neighbours l ∨ (l = key ∨ k = key) ∧ k ∈ pattern.neighbours l := by
      rw [linkLike, mem_neighbours_linkAll (vertices key mem) ends, or_and_right]
      have back : k = key ∧ l ∈ pattern.neighbours key ↔ k = key ∧ k ∈ pattern.neighbours l := by
        constructor
        · rintro ⟨rfl, linked⟩
          exact ⟨rfl, p.symmetric _ _ linked⟩
        · rintro ⟨rfl, linked⟩
          exact ⟨rfl, p.symmetric _ _ linked⟩
      have forth : l = key ∧ k ∈ pattern.neighbours key ↔ l = key ∧ k ∈ pattern.neighbours l := by
        constructor <;> rintro ⟨rfl, linked⟩ <;> exact ⟨rfl, linked⟩
      rw [back, forth]
    rw [List.foldl_cons, ih vertices' rest, one, List.mem_cons, List.mem_cons, or_assoc,
      ← or_and_right, or_or_or_comm]

/-! ### The induced part of the host -/

/-- The part of the host that `m` selects, under the labels of the pattern and in the order of its
vertices. -/
structure Induced (pattern host : Hypergraph) (m : Embedding) (region : Hypergraph) : Prop where
  vertex_keys : region.vertices.keys = pattern.vertices.keys
  hyperedge_keys : region.hyperedges.keys = pattern.vertices.keys.filter (· ∈ pattern.hyperedges)
  node_keys : region.nodes.keys = pattern.vertices.keys.filter (· ∉ pattern.hyperedges)
  mem_hyperedges : ∀ k, k ∈ region.hyperedges ↔ k ∈ pattern.hyperedges
  mem_nodes : ∀ k, k ∈ region.nodes ↔ k ∈ pattern ∧ ¬ k ∈ pattern.hyperedges
  hyperedge : ∀ k ∈ pattern.hyperedges, ∃ t e, m.find? k = some t ∧ host.hyperedge? t = some e ∧
    region.hyperedge? k = some e
  node : ∀ k ∈ pattern, ¬ k ∈ pattern.hyperedges → ∃ t n, m.find? k = some t ∧
    host.node? t = some n ∧ region.node? k = some n
  surrogate : ∀ k e, region.hyperedge? k = some e → ∃ s, region.surrogate? k = some s ∧
    s.standsFor = some k ∧ s.label = e.label ∧ (s.x, s.y) = e.centroid
  unsurrogated : ∀ k, ¬ k ∈ pattern.hyperedges → region.surrogate? k = none
  incident : ∀ k k', k' ∈ region.neighbours k ↔ k' ∈ pattern.neighbours k
  image : ∀ k k' t t', m.find? k = some t → m.find? k' = some t' →
    (k' ∈ region.neighbours k ↔ t' ∈ host.neighbours t)

theorem keys_region_eq (h : host.Coherent)
    (eq : pattern.region host m = .ok region) :
    region.vertices.keys = pattern.vertices.keys ∧
      region.hyperedges.keys = pattern.vertices.keys.filter (· ∈ pattern.hyperedges) ∧
      region.nodes.keys = pattern.vertices.keys.filter (· ∉ pattern.hyperedges) := by
  obtain ⟨copied, copies, rfl⟩ := region_eq_ok eq
  have keys := keys_copies Coherent.empty h copies pattern.vertices.nodup
  have vertices := foldl_unchanged (q := (·.vertices.keys)) (vertices_keys_linkLike pattern)
    pattern.hyperedges.keys copied
  have hyperedges := foldl_unchanged (q := (·.hyperedges)) (hyperedges_linkLike pattern)
    pattern.hyperedges.keys copied
  have nodes := foldl_unchanged (q := (·.nodes)) (nodes_linkLike pattern)
    pattern.hyperedges.keys copied
  rw [vertices, hyperedges, nodes]
  exact keys

/-- Every link of the pattern has a hyperedge at one end, so none is missed. -/
theorem mem_neighbours_region (p : pattern.Coherent) (anchored : pattern.Anchored) (h : host.Coherent)
    (eq : pattern.region host m = .ok region) :
    k ∈ region.neighbours l ↔ k ∈ pattern.neighbours l := by
  obtain ⟨copied, copies, rfl⟩ := region_eq_ok eq
  have keys := (keys_copies Coherent.empty h copies pattern.vertices.nodup).1
  have vertices : ∀ l, l ∈ pattern → l ∈ copied := by
    intro l stored
    rw [mem_def, Table.mem_def, keys]
    exact stored
  rw [mem_neighbours_linkLikes p vertices fun key stored => (p.mem_iff key).2 (Or.inr stored)]
  constructor
  · rintro (copy | ⟨-, linked⟩)
    · exact absurd copy (neighbours_copies copies k l)
    · exact linked
  · exact fun linked => Or.inr ⟨anchored l k linked, linked⟩

theorem Reachable.anchored (h : g.Reachable) : g.Anchored := by
  have both : g.Coherent ∧ g.Anchored := by
    induction h with
    | empty => exact ⟨Coherent.empty, Anchored.empty⟩
    | perform o _ ih => exact Anchored.kept.perform o ih
    | @region pattern host region m _ _ _ eq ihp ihh =>
      refine ⟨ihp.1.region ihh.1 eq, fun a b linked => ?_⟩
      rw [mem_neighbours_region ihp.1 ihp.2 ihh.1 eq] at linked
      have stored (k : Label) (mem : k ∈ pattern.hyperedges) : k ∈ region.hyperedges := by
        rw [Table.mem_def, (keys_region_eq ihh.1 eq).2.1, List.mem_filter]
        exact ⟨(ihp.1.mem_iff k).2 (Or.inr mem), by simpa using mem⟩
      exact (ihp.2 a b linked).imp (stored a) (stored b)
  exact both.2

theorem Embeds.induced (embeds : pattern.Embeds host m) (p : pattern.Coherent)
    (anchored : pattern.Anchored) (h : host.Coherent) (eq : pattern.region host m = .ok region) :
    pattern.Induced host m region := by
  obtain ⟨vertices, hyperedges, nodes⟩ := keys_region_eq h eq
  have mem_hyperedges (k : Label) : k ∈ region.hyperedges ↔ k ∈ pattern.hyperedges := by
    rw [Table.mem_def, hyperedges, List.mem_filter, decide_eq_true_eq]
    exact and_iff_right_of_imp fun stored => (p.mem_iff k).2 (Or.inr stored)
  have incident (k k' : Label) : k' ∈ region.neighbours k ↔ k' ∈ pattern.neighbours k :=
    mem_neighbours_region p anchored h eq
  have c := p.region h eq
  refine ⟨vertices, hyperedges, nodes, mem_hyperedges, ?mem_nodes, ?hyperedge, ?node, ?surrogate,
    ?unsurrogated, incident, ?image⟩
  case mem_nodes =>
    intro k
    rw [Table.mem_def, nodes, List.mem_filter, decide_eq_true_eq]
    rfl
  case hyperedge =>
    intro k stored
    obtain ⟨e, found⟩ := mem_hyperedges_iff.1 ((mem_hyperedges k).2 stored)
    obtain ⟨-, t, image, found'⟩ := edge_of_region p eq found
    exact ⟨t, e, image, found', found⟩
  case node =>
    intro k stored regular
    obtain ⟨t, image⟩ := embeds.exists_image stored
    obtain ⟨n, found⟩ := mem_nodes_iff.1 (embeds.node_image h regular image)
    refine ⟨t, n, image, found, ?_⟩
    rw [node?_region eq, if_pos ⟨stored, regular⟩, image, Option.bind_some, found]
  case surrogate =>
    intro k e found
    refine ⟨e.surrogate k, ?_, rfl, rfl, rfl⟩
    rw [c.surrogate, found, Option.map_some]
  case unsurrogated =>
    intro k regular
    rw [c.surrogate, hyperedge?, Table.find?_eq_none_iff.2 fun mem => regular ((mem_hyperedges k).1 mem),
      Option.map_none]
  case image =>
    intro k k' t t' image image'
    rw [incident]
    exact embeds.incident k k' t t' image image'

end Hypergraph

/-! ### What a run shows -/

namespace Production

open Hypermesh.Hypergraph

variable {P : Production} {s : Settings} {left g host region : Hypergraph} {ms : List Embedding}
  {index candidate rounds : Nat} {call : Call}

/-- The production is asked about regions of candidates only. -/
theorem choose_shows (mem : call ∈ (P.choose s left host candidate ms).2.calls)
    (shown : call.region? = some region) : ∃ m ∈ ms, left.region host m = .ok region := by
  induction ms generalizing candidate with
  | nil => cases mem
  | cons m ms ih =>
    rw [choose] at mem
    cases found : left.region host m with
    | error label =>
      rw [found] at mem
      cases mem
    | ok region' =>
      rw [found] at mem
      have head (answer : Bool) (same : call = .accepts region' answer) :
          ∃ m' ∈ m :: ms, left.region host m' = .ok region := by
        rw [same] at shown
        cases shown
        exact ⟨m, List.mem_cons_self, found⟩
      cases asked : s.consultAcceptance with
      | false =>
        simp only [asked, Bool.false_eq_true, if_false] at mem
        cases mem
      | true =>
        cases answer : P.accepts region' with
        | true =>
          simp only [asked, answer, if_true] at mem
          exact head true (List.mem_singleton.1 mem)
        | false =>
          simp only [asked, answer, if_true, Bool.false_eq_true, if_false] at mem
          rcases List.mem_cons.1 mem with same | mem
          · exact head false same
          · obtain ⟨m', mem', eq⟩ := ih mem
            exact ⟨m', List.mem_cons_of_mem _ mem', eq⟩

theorem round_shows (mem : call ∈ (P.round s left host index).2.calls)
    (shown : call.region? = some region) :
    ∃ m ∈ left.embeddings host, left.region host m = .ok region := by
  have asked : call ∈ (P.choose s left host 0 (left.embeddings host)).2.calls →
      call.region? = some region → ∃ m ∈ left.embeddings host, left.region host m = .ok region :=
    choose_shows
  rw [round] at mem
  cases chosen : P.choose s left host 0 (left.embeddings host) with
  | mk choice trace =>
    rw [chosen] at mem asked
    cases choice with
    | none =>
      simp only [Trace.calls_append, Trace.calls_events, List.nil_append] at mem
      exact asked mem shown
    | stale label =>
      simp only [Trace.calls_append, Trace.calls_events, List.nil_append] at mem
      exact asked (by simpa [Trace.calls] using mem) shown
    | selected m region' =>
      simp only [Trace.calls_append, Trace.calls_events, List.nil_append, List.mem_append] at mem
      rcases mem with mem | mem
      · exact asked mem shown
      · have selected := choose_selected (congrArg Prod.fst chosen)
        have told : call = .right region' index := by
          simpa [applyAt, Trace.calls_events, Trace.calls] using mem
        rw [told] at shown
        cases shown
        exact ⟨m, selected.1, selected.2.1⟩

theorem runFrom_shows (mem : call ∈ (P.runFrom s left rounds index g).trace.calls)
    (shown : call.region? = some region) :
    ∃ r < rounds, ∃ m ∈ left.embeddings (P.runFrom s left r index g).host,
      left.region (P.runFrom s left r index g).host m = .ok region := by
  induction rounds generalizing index g with
  | zero => cases mem
  | succ rounds ih =>
    cases reached : s.capReached? index with
    | some cap =>
      rw [runFrom_limit reached] at mem
      cases mem
    | none =>
      cases eq : (P.round s left g index).1 with
      | halted halt =>
        rw [runFrom_halted reached eq] at mem
        exact ⟨0, Nat.succ_pos rounds, round_shows mem shown⟩
      | applied host =>
        rw [runFrom_applied reached eq, Trace.calls_append, List.mem_append] at mem
        rcases mem with mem | mem
        · exact ⟨0, Nat.succ_pos rounds, round_shows mem shown⟩
        · obtain ⟨r, lt, m, mem, found⟩ := ih mem
          refine ⟨r + 1, Nat.succ_lt_succ lt, m, ?_⟩
          rw [runFrom_applied reached eq]
          exact ⟨mem, found⟩

/-- What a production is shown is the region of an embedding into one of the hosts of the run. -/
theorem run_shows (mem : call ∈ (P.run s rounds host).trace.calls) (shown : call.region? = some region) :
    ∃ r < rounds, ∃ m ∈ P.leftSide.embeddings (P.run s r host).host,
      P.leftSide.region (P.run s r host).host m = .ok region := by
  simp only [run, Trace.calls_append, Trace.calls_events, List.append_nil] at mem
  rcases List.mem_cons.1 mem with rfl | mem
  · cases shown
  · exact runFrom_shows (by simpa [Trace.calls_events] using mem) shown

theorem round_ne_stale (p : left.Coherent) (c : g.Coherent) (index : Nat) :
    (P.round s left g index).1 ≠ .halted .staleMatch := by
  rcases selected_or_none P s p c with ⟨m, region, chosen⟩ | chosen
  · rw [round_of_selected index chosen]
    nofun
  · rw [round_of_none index chosen]
    nofun

theorem runFrom_ne_stale (p : left.Coherent) (c : g.Coherent) (rounds index : Nat) :
    (P.runFrom s left rounds index g).halt ≠ some .staleMatch := by
  induction rounds generalizing index g with
  | zero => nofun
  | succ rounds ih =>
    rcases P.runFrom_cases s left index g with ⟨halt, trace, reason, eq⟩ | ⟨host, below, eq⟩
    · rw [eq]
      rintro ⟨⟩
      rcases reason with reason | reason
      · cases reason
      · exact round_ne_stale p c index reason
    · rw [runFrom_applied below eq]
      obtain ⟨m, region, -, rfl⟩ := selected_of_round eq
      exact ih (Coherent.kept.replace left m _ c) (index + 1)

end Production

namespace Hypergraph

variable {pattern host : Hypergraph}

/-- Every embedding selects an induced part of the host. A run never meets one that it cannot take, and
what it shows to its production is an induced part of one of its hosts. -/
theorem embeddings_induced (p : pattern.Reachable) (h : host.Reachable) :
    (∀ m ∈ pattern.embeddings host,
      ∃ region, pattern.region host m = .ok region ∧ pattern.Induced host m region) ∧
    ∀ (P : Production) (s : Settings) (rounds : Nat), P.leftSide = pattern →
      (P.run s rounds host).halt ≠ some .staleMatch ∧
        ∀ call ∈ (P.run s rounds host).trace.calls, ∀ region, call.region? = some region →
          ∃ r < rounds, ∃ m ∈ pattern.embeddings (P.run s r host).host,
            pattern.Induced (P.run s r host).host m region := by
  have induced {g region : Hypergraph} {m : Embedding} (c : g.Coherent)
      (mem : m ∈ pattern.embeddings g) (eq : pattern.region g m = .ok region) :
      pattern.Induced g m region :=
    ((mem_embeddings p.coherent c).1 mem).2.induced p.coherent p.anchored c eq
  constructor
  · intro m mem
    obtain ⟨region, eq⟩ := exists_region p.coherent h.coherent mem
    exact ⟨region, eq, induced h.coherent mem eq⟩
  · rintro P s rounds rfl
    refine ⟨Production.runFrom_ne_stale p.coherent h.coherent rounds 0, ?_⟩
    intro call mem region shown
    obtain ⟨r, lt, m, mem, eq⟩ := Production.run_shows mem shown
    have c : (P.run s r host).host.Coherent := Coherent.kept.run P s r h.coherent
    exact ⟨r, lt, m, mem, induced c mem eq⟩

theorem embeddings_induced_chain :
    let pattern := Operation.build (chain ["u", "v"])
    let host := Operation.build (chain ["a", "b", "c"])
    (∃ m region, m ∈ pattern.embeddings host ∧ pattern.region host m = .ok region ∧
        pattern.Induced host m region) ∧
      (detour.run {} 3 host).halt ≠ some .staleMatch := by
  let pattern := Operation.build (chain ["u", "v"])
  let host := Operation.build (chain ["a", "b", "c"])
  have p : pattern.Reachable := .build _
  have h : host.Reachable := .build _
  obtain ⟨regions, runs⟩ := embeddings_induced p h
  have some : 0 < (pattern.embeddings host).length := by decide +kernel
  obtain ⟨m, mem⟩ := List.exists_mem_of_length_pos some
  obtain ⟨region, eq, induced⟩ := regions m mem
  exact ⟨⟨m, region, mem, eq, induced⟩, (runs detour {} 3 rfl).1⟩

end Hypergraph

end Hypermesh
