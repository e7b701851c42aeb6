import Hypermesh.Digest
import Hypermesh.Proofs.OrderIndependence
import Mathlib.Algebra.Ring.Nat

/-!
The canonical bytes of a hypergraph and what they record of it determine each other. Every part of them
delimits itself, so that it can be told apart from whatever follows, and sorting by key leaves no trace of
the orders of the tables.
-/

universe u v

namespace Hypermesh

namespace Canonical

variable {α : Type u} {β : Type v} {ok : α → Prop} {view : α → β} {bytes : α → List UInt8}
  {rest rest' : List UInt8}

/-! ### Parts that delimit themselves -/

/-- Among the items that are ok, the bytes of one, with anything after them, tell what its view is and
where they end. -/
def SelfDelimiting (ok : α → Prop) (view : α → β) (bytes : α → List UInt8) : Prop :=
  ∀ a b rest rest', ok a → ok b → bytes a ++ rest = bytes b ++ rest' → view a = view b ∧ rest = rest'

namespace SelfDelimiting

theorem of_length {n : Nat} (length : ∀ a, (bytes a).length = n)
    (determines : ∀ a b, ok a → ok b → bytes a = bytes b → view a = view b) :
    SelfDelimiting ok view bytes := by
  intro a b rest rest' ha hb eq
  obtain ⟨front, back⟩ := List.append_inj eq ((length a).trans (length b).symm)
  exact ⟨determines a b ha hb front, back⟩

theorem items (each : SelfDelimiting ok view bytes) {as bs : List α} (length : as.length = bs.length)
    (has : ∀ a ∈ as, ok a) (hbs : ∀ b ∈ bs, ok b)
    (eq : as.flatMap bytes ++ rest = bs.flatMap bytes ++ rest') :
    as.map view = bs.map view ∧ rest = rest' := by
  induction as generalizing bs with
  | nil =>
    cases List.eq_nil_of_length_eq_zero length.symm
    exact ⟨rfl, eq⟩
  | cons a as ih =>
    cases bs with
    | nil => cases length
    | cons b bs =>
      rw [List.forall_mem_cons] at has hbs
      rw [List.flatMap_cons, List.flatMap_cons, List.append_assoc, List.append_assoc] at eq
      obtain ⟨same, eq⟩ := each a b _ _ has.1 hbs.1 eq
      obtain ⟨tail, eq⟩ := ih (Nat.succ.inj length) has.2 hbs.2 eq
      exact ⟨by rw [List.map_cons, List.map_cons, same, tail], eq⟩

end SelfDelimiting

/-! ### Numbers and texts -/

theorem eq_of_digits {k a b : Nat} (ha : a < 256 ^ k) (hb : b < 256 ^ k)
    (digit : ∀ i < k, a / 256 ^ i % 256 = b / 256 ^ i % 256) : a = b := by
  induction k generalizing a b with
  | zero => omega
  | succ k ih =>
    rw [Nat.pow_succ'] at ha hb
    have low : a % 256 = b % 256 := by simpa using digit 0 (Nat.succ_pos k)
    have high : a / 256 = b / 256 := by
      apply ih (Nat.div_lt_of_lt_mul ha) (Nat.div_lt_of_lt_mul hb)
      intro i lt
      have next := digit (i + 1) (Nat.succ_lt_succ lt)
      rwa [Nat.pow_succ', ← Nat.div_div_eq_div_mul, ← Nat.div_div_eq_div_mul] at next
    omega

@[simp] theorem length_word (w : UInt64) : (word w).length = 8 := by simp [word]

@[simp] theorem length_count (n : Nat) : (count n).length = 8 := length_word _

theorem word_injective {w v : UInt64} (eq : word w = word v) : w = v := by
  apply UInt64.toNat_inj.1
  apply eq_of_digits (k := 8) w.toNat_lt v.toNat_lt
  intro i lt
  have same : (w >>> (8 * i).toUInt64).toUInt8 = (v >>> (8 * i).toUInt64).toUInt8 :=
    List.map_inj_left.1 eq i (List.mem_range.2 lt)
  have shift : (8 * i).toUInt64.toNat % 64 = 8 * i := by
    rw [UInt64.toNat_ofNat_of_lt' (by simp [UInt64.size]; omega)]
    omega
  have digit := congrArg UInt8.toNat same
  rwa [UInt64.toNat_toUInt8, UInt64.toNat_toUInt8, UInt64.toNat_shiftRight, UInt64.toNat_shiftRight,
    shift, Nat.shiftRight_eq_div_pow, Nat.shiftRight_eq_div_pow, Nat.pow_mul] at digit

theorem selfDelimiting_word : SelfDelimiting (fun _ => True) id word :=
  .of_length length_word fun _ _ _ _ => word_injective

theorem selfDelimiting_count : SelfDelimiting (· < 2 ^ 64) id count := by
  apply SelfDelimiting.of_length length_count
  intro m n hm hn eq
  have same := congrArg UInt64.toNat (word_injective eq)
  rwa [UInt64.toNat_ofNat_of_lt' hm, UInt64.toNat_ofNat_of_lt' hn] at same

/-- A list of items with their number in front. -/
theorem SelfDelimiting.counted (each : SelfDelimiting ok view bytes) :
    SelfDelimiting (fun as : List α => as.length < 2 ^ 64 ∧ ∀ a ∈ as, ok a) (List.map view)
      (fun as => count as.length ++ as.flatMap bytes) := by
  intro as bs rest rest' has hbs eq
  rw [List.append_assoc, List.append_assoc] at eq
  obtain ⟨length, eq⟩ := selfDelimiting_count _ _ _ _ has.1 hbs.1 eq
  exact each.items length has.2 hbs.2 eq

theorem selfDelimiting_byte : SelfDelimiting (fun _ => True) id fun b : UInt8 => [b] :=
  .of_length (fun _ => rfl) fun _ _ _ _ eq => List.singleton_inj.1 eq

theorem selfDelimiting_flag : SelfDelimiting (fun _ => True) id flag :=
  .of_length (fun _ => rfl) (by decide)

theorem selfDelimiting_boundary : SelfDelimiting (fun _ => True) id boundary := by
  have length (b : Option Bool) : (boundary b).length = 1 := by
    rcases b with _ | _ | _ <;> rfl
  apply SelfDelimiting.of_length length
  intro a b _ _
  rcases a with _ | _ | _ <;> rcases b with _ | _ | _ <;> simp [boundary]

/-- A text that is short enough for its length to be written down. -/
def Short (s : String) : Prop := s.utf8ByteSize < 2 ^ 64

instance (s : String) : Decidable (Short s) := inferInstanceAs (Decidable (_ < _))

theorem selfDelimiting_text : SelfDelimiting Short id text := by
  intro s t rest rest' hs ht eq
  have bytes := selfDelimiting_byte.counted s.toUTF8.data.toList t.toUTF8.data.toList rest rest'
    ⟨hs, fun _ _ => trivial⟩ ⟨ht, fun _ _ => trivial⟩
  simp only [List.flatMap_singleton', List.map_id] at bytes
  obtain ⟨same, eq⟩ := bytes eq
  exact ⟨String.toByteArray_inj.1 (ByteArray.ext (Array.toList_inj.1 same)), eq⟩

/-! ### Records -/

/-- What is written down of a node beside its key. -/
def recordOfNode (n : Node) : UInt64 × UInt64 × Bool := (n.x.bits, n.y.bits, n.hanging)

/-- What is written down of a hyperedge beside its key. -/
def recordOfHyperedge (e : Hyperedge) : String × UInt8 × Option Bool × List Label :=
  (e.tag, e.mark, e.attributes.boundary, e.memberLabels)

/-- All lengths that are written down of a hyperedge fit. -/
def ShortEdge (key : Label) (e : Hyperedge) : Prop :=
  Short key ∧ Short e.tag ∧ e.memberLabels.length < 2 ^ 64 ∧ ∀ k ∈ e.memberLabels, Short k

instance (key : Label) (e : Hyperedge) : Decidable (ShortEdge key e) :=
  inferInstanceAs (Decidable (_ ∧ _))

theorem selfDelimiting_node :
    SelfDelimiting (fun entry : Label × Node => Short entry.1) (Prod.map id recordOfNode)
      (fun entry => node entry.1 entry.2) := by
  rintro ⟨key, n⟩ ⟨key', n'⟩ rest rest' short short' eq
  simp only [node, List.append_assoc] at eq
  obtain ⟨(same : key = key'), eq⟩ := selfDelimiting_text key key' _ _ short short' eq
  obtain ⟨(x : n.x.bits = n'.x.bits), eq⟩ := selfDelimiting_word _ _ _ _ trivial trivial eq
  obtain ⟨(y : n.y.bits = n'.y.bits), eq⟩ := selfDelimiting_word _ _ _ _ trivial trivial eq
  obtain ⟨(hanging : n.hanging = n'.hanging), eq⟩ := selfDelimiting_flag _ _ _ _ trivial trivial eq
  exact ⟨by simp only [Prod.map, recordOfNode, same, x, y, hanging], eq⟩

theorem selfDelimiting_hyperedge :
    SelfDelimiting (fun entry : Label × Hyperedge => ShortEdge entry.1 entry.2)
      (Prod.map id recordOfHyperedge) (fun entry => hyperedge entry.1 entry.2) := by
  rintro ⟨key, e⟩ ⟨key', e'⟩ rest rest' ⟨short, tag, members⟩ ⟨short', tag', members'⟩ eq
  have arity (e : Hyperedge) : e.members.length = e.memberLabels.length := (List.length_map _).symm
  simp only [hyperedge, List.append_assoc, arity] at eq
  obtain ⟨(same : key = key'), eq⟩ := selfDelimiting_text key key' _ _ short short' eq
  obtain ⟨(tag : e.tag = e'.tag), eq⟩ := selfDelimiting_text e.tag e'.tag _ _ tag tag' eq
  obtain ⟨(mark : e.mark = e'.mark), eq⟩ := selfDelimiting_byte _ _ _ _ trivial trivial eq
  obtain ⟨(boundary : e.attributes.boundary = e'.attributes.boundary), eq⟩ :=
    selfDelimiting_boundary _ _ _ _ trivial trivial eq
  rw [← List.append_assoc, ← List.append_assoc (count _)] at eq
  obtain ⟨members, eq⟩ :=
    selfDelimiting_text.counted e.memberLabels e'.memberLabels _ _ members members' eq
  rw [List.map_id, List.map_id] at members
  exact ⟨by simp only [Prod.map, recordOfHyperedge, same, tag, mark, boundary, members], eq⟩

theorem node_eq_of_record {a b : Label × Node}
    (same : Prod.map id recordOfNode a = Prod.map id recordOfNode b) : node a.1 a.2 = node b.1 b.2 := by
  simp only [Prod.map, recordOfNode, Prod.mk.injEq, id] at same
  obtain ⟨key, x, y, hanging⟩ := same
  rw [node, node, key, x, y, hanging]

theorem hyperedge_eq_of_record {a b : Label × Hyperedge}
    (same : Prod.map id recordOfHyperedge a = Prod.map id recordOfHyperedge b) :
    hyperedge a.1 a.2 = hyperedge b.1 b.2 := by
  simp only [Prod.map, recordOfHyperedge, Prod.mk.injEq, id] at same
  obtain ⟨key, tag, mark, boundary, members⟩ := same
  have arity : a.2.members.length = b.2.members.length := by
    simpa [Hyperedge.memberLabels] using congrArg List.length members
  rw [hyperedge, hyperedge, key, tag, mark, boundary, arity, members]

theorem flatMap_eq_of_map_eq (determined : ∀ a b, view a = view b → bytes a = bytes b)
    {as bs : List α} (same : as.map view = bs.map view) : as.flatMap bytes = bs.flatMap bytes := by
  induction as generalizing bs with
  | nil => rw [List.map_eq_nil_iff.1 same.symm]
  | cons a as ih =>
    cases bs with
    | nil => cases same
    | cons b bs =>
      obtain ⟨first, rest⟩ := List.cons.inj same
      rw [List.flatMap_cons, List.flatMap_cons, determined a b first, ih rest]

end Canonical

/-! ### Tables in the order of their keys -/

namespace Table

variable {β : Type u} {γ : Type v} {t s : Table β} {f : β → γ}

theorem sorted_perm (t : Table β) : t.sorted.Perm t.entries := inOrder_perm _ _

theorem pairwise_sorted (t : Table β) : t.sorted.Pairwise (·.1 < ·.1) := by
  have le : t.sorted.Pairwise fun a b => decide (a.1 ≤ b.1) = true := by
    apply pairwise_inOrder
    · intro a b c
      simpa using String.le_trans
    · intro a b
      simpa using String.le_total a.1 b.1
  have ne : t.sorted.Pairwise (·.1 ≠ ·.1) := by
    rw [← List.pairwise_map]
    exact (t.sorted_perm.map Prod.fst).nodup_iff.2 t.nodup_keys
  exact (le.and ne).imp fun both => Std.lt_of_le_of_ne (of_decide_eq_true both.1) both.2

theorem mem_map_sorted {l : Label} {r : γ} :
    (l, r) ∈ t.sorted.map (Prod.map id f) ↔ (t.find? l).map f = some r := by
  simp only [List.mem_map, t.sorted_perm.mem_iff, Option.map_eq_some_iff, find?_eq_some_iff, Prod.exists,
    Prod.map, id, Prod.mk.injEq]
  constructor
  · rintro ⟨k, value, mem, rfl, eq⟩
    exact ⟨value, mem, eq⟩
  · rintro ⟨value, mem, eq⟩
    exact ⟨l, value, mem, rfl, eq⟩

/-- Two tables read in the order of their keys tell the same if they store the same. -/
theorem map_sorted_eq_iff :
    t.sorted.map (Prod.map id f) = s.sorted.map (Prod.map id f) ↔
      ∀ l, (t.find? l).map f = (s.find? l).map f := by
  constructor
  · intro eq l
    apply Option.ext
    intro r
    rw [← mem_map_sorted, ← mem_map_sorted, eq]
  · intro same
    have irrefl : Std.Irrefl fun a b : Label × γ => a.1 < b.1 := ⟨fun a => String.lt_irrefl a.1⟩
    have antisymm : Std.Antisymm fun a b : Label × γ => a.1 < b.1 :=
      ⟨fun a b lt lt' => absurd (String.lt_trans lt lt') (String.lt_irrefl a.1)⟩
    have sorted (t : Table β) : (t.sorted.map (Prod.map id f)).Pairwise (·.1 < ·.1) :=
      List.pairwise_map.2 t.pairwise_sorted
    apply (sorted t).eq_of_mem_iff (sorted s)
    rintro ⟨l, r⟩
    rw [mem_map_sorted, mem_map_sorted, same l]

end Table

/-! ### The whole state -/

namespace Hypergraph

open Canonical

variable {g h : Hypergraph}

/-- The same nodes and hyperedges lie under the same keys, as far as they are written down. -/
structure SameState (g h : Hypergraph) : Prop where
  node : ∀ l, (g.node? l).map recordOfNode = (h.node? l).map recordOfNode
  hyperedge : ∀ l, (g.hyperedge? l).map recordOfHyperedge = (h.hyperedge? l).map recordOfHyperedge

/-- All numbers and lengths that are written down of a hypergraph fit. -/
structure Writable (g : Hypergraph) : Prop where
  nodes : g.nodes.size < 2 ^ 64
  hyperedges : g.hyperedges.size < 2 ^ 64
  node : ∀ entry ∈ g.nodes.entries, Short entry.1
  hyperedge : ∀ entry ∈ g.hyperedges.entries, ShortEdge entry.1 entry.2

theorem sorted_eq_of_canonicalBytes (fits : g.Writable) (fits' : h.Writable)
    (eq : g.canonicalBytes = h.canonicalBytes) :
    g.nodes.sorted.map (Prod.map id recordOfNode) = h.nodes.sorted.map (Prod.map id recordOfNode) ∧
      g.hyperedges.sorted.map (Prod.map id recordOfHyperedge) =
        h.hyperedges.sorted.map (Prod.map id recordOfHyperedge) := by
  have size {β : Type} (t : Table β) : t.size = t.sorted.length := t.sorted_perm.length_eq.symm
  have nodes {g : Hypergraph} (fits : g.Writable) :
      g.nodes.sorted.length < 2 ^ 64 ∧ ∀ entry ∈ g.nodes.sorted, Short entry.1 :=
    ⟨size g.nodes ▸ fits.nodes, fun entry mem => fits.node entry (g.nodes.sorted_perm.mem_iff.1 mem)⟩
  have hyperedges {g : Hypergraph} (fits : g.Writable) : g.hyperedges.sorted.length < 2 ^ 64 ∧
      ∀ entry ∈ g.hyperedges.sorted, ShortEdge entry.1 entry.2 :=
    ⟨size g.hyperedges ▸ fits.hyperedges,
      fun entry mem => fits.hyperedge entry (g.hyperedges.sorted_perm.mem_iff.1 mem)⟩
  rw [canonicalBytes, canonicalBytes, size, size, size, size] at eq
  obtain ⟨same, eq⟩ := selfDelimiting_node.counted _ _ _ _ (nodes fits) (nodes fits') eq
  rw [← List.append_nil (_ ++ _), ← List.append_nil (_ ++ List.flatMap _ h.hyperedges.sorted)] at eq
  exact ⟨same, (selfDelimiting_hyperedge.counted _ _ _ _ (hyperedges fits) (hyperedges fits') eq).1⟩

theorem sameState_of_canonicalBytes (fits : g.Writable) (fits' : h.Writable)
    (eq : g.canonicalBytes = h.canonicalBytes) : g.SameState h := by
  obtain ⟨nodes, hyperedges⟩ := sorted_eq_of_canonicalBytes fits fits' eq
  exact ⟨Table.map_sorted_eq_iff.1 nodes, Table.map_sorted_eq_iff.1 hyperedges⟩

theorem SameState.canonicalBytes_eq (same : g.SameState h) : g.canonicalBytes = h.canonicalBytes := by
  have nodes := Table.map_sorted_eq_iff.2 same.node
  have hyperedges := Table.map_sorted_eq_iff.2 same.hyperedge
  have size {β γ : Type} {f : β → γ} {t s : Table β}
      (eq : t.sorted.map (Prod.map id f) = s.sorted.map (Prod.map id f)) : t.size = s.size := by
    have length := congrArg List.length eq
    rwa [List.length_map, List.length_map, t.sorted_perm.length_eq, s.sorted_perm.length_eq] at length
  rw [canonicalBytes, canonicalBytes, size nodes, size hyperedges,
    flatMap_eq_of_map_eq (fun _ _ => node_eq_of_record) nodes,
    flatMap_eq_of_map_eq (fun _ _ => hyperedge_eq_of_record) hyperedges]

/-- The canonical bytes of two hypergraphs are equal if and only if their states are, and states that are
equal have one digest, whatever the orders of their tables. -/
theorem canonicalBytes_eq_iff (g h : Hypergraph) (fits : g.Writable) (fits' : h.Writable) :
    (g.canonicalBytes = h.canonicalBytes ↔ g.SameState h) ∧ (g.SameState h → g.digest = h.digest) := by
  refine ⟨⟨sameState_of_canonicalBytes fits fits', SameState.canonicalBytes_eq⟩, fun same => ?_⟩
  rw [digest, digest, same.canonicalBytes_eq]

theorem Alike.sameState (alike : g.Alike h) : g.SameState h where
  node l := by rw [alike.node]
  hyperedge l := by rw [alike.hyperedge]

instance (g : Hypergraph) : Decidable g.Writable :=
  decidable_of_iff (g.nodes.size < 2 ^ 64 ∧ g.hyperedges.size < 2 ^ 64 ∧
      (∀ entry ∈ g.nodes.entries, Short entry.1) ∧
      ∀ entry ∈ g.hyperedges.entries, ShortEdge entry.1 entry.2)
    ⟨fun ⟨nodes, hyperedges, node, hyperedge⟩ => ⟨nodes, hyperedges, node, hyperedge⟩,
      fun fits => ⟨fits.nodes, fits.hyperedges, fits.node, fits.hyperedge⟩⟩

/-- The orders of the tables leave no trace in the bytes, but the ends of labels do. -/
theorem canonicalBytes_eq_iff_chains :
    let g := Operation.build (chain ["a", "bc"])
    let h := Operation.build (chain ["bc"] ++ chain ["a", "bc"])
    let k := Operation.build (chain ["ab", "c"])
    (g.nodes.keys ≠ h.nodes.keys ∧ g.canonicalBytes = h.canonicalBytes ∧ g.digest = h.digest) ∧
      g.canonicalBytes.length = k.canonicalBytes.length ∧ g.canonicalBytes ≠ k.canonicalBytes := by
  let g := Operation.build (chain ["a", "bc"])
  let h := Operation.build (chain ["bc"] ++ chain ["a", "bc"])
  let k := Operation.build (chain ["ab", "c"])
  have fits : g.Writable := by decide +kernel
  have alike : g.Alike h := by decide +kernel
  have same := canonicalBytes_eq_iff g h fits (by decide +kernel)
  have other := canonicalBytes_eq_iff g k fits (by decide +kernel)
  have moved : ¬ g.SameState k := fun same => absurd (same.node "ab") (by decide +kernel)
  exact ⟨⟨by decide +kernel, same.1.2 alike.sameState, same.2 alike.sameState⟩, by decide +kernel,
    fun eq => moved (other.1.1 eq)⟩

end Hypergraph

end Hypermesh
