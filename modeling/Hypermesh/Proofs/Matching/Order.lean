import Hypermesh.Proofs.Matching.Embedding
import Hypermesh.Proofs.Matching.Plan
import Mathlib.Logic.Relation

/-!
The plan goes through a pattern component by component. As long as a component has placed and waiting
vertices, some waiting vertex has a link to a placed one, and so has the one that comes next, which has the
most. The numbers of links need not be counted afresh for each placement: it is enough to raise them at the
neighbours of the vertex that was placed.
-/

namespace Hypermesh

open scoped List

namespace Incidence

variable {n steps : Nat} {I : Incidence n} {placed : List (Fin n)} {u v w x : Fin n} {next : Placement n}
  {front back : List (Placement n)} {counts : Vector Nat n}

/-- The vertices of the pattern as they are placed. -/
def order (I : Incidence n) : List (Fin n) := I.plan.map Placement.vertex

/-- The vertices are in one component. -/
def Linked (I : Incidence n) : Fin n → Fin n → Prop := Relation.ReflTransGen I.Adjacent

theorem Linked.symm (symmetric : ∀ v w, I.Adjacent v w → I.Adjacent w v) (path : I.Linked u v) :
    I.Linked v u :=
  Relation.ReflTransGen.mono (fun a b => symmetric b a) _ _ (Relation.ReflTransGen.swap _ _ path)

/-! ### All vertices are placed -/

theorem Completes.order_perm {plan : List (Placement n)} (completes : I.Completes placed plan)
    (nodup : placed.Nodup) : plan.map Placement.vertex ++ placed ~ List.finRange n := by
  induction completes with
  | done all =>
    rw [List.map_nil, List.nil_append, List.perm_ext_iff_of_nodup nodup (List.nodup_finRange n)]
    exact fun v => iff_of_true (all v) (List.mem_finRange v)
  | place fresh _ ih => exact List.perm_middle.symm.trans (ih (List.nodup_cons.2 ⟨fresh, nodup⟩))

/-! ### The vertex that comes next -/

theorem links_pos_iff : 0 < I.links placed v ↔ ∃ w ∈ placed, I.Adjacent v w := by
  rw [links, List.countP_pos_iff]
  simp only [decide_eq_true_eq]
  exact exists_congr fun w => and_comm

theorem isSome_anchor?_iff : (I.anchor? placed v).isSome ↔ ∃ w ∈ placed, I.Adjacent v w := by
  rw [anchor?, List.find?_isSome]
  simp only [decide_eq_true_eq]
  exact exists_congr fun w => and_comm

/-- No waiting vertex has more links to the placed ones. -/
theorem links_le_of_next? (eq : I.next? placed = some v) (waits : ¬ w ∈ placed) :
    I.links placed w ≤ I.links placed v := by
  obtain ⟨best, most, last⟩ := Option.bind_eq_some_iff.1 eq
  have waiting : w ∈ (List.finRange n).filter (· ∉ placed) := by simpa using waits
  have le := List.le_apply_get_maxOn?_of_mem waiting (f := I.links placed)
  have same : I.links placed v = I.links placed best := by
    simpa using (List.mem_filter.1 (List.maxOn?_mem last)).2
  simp only [most, Option.get_some] at le
  rwa [same]

/-- Where a component is placed in part, a link leads from a placed vertex to a waiting one. -/
theorem exists_crossing (path : I.Linked u w) (mem : u ∈ placed) (waits : ¬ w ∈ placed) :
    ∃ y ∈ placed, ∃ z, ¬ z ∈ placed ∧ I.Adjacent y z := by
  induction path using Relation.ReflTransGen.head_induction_on with
  | refl => exact absurd mem waits
  | @head u y adjacent _ ih =>
    by_cases placed_too : y ∈ placed
    · exact ih placed_too
    · exact ⟨u, mem, y, placed_too, adjacent⟩

/-- While a component is placed in part, what comes next has an anchor. -/
theorem isSome_anchor?_of_linked (symmetric : ∀ v w, I.Adjacent v w → I.Adjacent w v)
    (eq : I.next? placed = some v) (mem : u ∈ placed) (waits : ¬ w ∈ placed) (path : I.Linked u w) :
    (I.anchor? placed v).isSome := by
  obtain ⟨y, before, z, after, adjacent⟩ := exists_crossing path mem waits
  have pos : 0 < I.links placed z := links_pos_iff.2 ⟨y, before, symmetric y z adjacent⟩
  rw [isSome_anchor?_iff, ← links_pos_iff]
  exact Nat.lt_of_lt_of_le pos (links_le_of_next? eq after)

/-! ### Component by component -/

/-- A component of which vertices are placed and others wait is that of the last placed vertex. -/
def Orderly (I : Incidence n) (placed : List (Fin n)) : Prop :=
  ∀ u ∈ placed, ∀ w, ¬ w ∈ placed → I.Linked u w → ∀ v ∈ placed.head?, I.Linked u v

theorem orderly_nil (I : Incidence n) : I.Orderly [] := nofun

theorem Orderly.place (orderly : I.Orderly placed) (symmetric : ∀ v w, I.Adjacent v w → I.Adjacent w v)
    (eq : I.next? placed = some v) : I.Orderly (v :: placed) := by
  intro u mem w waits path v' head
  cases head
  rw [List.mem_cons, not_or] at waits
  rcases List.mem_cons.1 mem with rfl | mem
  · exact .refl
  · -- The component of `u` is the one that is being placed, and so is that of the anchor of `v`.
    obtain ⟨a, before, adjacent⟩ :=
      isSome_anchor?_iff.1 (isSome_anchor?_of_linked symmetric eq mem waits.2 path)
    obtain ⟨last, head⟩ := Option.isSome_iff_exists.1 (List.isSome_head?.2 (List.ne_nil_of_mem mem))
    have to_last : I.Linked u last := orderly u mem w waits.2 path last head
    have to_last' : I.Linked a last :=
      orderly a before v (next?_not_mem eq) (.single (symmetric v a adjacent)) last head
    exact (to_last.trans (to_last'.symm symmetric)).tail (symmetric v a adjacent)

/-- Each placement is made with the ones before it in view. -/
theorem planFrom_split (eq : I.planFrom steps placed = front ++ next :: back) :
    let before := (front.map Placement.vertex).reverse ++ placed
    I.next? before = some next.vertex ∧ next.anchor = I.anchor? before next.vertex := by
  induction steps generalizing placed front with
  | zero => exact absurd eq.symm (by simp [planFrom])
  | succ steps ih =>
    rw [planFrom] at eq
    cases chosen : I.next? placed with
    | none => simp [chosen] at eq
    | some v =>
      rw [chosen] at eq
      cases front with
      | nil =>
        obtain ⟨rfl, -⟩ := List.cons.inj eq
        exact ⟨chosen, rfl⟩
      | cons first front =>
        obtain ⟨rfl, rest⟩ := List.cons.inj eq
        simpa using ih rest

theorem Orderly.planFrom (orderly : I.Orderly placed)
    (symmetric : ∀ v w, I.Adjacent v w → I.Adjacent w v) (eq : I.planFrom steps placed = front ++ back) :
    I.Orderly ((front.map Placement.vertex).reverse ++ placed) := by
  induction steps generalizing placed front with
  | zero =>
    obtain ⟨rfl, -⟩ := List.append_eq_nil_iff.1 eq.symm
    exact orderly
  | succ steps ih =>
    cases front with
    | nil => exact orderly
    | cons first front =>
      rw [Incidence.planFrom] at eq
      cases chosen : I.next? placed with
      | none => simp [chosen] at eq
      | some v =>
        rw [chosen] at eq
        obtain ⟨rfl, rest⟩ := List.cons.inj eq
        simpa using ih (orderly.place symmetric chosen) rest

/-- The vertices that are placed between two of a component are in it. -/
theorem linked_of_order_eq (symmetric : ∀ v w, I.Adjacent v w → I.Adjacent w v)
    {first middle last : List (Fin n)} (eq : I.order = first ++ u :: middle ++ w :: last)
    (path : I.Linked u w) (mem : x ∈ middle) : I.Linked u x := by
  have nodup : I.order.Nodup := by
    have perm := I.completes_plan.order_perm List.nodup_nil
    rw [List.append_nil] at perm
    exact perm.nodup_iff.2 (List.nodup_finRange n)
  obtain ⟨middle, after, rfl⟩ := List.append_of_mem mem
  have until_x : I.order = (first ++ u :: middle ++ [x]) ++ (after ++ w :: last) := by simp [eq]
  obtain ⟨front, back, split, before, -⟩ := List.map_eq_append_iff.1 until_x
  have orderly := (orderly_nil I).planFrom symmetric split
  rw [before] at orderly
  have waits : ¬ w ∈ first ++ u :: middle ++ [x] := by
    intro placed_too
    rw [until_x] at nodup
    exact List.disjoint_of_nodup_append nodup placed_too (by simp)
  rw [← List.mem_reverse, ← List.append_nil (List.reverse _)] at waits
  exact orderly u (by simp) w waits path x (by simp)

/-! ### Running counts -/

/-- A vertex is placed, and its neighbours gain a link. -/
def raise (I : Incidence n) (v : Fin n) (counts : Vector Nat n) : Vector Nat n :=
  (I.neighbours.get v).foldl (fun counts (w : Fin n) => counts.set w (counts.get w + 1) w.isLt) counts

theorem get_raise (I : Incidence n) (v w : Fin n) (counts : Vector Nat n) :
    (I.raise v counts).get w = counts.get w + (I.neighbours.get v).count w := by
  rw [raise]
  generalize I.neighbours.get v = neighbours
  induction neighbours generalizing counts with
  | nil => rfl
  | cons x neighbours ih =>
    rw [List.foldl_cons, ih, get_set, List.count_cons]
    by_cases eq : w = x
    · subst eq
      simp
      omega
    · rw [if_neg eq, if_neg (by simpa using Ne.symm eq), Nat.add_zero]

theorem Simple.count_comm (simple : I.Simple) (v w : Fin n) :
    (I.neighbours.get v).count w = (I.neighbours.get w).count v := by
  rw [(simple.nodup v).count, (simple.nodup w).count]
  exact if_congr ⟨simple.symmetric v w, simple.symmetric w v⟩ rfl rfl

theorem links_cons (fresh : ¬ v ∈ placed) (w : Fin n) :
    I.links (v :: placed) w = I.links placed w + (I.neighbours.get w).count v := by
  rw [links, links]
  induction I.neighbours.get w with
  | nil => rfl
  | cons x neighbours ih =>
    rw [List.countP_cons, List.countP_cons, List.count_cons, ih]
    by_cases eq : x = v
    · subst eq
      simp [fresh]
      omega
    · simp [eq]
      omega

/-- The next vertex by numbers of links that are given. -/
def nextBy? (I : Incidence n) (counts : Vector Nat n) (placed : List (Fin n)) : Option (Fin n) :=
  let waiting := (List.finRange n).filter (!placed.contains ·)
  (waiting.maxOn? counts.get).bind fun best =>
    (waiting.filter (counts.get · = counts.get best)).maxOn? I.degree

/-- The plan with the numbers of links kept up as it goes. -/
def countingFrom (I : Incidence n) :
    (steps : Nat) → (placed : List (Fin n)) → (counts : Vector Nat n) → List (Placement n)
  | 0, _, _ => []
  | steps + 1, placed, counts =>
    match I.nextBy? counts placed with
    | none => []
    | some v => ⟨v, I.anchor? placed v⟩ :: I.countingFrom steps (v :: placed) (I.raise v counts)

def countingPlan (I : Incidence n) : List (Placement n) := I.countingFrom n [] (.replicate n 0)

theorem nextBy?_eq (exact : counts.get = I.links placed) : I.nextBy? counts placed = I.next? placed := by
  have waiting : (List.finRange n).filter (!placed.contains ·) = (List.finRange n).filter (· ∉ placed) :=
    List.filter_congr fun v _ => by simp
  rw [nextBy?, waiting, exact]
  rfl

theorem countingFrom_eq (simple : I.Simple) (exact : counts.get = I.links placed) :
    I.countingFrom steps placed counts = I.planFrom steps placed := by
  induction steps generalizing placed counts with
  | zero => rfl
  | succ steps ih =>
    rw [countingFrom, planFrom, nextBy?_eq exact]
    cases chosen : I.next? placed with
    | none => rfl
    | some v =>
      have raised : (I.raise v counts).get = I.links (v :: placed) := by
        funext w
        rw [get_raise, exact, links_cons (next?_not_mem chosen), simple.count_comm]
      simp only [ih raised]

theorem countingPlan_eq (simple : I.Simple) : I.countingPlan = I.plan := by
  apply countingFrom_eq simple
  funext w
  have zero : (Vector.replicate n 0).get w = 0 := Vector.getElem_replicate w.isLt
  rw [zero, eq_comm, ← Nat.le_zero, ← Nat.not_lt, links_pos_iff]
  simp

/-! ### The plan -/

/-- Every vertex is placed once. It has an anchor, a neighbour that was placed before, just if there is
one, and that is so unless it is the first vertex of its component. Each component is finished before the
next begins. Running counts of the links give the same plan. -/
theorem plan_by_components (I : Incidence n) (simple : I.Simple) :
    I.order ~ List.finRange n ∧
    (∀ front next back, I.plan = front ++ next :: back →
      let before := front.map Placement.vertex
      (next.anchor.isSome ↔ ∃ w ∈ before, I.Adjacent next.vertex w) ∧
      (∀ w, next.anchor = some w → w ∈ before ∧ I.Adjacent next.vertex w) ∧
      (next.anchor.isSome ↔ ∃ w ∈ before, I.Linked w next.vertex)) ∧
    (∀ first u middle w last, I.order = first ++ u :: middle ++ w :: last → I.Linked u w →
      ∀ x ∈ middle, I.Linked u x) ∧
    I.countingPlan = I.plan := by
  have perm := I.completes_plan.order_perm List.nodup_nil
  rw [List.append_nil] at perm
  refine ⟨perm, ?anchors, ?components, countingPlan_eq simple⟩
  case anchors =>
    intro front next back eq before
    obtain ⟨chosen, anchor⟩ := planFrom_split eq
    rw [List.append_nil] at chosen anchor
    have waits := next?_not_mem chosen
    have neighbour : next.anchor.isSome ↔ ∃ w ∈ before, I.Adjacent next.vertex w := by
      rw [anchor, isSome_anchor?_iff]
      simp only [List.mem_reverse, before]
    refine ⟨neighbour, fun w eq => ?_, fun anchored => ?_, ?_⟩
    · rw [anchor] at eq
      have mem := List.find?_some eq
      exact ⟨List.mem_reverse.1 (of_decide_eq_true mem), adjacent_of_anchor? eq⟩
    · obtain ⟨w, mem, adjacent⟩ := neighbour.1 anchored
      exact ⟨w, mem, .single (simple.symmetric _ _ adjacent)⟩
    · rintro ⟨w, mem, path⟩
      rw [anchor]
      exact isSome_anchor?_of_linked simple.symmetric chosen (List.mem_reverse.2 mem) waits path
  case components =>
    intro first u middle w last eq path x mem
    exact linked_of_order_eq simple.symmetric eq path mem

/-- Of two chains, one is placed from its middle on, and then the other. -/
theorem plan_by_components_chains :
    let I := (Operation.build (Hypergraph.chain ["a", "b", "c"] ++ Hypergraph.chain ["x", "y"])).incidence
    I.Simple ∧ I.order.map I.label.get = ["b", "E_a_b", "E_b_c", "a", "c", "E_x_y", "x", "y"] ∧
      I.plan.map (·.anchor.map I.label.get) =
        [none, some "b", some "b", some "E_a_b", some "E_b_c", none, some "E_x_y", some "E_x_y"] ∧
      I.order ~ List.finRange _ ∧ I.countingPlan = I.plan := by
  intro I
  have simple : I.Simple := (Hypergraph.Reachable.build _).coherent.simple
  obtain ⟨perm, -, -, counting⟩ := plan_by_components I simple
  exact ⟨simple, by decide +kernel, by decide +kernel, perm, counting⟩

end Incidence

end Hypermesh
