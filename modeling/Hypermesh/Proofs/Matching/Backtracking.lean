import Hypermesh.Proofs.Matching.Embedding

/-!
What holds at every level of the search. The first vertices of the plan are placed there, and the next one
may go to a host vertex just if that keeps what is placed one to one and induced. The search below the level
leaves the assignment as it met it.
-/

namespace Hypermesh

variable {m n depth : Nat}

namespace Search

variable {pattern : Incidence m} {host : Incidence n} {a : Assignment m n} {s : Search m n}
  {next : Placement m} {p : Fin m} {h : Fin n}

/-- The first `depth` vertices of the plan are placed and no others are. Images and sources say the same,
and placed vertices are linked just if their images are. -/
structure Level (pattern : Incidence m) (host : Incidence n) (depth : Nat) (a : Assignment m n) :
    Prop where
  paired : a.Paired
  covers : Covers a ((pattern.plan.take depth).map Placement.vertex)
  induced : Induced pattern host a

/-- What must be so for `p` to go to `h`, in terms of the images alone. -/
structure Admits (pattern : Incidence m) (host : Incidence n) (a : Assignment m n) (p : Fin m)
    (h : Fin n) : Prop where
  unused : ∀ q, a.image.get q ≠ some h
  kind : pattern.kind.get p = host.kind.get h
  degree : pattern.degree p ≤ host.degree h
  linked : ∀ q k, a.image.get q = some k → (pattern.Adjacent p q ↔ host.Adjacent h k)

theorem feasible_iff_admits (distinct : pattern.Distinct) (distinct' : host.Distinct) (paired : a.Paired) :
    feasible pattern host a p h ↔ Admits pattern host a p h := by
  rw [feasible_iff distinct distinct' paired, paired.source_eq_none_iff]
  constructor
  · rintro ⟨unused, kind, degree, linked⟩
    exact ⟨unused, kind, degree, linked⟩
  · rintro ⟨unused, kind, degree, linked⟩
    exact ⟨unused, kind, degree, linked⟩

/-! ### From one level to the next -/

theorem level_empty : Level pattern host 0 .empty where
  paired := Assignment.paired_empty
  covers := covers_empty
  induced := induced_empty

/-- No vertex is planned twice, so that none of those to come is placed yet. -/
theorem Level.unplaced (level : Level pattern host depth a) (mem : next ∈ pattern.plan.drop depth) :
    a.image.get next.vertex = none := by
  apply level.covers.unplaced
  intro placed
  have nodup := pattern.completes_plan.nodup
  rw [← List.take_append_drop depth pattern.plan, List.map_append] at nodup
  exact List.disjoint_of_nodup_append nodup placed (List.mem_map_of_mem mem)

theorem Level.place (simple : pattern.Simple) (simple' : host.Simple) (level : Level pattern host depth a)
    (planned : pattern.plan[depth]? = some next) (fits : feasible pattern host a next.vertex h) :
    Level pattern host (depth + 1) (a.place next.vertex h) := by
  have admits := (feasible_iff_admits simple.nodup simple'.nodup level.paired).1 fits
  have waits : next ∈ pattern.plan.drop depth := by
    apply List.mem_of_getElem? (i := 0)
    rwa [List.getElem?_drop, Nat.add_zero]
  refine ⟨?paired, ?covers, level.induced.place simple simple' admits.linked⟩
  case paired =>
    exact level.paired.place (level.unplaced waits) (level.paired.source_eq_none_iff.2 admits.unused)
  case covers =>
    intro q
    rw [level.covers.place next.vertex h q, List.take_add_one, planned]
    simp [or_comm]

/-! ### Below a level -/

/-- Each placement is undone after its turn, those further down included. -/
theorem Level.assignment_extend (level : Level pattern host depth s.assignment) :
    (extend pattern host (pattern.plan.drop depth) s).assignment = s.assignment := by
  have nodup : ((pattern.plan.drop depth).map Placement.vertex).Nodup :=
    pattern.completes_plan.nodup.sublist ((List.drop_sublist depth _).map _)
  rw [extend_eq (fun _ mem => level.unplaced mem) nodup]

/-- At every level a placement is feasible just if the host vertex is unused, of the right kind, of no lower
degree and linked to the images as the pattern says. The degree rules out no vertex of an embedding that
goes on from the assignment. The search below the level leaves the assignment as it was. -/
theorem exact_at_level (pattern host : Hypergraph) {s : Search pattern.vertices.size host.vertices.size}
    (level : Level pattern.incidence host.incidence depth s.assignment) :
    (∀ next, pattern.incidence.plan[depth]? = some next →
      (∀ h, feasible pattern.incidence host.incidence s.assignment next.vertex h ↔
        Admits pattern.incidence host.incidence s.assignment next.vertex h) ∧
      ∀ f, pattern.incidence.Embeds host.incidence f → s.assignment.Agrees f →
        pattern.incidence.degree next.vertex ≤ host.incidence.degree (f next.vertex)) ∧
    (extend pattern.incidence host.incidence (pattern.incidence.plan.drop depth) s).assignment =
      s.assignment := by
  have distinct := pattern.distinct_incidence
  refine ⟨fun next _ => ⟨fun h => ?feasible, fun f embeds _ => ?degree⟩, level.assignment_extend⟩
  case feasible => exact feasible_iff_admits distinct host.distinct_incidence level.paired
  case degree => exact degree_le_of_embeds distinct embeds next.vertex

/-- Two hyperedges join the same nodes, and a chain is laid over both. The node that is left is linked to the
image that the end of the chain needs, but to the other one as well, so that the counts rule it out. -/
theorem exact_at_level_parallel :
    let pattern := Operation.build (Hypergraph.chain ["u", "v", "w"])
    let host := Operation.build (Hypergraph.chain ["a", "b"] ++ Hypergraph.chain ["b", "a", "c"])
    let u : Fin pattern.vertices.size := ⟨0, by decide +kernel⟩
    let v : Fin pattern.vertices.size := ⟨1, by decide +kernel⟩
    let uv : Fin pattern.vertices.size := ⟨3, by decide +kernel⟩
    let vw : Fin pattern.vertices.size := ⟨4, by decide +kernel⟩
    let a : Fin host.vertices.size := ⟨0, by decide +kernel⟩
    let b : Fin host.vertices.size := ⟨1, by decide +kernel⟩
    let ab : Fin host.vertices.size := ⟨2, by decide +kernel⟩
    let ba : Fin host.vertices.size := ⟨4, by decide +kernel⟩
    let s : Search pattern.vertices.size host.vertices.size :=
      { assignment := ((Assignment.empty.place v b).place uv ab).place vw ba }
    pattern.incidence.plan[3]? = some ⟨u, some uv⟩ ∧
      Level pattern.incidence host.incidence 3 s.assignment ∧
      (∀ k ∈ images pattern.incidence s.assignment u, host.incidence.Adjacent a k) ∧
      ¬ Admits pattern.incidence host.incidence s.assignment u a ∧
      (extend pattern.incidence host.incidence (pattern.incidence.plan.drop 3) s).assignment =
        s.assignment := by
  intro pattern host u v uv vw a b ab ba s
  have simple : pattern.incidence.Simple := (Hypergraph.Reachable.build _).coherent.simple
  have simple' : host.incidence.Simple := (Hypergraph.Reachable.build _).coherent.simple
  have first : pattern.incidence.plan[0]? = some ⟨v, none⟩ := by decide +kernel
  have second : pattern.incidence.plan[1]? = some ⟨uv, some v⟩ := by decide +kernel
  have third : pattern.incidence.plan[2]? = some ⟨vw, some v⟩ := by decide +kernel
  have fourth : pattern.incidence.plan[3]? = some ⟨u, some uv⟩ := by decide +kernel
  have level : Level pattern.incidence host.incidence 3 s.assignment :=
    ((level_empty.place simple simple' first (by decide +kernel)).place simple simple' second
      (by decide +kernel)).place simple simple' third (by decide +kernel)
  obtain ⟨next, restored⟩ := exact_at_level pattern host level
  have rejected : ¬ feasible pattern.incidence host.incidence s.assignment u a := by decide +kernel
  refine ⟨fourth, level, by decide +kernel, ?_, restored⟩
  rwa [← (next _ fourth).1 a]

end Search

end Hypermesh
