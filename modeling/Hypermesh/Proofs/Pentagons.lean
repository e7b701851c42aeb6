import Hypermesh.Proofs.PentagonMesh
import Hypermesh.Proofs.Stages

/-!
Meshes of any number of pentagons. However they are merged, four runs turn them into marked quads, and
each run takes as many steps as its rule has places to apply.
-/

namespace Hypermesh.Mesh

open Hypermesh.Hypergraph Label Rules

/-- How a host of pentagons is put together. -/
inductive Assembly
  | empty
  | pentagon (stem : String) (origin : Coord × Coord)
  | merge (first second : Assembly)

namespace Assembly

variable {a : Assembly} {s : Settings} {l : Label}

def stems : Assembly → List String
  | empty => []
  | pentagon stem _ => [stem]
  | merge first second => first.stems ++ second.stems

def build : Assembly → Except GraphError Hypergraph
  | empty => .ok ∅
  | pentagon stem origin => polygon stem 5 Outline.pentagon.tag 1 origin
  | merge first second => do
    let g ← first.build
    let other ← second.build
    let (merged, result) := g.merge other
    result
    return merged

/-- Every pentagon has a stem of its own, of letters only. -/
structure Distinct (a : Assembly) : Prop where
  letters : ∀ stem ∈ a.stems, ∀ c ∈ stem.toList, c.isAlpha
  nodup : a.stems.Nodup

/-- The corners of all pentagons. -/
def Corner (a : Assembly) (l : Label) : Prop := ∃ stem ∈ a.stems, IsCorner stem l

theorem Distinct.plain (distinct : a.Distinct) (l : Label) (corner : a.Corner l) : Plain l := by
  obtain ⟨stem, mem, i, index, rfl⟩ := corner
  exact plain_corner (distinct.letters stem mem) index

section Merge

variable {x y : Assembly} (distinct : (merge x y).Distinct)
include distinct

theorem Distinct.first : x.Distinct where
  letters stem mem := distinct.letters stem (List.mem_append_left _ mem)
  nodup := (List.nodup_append.1 distinct.nodup).1

theorem Distinct.second : y.Distinct where
  letters stem mem := distinct.letters stem (List.mem_append_right _ mem)
  nodup := (List.nodup_append.1 distinct.nodup).2.1

theorem Distinct.apart (l : Label) (corner : x.Corner l) : ¬ y.Corner l := by
  obtain ⟨stem, mem, corner⟩ := corner
  rintro ⟨stem', mem', corner'⟩
  exact (List.nodup_append.1 distinct.nodup).2.2 stem mem stem' mem'
    (corner.stem_eq (distinct.first.letters stem mem) (distinct.second.letters stem' mem') corner')

end Merge

/-- The host is made from the corners, and the four runs on it are known. -/
structure Ready (s : Settings) (a : Assembly) (g : Hypergraph) : Prop where
  clean : g.Clean
  lineage : Over a.Corner g
  stages : ∃ f₁ f₂ f₃ f₄, Stages s a.stems.length g f₁ f₂ f₃ f₄

theorem Ready.merge {x y : Assembly} {g other : Hypergraph}
    (distinct : (Assembly.merge x y).Distinct) (ready : Ready s x g) (ready' : Ready s y other) :
    ∃ merged, g.merge other = (merged, .ok ()) ∧ Ready s (Assembly.merge x y) merged := by
  have plain := distinct.first.plain
  have plain' := distinct.second.plain
  have separate : g.Separate other := ready.lineage.separate plain plain' distinct.apart ready'.lineage
  have w := ready.clean.wellFormed
  have w' := ready'.clean.wellFormed
  have c := ready.lineage.tidy.coherent
  have c' := ready'.lineage.tidy.coherent
  obtain ⟨coherent, wellFormed⟩ := wellFormed_overlay w w' c c' separate
  have union := overlay_unionOf w w' c c' separate
  have clean := union.clean separate w w' wellFormed ready.clean ready'.clean
  refine ⟨_, merge_eq_of_separate w' c c' separate, clean, ⟨clean.tidy coherent, ?node⟩, ?stages⟩
  case node =>
    intro l mem
    have left (l : Label) : x.Corner l → (Assembly.merge x y).Corner l := by
      rintro ⟨stem, mem, corner⟩
      exact ⟨stem, List.mem_append_left _ mem, corner⟩
    have right (l : Label) : y.Corner l → (Assembly.merge x y).Corner l := by
      rintro ⟨stem, mem, corner⟩
      exact ⟨stem, List.mem_append_right _ mem, corner⟩
    rcases union.mem_nodes.1 mem with mem | mem
    · exact (ready.lineage.node l mem).mono left
    · exact (ready'.lineage.node l mem).mono right
  case stages =>
    obtain ⟨f₁, f₂, f₃, f₄, stages⟩ := ready.stages
    obtain ⟨f₁', f₂', f₃', f₄', stages'⟩ := ready'.stages
    rw [stems, List.length_append]
    exact Stages.unite plain plain' distinct.apart ⟨union, ready.lineage, ready'.lineage⟩ stages stages'

theorem exists_build (a : Assembly) (distinct : a.Distinct) (s : Settings) :
    ∃ g, a.build = .ok g ∧ Ready s a g := by
  induction a with
  | empty =>
    have clean : (∅ : Hypergraph).Clean :=
      ⟨WellFormed.empty, fun l mem => absurd mem (Table.not_mem_empty l), by nofun, by nofun, by nofun⟩
    exact ⟨∅, rfl, clean, ⟨clean.tidy Coherent.empty, fun l mem => absurd mem (Table.not_mem_empty l)⟩,
      ∅, ∅, ∅, ∅, stages_empty s⟩
  | pentagon stem origin =>
    have letters := distinct.letters stem List.mem_cons_self
    have lineage := over_pentagonMesh letters origin
    refine ⟨_, polygon_eq stem origin, clean_pentagonMesh letters origin,
      ⟨lineage.tidy, fun l mem => ?node⟩, ?stages⟩
    case node => exact (lineage.node l mem).mono fun l corner => ⟨stem, List.mem_cons_self, corner⟩
    case stages => exact exists_stages (enclosed_pentagonMesh letters origin) rfl (by simp [corners]) s
  | merge first second ih ih' =>
    obtain ⟨g, built, ready⟩ := ih distinct.first
    obtain ⟨other, built', ready'⟩ := ih' distinct.second
    obtain ⟨merged, eq, ready⟩ := ready.merge distinct ready'
    refine ⟨merged, ?_, ready⟩
    rw [build, built, built']
    simp only [bind, Except.bind, eq]
    rfl

/-- The four runs on `n` pentagons, in any order they are merged in. All pentagons get marked sides, all
sides are split, all pentagons are broken, and all quads are marked; after each run its rule is done. -/
theorem pentagons_refine (a : Assembly) (letters : ∀ stem ∈ a.stems, ∀ c ∈ stem.toList, c.isAlpha)
    (nodup : a.stems.Nodup) (s : Settings) (uncapped : s.maxApplications = none) :
    let n := a.stems.length
    ∃ host f₁ f₂ f₃ f₄, a.build = .ok host ∧
      (markPentagonSides.Exhausts s host n f₁ ∧ markPentagonSides.Exhausts s f₁ 0 f₁) ∧
      (splitSide.Exhausts s f₁ (5 * n) f₂ ∧ splitSide.Exhausts s f₂ 0 f₂) ∧
      (breakPentagon.Exhausts s f₂ n f₃ ∧ breakPentagon.Exhausts s f₃ 0 f₃) ∧
      (markQuad.Exhausts s f₃ (5 * n) f₄ ∧ markQuad.Exhausts s f₄ 0 f₄) ∧
      Refined n f₃ ∧ Ripe n f₄ := by
  obtain ⟨host, built, -, -, f₁, f₂, f₃, f₄, stages⟩ := exists_build a ⟨letters, nodup⟩ s
  have exhausts {P : Production} {g f : Hypergraph} {n : Nat} (blind : P.IndexBlind) (ends : P.Ends s g n f) :
      P.Exhausts s g n f ∧ P.Exhausts s f 0 f :=
    ⟨ends.exhausts uncapped blind, ends.last.exhausts uncapped blind⟩
  exact ⟨host, f₁, f₂, f₃, f₄, built, exhausts (fun _ _ _ => rfl) stages.first,
    exhausts (fun _ _ _ => rfl) stages.second, exhausts (fun _ _ _ => rfl) stages.third,
    exhausts (fun _ _ _ => rfl) stages.fourth, stages.refined, stages.ripe⟩

/-- Two pentagons make ten quads. -/
theorem two_pentagons_refine :
    let a := Assembly.merge (pentagon "p" (.zero, .zero)) (pentagon "q" (.ofNat 3, .zero))
    (∀ stem ∈ a.stems, ∀ c ∈ stem.toList, c.isAlpha) ∧ a.stems.Nodup ∧
      ∃ host f₁ f₂ f₃ f₄, a.build = .ok host ∧
        (markPentagonSides.Exhausts {} host 2 f₁ ∧ markPentagonSides.Exhausts {} f₁ 0 f₁) ∧
        (splitSide.Exhausts {} f₁ 10 f₂ ∧ splitSide.Exhausts {} f₂ 0 f₂) ∧
        (breakPentagon.Exhausts {} f₂ 2 f₃ ∧ breakPentagon.Exhausts {} f₃ 0 f₃) ∧
        (markQuad.Exhausts {} f₃ 10 f₄ ∧ markQuad.Exhausts {} f₄ 0 f₄) ∧
        Refined 2 f₃ ∧ Ripe 2 f₄ := by
  have letters : ∀ stem ∈ ["p", "q"], ∀ c ∈ stem.toList, c.isAlpha := by
    simp only [← List.all_eq_true]
    decide
  have nodup : ["p", "q"].Nodup := by decide
  exact ⟨letters, nodup, pentagons_refine (.merge (.pentagon "p" _) (.pentagon "q" _)) letters nodup {} rfl⟩

end Assembly

end Hypermesh.Mesh
