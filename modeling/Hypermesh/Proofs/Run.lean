import Hypermesh.Engine

/-!
A run round by round. A round chooses the first candidate that is not refused; it halts or goes on with
another host. A run that has halted stays as it is whatever rounds are allowed, and one that has not goes
on from its last host.
-/

namespace Hypermesh

namespace Production

variable {P : Production} {s : Settings} {left g h host region : Hypergraph} {m : Embedding}
  {ms : List Embedding} {index candidate cap rounds : Nat} {halt : Halt} {trace : Trace}

/-! ### The choice of a candidate -/

/-- The region of a candidate can be taken, and it is accepted if anybody is asked. -/
structure Admits (P : Production) (s : Settings) (left host : Hypergraph) (m : Embedding)
    (region : Hypergraph) : Prop where
  found : left.region host m = .ok region
  accepted : s.consultAcceptance = true → P.accepts region = true

/-- The production is asked about the region of a candidate and does not accept it. -/
def Refuses (P : Production) (s : Settings) (left host : Hypergraph) (m : Embedding) : Prop :=
  s.consultAcceptance = true ∧ ∃ region, left.region host m = .ok region ∧ P.accepts region = false

theorem admits_or_refuses (found : left.region host m = .ok region) :
    P.Admits s left host m region ∨ P.Refuses s left host m := by
  cases asked : s.consultAcceptance with
  | false => exact Or.inl ⟨found, fun asked' => by rw [asked] at asked'; cases asked'⟩
  | true =>
    cases accepted : P.accepts region with
    | true => exact Or.inl ⟨found, fun _ => accepted⟩
    | false => exact Or.inr ⟨asked, region, found, accepted⟩

theorem Refuses.not_admits (refuses : P.Refuses s left host m) : ¬ P.Admits s left host m region := by
  obtain ⟨asked, region', found, refused⟩ := refuses
  rintro ⟨found', accepted⟩
  rw [found] at found'
  cases found'
  rw [accepted asked] at refused
  cases refused

theorem Admits.congr (same : left.region g m = left.region h m) (admits : P.Admits s left g m region) :
    P.Admits s left h m region := ⟨same ▸ admits.found, admits.accepted⟩

theorem Refuses.congr (same : left.region g m = left.region h m) (refuses : P.Refuses s left g m) :
    P.Refuses s left h m := by
  obtain ⟨asked, region, found, refused⟩ := refuses
  exact ⟨asked, region, same ▸ found, refused⟩

theorem choose_of_stale {label : Label} (eq : left.region host m = .error label) :
    (P.choose s left host candidate (m :: ms)).1 = .stale label := by
  rw [choose, eq]

theorem choose_of_admits (admits : P.Admits s left host m region) :
    (P.choose s left host candidate (m :: ms)).1 = .selected m region := by
  rw [choose, admits.found]
  cases asked : s.consultAcceptance with
  | false => rfl
  | true => simp only [admits.accepted asked, if_true]

theorem choose_of_refuses (refuses : P.Refuses s left host m) :
    (P.choose s left host candidate (m :: ms)).1 =
      (P.choose s left host (candidate + 1) ms).1 := by
  obtain ⟨asked, region, found, refused⟩ := refuses
  rw [choose, found]
  simp only [asked, refused, if_true, Bool.false_eq_true, if_false]

theorem choose_eq_none_iff :
    (P.choose s left host candidate ms).1 = .none ↔ ∀ m ∈ ms, P.Refuses s left host m := by
  induction ms generalizing candidate with
  | nil => simp [choose]
  | cons m ms ih =>
    rw [List.forall_mem_cons]
    cases found : left.region host m with
    | error label =>
      rw [choose_of_stale found]
      refine iff_of_false (by nofun) ?_
      rintro ⟨⟨-, region, found', -⟩, -⟩
      rw [found] at found'
      cases found'
    | ok region =>
      rcases admits_or_refuses found with admits | refuses
      · rw [choose_of_admits admits]
        exact iff_of_false (by nofun) fun all => all.1.not_admits admits
      · rw [choose_of_refuses refuses, ih]
        exact (and_iff_right refuses).symm

theorem choose_append {front : List Embedding}
    (refused : ∀ m ∈ front, P.Refuses s left host m) :
    (P.choose s left host candidate (front ++ ms)).1 =
      (P.choose s left host (candidate + front.length) ms).1 := by
  induction front generalizing candidate with
  | nil => rfl
  | cons m front ih =>
    obtain ⟨head, tail⟩ := List.forall_mem_cons.1 refused
    rw [List.cons_append, choose_of_refuses head, ih tail, List.length_cons, Nat.add_assoc,
      Nat.add_comm 1]

/-- The candidate that is selected is the first one that is not refused. -/
theorem choose_eq_selected_iff :
    (P.choose s left host candidate ms).1 = .selected m region ↔
      P.Admits s left host m region ∧
        ∃ front back, ms = front ++ m :: back ∧ ∀ m' ∈ front, P.Refuses s left host m' := by
  constructor
  · intro eq
    induction ms generalizing candidate with
    | nil => cases eq
    | cons m' ms ih =>
      cases found : left.region host m' with
      | error label =>
        rw [choose_of_stale found] at eq
        cases eq
      | ok region' =>
        rcases admits_or_refuses found with admits | refuses
        · rw [choose_of_admits admits] at eq
          cases eq
          exact ⟨admits, [], ms, rfl, by nofun⟩
        · rw [choose_of_refuses refuses] at eq
          obtain ⟨admits, front, back, rfl, refused⟩ := ih eq
          exact ⟨admits, m' :: front, back, rfl, List.forall_mem_cons.2 ⟨refuses, refused⟩⟩
  · rintro ⟨admits, front, back, rfl, refused⟩
    rw [choose_append refused, choose_of_admits admits]

theorem choose_ne_stale (found : ∀ m ∈ ms, ∃ region, left.region host m = .ok region) (label : Label) :
    (P.choose s left host candidate ms).1 ≠ .stale label := by
  induction ms generalizing candidate with
  | nil => nofun
  | cons m ms ih =>
    obtain ⟨⟨region, head⟩, tail⟩ := List.forall_mem_cons.1 found
    rcases admits_or_refuses head with admits | refuses
    · rw [choose_of_admits admits]
      nofun
    · rw [choose_of_refuses refuses]
      exact ih tail

/-- The choice sees the host through the regions of the candidates. -/
theorem choose_congr (same : ∀ m ∈ ms, left.region g m = left.region h m) :
    P.choose s left g candidate ms = P.choose s left h candidate ms := by
  induction ms generalizing candidate with
  | nil => rfl
  | cons m ms ih =>
    rw [choose, choose, same m List.mem_cons_self,
      ih fun m mem => same m (List.mem_cons_of_mem _ mem)]

/-! ### Rounds -/

theorem round_of_none (index : Nat)
    (eq : (P.choose s left host 0 (left.embeddings host)).1 = .none) :
    (P.round s left host index).1 = .halted .exhausted := by
  rw [round]
  cases chosen : P.choose s left host 0 (left.embeddings host) with
  | mk choice trace =>
    rw [chosen] at eq
    cases eq
    rfl

theorem none_of_round (eq : (P.round s left host index).1 = .halted .exhausted) :
    (P.choose s left host 0 (left.embeddings host)).1 = .none := by
  rw [round] at eq
  cases chosen : P.choose s left host 0 (left.embeddings host) with
  | mk choice trace =>
    rw [chosen] at eq
    cases choice with
    | none => rfl
    | stale label => cases eq
    | selected m region => cases eq

theorem round_of_selected (index : Nat)
    (eq : (P.choose s left host 0 (left.embeddings host)).1 = .selected m region) :
    (P.round s left host index).1 =
      .applied (host.replace left m (P.rightSide region index)) := by
  rw [round]
  cases chosen : P.choose s left host 0 (left.embeddings host) with
  | mk choice trace =>
    rw [chosen] at eq
    cases eq
    rfl

theorem selected_of_round {host' : Hypergraph}
    (eq : (P.round s left host index).1 = .applied host') :
    ∃ m region, (P.choose s left host 0 (left.embeddings host)).1 = .selected m region ∧
      host' = host.replace left m (P.rightSide region index) := by
  rw [round] at eq
  cases chosen : P.choose s left host 0 (left.embeddings host) with
  | mk choice trace =>
    rw [chosen] at eq
    cases choice with
    | none => cases eq
    | stale label => cases eq
    | selected m region =>
      cases eq
      exact ⟨m, region, rfl, rfl⟩

/-! ### Runs -/

theorem host_run_zero (P : Production) (s : Settings) (g : Hypergraph) : (P.run s 0 g).host = g := rfl

theorem runFrom_limit (reached : s.capReached? index = some cap) :
    P.runFrom s left (rounds + 1) index g =
      ⟨g, index, some .limit, [.event (.limitReached P.name cap)]⟩ := by
  rw [runFrom, reached]

theorem runFrom_halted (below : s.capReached? index = none)
    (eq : (P.round s left g index).1 = .halted halt) :
    P.runFrom s left (rounds + 1) index g = ⟨g, index, some halt, (P.round s left g index).2⟩ := by
  rw [runFrom, below]
  cases next : P.round s left g index with
  | mk outcome trace =>
    rw [next] at eq
    cases eq
    rfl

theorem runFrom_applied (below : s.capReached? index = none)
    (eq : (P.round s left g index).1 = .applied host) :
    P.runFrom s left (rounds + 1) index g =
      let rest := P.runFrom s left rounds (index + 1) host
      { rest with trace := (P.round s left g index).2 ++ rest.trace } := by
  rw [runFrom, below]
  cases next : P.round s left g index with
  | mk outcome trace =>
    rw [next] at eq
    cases eq
    rfl

/-- The first round of a run ends it at the cap or for want of a candidate, or the run goes on. -/
theorem runFrom_cases (P : Production) (s : Settings) (left : Hypergraph) (index : Nat) (g : Hypergraph) :
    (∃ halt trace, (halt = .limit ∨ (P.round s left g index).1 = .halted halt) ∧
        ∀ rounds, P.runFrom s left (rounds + 1) index g = ⟨g, index, some halt, trace⟩) ∨
      ∃ host, s.capReached? index = none ∧ (P.round s left g index).1 = .applied host := by
  cases reached : s.capReached? index with
  | some cap => exact Or.inl ⟨_, _, Or.inl rfl, fun _ => runFrom_limit reached⟩
  | none =>
    cases eq : (P.round s left g index).1 with
    | halted halt => exact Or.inl ⟨_, _, Or.inr rfl, fun _ => runFrom_halted reached eq⟩
    | applied host => exact Or.inr ⟨host, rfl, rfl⟩

theorem runFrom_add (going : (P.runFrom s left rounds index g).halt = none) (more : Nat) :
    P.runFrom s left (rounds + more) index g =
      let first := P.runFrom s left rounds index g
      let rest := P.runFrom s left more first.applications first.host
      { rest with trace := first.trace ++ rest.trace } := by
  induction rounds generalizing index g with
  | zero =>
    rw [Nat.zero_add]
    rfl
  | succ rounds ih =>
    rcases P.runFrom_cases s left index g with ⟨halt, trace, -, eq⟩ | ⟨host, below, eq⟩
    · rw [eq rounds] at going
      cases going
    · rw [runFrom_applied below eq] at going
      rw [Nat.add_right_comm, runFrom_applied below eq, runFrom_applied below eq, ih going]
      simp only [List.append_assoc]

theorem runFrom_stable (halted : (P.runFrom s left rounds index g).halt = some halt) (more : Nat) :
    P.runFrom s left (rounds + more) index g = P.runFrom s left rounds index g := by
  induction rounds generalizing index g with
  | zero => cases halted
  | succ rounds ih =>
    rw [Nat.add_right_comm]
    rcases P.runFrom_cases s left index g with ⟨halt, trace, -, eq⟩ | ⟨host, below, eq⟩
    · rw [eq, eq]
    · rw [runFrom_applied below eq] at halted
      rw [runFrom_applied below eq, runFrom_applied below eq, ih halted]

/-- What every application lowers by some share bounds their number, and the run ends. -/
theorem runFrom_lowers {I : Hypergraph → Prop} {measure : Hypergraph → Nat} {share : Nat}
    (positive : 0 < share)
    (step : ∀ index g host, I g → (P.round s left g index).1 = .applied host →
      I host ∧ measure host + share ≤ measure g)
    (rounds index : Nat) (hg : I g) :
    let r := P.runFrom s left rounds index g
    I r.host ∧ measure r.host + share * r.applications ≤ measure g + share * index ∧
      (measure g < rounds → r.halt.isSome) := by
  induction rounds generalizing index g with
  | zero => exact ⟨hg, Nat.le_refl _, nofun⟩
  | succ rounds ih =>
    rcases P.runFrom_cases s left index g with ⟨halt, trace, -, eq⟩ | ⟨host, below, eq⟩
    · rw [eq]
      exact ⟨hg, Nat.le_refl _, fun _ => rfl⟩
    · obtain ⟨next, lower⟩ := step index g host hg eq
      rw [runFrom_applied below eq]
      obtain ⟨last, fallen, halted⟩ := ih (index + 1) next
      rw [Nat.mul_succ] at fallen
      exact ⟨last, by simp only; omega, fun enough => halted (by omega)⟩

theorem run_stable (halted : (P.run s rounds g).halt = some halt) (more : Nat) :
    P.run s (rounds + more) g = P.run s rounds g := by
  rw [run, runFrom_stable halted, run]

/-- After it has halted, a run shows no host that it has not shown before. -/
theorem run_host_of_halted (halted : (P.run s rounds g).halt = some halt) (more : Nat) :
    ∃ r ≤ rounds, (P.run s more g).host = (P.run s r g).host := by
  rcases Nat.le_total more rounds with le | le
  · exact ⟨more, le, rfl⟩
  · obtain ⟨rest, rfl⟩ := Nat.exists_eq_add_of_le le
    exact ⟨rounds, Nat.le_refl rounds, by rw [run_stable halted]⟩

/-- A run that is exhausted leaves a host in which every candidate is refused. -/
theorem none_of_exhausted (eq : (P.runFrom s left rounds index g).halt = some .exhausted) :
    let final := (P.runFrom s left rounds index g).host
    (P.choose s left final 0 (left.embeddings final)).1 = .none := by
  induction rounds generalizing index g with
  | zero => cases eq
  | succ rounds ih =>
    rcases P.runFrom_cases s left index g with ⟨halt, trace, reason, run⟩ | ⟨host, below, next⟩
    · rw [run] at eq ⊢
      cases eq
      rcases reason with reason | reason
      · cases reason
      · exact none_of_round reason
    · rw [runFrom_applied below next] at eq ⊢
      exact ih eq

end Production

end Hypermesh
