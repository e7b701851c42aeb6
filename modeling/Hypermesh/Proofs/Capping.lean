import Hypermesh.Proofs.Locality
import Hypermesh.Proofs.Transcript
import Mathlib

/-!
Runs with a cap. The cap has no part in the choice of a match, so that up to the cap a run takes the rounds
of the run without one. There it stops before it looks for another match, even if none is left. Where the
application index does not matter, a further run goes on from there to the same end.
-/

namespace Hypermesh

namespace Production

open Hypermesh.Hypergraph

variable {P : Production} {s t : Settings} {left g host : Hypergraph} {cap index rounds : Nat}

/-! ### Rounds and applications -/

/-- A run that makes `n` applications has come to its host after `n` rounds, each of which made one. It
takes another round only to find that it is over. -/
theorem runFrom_count (P : Production) (s : Settings) (left : Hypergraph) (rounds index : Nat)
    (g : Hypergraph) :
    ∃ n, (P.runFrom s left rounds index g).applications = index + n ∧
      (P.runFrom s left n index g).applications = index + n ∧
      (P.runFrom s left n index g).halt = none ∧
      (P.runFrom s left n index g).host = (P.runFrom s left rounds index g).host ∧
      ((P.runFrom s left rounds index g).halt = none → n = rounds) ∧
      ((P.runFrom s left rounds index g).halt.isSome → n < rounds) := by
  induction rounds generalizing index g with
  | zero => exact ⟨0, rfl, rfl, rfl, rfl, fun _ => rfl, nofun⟩
  | succ rounds ih =>
    rcases P.runFrom_cases s left index g with ⟨halt, trace, -, eq⟩ | ⟨host, below, eq⟩
    · rw [eq]
      exact ⟨0, rfl, rfl, rfl, rfl, nofun, fun _ => Nat.succ_pos rounds⟩
    · obtain ⟨n, count, count', going, last, all, fewer⟩ := ih (index + 1) host
      rw [Nat.add_right_comm, Nat.add_assoc] at count count'
      refine ⟨n + 1, ?_⟩
      rw [runFrom_applied below eq, runFrom_applied below eq]
      exact ⟨count, count', going, last, fun none => congrArg Nat.succ (all none),
        fun some => Nat.succ_lt_succ (fewer some)⟩

/-- The number of applications of a run, which may go on forever. -/
noncomputable def total (P : Production) (s : Settings) (host : Hypergraph) : ℕ∞ :=
  ⨆ rounds, ((P.run s rounds host).applications : ℕ∞)

theorem le_total (rounds : Nat) : (P.run s rounds host).applications ≤ P.total s host :=
  le_iSup (fun rounds => ((P.run s rounds host).applications : ℕ∞)) rounds

/-- As long as a run is going, each of its rounds makes an application. -/
theorem applications_of_going (going : (P.run s rounds host).halt = none) :
    (P.run s rounds host).applications = rounds := by
  obtain ⟨n, count, -, -, -, all, -⟩ := P.runFrom_count s P.leftSide rounds 0 host
  rw [Nat.zero_add, all going] at count
  exact count

theorem le_total_of_going (going : (P.run s rounds host).halt = none) : rounds ≤ P.total s host := by
  have le : ((P.run s rounds host).applications : ℕ∞) ≤ P.total s host := le_total rounds
  rwa [applications_of_going going] at le

/-- A run that is going goes on from its last host. -/
theorem run_add (going : (P.run s rounds host).halt = none) (more : Nat) :
    let first := P.run s rounds host
    let rest := P.runFrom s P.leftSide more first.applications first.host
    let r := P.run s (rounds + more) host
    r.host = rest.host ∧ r.applications = rest.applications ∧ r.halt = rest.halt := by
  have eq : P.runFrom s P.leftSide (rounds + more) 0 host = _ := runFrom_add going more
  exact ⟨(congrArg Run.host eq :), (congrArg Run.applications eq :), (congrArg Run.halt eq :)⟩

/-- What a run that has halted has applied is all that it ever applies. -/
theorem total_of_halted (halted : (P.run s rounds host).halt.isSome) :
    P.total s host = (P.run s rounds host).applications := by
  obtain ⟨halt, ended⟩ := Option.isSome_iff_exists.1 halted
  apply le_antisymm _ (le_total rounds)
  apply iSup_le
  intro other
  rw [Nat.cast_le]
  rcases Nat.le_total rounds other with le | le
  · obtain ⟨more, rfl⟩ := Nat.exists_eq_add_of_le le
    rw [run_stable ended]
  · obtain ⟨more, rfl⟩ := Nat.exists_eq_add_of_le le
    cases state : (P.run s other host).halt with
    | some halt' => rw [run_stable state]
    | none =>
      obtain ⟨-, whole, -⟩ := run_add state more
      obtain ⟨n, count, -⟩ := P.runFrom_count s P.leftSide more (P.run s other host).applications
        (P.run s other host).host
      rw [whole, count]
      exact Nat.le_add_right _ n

/-! ### Below the cap -/

theorem choose_congr_settings (same : s.consultAcceptance = t.consultAcceptance) (candidate : Nat)
    (ms : List Embedding) : P.choose s left g candidate ms = P.choose t left g candidate ms := by
  induction ms generalizing candidate with
  | nil => rfl
  | cons m ms ih => rw [choose, choose, same, ih]

theorem round_congr_settings (same : s.consultAcceptance = t.consultAcceptance) :
    P.round s left g index = P.round t left g index := by
  rw [round, round, choose_congr_settings same]

theorem runFrom_below_cap (capped : s.maxApplications = some cap) (free : t.maxApplications = none)
    (same : s.consultAcceptance = t.consultAcceptance) (room : index + rounds ≤ cap) :
    P.runFrom s left rounds index g = P.runFrom t left rounds index g := by
  induction rounds generalizing index g with
  | zero => rfl
  | succ rounds ih =>
    have below : s.capReached? index = none := by
      rw [Option.eq_none_iff_forall_ne_some]
      intro cap' reached
      obtain ⟨eq, le⟩ := capReached?_eq_some_iff.1 reached
      rw [capped] at eq
      cases eq
      omega
    have below' := capReached?_of_uncapped free index
    have round : P.round s left g index = P.round t left g index := round_congr_settings same
    cases next : (P.round t left g index).1 with
    | halted halt => rw [runFrom_halted below (round ▸ next), runFrom_halted below' next, round]
    | applied host =>
      rw [runFrom_applied below (round ▸ next), runFrom_applied below' next, round, ih (by omega)]

/-- A run with a cap that has looked at its last match has applied all there is to apply, or as much as
the cap allows. -/
theorem run_at_cap (capped : s.maxApplications = some cap) (free : t.maxApplications = none)
    (same : s.consultAcceptance = t.consultAcceptance) (left : P.leftSide.Coherent) (c : host.Coherent)
    (enough : cap < rounds) :
    let r := P.run s rounds host
    r.host = (P.run t cap host).host ∧ r.applications = (P.run t cap host).applications ∧
      (r.halt = some .limit ∧ r.applications = cap ∧ cap ≤ P.total t host ∨
        r.halt = some .exhausted ∧ r.applications < cap ∧ P.total t host = r.applications) := by
  intro r
  obtain ⟨more, rfl⟩ : ∃ more, rounds = cap + (more + 1) := ⟨rounds - cap - 1, by omega⟩
  have eq : P.runFrom s P.leftSide cap 0 host = P.runFrom t P.leftSide cap 0 host :=
    runFrom_below_cap capped free same (Nat.zero_add cap).le
  have hosts : (P.run s cap host).host = (P.run t cap host).host := (congrArg Run.host eq :)
  have counts : (P.run s cap host).applications = (P.run t cap host).applications :=
    (congrArg Run.applications eq :)
  have halts : (P.run s cap host).halt = (P.run t cap host).halt := (congrArg Run.halt eq :)
  cases state : (P.run t cap host).halt with
  | none =>
    have count : (P.run s cap host).applications = cap := applications_of_going (halts.trans state)
    obtain ⟨host', count', halt'⟩ := run_add (halts.trans state) (more + 1)
    rw [runFrom_limit (capReached?_eq_some_iff.2 ⟨capped, count.ge⟩)] at host' count' halt'
    exact ⟨host'.trans hosts, count'.trans counts,
      Or.inl ⟨halt', count'.trans count, le_total_of_going state⟩⟩
  | some halt =>
    have halted : (P.run t cap host).halt.isSome := by rw [state]; rfl
    have exhausted : (P.run t cap host).halt = some .exhausted := exhausted_of_halted free left c halted
    have whole : r = P.run s cap host := run_stable (halts.trans exhausted) (more + 1)
    obtain ⟨n, count, -, -, -, -, fewer⟩ := P.runFrom_count t P.leftSide cap 0 host
    rw [whole, hosts, counts, halts]
    refine ⟨rfl, rfl, Or.inr ⟨exhausted, ?_, total_of_halted halted⟩⟩
    have count : (P.run t cap host).applications = n := count.trans (Nat.zero_add n)
    rw [count]
    exact fewer halted

/-- Where the index does not matter, the steps that a run has not yet taken are those from its host. -/
theorem Ends.rest {n : Nat} {f : Hypergraph} (free : s.maxApplications = none) (blind : P.IndexBlind)
    (ends : P.Ends s g n f) (going : (P.runFrom s P.leftSide rounds index g).halt = none) :
    ∃ rest, P.Ends s (P.runFrom s P.leftSide rounds index g).host rest f ∧ rounds + rest = n := by
  induction ends generalizing rounds index with
  | @rests g rests =>
    cases rounds with
    | zero => exact ⟨0, .rests rests, rfl⟩
    | succ rounds =>
      obtain ⟨trace, eq⟩ := runFrom_rests free rests rounds index
      rw [eq] at going
      cases going
  | @applies g h f n applies ends ih =>
    cases rounds with
    | zero => exact ⟨n + 1, .applies applies ends, Nat.zero_add (n + 1)⟩
    | succ rounds =>
      obtain ⟨trace, eq⟩ := runFrom_applies free blind applies rounds index
      rw [eq] at going ⊢
      obtain ⟨rest, ends', count⟩ := ih going
      exact ⟨rest, ends', by rw [← count, Nat.add_right_comm]⟩

/-- A run with a cap makes the applications of the run without one, in the same order, but no more than the
cap, and halts with the limit just if it gets to the cap, even where nothing is left to apply. Where the
index does not matter and the run without a cap ends, it ends in the same way after a run with a cap. -/
theorem run_capped (P : Production) (asks : Bool) (cap : Nat) (host : Hypergraph)
    (left : P.leftSide.Reachable) (reachable : host.Reachable) :
    let free : Settings := { consultAcceptance := asks }
    let capped : Settings := { maxApplications := some cap, consultAcceptance := asks }
    let n := P.total free host
    ∀ rounds, cap < rounds →
      let r := P.run capped rounds host
      let u := P.run free r.applications host
      (r.applications : ℕ∞) = min (cap : ℕ∞) n ∧ u.applications = r.applications ∧ r.host = u.host ∧
        (r.halt = some .limit ↔ cap ≤ n) ∧ (r.halt = some .exhausted ↔ n < cap) ∧
        (P.IndexBlind → ∀ m : Nat, n = m → ∃ final rest,
          P.Exhausts free host m final ∧ P.Exhausts free r.host rest final ∧
            r.applications + rest = m) := by
  intro free capped n rounds enough r u
  have c := reachable.coherent
  obtain ⟨hosts, counts, outcome⟩ : r.host = (P.run free cap host).host ∧
      r.applications = (P.run free cap host).applications ∧
      (r.halt = some .limit ∧ r.applications = cap ∧ cap ≤ n ∨
        r.halt = some .exhausted ∧ r.applications < cap ∧ n = r.applications) :=
    run_at_cap rfl rfl rfl left.coherent c enough
  obtain ⟨m, count, count', going, last, -⟩ := P.runFrom_count free P.leftSide cap 0 host
  have made : r.applications = m := counts.trans (count.trans (Nat.zero_add m))
  have upTo : u = P.run free m host := by rw [← made]
  have host' : r.host = u.host := by
    rw [upTo, hosts]
    exact last.symm
  refine ⟨?count, ?applications, host', ?limit, ?exhausted, ?again⟩
  case applications =>
    rw [upTo, made]
    exact count'.trans (Nat.zero_add m)
  case count =>
    rcases outcome with ⟨-, reached, le⟩ | ⟨-, below, all⟩
    · rw [reached, min_eq_left le]
    · rw [min_eq_right, all]
      rw [all, Nat.cast_le]
      exact below.le
  case limit =>
    rcases outcome with ⟨halt, -, le⟩ | ⟨halt, below, all⟩
    · exact iff_of_true halt le
    · refine iff_of_false (by rw [halt]; nofun) ?_
      rw [all, Nat.cast_le]
      exact Nat.not_le_of_lt below
  case exhausted =>
    rcases outcome with ⟨halt, -, le⟩ | ⟨halt, below, all⟩
    · exact iff_of_false (by rw [halt]; nofun) (not_lt_of_ge le)
    · refine iff_of_true halt ?_
      rw [all, Nat.cast_lt]
      exact below
  case again =>
    intro blind most finite
    have halted : (P.run free (most + 1) host).halt.isSome := by
      by_contra none
      have more : (most + 1 : Nat) ≤ n := le_total_of_going (Option.not_isSome_iff_eq_none.1 none)
      rw [finite, Nat.cast_le] at more
      exact Nat.not_succ_le_self most more
    have all : (P.run free (most + 1) host).applications = most := by
      have eq := (total_of_halted halted).symm.trans finite
      exact Nat.cast_inj.1 eq
    obtain ⟨k, total, ends⟩ := ends_of_runFrom left.coherent rfl blind c 0 halted
    obtain rfl : k = most := (Nat.zero_add k).symm.trans (total.symm.trans all)
    obtain ⟨rest, ends', sum⟩ := Ends.rest rfl blind ends going
    refine ⟨_, rest, ends.exhausts rfl blind, ?_, made ▸ sum⟩
    rw [host', upTo]
    exact ends'.exhausts rfl blind

/-- Two sides can be marked. With the cap at two the run does not look for a third one. -/
theorem run_capped_chain :
    let host := Operation.build (chain ["b", "d", "f"])
    let r (cap : Nat) := polish.run { maxApplications := some cap } (cap + 1) host
    polish.total {} host = 2 ∧ (r 2).applications = 2 ∧ (r 2).halt = some .limit ∧
      (r 3).applications = 2 ∧ (r 3).halt = some .exhausted ∧
      ∃ final, polish.Exhausts {} host 2 final ∧ polish.Exhausts {} (r 1).host 1 final := by
  intro host r
  have count : (polish.run {} 3 host).applications = 2 := by decide +kernel
  have total : polish.total {} host = 2 := by
    have halted : (polish.run {} 3 host).halt.isSome := by decide +kernel
    rw [total_of_halted halted, count]
    rfl
  have outcome (cap : Nat) := run_capped polish true cap host (Reachable.build _) (Reachable.build _)
    (cap + 1) cap.lt_succ_self
  have limit : (r 2).halt = some .limit := (outcome 2).2.2.2.1.2 (by rw [total]; rfl)
  have exhausted : (r 3).halt = some .exhausted := (outcome 3).2.2.2.2.1.2 (by rw [total]; decide)
  have made {cap : Nat} (le : 2 ≤ cap) : (r cap).applications = 2 := by
    have eq := (outcome cap).1
    rw [total, min_eq_right (by exact_mod_cast le)] at eq
    exact_mod_cast eq
  obtain ⟨final, rest, whole, later, sum⟩ := (outcome 1).2.2.2.2.2 (fun _ _ _ => rfl) 2 total
  have first : (r 1).applications = 1 := by decide +kernel
  obtain rfl : rest = 1 := by
    have sum : (r 1).applications + rest = 2 := sum
    omega
  exact ⟨total, made le_rfl, limit, made (by omega), exhausted, final, whole, later⟩

end Production

end Hypermesh
