import Hypermesh.Table
import Mathlib.Data.List.Basic

/-!
What each operation does to the keys of a table, in order, and to what is found under a key. Two tables
with the same keys in the same order and the same findings are equal.
-/

universe u v

namespace Hypermesh

namespace Table

variable {β : Type u}

theorem lookup_cons_eq (key other : Label) (value : β) (entries : List (Label × β)) :
    ((key, value) :: entries).lookup other =
      if other = key then some value else entries.lookup other := by
  by_cases h : other = key
  · simp [h]
  · have : (other == key) = false := by simpa using h
    simp [List.lookup_cons, this, h]

theorem find?_eq_some_iff {t : Table β} {key : Label} {value : β} :
    t.find? key = some value ↔ (key, value) ∈ t.entries := by
  obtain ⟨entries, nodup⟩ := t
  change entries.lookup key = some value ↔ (key, value) ∈ entries
  induction entries with
  | nil => simp
  | cons entry entries ih =>
    obtain ⟨k, v⟩ := entry
    obtain ⟨hk, hn⟩ := List.nodup_cons.1 nodup
    by_cases h : key = k
    · subst h
      have : ¬ (key, value) ∈ entries := fun hm => hk (List.mem_map.2 ⟨_, hm, rfl⟩)
      simp [this, eq_comm]
    · have : (key == k) = false := by simpa using h
      simp [List.lookup_cons, this, ih hn, h]

theorem mem_iff {t : Table β} {key : Label} : key ∈ t ↔ ∃ value, t.find? key = some value := by
  simp only [find?_eq_some_iff, mem_def, keys, List.mem_map, Prod.exists]
  constructor
  · rintro ⟨k, v, hm, rfl⟩
    exact ⟨v, hm⟩
  · rintro ⟨v, hm⟩
    exact ⟨key, v, hm, rfl⟩

theorem find?_eq_none_iff {t : Table β} {key : Label} : t.find? key = none ↔ ¬ key ∈ t := by
  rw [mem_iff]
  cases t.find? key <;> simp

theorem isSome_find? {t : Table β} {key : Label} : (t.find? key).isSome ↔ key ∈ t := by
  rw [mem_iff, Option.isSome_iff_exists]

theorem mem_values {t : Table β} {value : β} :
    value ∈ t.values ↔ ∃ key, t.find? key = some value := by
  simp only [find?_eq_some_iff, values, List.mem_map, Prod.exists]
  constructor
  · rintro ⟨k, v, hm, rfl⟩
    exact ⟨k, hm⟩
  · rintro ⟨k, hm⟩
    exact ⟨k, value, hm, rfl⟩

/-! ### Writing -/

theorem mem_ite_append {labels : List Label} {key other : Label} :
    other ∈ (if key ∈ labels then labels else labels ++ [key]) ↔ other = key ∨ other ∈ labels := by
  split
  · next h =>
    constructor
    · exact Or.inr
    · rintro (rfl | h')
      · exact h
      · exact h'
  · simp [or_comm]

theorem keys_insert (t : Table β) (key : Label) (value : β) :
    (t.insert key value).keys = if key ∈ t then t.keys else t.keys ++ [key] :=
  map_fst_put key value t.entries

@[simp] theorem mem_insert {t : Table β} {key other : Label} {value : β} :
    other ∈ t.insert key value ↔ other = key ∨ other ∈ t := by
  rw [mem_def, keys_insert]
  exact mem_ite_append

theorem lookup_put (key other : Label) (value : β) (entries : List (Label × β)) :
    (put key value entries).lookup other =
      if other = key then some value else entries.lookup other := by
  induction entries with
  | nil => rw [put, lookup_cons_eq]
  | cons entry entries ih =>
    obtain ⟨k, v⟩ := entry
    by_cases h : k = key
    · subst h
      simp only [put, if_true, lookup_cons_eq]
      split <;> rfl
    · simp only [put, h, if_false, lookup_cons_eq, ih]
      by_cases ho : other = k
      · simp [ho, h]
      · simp [ho]

theorem find?_insert (t : Table β) (key other : Label) (value : β) :
    (t.insert key value).find? other = if other = key then some value else t.find? other :=
  lookup_put key other value t.entries

@[simp] theorem find?_insert_self (t : Table β) (key : Label) (value : β) :
    (t.insert key value).find? key = some value := by simp [find?_insert]

/-! ### Erasing -/

theorem keys_erase (t : Table β) (key : Label) :
    (t.erase key).keys = t.keys.filter (· ≠ key) := by
  simp [keys, erase, List.filter_map, Function.comp_def]

@[simp] theorem mem_erase {t : Table β} {key other : Label} :
    other ∈ t.erase key ↔ other ≠ key ∧ other ∈ t := by
  simp [mem_def, keys_erase, and_comm]

theorem lookup_filter_ne (key other : Label) (entries : List (Label × β)) :
    (entries.filter (fun entry => entry.1 ≠ key)).lookup other =
      if other = key then none else entries.lookup other := by
  induction entries with
  | nil => simp
  | cons entry entries ih =>
    obtain ⟨k, v⟩ := entry
    by_cases h : k = key
    · rw [List.filter_cons_of_neg (by simp [h]), ih, lookup_cons_eq]
      split
      · rfl
      · next ho => rw [if_neg (fun e => ho (e.trans h))]
    · rw [List.filter_cons_of_pos (by simp [h]), lookup_cons_eq, lookup_cons_eq, ih]
      by_cases ho : other = k
      · simp [ho, h]
      · simp [ho]

theorem find?_erase (t : Table β) (key other : Label) :
    (t.erase key).find? other = if other = key then none else t.find? other :=
  lookup_filter_ne key other t.entries

@[simp] theorem erase_of_not_mem {t : Table β} {key : Label} (h : ¬ key ∈ t) :
    t.erase key = t := by
  ext1
  refine List.filter_eq_self.2 fun entry he => ?_
  simp only [ne_eq, decide_eq_true_eq]
  rintro rfl
  exact h (List.mem_map.2 ⟨entry, he, rfl⟩)

/-! ### Changing a value -/

@[simp] theorem keys_modify (t : Table β) (key : Label) (f : β → β) :
    (t.modify key f).keys = t.keys := by
  simp only [keys, modify, List.map_map]
  refine List.map_congr_left fun entry _ => ?_
  simp only [Function.comp]
  split <;> rfl

@[simp] theorem mem_modify {t : Table β} {key other : Label} {f : β → β} :
    other ∈ t.modify key f ↔ other ∈ t := by rw [mem_def, keys_modify, mem_def]

theorem lookup_map_ite (key other : Label) (f : β → β) (entries : List (Label × β)) :
    (entries.map fun entry => if entry.1 = key then (entry.1, f entry.2) else entry).lookup other =
      if other = key then (entries.lookup other).map f else entries.lookup other := by
  induction entries with
  | nil => simp
  | cons entry entries ih =>
    obtain ⟨k, v⟩ := entry
    by_cases h : k = key
    · simp only [List.map_cons, h, if_true, lookup_cons_eq, ih]
      split <;> rfl
    · simp only [List.map_cons, h, if_false, lookup_cons_eq, ih]
      by_cases ho : other = k
      · simp [ho, h]
      · simp [ho]

theorem find?_modify (t : Table β) (key other : Label) (f : β → β) :
    (t.modify key f).find? other = if other = key then (t.find? other).map f
      else t.find? other :=
  lookup_map_ite key other f t.entries

/-! ### Whole tables -/

theorem eq_of_lookup_eq {entries entries' : List (Label × β)}
    (nodup : (entries.map Prod.fst).Nodup)
    (keys : entries.map Prod.fst = entries'.map Prod.fst)
    (lookup : ∀ key ∈ entries.map Prod.fst, entries.lookup key = entries'.lookup key) :
    entries = entries' := by
  induction entries generalizing entries' with
  | nil => exact (List.map_eq_nil_iff.1 keys.symm).symm
  | cons entry entries ih =>
    obtain ⟨key, value⟩ := entry
    cases entries' with
    | nil => cases keys
    | cons entry' entries' =>
      obtain ⟨key', value'⟩ := entry'
      obtain ⟨rfl, tail⟩ := List.cons.inj keys
      obtain ⟨fresh, nodup⟩ := List.nodup_cons.1 nodup
      have values : value = value' := by
        simpa [lookup_cons_eq] using lookup key List.mem_cons_self
      rw [values, ih nodup tail]
      intro other mem
      have ne : other ≠ key := by
        rintro rfl
        exact fresh mem
      simpa [lookup_cons_eq, ne] using lookup other (List.mem_cons_of_mem _ mem)

theorem ext_find? {s t : Table β} (keys : s.keys = t.keys)
    (find? : ∀ key ∈ s.keys, s.find? key = t.find? key) : s = t :=
  Table.ext (eq_of_lookup_eq s.nodup_keys keys find?)

/-- Where values name their keys, the keys are the names of the values. -/
theorem map_values {t : Table β} {name : β → Label}
    (named : ∀ key value, t.find? key = some value → name value = key) :
    t.values.map name = t.keys := by
  rw [values, keys, List.map_map]
  apply List.map_congr_left
  rintro ⟨key, value⟩ mem
  exact named key value (find?_eq_some_iff.2 mem)

theorem find?_values {t : Table β} {name : β → Label}
    (named : ∀ key value, t.find? key = some value → name value = key) (key : Label) :
    t.values.find? (name · = key) = t.find? key := by
  cases found : t.values.find? (name · = key) with
  | none =>
    rw [List.find?_eq_none] at found
    symm
    rw [find?_eq_none_iff, mem_def, ← map_values named, List.mem_map]
    rintro ⟨value, mem, eq⟩
    exact found value mem (by simpa using eq)
  | some value =>
    obtain ⟨other, eq⟩ := mem_values.1 (List.mem_of_find?_eq_some found)
    have same : name value = key := by simpa using List.find?_some found
    rw [← same, named other value eq, eq]

theorem filterMap_keys {γ : Type v} (t : Table β) (f : Label → β → γ) :
    (t.keys.filterMap fun key => (t.find? key).map (f key)) =
      t.entries.map fun (key, value) => f key value := by
  rw [keys, List.filterMap_map, List.filterMap_eq_map_iff_forall_eq_some]
  rintro ⟨key, value⟩ mem
  rw [Function.comp_apply, find?_eq_some_iff.2 mem]
  rfl

theorem values_withValues {γ : Type v} {t : Table β} {values : List γ}
    (length : values.length = t.size) : (t.withValues values).values = values :=
  List.map_snd_zip (Nat.le_of_eq (length.trans t.length_keys.symm))

theorem keys_withValues {γ : Type v} {t : Table β} {values : List γ}
    (length : values.length = t.size) : (t.withValues values).keys = t.keys :=
  List.map_fst_zip (Nat.le_of_eq (t.length_keys.trans length.symm))

end Table

/-! ### Sets of labels -/

theorem eraseDups_of_nodup {labels : List Label} (h : labels.Nodup) :
    labels.eraseDups = labels := by
  induction labels with
  | nil => rfl
  | cons label labels ih =>
    obtain ⟨fresh, nodup⟩ := List.nodup_cons.1 h
    have same : labels.filter (fun other => !other == label) = labels := by
      apply List.filter_eq_self.2
      intro other mem
      simp only [Bool.not_eq_true', beq_eq_false_iff_ne]
      rintro rfl
      exact fresh mem
    rw [List.eraseDups_cons, same, ih nodup]

theorem eraseDups_append_singleton {labels : List Label} (h : labels.Nodup) (label : Label) :
    (labels ++ [label]).eraseDups =
      if label ∈ labels then labels else labels ++ [label] := by
  rw [List.eraseDups_append, eraseDups_of_nodup h]
  by_cases mem : label ∈ labels <;> simp [List.removeAll, mem, List.eraseDups_cons]

/-- Labels are added one by one, or all at once and later repeats dropped. -/
theorem eraseDups_append_cons {labels : List Label} (h : labels.Nodup) (label : Label)
    (rest : List Label) :
    (labels ++ label :: rest).eraseDups =
      ((if label ∈ labels then labels else labels ++ [label]) ++ rest).eraseDups := by
  have split : labels ++ label :: rest = (labels ++ [label]) ++ rest := by simp
  rw [split]
  by_cases mem : label ∈ labels
  · rw [if_pos mem, List.eraseDups_append, eraseDups_append_singleton h, if_pos mem,
      List.eraseDups_append, eraseDups_of_nodup h]
    congr 2
    apply List.filter_congr
    intro other _
    by_cases eq : other = label <;> simp [mem, eq]
  · rw [if_neg mem]

namespace LabelSet

theorem keys_add (s : LabelSet) (label : Label) :
    (s.add label).keys = if label ∈ s.keys then s.keys else s.keys ++ [label] :=
  s.keys_insert label ()

end LabelSet

end Hypermesh
