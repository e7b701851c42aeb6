import Hypermesh.Label

/-!
Tables keyed by label, in insertion order. Writing to a stored key keeps its place, a new key goes to
the end, and erasing keeps the order of the rest. No key occurs twice.
-/

universe u v

namespace Hypermesh

@[ext] structure Table (β : Type u) where
  entries : List (Label × β)
  nodup_keys : (entries.map Prod.fst).Nodup

namespace Table

variable {β : Type u} {γ : Type v}

def keys (t : Table β) : List Label := t.entries.map Prod.fst

def values (t : Table β) : List β := t.entries.map Prod.snd

def size (t : Table β) : Nat := t.entries.length

def isEmpty (t : Table β) : Bool := t.entries.isEmpty

def find? (t : Table β) (key : Label) : Option β := t.entries.lookup key

instance : Membership Label (Table β) := ⟨fun t key => key ∈ t.keys⟩

instance (key : Label) (t : Table β) : Decidable (key ∈ t) :=
  inferInstanceAs (Decidable (key ∈ t.keys))

instance : EmptyCollection (Table β) := ⟨⟨[], List.nodup_nil⟩⟩

instance : Inhabited (Table β) := ⟨∅⟩

/-- Writes `value` where `key` stands, or at the end. -/
def put (key : Label) (value : β) : List (Label × β) → List (Label × β)
  | [] => [(key, value)]
  | entry :: entries =>
    if entry.1 = key then (key, value) :: entries else entry :: put key value entries

theorem map_fst_put (key : Label) (value : β) (entries : List (Label × β)) :
    (put key value entries).map Prod.fst =
      if key ∈ entries.map Prod.fst then entries.map Prod.fst
      else entries.map Prod.fst ++ [key] := by
  induction entries with
  | nil => simp [put]
  | cons entry entries ih =>
    by_cases h : entry.1 = key
    · simp [put, h]
    · have h' : ¬ key = entry.1 := fun e => h e.symm
      by_cases hm : key ∈ entries.map Prod.fst <;>
        simp only [put, h, if_false, List.map_cons, ih, hm, if_true, List.mem_cons, h', or_true,
          or_false, List.cons_append]

theorem nodup_put (key : Label) (value : β) {entries : List (Label × β)}
    (h : (entries.map Prod.fst).Nodup) : ((put key value entries).map Prod.fst).Nodup := by
  rw [map_fst_put]
  split
  · exact h
  · next hk =>
    rw [List.nodup_append]
    refine ⟨h, by simp, fun a ha b hb => ?_⟩
    simp only [List.mem_singleton] at hb
    rintro rfl
    exact hk (hb ▸ ha)

def insert (t : Table β) (key : Label) (value : β) : Table β :=
  ⟨put key value t.entries, nodup_put key value t.nodup_keys⟩

def erase (t : Table β) (key : Label) : Table β where
  entries := t.entries.filter (fun entry => entry.1 ≠ key)
  nodup_keys := t.nodup_keys.sublist (List.filter_sublist.map Prod.fst)

/-- Applies `f` to the value under `key`, if there is one. -/
def modify (t : Table β) (key : Label) (f : β → β) : Table β where
  entries := t.entries.map fun entry => if entry.1 = key then (entry.1, f entry.2) else entry
  nodup_keys := by
    have : (Prod.fst ∘ fun entry : Label × β =>
        if entry.1 = key then (entry.1, f entry.2) else entry) = Prod.fst := by
      funext entry
      simp only [Function.comp]
      split <;> rfl
    rw [List.map_map, this]
    exact t.nodup_keys

/-- The same keys with other values, as far as there are values. -/
def withValues (t : Table β) (values : List γ) : Table γ where
  entries := t.keys.zip values
  nodup_keys := by
    rw [List.zip_eq_zip_take_min, List.map_fst_zip (by simp)]
    exact t.nodup_keys.sublist (List.take_sublist _ _)

theorem mem_def {key : Label} {t : Table β} : key ∈ t ↔ key ∈ t.keys := Iff.rfl

theorem nodup (t : Table β) : t.keys.Nodup := t.nodup_keys

@[simp] theorem keys_empty : (∅ : Table β).keys = [] := rfl

@[simp] theorem values_empty : (∅ : Table β).values = [] := rfl

@[simp] theorem not_mem_empty (key : Label) : ¬ key ∈ (∅ : Table β) := List.not_mem_nil

@[simp] theorem size_empty : (∅ : Table β).size = 0 := rfl

@[simp] theorem find?_empty (key : Label) : (∅ : Table β).find? key = none := rfl

@[simp] theorem length_keys (t : Table β) : t.keys.length = t.size := by simp [keys, size]

@[simp] theorem length_values (t : Table β) : t.values.length = t.size := by simp [values, size]

end Table

/-- An ordered set of labels is a table that stores nothing. -/
abbrev LabelSet := Table Unit

def LabelSet.add (s : LabelSet) (label : Label) : LabelSet := s.insert label ()

end Hypermesh
