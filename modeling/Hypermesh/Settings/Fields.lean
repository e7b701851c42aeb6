import Hypermesh.Settings

/-!
Settings from named fields. A field that is missing keeps its default, an unknown field is passed over,
and a known one that occurs twice or holds a value of the wrong kind is refused.
-/

universe u

namespace Hypermesh

namespace Settings

inductive Value
  | null
  | bool (b : Bool)
  | natural (n : Nat)
  | other
  deriving DecidableEq

def Value.cap? : Value → Option (Option Nat)
  | .null => some none
  | .natural n => if n < UInt64.size then some (some n) else none
  | _ => none

def Value.bool? : Value → Option Bool
  | .bool b => some b
  | _ => none

/-- Reads the field `name`, which may occur once at most. -/
def field? {α : Type u} (read : Value → Option α) (default : α) (name : String)
    (fields : List (String × Value)) : Option α :=
  match fields.filter (·.1 = name) with
  | [] => some default
  | [(_, value)] => read value
  | _ => none

def ofFields? (fields : List (String × Value)) : Option Settings := do
  let maxApplications ← field? Value.cap? none "max_applications" fields
  let consultAcceptance ← field? Value.bool? true "consult_acceptance" fields
  return { maxApplications, consultAcceptance }

@[simp] theorem ofFields?_nil : ofFields? [] = some {} := rfl

end Settings

end Hypermesh
