import Hypermesh.Settings.Fields

/-!
Settings as the text of a JSON object. Names of fields are compared after their escapes are resolved, so
they have to be whole texts; inside values that are passed over, half of a surrogate pair may stand.
-/

namespace Hypermesh

namespace Settings

namespace Text

/-- A character of a quoted text, or nothing for half of a surrogate pair. -/
abbrev Letter := Option Char

def isBlank (c : Char) : Bool := c = ' ' || c = '\n' || c = '\r' || c = '\t'

def skip (cs : List Char) : List Char := cs.dropWhile isBlank

def hexDigit? (c : Char) : Option Nat :=
  if '0' ≤ c ∧ c ≤ '9' then some (c.toNat - '0'.toNat)
  else if 'a' ≤ c ∧ c ≤ 'f' then some (c.toNat - 'a'.toNat + 10)
  else if 'A' ≤ c ∧ c ≤ 'F' then some (c.toNat - 'A'.toNat + 10)
  else none

def unit? : List Char → Option (Nat × List Char)
  | a :: b :: c :: d :: cs =>
    return ((((← hexDigit? a) * 16 + (← hexDigit? b)) * 16 + (← hexDigit? c)) * 16 +
      (← hexDigit? d), cs)
  | _ => none

def isLeading (unit : Nat) : Bool := 0xd800 ≤ unit && unit ≤ 0xdbff

def isTrailing (unit : Nat) : Bool := 0xdc00 ≤ unit && unit ≤ 0xdfff

/-- The letter that a code unit begins, with its other half if that follows. -/
def letter (unit : Nat) (cs : List Char) : Letter × List Char :=
  if isTrailing unit then (none, cs)
  else if isLeading unit then
    match cs with
    | '\\' :: 'u' :: rest =>
      match unit? rest with
      | some (second, rest) =>
        if isTrailing second then
          (some (.ofNat (0x10000 + (unit - 0xd800) * 0x400 + (second - 0xdc00))), rest)
        else (none, cs)
      | none => (none, cs)
    | _ => (none, cs)
  else (some (.ofNat unit), cs)

def escape? : List Char → Option (Letter × List Char)
  | '"' :: cs => some (some '"', cs)
  | '\\' :: cs => some (some '\\', cs)
  | '/' :: cs => some (some '/', cs)
  | 'b' :: cs => some (some '\x08', cs)
  | 'f' :: cs => some (some '\x0c', cs)
  | 'n' :: cs => some (some '\n', cs)
  | 'r' :: cs => some (some '\r', cs)
  | 't' :: cs => some (some '\t', cs)
  | 'u' :: cs => (unit? cs).map fun (unit, cs) => letter unit cs
  | _ => none

/-- The letters up to the closing quote. Each takes one unit of fuel. -/
def letters? : (fuel : Nat) → List Char → Option (List Letter × List Char)
  | 0, _ => none
  | _, [] => none
  | _, '"' :: cs => some ([], cs)
  | fuel + 1, '\\' :: cs => do
    let (l, cs) ← escape? cs
    let (ls, cs) ← letters? fuel cs
    return (l :: ls, cs)
  | fuel + 1, c :: cs =>
    if c.toNat < 0x20 then none
    else do
      let (ls, cs) ← letters? fuel cs
      return (some c :: ls, cs)

def digits? (cs : List Char) : Option (List Char × List Char) :=
  match cs.takeWhile Char.isDigit with
  | [] => none
  | ds => some (ds, cs.dropWhile Char.isDigit)

/-- The whole part of a number: a zero stands alone. -/
def whole? : List Char → Option (List Char × List Char)
  | '0' :: cs => some (['0'], cs)
  | cs => digits? cs

def fraction? : List Char → Option (Bool × List Char)
  | '.' :: cs => (digits? cs).map fun (_, cs) => (true, cs)
  | cs => some (false, cs)

def unsigned : List Char → List Char
  | '+' :: cs => cs
  | '-' :: cs => cs
  | cs => cs

def exponent? : List Char → Option (Bool × List Char)
  | 'e' :: cs => (digits? (unsigned cs)).map fun (_, cs) => (true, cs)
  | 'E' :: cs => (digits? (unsigned cs)).map fun (_, cs) => (true, cs)
  | cs => some (false, cs)

def valueOf (ds : List Char) : Nat := ds.foldl (fun n d => n * 10 + (d.toNat - '0'.toNat)) 0

/-- A number without sign, fraction and exponent is natural. -/
def number? (cs : List Char) : Option (Value × List Char) := do
  let (negative, cs) := match cs with
    | '-' :: cs => (true, cs)
    | cs => (false, cs)
  let (ds, cs) ← whole? cs
  let (fraction, cs) ← fraction? cs
  let (exponent, cs) ← exponent? cs
  return (if negative || fraction || exponent then .other else .natural (valueOf ds), cs)

mutual

/-- A value at the start of the text. Two units of fuel for each character are enough. -/
def value? : (fuel : Nat) → List Char → Option (Value × List Char)
  | 0, _ => none
  | _, 'n' :: 'u' :: 'l' :: 'l' :: cs => some (.null, cs)
  | _, 't' :: 'r' :: 'u' :: 'e' :: cs => some (.bool true, cs)
  | _, 'f' :: 'a' :: 'l' :: 's' :: 'e' :: cs => some (.bool false, cs)
  | fuel + 1, '"' :: cs => (letters? fuel cs).map fun (_, cs) => (.other, cs)
  | fuel + 1, '[' :: cs =>
    match skip cs with
    | ']' :: cs => some (.other, cs)
    | cs => (items? fuel cs).map fun cs => (.other, cs)
  | fuel + 1, '\x7b' :: cs => (fields? fuel cs).map fun (_, cs) => (.other, cs)
  | _, cs => number? cs

def items? : (fuel : Nat) → List Char → Option (List Char)
  | 0, _ => none
  | fuel + 1, cs => do
    let (_, cs) ← value? fuel (skip cs)
    match skip cs with
    | ',' :: cs => items? fuel cs
    | ']' :: cs => some cs
    | _ => none

def fields? : (fuel : Nat) → List Char → Option (List (List Letter × Value) × List Char)
  | 0, _ => none
  | fuel + 1, cs =>
    match skip cs with
    | '\x7d' :: cs => some ([], cs)
    | cs => someFields? fuel cs

def someFields? : (fuel : Nat) → List Char → Option (List (List Letter × Value) × List Char)
  | 0, _ => none
  | fuel + 1, cs =>
    match skip cs with
    | '"' :: cs => do
      let (name, cs) ← letters? fuel cs
      match skip cs with
      | ':' :: cs => do
        let (value, cs) ← value? fuel (skip cs)
        match skip cs with
        | ',' :: cs => do
          let (fields, cs) ← someFields? fuel cs
          return ((name, value) :: fields, cs)
        | '\x7d' :: cs => some ([(name, value)], cs)
        | _ => none
      | _ => none
    | _ => none

end

/-- The fields of a text that is one object and nothing else. -/
def object? (text : String) : Option (List (List Letter × Value)) :=
  match skip text.toList with
  | '\x7b' :: cs => do
    let (fields, cs) ← fields? (2 * text.length + 2) cs
    if (skip cs).isEmpty then some fields else none
  | _ => none

def name? (letters : List Letter) : Option String := (letters.mapM id).map .ofList

end Text

def ofText? (text : String) : Option Settings := do
  let fields ← Text.object? text
  ofFields? (← fields.mapM fun (letters, value) => return (← Text.name? letters, value))

def toText (s : Settings) : String :=
  let cap := match s.maxApplications with
    | none => "null"
    | some n => toString n
  "\x7b\"max_applications\":" ++ cap ++ ",\"consult_acceptance\":" ++
    (if s.consultAcceptance then "true" else "false") ++ "\x7d"

end Settings

end Hypermesh
