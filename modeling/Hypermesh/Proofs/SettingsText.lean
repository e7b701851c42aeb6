import Hypermesh.Proofs.Lists
import Hypermesh.Settings.Text

/-!
Settings are read back from the text that they are written as. Names and values are read one after the
other, each with whatever follows it left over.
-/

namespace Hypermesh.Settings

namespace Text

variable {fuel : Nat} {text cs rest : List Char} {value : Value}

/-- Letters that stand for themselves between quotes. -/
def Plain (cs : List Char) : Prop := ∀ c ∈ cs, c ≠ '"' ∧ c ≠ '\\' ∧ 0x20 ≤ c.toNat

instance (cs : List Char) : Decidable (Plain cs) := inferInstanceAs (Decidable (∀ c ∈ cs, _))

theorem letters?_of_plain (plain : Plain cs) (enough : cs.length < fuel) :
    letters? fuel (cs ++ '"' :: rest) = some (cs.map some, rest) := by
  induction cs generalizing fuel with
  | nil =>
    obtain ⟨fuel, rfl⟩ := Nat.exists_eq_add_one_of_ne_zero (Nat.ne_of_gt enough)
    rfl
  | cons c cs ih =>
    obtain ⟨⟨quote, escape, visible⟩, plain⟩ := List.forall_mem_cons.1 plain
    obtain ⟨fuel, rfl⟩ := Nat.exists_eq_add_one_of_ne_zero (Nat.ne_of_gt (Nat.zero_lt_of_lt enough))
    rw [List.cons_append, letters?, if_neg (Nat.not_lt.2 visible), ih plain (Nat.lt_of_succ_lt_succ enough)]
    · rfl
    · exact quote
    · exact escape

/-! ### Numbers -/

theorem head?_toDigits_ne_zero {n : Nat} (positive : 0 < n) : (Nat.toDigits 10 n).head? ≠ some '0' := by
  induction n using Nat.strongRecOn with
  | ind n ih =>
    rcases Nat.lt_or_ge n 10 with small | large
    · have digits : ∀ k < 10, 0 < k → Nat.digitChar k ≠ '0' := by decide
      rw [Nat.toDigits_of_lt_base small]
      exact fun eq => digits n small positive (Option.some.inj eq)
    · rw [Nat.toDigits_of_base_le (by decide) large, List.head?_append_of_ne_nil _ Nat.toDigits_ne_nil]
      exact ih (n / 10) (by omega) (by omega)

theorem digits?_toDigits (n : Nat) :
    digits? (Nat.toDigits 10 n ++ ',' :: rest) = some (Nat.toDigits 10 n, ',' :: rest) := by
  have digit : ∀ c ∈ Nat.toDigits 10 n, c.isDigit = true := fun c mem =>
    Nat.isDigit_of_mem_toDigits (by decide) (by decide) mem
  have first : (Nat.toDigits 10 n ++ ',' :: rest).takeWhile Char.isDigit = Nat.toDigits 10 n := by
    rw [List.takeWhile_append_of_pos digit]
    exact List.append_nil _
  have last : (Nat.toDigits 10 n ++ ',' :: rest).dropWhile Char.isDigit = ',' :: rest := by
    rw [List.dropWhile_append_of_pos digit]
    rfl
  rw [digits?, first, last]
  split
  · next none => exact absurd none Nat.toDigits_ne_nil
  · rfl

theorem exists_digit_cons (n : Nat) : ∃ c cs, Nat.toDigits 10 n = c :: cs ∧ c.isDigit = true := by
  obtain ⟨c, cs, eq⟩ := List.exists_cons_of_ne_nil (Nat.toDigits_ne_nil (b := 10) (n := n))
  have digit : c.isDigit = true :=
    Nat.isDigit_of_mem_toDigits (by decide) (by decide) (eq ▸ List.mem_cons_self)
  exact ⟨c, cs, eq, digit⟩

theorem whole?_toDigits (n : Nat) :
    whole? (Nat.toDigits 10 n ++ ',' :: rest) = some (Nat.toDigits 10 n, ',' :: rest) := by
  rcases Nat.eq_zero_or_pos n with rfl | positive
  · rfl
  · obtain ⟨c, cs, eq, -⟩ := exists_digit_cons n
    have lead := head?_toDigits_ne_zero positive
    rw [eq, List.head?_cons] at lead
    rw [← digits?_toDigits, eq, List.cons_append, whole?]
    exact fun _ zero => lead (congrArg some (List.cons.inj zero).1)

theorem valueOf_toDigits (n : Nat) : valueOf (Nat.toDigits 10 n) = n := by
  have same : valueOf (Nat.toDigits 10 n) = Nat.ofDigitChars 10 (Nat.toDigits 10 n) 0 := by
    rw [valueOf, Nat.ofDigitChars]
    simp only [Nat.mul_comm]
  rw [same, Nat.ofDigitChars_ten_toDigits]

theorem ne_of_isDigit {c d : Char} (digit : c.isDigit = true) (no : d.isDigit = false) : c ≠ d := by
  rintro rfl
  rw [digit] at no
  cases no

/-- A digit is none of the characters that other values begin with. -/
theorem value?_of_isDigit {c : Char} (digit : c.isDigit = true) :
    value? (fuel + 1) (c :: cs) = number? (c :: cs) := by
  have other {d : Char} {ds : List Char} (no : d.isDigit = false) : c :: cs ≠ d :: ds :=
    fun eq => ne_of_isDigit digit no (List.cons.inj eq).1
  rw [value?]
  · exact Nat.succ_ne_zero fuel
  · exact fun _ => other rfl
  · exact fun _ => other rfl
  · exact fun _ => other rfl
  · exact fun _ _ _ => other rfl
  · exact fun _ _ _ => other rfl
  · exact fun _ _ _ => other rfl

theorem value?_toDigits (n : Nat) :
    value? (fuel + 1) (Nat.toDigits 10 n ++ ',' :: rest) = some (.natural n, ',' :: rest) := by
  obtain ⟨c, cs, eq, digit⟩ := exists_digit_cons n
  rw [eq, List.cons_append, value?_of_isDigit digit, number?, ← List.cons_append, ← eq, whole?_toDigits]
  · simp [fraction?, exponent?, valueOf_toDigits]
  · exact fun _ eq => ne_of_isDigit digit rfl (List.cons.inj eq).1

/-! ### Fields -/

theorem skip_of_visible {c : Char} (visible : isBlank c = false) : skip (c :: cs) = c :: cs := by
  rw [skip, List.dropWhile_cons, visible]
  rfl

theorem someFields?_next (name : List Char) {fields : List (List Letter × Value)} (plain : Plain name)
    (enough : name.length < fuel) (clear : skip text = text)
    (read : value? fuel text = some (value, ',' :: cs)) (others : someFields? fuel cs = some (fields, rest)) :
    someFields? (fuel + 1) ('"' :: (name ++ '"' :: ':' :: text)) =
      some ((name.map some, value) :: fields, rest) := by
  have quote : isBlank '"' = false := rfl
  have colon : isBlank ':' = false := rfl
  have comma : isBlank ',' = false := rfl
  rw [someFields?]
  simp [skip_of_visible, quote, colon, comma, letters?_of_plain plain enough, clear, read, others]

theorem someFields?_last (name : List Char) (plain : Plain name) (enough : name.length < fuel)
    (clear : skip text = text) (read : value? fuel text = some (value, '\x7d' :: rest)) :
    someFields? (fuel + 1) ('"' :: (name ++ '"' :: ':' :: text)) = some ([(name.map some, value)], rest) := by
  have quote : isBlank '"' = false := rfl
  have colon : isBlank ':' = false := rfl
  have brace : isBlank '\x7d' = false := rfl
  rw [someFields?]
  simp [skip_of_visible, quote, colon, brace, letters?_of_plain plain enough, clear, read]

end Text

open Text

variable {fuel : Nat} {cs : List Char}

/-- What a cap and a flag are written as. -/
def capText (cap : Option Nat) : String :=
  match cap with
  | none => "null"
  | some n => toString n

def flagText (b : Bool) : String := if b then "true" else "false"

theorem toText_eq (s : Settings) :
    s.toText = "\x7b\"max_applications\":" ++ capText s.maxApplications ++ ",\"consult_acceptance\":" ++
      flagText s.consultAcceptance ++ "\x7d" := rfl

theorem toList_toText (s : Settings) :
    s.toText.toList = '\x7b' :: '"' :: ("max_applications".toList ++ '"' :: ':' ::
      ((capText s.maxApplications).toList ++ ',' :: '"' :: ("consult_acceptance".toList ++ '"' :: ':' ::
        ((flagText s.consultAcceptance).toList ++ ['\x7d'])))) := by
  have first : "\x7b\"max_applications\":".toList =
      '\x7b' :: '"' :: ("max_applications".toList ++ ['"', ':']) := by decide +kernel
  have second : ",\"consult_acceptance\":".toList =
      ',' :: '"' :: ("consult_acceptance".toList ++ ['"', ':']) := by decide +kernel
  have last : "\x7d".toList = ['\x7d'] := by decide +kernel
  simp only [toText_eq, String.toList_append, first, second, last, List.cons_append, List.append_assoc,
    List.nil_append]

theorem value?_capText (cap : Option Nat) (fuel : Nat) (rest : List Char) :
    value? (fuel + 1) ((capText cap).toList ++ ',' :: rest) = some (cap.elim .null .natural, ',' :: rest) := by
  cases cap with
  | none => rfl
  | some n =>
    have text : (capText (some n)).toList = Nat.toDigits 10 n := Nat.toList_repr
    rw [text]
    exact value?_toDigits n

theorem value?_flagText (b : Bool) (fuel : Nat) (rest : List Char) :
    value? (fuel + 1) ((flagText b).toList ++ rest) = some (.bool b, rest) := by
  cases b <;> rfl

theorem fields?_of_quote : fields? (fuel + 1) ('"' :: cs) = someFields? fuel ('"' :: cs) := by
  rw [fields?, skip_of_visible rfl]
  rfl

theorem skip_capText (cap : Option Nat) (rest : List Char) :
    skip ((capText cap).toList ++ rest) = (capText cap).toList ++ rest := by
  cases cap with
  | none => rfl
  | some n =>
    obtain ⟨c, cs, eq, digit⟩ := exists_digit_cons n
    have visible : isBlank c = false := by simp [isBlank, ne_of_isDigit digit]
    have text : (capText (some n)).toList = c :: cs := Nat.toList_repr.trans eq
    rw [text, List.cons_append, skip_of_visible visible]

theorem skip_flagText (b : Bool) (rest : List Char) :
    skip ((flagText b).toList ++ rest) = (flagText b).toList ++ rest := by
  cases b <;> rfl

theorem name?_toList (name : String) : name? (name.toList.map some) = some name := by
  rw [name?, mapM_id_eq_some_iff.2 rfl, Option.map_some, String.ofList_toList]

/-- Fields as the text spells them. -/
def spelled (fields : List (String × Value)) : List (List Letter × Value) :=
  fields.map fun (name, value) => (name.toList.map some, value)

theorem mapM_spelled (fields : List (String × Value)) :
    (spelled fields).mapM (fun (letters, value) => return (← name? letters, value)) = some fields := by
  rw [spelled, List.mapM_map]
  refine (mapM_eq_pure fun field _ => ?_).trans (congrArg some (List.map_id fields))
  simp [name?_toList]

/-- The fields that settings are written as. -/
def fieldsOf (s : Settings) : List (String × Value) :=
  [("max_applications", s.maxApplications.elim .null .natural),
    ("consult_acceptance", .bool s.consultAcceptance)]

theorem object?_toText (s : Settings) : object? s.toText = some (spelled (fieldsOf s)) := by
  obtain ⟨fuel, enough⟩ : ∃ fuel, 2 * s.toText.length + 2 = fuel + 22 := by
    refine ⟨2 * s.toText.length - 20, ?_⟩
    rw [← String.length_toList, toList_toText]
    simp
    omega
  have last := someFields?_last "consult_acceptance".toList (by simp [Plain])
    (by simp : _ < fuel + 19) (skip_flagText s.consultAcceptance ['\x7d']) (value?_flagText _ _ _)
  have fields := someFields?_next "max_applications".toList (by simp [Plain])
    (by simp : _ < fuel + 20) (skip_capText s.maxApplications _) (value?_capText _ _ _) last
  rw [object?, toList_toText, enough, skip_of_visible rfl]
  simp only [fields?_of_quote, fields]
  rfl

/-- Settings are read back from what they are written as, if the cap fits into a word. -/
theorem ofText?_toText (s : Settings) (fits : ∀ n, s.maxApplications = some n → n < UInt64.size) :
    ofText? s.toText = some s := by
  have cap : Value.cap? (s.maxApplications.elim .null .natural) = some s.maxApplications := by
    cases eq : s.maxApplications with
    | none => rfl
    | some n => exact if_pos (fits n eq)
  have fields : ofFields? (fieldsOf s) = some s := by
    simp [ofFields?, fieldsOf, field?, cap, Value.bool?]
  rw [ofText?, object?_toText, Option.bind_eq_bind, Option.bind_some, mapM_spelled, Option.bind_eq_bind,
    Option.bind_some, fields]

end Hypermesh.Settings
