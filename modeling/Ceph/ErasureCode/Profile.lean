import Ceph.ErasureCode.Base

/-!
# Erasure code profiles

A profile is the `map<string, string>` an operator writes for a pool.  This file
models how a plugin reads numbers and strings out of it: `strict_strtol` of
`common/strtol.cc`, and `to_int`, `to_string`, `to_mapping` and `sanity_check_k`
of `ErasureCode.cc`, with the texts they write to `*ss`.

A `std::string` is a `String` with one character per byte.
-/

namespace Ceph

open List

/-! ## Numbers -/

/-- `isspace`. -/
def isSpace (c : Char) : Bool := c = ' ' || (9 ≤ c.toNat && c.toNat ≤ 13)

/-- `strtoll(str, &endptr, 10)`, before the result is clamped: the number and
what `endptr` points to, or `none` if no digit was found. -/
def strtoll (str : List Char) : Option (ℤ × List Char) :=
  let (negative, str) := match str.dropWhile isSpace with
    | '-' :: rest => (true, rest)
    | '+' :: rest => (false, rest)
    | rest => (false, rest)
  let digits := str.takeWhile Char.isDigit
  let value : ℤ := digits.foldl (fun v c => 10 * v + ((c.toNat : ℤ) - 48)) 0
  if digits = [] then none
  else some (if negative then -value else value, str.dropWhile Char.isDigit)

/-- `strict_strtoll(str, 10, err)`. -/
def strictStrtoll (str : String) : Except String ℤ :=
  -- `c_str()` ends at the first NUL
  let chars := str.toList.takeWhile (· ≠ '\x00')
  match strtoll chars with
  | none => .error ("Expected option value to be integer, got '" ++ String.ofList chars ++ "'")
  | some (ret, endptr) =>
    if ret < -2 ^ 63 ∨ 2 ^ 63 - 1 < ret then
      .error ("The option value '" ++ String.ofList chars ++ "' seems to be invalid")
    else if endptr ≠ [] then
      .error ("The option value '" ++ String.ofList chars ++ "' contains invalid digits")
    else .ok ret

/-- `strict_strtol(str, 10, err)`: the two extreme values of `int` are refused
as well. -/
def strictStrtol (str : String) : Except String ℤ :=
  match strictStrtoll str with
  | .error err => .error err
  | .ok ret =>
    if ret ≤ -2 ^ 31 ∨ 2 ^ 31 - 1 ≤ ret then
      .error ("The option value '" ++ String.ofList (str.toList.takeWhile (· ≠ '\x00')) ++
        "' seems to be invalid")
    else .ok ret

/-- `a | b` on `int`, as in `err |= ...`. -/
def bitOr (a b : ℤ) : ℤ := (BitVec.ofInt 32 a ||| BitVec.ofInt 32 b).toInt

/-! ## The map -/

/-- `ErasureCodeProfile`: the entries in the order of their keys. -/
abbrev ErasureCodeProfile : Type := List (String × String)

variable {name : String}

namespace ErasureCodeProfile

/-- `profile.find(name)`. -/
def find (profile : ErasureCodeProfile) (name : String) : Option String := profile.lookup name

/-- `profile[name] = value`. -/
def set (profile : ErasureCodeProfile) (name value : String) : ErasureCodeProfile :=
  match profile with
  | [] => [(name, value)]
  | (key, old) :: rest =>
    if name = key then (name, value) :: rest
    else if name < key then (name, value) :: (key, old) :: rest
    else (key, old) :: set rest name value

/-- `operator<<`. -/
def print (profile : ErasureCodeProfile) : String :=
  "\x7b" ++ String.intercalate "," (profile.map fun e => e.1 ++ "=" ++ e.2) ++ "\x7d"

section

variable (profile : ErasureCodeProfile)

include profile

theorem find_cons (key value other : String) : find ((key, value) :: profile) other =
    if other = key then some value else profile.find other := by
  by_cases h : other = key
  · simp [find, h]
  · rw [find, lookup_cons, beq_eq_false_iff_ne.2 h, if_neg h, find]

theorem find_set (name value other : String) : (profile.set name value).find other =
    if other = name then some value else profile.find other := by
  induction profile with
  | nil => rw [set, find_cons]
  | cons e rest ih =>
    obtain ⟨key, old⟩ := e
    rw [set]
    by_cases hk : name = key
    · simp +contextual [hk, find_cons]
    · rw [if_neg hk]
      by_cases hlt : name < key
      · rw [if_pos hlt, find_cons]
      · rw [if_neg hlt, find_cons, find_cons, ih]
        grind

variable {other : String}

/-- `profile[name] = default_value` when the entry is absent or empty, as `to_int`
and `to_string` begin. -/
def orDefault (profile : ErasureCodeProfile) (name defaultValue : String) : ErasureCodeProfile :=
  if profile.find name = none ∨ profile.find name = some "" then profile.set name defaultValue
  else profile

/-- The text a field is read from. -/
def text (profile : ErasureCodeProfile) (name defaultValue : String) : String :=
  ((profile.orDefault name defaultValue).find name).getD ""

theorem find_orDefault_of_ne (defaultValue : String) (h : other ≠ name) :
    (profile.orDefault name defaultValue).find other = profile.find other := by
  rw [orDefault]
  by_cases hd : profile.find name = none ∨ profile.find name = some ""
  · rw [if_pos hd, find_set, if_neg h]
  · rw [if_neg hd]

theorem text_eq (name defaultValue : String) : profile.text name defaultValue =
      if profile.find name = none ∨ profile.find name = some "" then defaultValue
      else (profile.find name).getD "" := by
  rw [text, orDefault]
  by_cases hd : profile.find name = none ∨ profile.find name = some ""
  · rw [if_pos hd, if_pos hd, find_set, if_pos rfl, Option.getD_some]
  · rw [if_neg hd, if_neg hd]

/-- Filling in one field does not change the text of another. -/
theorem text_orDefault_of_ne (defaultValue otherDefault : String) (h : other ≠ name) :
    (profile.orDefault name defaultValue).text other otherDefault =
      profile.text other otherDefault := by
  rw [text_eq, text_eq, find_orDefault_of_ne profile defaultValue h]

end

end ErasureCodeProfile

/-! ## Reading fields -/

namespace ErasureCode

/-- What reading a field leaves behind: the return code, the value, the profile
with its default filled in, and the messages. -/
structure Field (α : Type) where
  ret : ℤ
  value : α
  profile : ErasureCodeProfile
  ss : String

/-- `ErasureCode::to_int`. -/
def toInt (name : String) (profile : ErasureCodeProfile) (defaultValue ss : String) : Field ℤ :=
  let p := profile.text name defaultValue
  match strictStrtol p with
  | .ok r => ⟨0, r, profile.orDefault name defaultValue, ss⟩
  | .error err =>
    ⟨-einval, (strictStrtol defaultValue).toOption.getD 0, profile.orDefault name defaultValue,
      ss ++ "could not convert " ++ name ++ "=" ++ p ++ " to int because " ++ err ++
        ", set to default " ++ defaultValue ++ "\n"⟩

/-- `ErasureCode::to_string`. -/
def toStr (name : String) (profile : ErasureCodeProfile) (defaultValue ss : String) :
    Field String :=
  ⟨0, profile.text name defaultValue, profile.orDefault name defaultValue, ss⟩

/-- `ErasureCode::sanity_check_k`: the return code and the message. -/
def sanityCheckK (k : ℤ) : ℤ × String :=
  if k < 2 then (-einval, "k=" ++ toString k ++ " must be >= 2\n") else (0, "")

@[simp] theorem toInt_profile (name : String) (profile : ErasureCodeProfile)
    (defaultValue ss : String) :
    (toInt name profile defaultValue ss).profile = profile.orDefault name defaultValue := by
  rw [toInt]
  cases strictStrtol (profile.text name defaultValue) <;> rfl

/-- `to_int` succeeds exactly on the texts `strict_strtol` converts. -/
theorem toInt_of_ok {defaultValue : String} {profile : ErasureCodeProfile} {v : ℤ}
    (h : strictStrtol (profile.text name defaultValue) = .ok v) (ss : String) :
    (toInt name profile defaultValue ss).ret = 0 ∧
      (toInt name profile defaultValue ss).value = v := by
  rw [toInt, h]
  exact ⟨rfl, rfl⟩

/-- On failure the value is the default. -/
theorem toInt_of_error {defaultValue err : String} {profile : ErasureCodeProfile}
    (h : strictStrtol (profile.text name defaultValue) = .error err) (ss : String) :
    (toInt name profile defaultValue ss).ret = -einval ∧
      (toInt name profile defaultValue ss).value = (strictStrtol defaultValue).toOption.getD 0 := by
  rw [toInt, h]
  exact ⟨rfl, rfl⟩

/-- `err |= ...` over return codes `0` and `-EINVAL` is a disjunction. -/
@[simp] theorem bitOr_ite (p q : Prop) [Decidable p] [Decidable q] :
    bitOr (if p then 0 else -einval) (if q then 0 else -einval) = if p ∧ q then 0 else -einval := by
  by_cases hp : p <;> by_cases hq : q <;> simp only [hp, hq, if_true, if_false, and_self, and_false,
    false_and] <;> decide

/-- `0 | b` is `b` for every `int`. -/
theorem bitOr_zero_left {b : ℤ} (h : -2 ^ 31 ≤ b ∧ b < 2 ^ 31) : bitOr 0 b = b := by
  have hzero : BitVec.ofInt 32 0 = 0#32 := rfl
  rw [bitOr, hzero, BitVec.zero_or, BitVec.toInt_ofInt]
  exact Int.bmod_eq_of_le (by omega) (by omega)

end ErasureCode

end Ceph
