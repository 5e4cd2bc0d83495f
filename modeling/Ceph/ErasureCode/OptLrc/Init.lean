import Ceph.ErasureCode.Profile
import Ceph.ErasureCode.OptLrc.Minimum

/-!
# The Optimal-LRC plugin: which profiles `init` accepts

`init` reads `n`, `k`, `r` and `mapping` independently of each other.  The only
check that would tie them together compares the size of `chunk_mapping` with `n`
at a point where `chunk_mapping` is still empty, so nothing is checked: `init`
accepts every profile whose fields can be read and whose `k` is at least 2
(`init_of_mapping`), usable or not, and it divides by `r + 1` without looking.
-/

namespace Ceph.OptLrc

open ErasureCode List Option ErasureCodeProfile

/-! ## JSON values -/

/-- `json_spirit::mValue`. -/
inductive Json where
  | obj (members : List (String × Json))
  | array (elements : List Json)
  | str (s : String)
  | bool (b : Bool)
  | int (i : ℤ)
  | real (x : ℚ)
  | null

/-- `type()`, as `operator<<` prints it. -/
def Json.type : Json → ℕ
  | obj _ => 0
  | array _ => 1
  | str _ => 2
  | bool _ => 3
  | int _ => 4
  | real _ => 5
  | null => 6

def Json.strType : ℕ := 2

def Json.intType : ℕ := 4

/-- `get_str()`, called on strings only. -/
def Json.getStr : Json → String
  | str s => s
  | _ => ""

/-- `get_array()`, if `type()` is `array_type`. -/
def Json.getArray : Json → Option (List Json)
  | array elements => some elements
  | _ => none

/-- `get_int()`, called on integers only: a cast to `int`. -/
def Json.getInt : Json → ℤ
  | int i => (BitVec.ofInt 32 i).toInt
  | _ => 0

/-- The two functions of `json_spirit` the plugin calls: `read_or_throw`, whose
exception carries a line, a column and a reason, and `write`. -/
structure JsonSpirit where
  readOrThrow : String → Except (ℕ × ℕ × String) Json
  write : Json → String

/-! ## Error codes -/

def MAX_ERRNO : ℤ := 4095

def ERROR_LRC_ARRAY : ℤ := -(MAX_ERRNO + 1)

def ERROR_LRC_PARSE_JSON : ℤ := -(MAX_ERRNO + 7)

def ERROR_LRC_MAPPING : ℤ := -(MAX_ERRNO + 8)

def ERROR_LRC_RULESET_OP : ℤ := -(MAX_ERRNO + 14)

def ERROR_LRC_RULESET_TYPE : ℤ := -(MAX_ERRNO + 15)

def ERROR_LRC_RULESET_N : ℤ := -(MAX_ERRNO + 16)

/-! ## The plugin object -/

/-- `ErasureCodeOptLrc::Step`. -/
structure Step where
  op : String
  type : String
  n : ℤ

/-- `ErasureCodeOptLrc`, with `chunk_mapping` and `_profile` of its base class.
The defaults are those of the constructor. -/
structure ErasureCodeOptLrc where
  n : ℤ := 0
  k : ℤ := 0
  r : ℤ := 0
  rulesetRoot : String := ""
  mapping : List ℕ := []
  rulesetSteps : List Step := [⟨"chooseleaf", "host", 0⟩]
  chunkMapping : List ℕ := []
  profile : ErasureCodeProfile := []

def DEFAULT_N : String := "9"

def DEFAULT_K : String := "4"

def DEFAULT_R : String := "2"

/-- What `init` works on: the object, the profile and the messages. -/
structure InitState where
  self : ErasureCodeOptLrc := {}
  profile : ErasureCodeProfile
  ss : String := ""

/-! ## `parse_nkr` -/

/-- The size check of `parse_nkr`. -/
def checkMappingSize (err : ℤ) (st : InitState) : Option (ℤ × InitState) :=
  if st.self.chunkMapping.length > 0 ∧ (st.self.chunkMapping.length : ℤ) ≠ st.self.n then
    (st.profile.find "mapping").map fun mapping =>
      (-einval, { st with
        self := { st.self with chunkMapping := [] }
        ss := st.ss ++ "mapping " ++ mapping ++ " maps " ++ toString st.self.chunkMapping.length ++
          " chunks instead of the expected " ++ toString st.self.n ++ " and will be ignored\n" })
  else some (err, st)

/-- The steps of the ruleset that `parse_nkr` derives from the profile. -/
def defaultSteps (profile : ErasureCodeProfile) (self : ErasureCodeOptLrc) : List Step :=
  let rulesetLocality := (profile.find "ruleset-locality").getD ""
  let rulesetFailureDomain := (profile.find "ruleset-failure-domain").getD "host"
  let localGroupCount := self.n.tdiv (self.r + 1)
  if rulesetLocality ≠ "" then
    [⟨"choose", rulesetLocality, localGroupCount⟩, ⟨"chooseleaf", rulesetFailureDomain, self.r + 1⟩]
  else if rulesetFailureDomain ≠ "" then [⟨"chooseleaf", rulesetFailureDomain, 0⟩]
  else self.rulesetSteps

/-- `ErasureCodeOptLrc::parse_nkr`.  `none` stands for the division by zero. -/
def parseNkr (st : InitState) : Option (ℤ × InitState) := do
  let fn := toInt "n" st.profile DEFAULT_N st.ss
  let fk := toInt "k" fn.profile DEFAULT_K fn.ss
  let fr := toInt "r" fk.profile DEFAULT_R fk.ss
  let self := { st.self with n := fn.value, k := fk.value, r := fr.value }
  let (err, st) ← checkMappingSize (bitOr (bitOr (bitOr 0 fn.ret) fk.ret) fr.ret)
    ⟨self, fr.profile, fr.ss⟩
  match st.profile.find "mapping" with
  | none =>
    some (ERROR_LRC_MAPPING,
      { st with ss := st.ss ++ "the 'mapping' profile is missing from " ++ st.profile.print })
  | some mapstr =>
    let self := { st.self with mapping := st.self.mapping ++ toMapping mapstr.toList }
    if self.r + 1 = 0 then none
    else
      let steps := defaultSteps st.profile self
      some (err, { st with self := { self with rulesetSteps := steps } })

/-! ## `parse_ruleset` -/

/-- The loop of `parse_ruleset_step`, from element `position` on; an error is a
return code and a message. -/
def parseRulesetStepFrom (jsonString descriptionString : String) :
    ℕ → List Json → Step → Except (ℤ × String) Step
  | _, [], step => .ok step
  | position, v :: rest, step =>
    if (position = 0 ∨ position = 1) ∧ v.type ≠ Json.strType then
      .error (if position = 0 then ERROR_LRC_RULESET_OP else ERROR_LRC_RULESET_TYPE,
        "element " ++ toString position ++ " of the array " ++ jsonString ++ " found in " ++
          descriptionString ++ " must be a JSON string but is of type " ++ toString v.type ++
          " instead\n")
    else if position = 2 ∧ v.type ≠ Json.intType then
      .error (ERROR_LRC_RULESET_N,
        "element " ++ toString position ++ " of the array " ++ jsonString ++ " found in " ++
          descriptionString ++ " must be a JSON int but is of type " ++ toString v.type ++
          " instead\n")
    else
      parseRulesetStepFrom jsonString descriptionString (position + 1) rest
        { op := if position = 0 then v.getStr else step.op
          type := if position = 1 then v.getStr else step.type
          n := if position = 2 then v.getInt else step.n }

variable (js : JsonSpirit)

/-- `ErasureCodeOptLrc::parse_ruleset_step`, up to the `push_back`. -/
def parseRulesetStep (descriptionString : String) (description : List Json) :
    Except (ℤ × String) Step :=
  parseRulesetStepFrom (js.write (.array description)) descriptionString 0 description ⟨"", "", 0⟩

/-- The loop of `parse_ruleset` over the steps: the return code, the steps pushed
so far and the message. -/
def parseRulesetFrom (js : JsonSpirit) (str : String) :
    ℕ → List Json → List Step → ℤ × List Step × String
  | _, [], steps => (0, steps, "")
  | position, v :: rest, steps =>
    match v.getArray with
    | some description =>
      match parseRulesetStep js str description with
      | .ok step => parseRulesetFrom js str (position + 1) rest (steps ++ [step])
      | .error (ret, msg) => (ret, steps, msg)
    | none => (ERROR_LRC_ARRAY, steps, "element of the array " ++ str ++
        " must be a JSON array but " ++ js.write v ++ " at position " ++ toString position ++
        " is of type " ++ toString v.type ++ " instead\n")

/-- `ErasureCodeOptLrc::parse_ruleset`. -/
def parseRuleset (st : InitState) : ℤ × InitState :=
  let root := toStr "ruleset-root" st.profile "default" st.ss
  let self := { st.self with rulesetRoot := root.value }
  match root.profile.find "ruleset-steps" with
  | none => (0, ⟨self, root.profile, root.ss⟩)
  | some str =>
    let self := { self with rulesetSteps := [] }
    match js.readOrThrow str with
    | .error (line, column, reason) =>
      (ERROR_LRC_PARSE_JSON, ⟨self, root.profile, root.ss ++ "failed to parse ruleset-steps='" ++
        str ++ "' at line " ++ toString line ++ ", column " ++ toString column ++ " : " ++ reason ++
        "\n"⟩)
    | .ok json =>
      match json.getArray with
      | some description =>
        let (ret, steps, msg) := parseRulesetFrom js str 0 description []
        (ret, ⟨{ self with rulesetSteps := steps }, root.profile, root.ss ++ msg⟩)
      | none =>
        (ERROR_LRC_ARRAY, ⟨self, root.profile, root.ss ++ "ruleset-steps='" ++ str ++
          "' must be a JSON array but is of type " ++ toString json.type ++ " instead\n"⟩)

/-! ## `init` -/

/-- `ErasureCodeOptLrc::parse`. -/
def parse (js : JsonSpirit) (st : InitState) : ℤ × InitState :=
  -- `ErasureCode::parse` is `to_mapping`
  let chunkMapping := match st.profile.find "mapping" with
    | none => st.self.chunkMapping
    | some mapping => st.self.chunkMapping ++ toMapping mapping.toList
  let st := { st with self := { st.self with chunkMapping := chunkMapping } }
  let (err, msg) := sanityCheckK st.self.k
  if err ≠ 0 then (err, { st with ss := st.ss ++ msg })
  else parseRuleset js st

/-- `ErasureCodeOptLrc::init`. -/
def init (st : InitState) : Option (ℤ × InitState) := do
  let (err, st) ← parseNkr st
  if err ≠ 0 then some (err, st)
  else
    let (err', st) := parse js st
    let err := bitOr err err'
    if err ≠ 0 then some (err, st)
    else some (err, { st with self := { st.self with profile := st.profile } })

/-- The parameters as the coding functions use them.  With a negative one they
leave the arrays they index. -/
def ErasureCodeOptLrc.codec (self : ErasureCodeOptLrc) : Option Codec :=
  if 0 ≤ self.n ∧ 0 ≤ self.k ∧ 0 ≤ self.r then
    some ⟨self.n.toNat, self.k.toNat, self.r.toNat, self.mapping⟩
  else none

/-! ## Reading the ruleset -/

/-- A return code that reports an error; all of them fit an `int`. -/
def IsError (ret : ℤ) : Prop := -5000 ≤ ret ∧ ret < 0

instance (ret : ℤ) : Decidable (IsError ret) := inferInstanceAs (Decidable (_ ∧ _))

/-- A return code is `0` when `p` holds and reports an error otherwise. -/
def Reports (ret : ℤ) (p : Prop) : Prop := (ret = 0 ∧ p) ∨ (IsError ret ∧ ¬ p)

variable {ret : ℤ} {p : Prop}

theorem Reports.of_error (h : IsError ret) (hp : ¬ p) : Reports ret p :=
  .inr ⟨h, hp⟩

theorem Reports.congr {q : Prop} (h : Reports ret p) (hpq : p ↔ q) : Reports ret q := by
  rwa [← hpq]

theorem Reports.eq_zero_iff (h : Reports ret p) : ret = 0 ↔ p := by
  rcases h with ⟨hret, hp⟩ | ⟨herr, hp⟩
  · exact iff_of_true hret hp
  · exact iff_of_false (by have := herr.2; omega) hp

theorem Reports.bitOr_zero (h : Reports ret p) : bitOr 0 ret = ret := by
  refine ErasureCode.bitOr_zero_left ?_
  rcases h with ⟨rfl, -⟩ | ⟨⟨h1, h2⟩, -⟩
  · decide
  · omega

theorem isError_errorLrcArray : IsError ERROR_LRC_ARRAY := by decide

theorem isError_errorLrcParseJson : IsError ERROR_LRC_PARSE_JSON := by decide

/-- Element `position` of a step has the type `parse_ruleset_step` asks for. -/
def ElementReadable (position : ℕ) (v : Json) : Prop :=
  (position = 0 ∨ position = 1 → v.type = Json.strType) ∧ (position = 2 → v.type = Json.intType)

/-- The loop accepts the steps all of whose elements are readable. -/
theorem parseRulesetStepFrom_cases (jsonString descriptionString : String) (l : List Json)
    (position : ℕ) (step : Step) :
    ((∀ i v, l[i]? = some v → ElementReadable (position + i) v) ∧
      ∃ step', parseRulesetStepFrom jsonString descriptionString position l step = .ok step') ∨
    (¬ (∀ i v, l[i]? = some v → ElementReadable (position + i) v) ∧
      ∃ ret msg, parseRulesetStepFrom jsonString descriptionString position l step =
        .error (ret, msg) ∧ IsError ret) := by
  induction l generalizing position step with
  | nil => exact .inl ⟨by simp, step, rfl⟩
  | cons v rest ih =>
    have hsplit : (∀ i w, (v :: rest)[i]? = some w → ElementReadable (position + i) w) ↔
        ElementReadable position v ∧
          ∀ i w, rest[i]? = some w → ElementReadable (position + 1 + i) w := by
      constructor
      · intro h
        refine ⟨h 0 v rfl, fun i w hw => ?_⟩
        have := h (i + 1) w hw
        rwa [show position + (i + 1) = position + 1 + i by omega] at this
      · rintro ⟨hv, hrest⟩ i w hw
        cases i with
        | zero => exact some.inj hw ▸ hv
        | succ i =>
          have := hrest i w hw
          rwa [show position + 1 + i = position + (i + 1) by omega] at this
    rw [hsplit, parseRulesetStepFrom]
    by_cases h1 : (position = 0 ∨ position = 1) ∧ v.type ≠ Json.strType
    · rw [if_pos h1]
      refine .inr ⟨fun hc => h1.2 (hc.1.1 h1.1), _, _, rfl, ?_⟩
      split <;> decide
    rw [if_neg h1]
    by_cases h2 : position = 2 ∧ v.type ≠ Json.intType
    · rw [if_pos h2]
      exact .inr ⟨fun hc => h2.2 (hc.1.2 h2.1), _, _, rfl, by decide⟩
    rw [if_neg h2]
    have hv : ElementReadable position v := by
      refine ⟨fun hp => ?_, fun hp => ?_⟩
      · by_contra hne
        exact h1 ⟨hp, hne⟩
      · by_contra hne
        exact h2 ⟨hp, hne⟩
    rcases ih (position + 1) _ with ⟨hall, hok⟩ | ⟨hall, herr⟩
    · exact .inl ⟨⟨hv, hall⟩, hok⟩
    · exact .inr ⟨fun hc => hall hc.2, herr⟩

/-- A step is an array of readable elements. -/
def StepReadable (v : Json) : Prop :=
  ∃ description, v.getArray = some description ∧
    ∀ i w, description[i]? = some w → ElementReadable (0 + i) w

theorem parseRulesetFrom_reports (str : String) (l : List Json) (position : ℕ) (steps : List Step) :
    Reports (parseRulesetFrom js str position l steps).1 (∀ v ∈ l, StepReadable v) := by
  induction l generalizing position steps with
  | nil => exact .inl ⟨rfl, by simp⟩
  | cons v rest ih =>
    rw [forall_mem_cons, parseRulesetFrom]
    cases harr : v.getArray with
    | none =>
      refine Reports.of_error isError_errorLrcArray ?_
      rintro ⟨⟨d, hd, -⟩, -⟩
      rw [harr] at hd
      cases hd
    | some description =>
      have hread : StepReadable v ↔
          ∀ i w, description[i]? = some w → ElementReadable (0 + i) w := by
        rw [StepReadable, harr]
        simp
      rw [hread]
      simp only [parseRulesetStep]
      rcases parseRulesetStepFrom_cases (js.write (.array description)) str description 0
        ⟨"", "", 0⟩ with ⟨hall, step, hok⟩ | ⟨hall, ret, msg, herr, hne⟩
      · rw [hok]
        exact (ih _ _).congr ⟨fun h => ⟨hall, h⟩, And.right⟩
      · rw [herr]
        exact Reports.of_error hne fun hc => hall hc.1

/-- `ruleset-steps` is absent, or the JSON text of an array of readable steps. -/
def RulesetReadable (profile : ErasureCodeProfile) : Prop :=
  ∀ str, profile.find "ruleset-steps" = some str →
    ∃ json description, js.readOrThrow str = .ok json ∧ json.getArray = some description ∧
      ∀ v ∈ description, StepReadable v

/-- The fields of the object the coding functions read are the same. -/
def SameCode (self self' : ErasureCodeOptLrc) : Prop :=
  self'.n = self.n ∧ self'.k = self.k ∧ self'.r = self.r ∧ self'.mapping = self.mapping

theorem parseRuleset_spec (st : InitState) :
    Reports (parseRuleset js st).1 (RulesetReadable js st.profile) ∧
      SameCode st.self (parseRuleset js st).2.self := by
  have hfind : (st.profile.orDefault "ruleset-root" "default").find "ruleset-steps" =
      st.profile.find "ruleset-steps" :=
    find_orDefault_of_ne _ _ (by decide)
  rw [parseRuleset, toStr]
  simp only [hfind, RulesetReadable]
  cases hsteps : st.profile.find "ruleset-steps" with
  | none => exact ⟨.inl ⟨rfl, by simp⟩, rfl, rfl, rfl, rfl⟩
  | some str =>
    simp only [some.injEq, forall_eq']
    cases hread : js.readOrThrow str with
    | error e =>
      exact ⟨Reports.of_error isError_errorLrcParseJson (by simp), rfl, rfl, rfl, rfl⟩
    | ok json =>
      simp only [Except.ok.injEq]
      cases harr : json.getArray with
      | none =>
        exact ⟨Reports.of_error isError_errorLrcArray (by simp [harr]), rfl, rfl, rfl, rfl⟩
      | some description =>
        refine ⟨(parseRulesetFrom_reports js str description 0 []).congr ?_, rfl, rfl, rfl, rfl⟩
        simp [harr]

/-! ## What `init` accepts -/

theorem parse_spec (st : InitState) :
    Reports (parse js st).1 (2 ≤ st.self.k ∧ RulesetReadable js st.profile) ∧
      SameCode st.self (parse js st).2.self := by
  rw [parse]
  by_cases hk : st.self.k < 2
  · have hneg : -einval ≠ 0 := by decide
    simp only [sanityCheckK, if_pos hk, if_pos hneg]
    exact ⟨Reports.of_error (by decide) (by omega), rfl, rfl, rfl, rfl⟩
  · have h2 : 2 ≤ st.self.k := by omega
    simp only [sanityCheckK, if_neg hk, ne_eq, not_true_eq_false, if_false]
    obtain ⟨hret, hsame⟩ := parseRuleset_spec js { st with self := { st.self with
      chunkMapping := match st.profile.find "mapping" with
        | none => st.self.chunkMapping
        | some mapping => st.self.chunkMapping ++ toMapping mapping.toList } }
    exact ⟨hret.congr ⟨fun h => ⟨h2, h⟩, And.right⟩, hsame⟩

/-- The number `to_int` finds in a field. -/
def fieldInt (profile : ErasureCodeProfile) (name defaultValue : String) : Except String ℤ :=
  strictStrtol (profile.text name defaultValue)

/-- The three numbers of a profile, when all of them can be read. -/
def readNkr (profile : ErasureCodeProfile) : Option (ℤ × ℤ × ℤ) := do
  let n ← (fieldInt profile "n" DEFAULT_N).toOption
  let k ← (fieldInt profile "k" DEFAULT_K).toOption
  let r ← (fieldInt profile "r" DEFAULT_R).toOption
  some (n, k, r)

theorem toInt_eq (name : String) (profile : ErasureCodeProfile) (defaultValue ss : String) :
    (toInt name profile defaultValue ss).ret =
        (if (fieldInt profile name defaultValue).toOption.isSome then 0 else -einval) ∧
      (toInt name profile defaultValue ss).value =
        (fieldInt profile name defaultValue).toOption.getD
          ((strictStrtol defaultValue).toOption.getD 0) := by
  cases h : fieldInt profile name defaultValue with
  | error err => exact toInt_of_error h ss
  | ok v => exact toInt_of_ok h ss

/-- The size check of `parse_nkr` sees an empty `chunk_mapping`. -/
theorem checkMappingSize_fresh (err : ℤ) {st : InitState} (h : st.self.chunkMapping = []) :
    checkMappingSize err st = some (err, st) := by
  rw [checkMappingSize, if_neg]
  simp [h]

/-- The object after the three numbers have been read, and the return code. -/
theorem readNkr_toInt (profile : ErasureCodeProfile) :
    let fn := toInt "n" profile DEFAULT_N ""
    let fk := toInt "k" fn.profile DEFAULT_K fn.ss
    let fr := toInt "r" fk.profile DEFAULT_R fk.ss
    bitOr (bitOr (bitOr 0 fn.ret) fk.ret) fr.ret =
        (if (readNkr profile).isSome then 0 else -einval) ∧
      (∀ n k r, readNkr profile = some (n, k, r) → fn.value = n ∧ fk.value = k ∧ fr.value = r) ∧
      (fr.value + 1 = 0 ↔ fieldInt profile "r" DEFAULT_R = .ok (-1)) ∧
      ∀ name, name ≠ "n" → name ≠ "k" → name ≠ "r" → fr.profile.find name = profile.find name := by
  intro fn fk fr
  have hk : fieldInt fn.profile "k" DEFAULT_K = fieldInt profile "k" DEFAULT_K := by
    rw [fieldInt, fieldInt, toInt_profile, text_orDefault_of_ne _ _ _ (by decide)]
  have hr : fieldInt fk.profile "r" DEFAULT_R = fieldInt profile "r" DEFAULT_R := by
    rw [fieldInt, fieldInt, toInt_profile, text_orDefault_of_ne _ _ _ (by decide),
      toInt_profile, text_orDefault_of_ne _ _ _ (by decide)]
  obtain ⟨hnret, hnval⟩ := toInt_eq "n" profile DEFAULT_N ""
  obtain ⟨hkret, hkval⟩ := toInt_eq "k" fn.profile DEFAULT_K fn.ss
  obtain ⟨hrret, hrval⟩ := toInt_eq "r" fk.profile DEFAULT_R fk.ss
  rw [hk] at hkret hkval
  rw [hr] at hrret hrval
  have hdefault : (strictStrtol DEFAULT_R).toOption.getD 0 = 2 := by decide +kernel
  refine ⟨?_, ?_, ?_, ?_⟩
  · rw [hnret, hkret, hrret, ErasureCode.bitOr_zero_left (by split <;> decide), bitOr_ite,
      bitOr_ite, readNkr]
    cases (fieldInt profile "n" DEFAULT_N).toOption <;>
      cases (fieldInt profile "k" DEFAULT_K).toOption <;>
      cases (fieldInt profile "r" DEFAULT_R).toOption <;> rfl
  · intro n k r h
    rw [hnval, hkval, hrval]
    obtain ⟨n', hn', h⟩ := of_bind h
    obtain ⟨k', hk', h⟩ := of_bind h
    obtain ⟨r', hr', h⟩ := of_bind h
    cases h
    rw [hn', hk', hr']
    exact ⟨rfl, rfl, rfl⟩
  · rw [hrval, hdefault]
    cases fieldInt profile "r" DEFAULT_R with
    | error err => exact iff_of_false (by simp [Except.toOption]) (by simp)
    | ok v =>
      rw [Except.ok.injEq]
      show v + 1 = 0 ↔ v = -1
      omega
  · intro name h1 h2 h3
    rw [toInt_profile, find_orDefault_of_ne _ _ h3, toInt_profile,
      find_orDefault_of_ne _ _ h2, toInt_profile,
      find_orDefault_of_ne _ _ h1]

variable {profile : ErasureCodeProfile}

/-- Without `mapping`, `parse_nkr` fails. -/
theorem parseNkr_of_no_mapping (h : profile.find "mapping" = none) :
    ∃ st, parseNkr { profile := profile } = some (ERROR_LRC_MAPPING, st) := by
  obtain ⟨-, -, -, hfind⟩ := readNkr_toInt profile
  rw [← hfind "mapping" (by decide) (by decide) (by decide)] at h
  rw [parseNkr, checkMappingSize_fresh _ rfl]
  simp only [bind_eq_bind, bind_some, h]
  exact ⟨_, rfl⟩

/-- **What `parse_nkr` does to a new object.**  With `r = -1` it divides by zero;
otherwise it takes over the three numbers and the mapping, whatever they are, and
reports whether the numbers could be read. -/
theorem parseNkr_of_mapping {m : String} (h : profile.find "mapping" = some m) :
    (fieldInt profile "r" DEFAULT_R = .ok (-1) ∧ parseNkr { profile := profile } = none) ∨
    (fieldInt profile "r" DEFAULT_R ≠ .ok (-1) ∧ ∃ st, parseNkr { profile := profile } =
          some (if (readNkr profile).isSome then 0 else -einval, st) ∧
        (∀ n k r, readNkr profile = some (n, k, r) →
          st.self.n = n ∧ st.self.k = k ∧ st.self.r = r ∧ st.self.mapping = toMapping m.toList) ∧
        st.profile.find "ruleset-steps" = profile.find "ruleset-steps") := by
  obtain ⟨herr, hval, hdiv, hfind⟩ := readNkr_toInt profile
  rw [← hfind "mapping" (by decide) (by decide) (by decide)] at h
  rw [parseNkr, checkMappingSize_fresh _ rfl]
  simp only [bind_eq_bind, bind_some, h]
  -- from here on only what is known about the three results matters
  generalize toInt "n" profile DEFAULT_N "" = fn at *
  generalize toInt "k" fn.profile DEFAULT_K fn.ss = fk at *
  generalize toInt "r" fk.profile DEFAULT_R fk.ss = fr at *
  by_cases hr : fieldInt profile "r" DEFAULT_R = .ok (-1)
  · exact .inl ⟨hr, if_pos (hdiv.2 hr)⟩
  · refine .inr ⟨hr, ?_⟩
    rw [if_neg (mt hdiv.1 hr), herr]
    refine ⟨_, rfl, fun n k r hread => ?_, ?_⟩
    · obtain ⟨h1, h2, h3⟩ := hval n k r hread
      exact ⟨h1, h2, h3, rfl⟩
    · exact hfind "ruleset-steps" (by decide) (by decide) (by decide)

/-- **What `init` does with a new object** whose profile has a mapping and does not
set `r` to `-1`: it succeeds exactly if the numbers can be read, `k` is at least
`2` and the ruleset can be read, and then the object holds these numbers. -/
theorem init_of_mapping {m : String} (h : profile.find "mapping" = some m)
    (hr : fieldInt profile "r" DEFAULT_R ≠ .ok (-1)) :
    ∃ ret st, init js { profile := profile } = some (ret, st) ∧
      (ret = 0 ↔ ∃ n k r, readNkr profile = some (n, k, r) ∧ 2 ≤ k ∧ RulesetReadable js profile) ∧
      (ret = 0 → ∀ n k r, readNkr profile = some (n, k, r) →
        st.self.n = n ∧ st.self.k = k ∧ st.self.r = r ∧ st.self.mapping = toMapping m.toList) := by
  rcases parseNkr_of_mapping h with ⟨hr', -⟩ | ⟨-, st, hst, hself, hsteps⟩
  · exact absurd hr' hr
  rw [init, hst]
  simp only [bind_eq_bind, bind_some]
  cases hread : readNkr profile with
  | none =>
    exact ⟨_, _, rfl, iff_of_false (by decide) (by simp), fun _ n k r h => by cases h⟩
  | some nkr =>
    obtain ⟨n, k, r⟩ := nkr
    obtain ⟨hn, hk, hr, hm⟩ := hself n k r hread
    obtain ⟨hrep, hsn, hsk, hsr, hsm⟩ := parse_spec js st
    have hsteps' : RulesetReadable js st.profile ↔ RulesetReadable js profile := by
      rw [RulesetReadable, RulesetReadable, hsteps]
    rw [hk, hsteps'] at hrep
    simp only [isSome_some, if_true, hrep.bitOr_zero]
    have hiff : (parse js st).1 = 0 ↔
        ∃ n' k' r', some (n, k, r) = some (n', k', r') ∧ 2 ≤ k' ∧ RulesetReadable js profile := by
      rw [hrep.eq_zero_iff]
      constructor
      · exact fun hc => ⟨n, k, r, rfl, hc⟩
      · rintro ⟨n', k', r', heq, hc⟩
        cases heq
        exact hc
    by_cases hret : (parse js st).1 ≠ 0
    · rw [if_pos hret]
      exact ⟨_, _, rfl, hiff, fun hc => absurd hc hret⟩
    · rw [if_neg hret]
      refine ⟨_, _, rfl, hiff, fun _ n' k' r' heq => ?_⟩
      cases heq
      exact ⟨hsn.trans hn, hsk.trans hk, hsr.trans hr, hsm.trans hm⟩

/-! ## Usable profiles -/

/-- The object is fit for coding: its matrix is registered, the mapping string
has `n` characters and `k` `'D'`s, the `j`-th of which is on the unit row of
column `j`, and neither `encode_chunks` nor `decode_chunks` leaves what was
filled in, whatever buffers of one length they are given. -/
structure Usable [Jerasure] (self : ErasureCodeOptLrc) (mapstr : List Char) : Prop where
  codec : ∃ c g, self.codec = some c ∧ configs c.n c.k c.r = some g ∧ mapstr.length = c.n ∧
    mapstr.count 'D' = c.k ∧
    (∀ j < c.k, ∃ i, c.mapping[j]? = some i ∧ mapstr[i]? = some 'D' ∧ g.unitRow c.k i = some j) ∧
    (∀ b encoded, (∀ i < c.n, ∃ buf, encoded i = some buf ∧ buf.length = b) →
      (encodeChunks c encoded).isSome) ∧ ∀ b want chunks decoded, (∃ i < c.n, (chunks i).isSome) →
      (∀ i buf, chunks i = some buf → buf.length = b) →
      (∀ i < c.n, ∃ buf, decoded i = some buf ∧ buf.length = b) →
      (decodeChunks c want chunks decoded).isSome

variable {g : OptLRC}

/-- Different unit rows belong to different columns. -/
theorem unitRow_injective {n k r : ℕ} (hg : configs n k r = some g) {i i' j : ℕ} (hi : i < n)
    (hi' : i' < n) (h : g.unitRow k i = some j) (h' : g.unitRow k i' = some j) :
    i = i' := by
  have horder : (g.unitRows n k).map (g.unitRow k) = (range k).map some :=
    unitRows_in_column_order _ (mem_of_configs hg)
  have hnd : ((g.unitRows n k).map (g.unitRow k)).Nodup := by
    rw [horder]
    exact nodup_range.map (some_injective _)
  have hmem : ∀ x < n, g.unitRow k x = some j → x ∈ g.unitRows n k := by
    intro x hx hu
    exact mem_filter.2 ⟨mem_range.2 hx, by rw [hu]; rfl⟩
  exact inj_on_of_nodup_map hnd (hmem i hi h) (hmem i' hi' h') (h.trans h'.symm)

theorem length_unitRows {n k r : ℕ} (hg : configs n k r = some g) :
    (g.unitRows n k).length = k := by
  have horder : (g.unitRows n k).map (g.unitRow k) = (range k).map some :=
    unitRows_in_column_order _ (mem_of_configs hg)
  simpa using congrArg length horder

/-- The `'D'`s of the mapping string, as many as `count` says. -/
theorem length_filter_D (s : List Char) :
    ((range s.length).filter fun i => s[i]? = some 'D').length = s.count 'D' := by
  have hfst : s.zipIdx.map Prod.fst = s := zipIdx_map_fst 0 s
  have hfilter : (range s.length).filter (fun i => s[i]? = some 'D') =
      (s.zipIdx.filter fun x => decide (x.1 = 'D')).map (·.2) := by
    rw [map_snd_filter_zipIdx fun a => a = 'D']
    refine filter_congr fun i hi => ?_
    rw [List.getElem?_eq_getElem (mem_range.1 hi)]
    simp
  rw [hfilter, length_map, ← countP_eq_length_filter, List.count]
  conv_rhs => rw [← hfst, countP_map]
  rfl

/-- `n` characters and `k` `'D'`s, the `j`-th on the unit row of column `j`: that is
the same as a `'D'` on the unit rows and nowhere else. -/
theorem placed_iff {n k r : ℕ} (hg : configs n k r = some g) (s : List Char) :
    (s.length = n ∧ s.count 'D' = k ∧ ∀ j < k, ∃ i, (toMapping s)[j]? = some i ∧
      s[i]? = some 'D' ∧ g.unitRow k i = some j) ↔ DataOnUnitRows g n k s := by
  constructor
  · rintro ⟨hlen, hcount, hplace⟩
    have hmap := toMapping_eq (p := fun i => decide (s[i]? = some 'D')) hlen (by simp)
    have hk := length_filter_D s
    rw [hlen, hcount] at hk
    have hlt : ∀ i, s[i]? = some 'D' → i < n := by
      intro i hi
      obtain ⟨h, -⟩ := List.getElem?_eq_some_iff.1 hi
      omega
    refine ⟨hlen, fun i hi => ⟨fun hD => ?_, fun hunit => ?_⟩⟩
    · -- `i` is the `j`-th `'D'` for some `j`
      have hmem : i ∈ (range n).filter fun i => decide (s[i]? = some 'D') :=
        mem_filter.2 ⟨mem_range.2 hi, by simpa using hD⟩
      obtain ⟨j, hj, hji⟩ := getElem_of_mem hmem
      obtain ⟨i', hi', -, hu⟩ := hplace j (by omega)
      rw [hmap, List.getElem?_append_left hj, List.getElem?_eq_getElem hj, hji, some.injEq] at hi'
      rw [hi', hu]
      rfl
    · obtain ⟨j, hu⟩ := isSome_iff_exists.1 hunit
      obtain ⟨i', -, hD, hu'⟩ := hplace j (entry_of_unitRow hu).1
      rwa [unitRow_injective hg hi (hlt i' hD) hu hu']
  · rintro ⟨hlen, hD⟩
    have hfilter : (range n).filter (fun i => decide (s[i]? = some 'D')) = g.unitRows n k := by
      refine filter_congr fun i hi => ?_
      rw [Bool.eq_iff_iff, decide_eq_true_iff]
      exact hD i (mem_range.1 hi)
    refine ⟨hlen, ?_, fun j hj => ?_⟩
    · rw [← length_filter_D, hlen, hfilter, length_unitRows hg]
    · obtain ⟨i, hi, hu⟩ := (mapped_of_string hg hlen hD).unit j hj
      have hin : i < n := (mapped_of_string hg hlen hD).mem_iff.1 (mem_of_getElem? hi)
      exact ⟨i, hi, (hD i hin).2 (by rw [show g.unitRow k i = some j from hu]; rfl), hu⟩

/-- With the mapping on the unit rows of a registered matrix, the object is usable. -/
theorem usable_of_dataOnUnitRows [Jerasure] {self : ErasureCodeOptLrc} {n k r : ℕ}
    (hg : configs n k r = some g) {s : List Char} (hD : DataOnUnitRows g n k s) (hn : self.n = n)
    (hk : self.k = k) (hr : self.r = r) (hm : self.mapping = toMapping s) :
    Usable self s := by
  have hcodec : self.codec = some (codecOf n k r s) := by
    rw [ErasureCodeOptLrc.codec, hn, hk, hr, hm]
    rfl
  obtain ⟨hlen, hcount, hplace⟩ := (placed_iff hg s).2 hD
  have hM := hD.mapped hg
  refine ⟨codecOf n k r s, g, hcodec, hg, hlen, hcount, hplace, ?_, ?_⟩
  · intro b encoded hbuf
    obtain ⟨enc, henc, -⟩ := encodeChunks_stripe hM hbuf
    rw [henc]
    rfl
  · rintro b - chunks decoded ⟨i, hi, hsome⟩ hchunks hdec
    refine decodeChunks_isSome hM.config (mates_nonempty hM.config) _
      (ChunkMap.length_begin hchunks hi hsome) fun i hi => ?_
    obtain ⟨buf, hbuf, hl⟩ := hdec i hi
    rw [ChunkMap.at_some hbuf, hl]

/-- `init` of a new object does not divide by zero, and if it returns `0` then
the object is usable with the profile's mapping. -/
def InitSafe [Jerasure] (profile : ErasureCodeProfile) : Prop :=
  ∃ ret st, init js { profile := profile } = some (ret, st) ∧
    (ret = 0 → ∃ m, profile.find "mapping" = some m ∧ Usable st.self m.toList)

/-- **Which profiles are safe.**  The profile has no mapping; or `r` is not `-1`
and the profile is refused (a number or the ruleset cannot be read, or `k` is
less than `2`) or it names a registered matrix with a `'D'` on its unit rows and
nowhere else.  All others are accepted and not usable, or divide by zero. -/
theorem initSafe_iff [Jerasure] (js : JsonSpirit) (profile : ErasureCodeProfile) :
    InitSafe js profile ↔
      ∀ m, profile.find "mapping" = some m → fieldInt profile "r" DEFAULT_R ≠ .ok (-1) ∧
        ∀ n k r : ℤ, readNkr profile = some (n, k, r) → 2 ≤ k → RulesetReadable js profile →
          0 ≤ n ∧ 0 ≤ r ∧ ∃ g, configs n.toNat k.toNat r.toNat = some g ∧
            DataOnUnitRows g n.toNat k.toNat m.toList := by
  cases hm : profile.find "mapping" with
  | none =>
    refine iff_of_true ?_ (by simp)
    obtain ⟨st, hst⟩ := parseNkr_of_no_mapping hm
    refine ⟨ERROR_LRC_MAPPING, st, ?_, fun hc => absurd hc (by decide)⟩
    rw [init, hst, bind_eq_bind, bind_some]
    exact if_pos (by decide)
  | some m =>
    simp only [some.injEq, forall_eq']
    by_cases hr : fieldInt profile "r" DEFAULT_R = .ok (-1)
    · refine iff_of_false ?_ fun hc => hc.1 hr
      rintro ⟨ret, st, hinit, -⟩
      rcases parseNkr_of_mapping hm with ⟨-, hnone⟩ | ⟨hne, -⟩
      · rw [init, hnone] at hinit
        cases hinit
      · exact hne hr
    · obtain ⟨ret, st, hinit, hret, hself⟩ := init_of_mapping js hm hr
      constructor
      · rintro ⟨ret', st', hinit', husable⟩
        rw [hinit] at hinit'
        obtain ⟨rfl, rfl⟩ := hinit'
        refine ⟨hr, fun n k r hread hk hrule => ?_⟩
        have hzero : ret = 0 := hret.2 ⟨n, k, r, hread, hk, hrule⟩
        obtain ⟨rfl, rfl, rfl, hmap⟩ := hself hzero n k r hread
        obtain ⟨m', hm', c, g, hcodec, hg, hlen, hcount, hplace, -⟩ := husable hzero
        rw [hm, some.injEq] at hm'
        subst hm'
        rw [ErasureCodeOptLrc.codec] at hcodec
        by_cases hpos : 0 ≤ st.self.n ∧ 0 ≤ st.self.k ∧ 0 ≤ st.self.r
        · rw [if_pos hpos, some.injEq] at hcodec
          subst hcodec
          simp only [hmap] at hplace
          exact ⟨hpos.1, hpos.2.2, g, hg, (placed_iff hg _).1 ⟨hlen, hcount, hplace⟩⟩
        · rw [if_neg hpos] at hcodec
          cases hcodec
      · rintro ⟨-, hgood⟩
        refine ⟨ret, st, hinit, fun hzero => ⟨m, hm, ?_⟩⟩
        obtain ⟨n, k, r, hread, hk, hrule⟩ := hret.1 hzero
        obtain ⟨hn0, hr0, g, hg, hD⟩ := hgood n k r hread hk hrule
        obtain ⟨hn, hk', hr', hmap⟩ := hself hzero n k r hread
        exact usable_of_dataOnUnitRows hg hD (by omega) (by omega) (by omega) hmap

/-- A profile that only says `mapping=DD__` is accepted, with `n = 9` and four
entries in the mapping; the first `encode_chunks` then reads pointers of
`chunks[]` that nobody set. -/
theorem init_accepts_short_mapping :
    ∃ st c, init ⟨fun _ => .ok .null, fun _ => ""⟩ { profile := [("mapping", "DD__")] } =
        some (0, st) ∧ st.self.codec = some c ∧ c.n = 9 ∧ c.mapping.length = 4 ∧
      encodeChunks c (fun i => if i < 9 then some [0] else none) = none := by
  have hrun : (init ⟨fun _ => .ok .null, fun _ => ""⟩ { profile := [("mapping", "DD__")] }).map
      (fun res => (res.1, res.2.self.codec.map fun c => (c.n, c.mapping.length,
        (encodeChunks c fun i => if i < 9 then some [0] else none).isNone))) =
      some (0, some (9, 4, true)) := by
    decide +kernel
  obtain ⟨⟨ret, st⟩, hinit, hval⟩ := of_map hrun
  rw [Prod.mk.injEq] at hval
  obtain ⟨rfl, hcodec⟩ := hval
  obtain ⟨c, hc, hval⟩ := of_map hcodec
  simp only [Prod.mk.injEq, isNone_iff_eq_none] at hval
  exact ⟨st, c, hinit, hc, hval⟩

end Ceph.OptLrc
