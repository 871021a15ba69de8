import Edgion.Http.MatchUnit

/-!
# HTTP plugins — request restriction

A rule reads one value of the request and denies it, allows it or, when the value is missing and the
rule says so, is skipped. In `All` mode `evaluate_rules` compares the denials with the number of all
rules, the skipped ones included, so a skipped rule lets through what the others all deny;
`decidesRight_iff` says that nothing else goes wrong.
-/

namespace Edgion.Http

open Text List

inductive RestrictionSource
  | header | cookie | query | path | method | referer

namespace RestrictionSource

/-- Its `Debug` text. -/
def debug : RestrictionSource → String
  | header => "Header"
  | cookie => "Cookie"
  | query => "Query"
  | path => "Path"
  | method => "Method"
  | referer => "Referer"

def needsKey : RestrictionSource → Bool
  | header | cookie | query => true
  | path | method | referer => false

end RestrictionSource

inductive OnMissing
  | allow | deny | skip

inductive RuleMatchMode
  | any | all

/-- The `regex` crate, and the standard library's `str::to_lowercase`. -/
structure TextLib extends RegexLib where
  toLowercase : String → String

/-- `RestrictionRule`, with what `compile` makes of its lists. -/
structure RestrictionRule (R : TextLib) where
  name : Option String := none
  source : RestrictionSource := .header
  key : Option String := none
  allow : Option (List String) := none
  allowRegex : Option (List String) := none
  deny : Option (List String) := none
  denyRegex : Option (List String) := none
  caseSensitive : Bool := true
  onMissing : OnMissing := .allow
  allowSet : Option (List String) := none
  allowCompiledRegex : Option R.Regex := none
  denySet : Option (List String) := none
  denyCompiledRegex : Option R.Regex := none

structure RequestRestrictionConfig (R : TextLib) where
  rules : List (RestrictionRule R)
  matchMode : RuleMatchMode := .any
  status : ℕ := 403

/-- What a plugin reads of a request. -/
structure PluginSession where
  headerValue : String → Option String
  getCookie : String → Option String
  getQueryParam : String → Option String
  getPath : String
  getMethod : String

variable {R : TextLib} (session : PluginSession)

namespace RestrictionRule

variable (rule : RestrictionRule R) (field : String)

/-- The values of a list, as a set if there are more than 16. -/
def compileValues (set : Option (List String)) :
    Option (List String) → Except String (Option (List String))
  | none => .ok set
  | some values =>
    if values.isEmpty then .error s!"'{field}' list cannot be empty"
    else if values.length > 16 then
      .ok (some (if rule.caseSensitive then values else values.map R.toLowercase))
    else .ok set

/-- The patterns of a list, as one. -/
def compilePatterns (regex : Option R.Regex) :
    Option (List String) → Except String (Option R.Regex)
  | none => .ok regex
  | some patterns =>
    if patterns.isEmpty then .error s!"'{field}' list cannot be empty"
    else match R.new ("|".intercalate patterns) with
      | .ok regex => .ok (some regex)
      | .error e => .error s!"Invalid {field}: {e}"

def compile : Except String (RestrictionRule R) := do
  let allowSet ← rule.compileValues "allow" rule.allowSet rule.allow
  let allowCompiledRegex ← compilePatterns "allowRegex" rule.allowCompiledRegex rule.allowRegex
  let denySet ← rule.compileValues "deny" rule.denySet rule.deny
  let denyCompiledRegex ← compilePatterns "denyRegex" rule.denyCompiledRegex rule.denyRegex
  .ok { rule with allowSet, allowCompiledRegex, denySet, denyCompiledRegex }

def hasAllowList : Bool := rule.allow.isSome || rule.allowRegex.isSome

/-- What `validate_and_compile` does with the rule at an index. -/
def validate (i : ℕ) : Except String (RestrictionRule R) :=
  let ruleName := rule.name.getD s!"rule[{i}]"
  if rule.source.needsKey && rule.key.getD "" == "" then
    .error s!"Rule '{ruleName}': 'key' is required for source {rule.source.debug}"
  else if !rule.hasAllowList && !(rule.deny.isSome || rule.denyRegex.isSome) then
    .error (s!"Rule '{ruleName}': at least one of 'allow', 'allowRegex', 'deny', or 'denyRegex' " ++
      "must be specified")
  else rule.compile.mapError fun e => s!"Rule '{ruleName}': {e}"

/-- Whether a value is in a list: in its set or among its values, or by its patterns. -/
def listed (set values : Option (List String)) (regex : Option R.Regex) (value : String) : Bool :=
  (match set with
    | some set => set.contains (if rule.caseSensitive then value else R.toLowercase value)
    | none => (values.getD []).any fun v =>
        if rule.caseSensitive then value == v else eqIgnoreAsciiCase value v) ||
    regex.any fun regex => R.isMatch regex value

def matchesDeny : String → Bool := rule.listed rule.denySet rule.deny rule.denyCompiledRegex

def matchesAllow : String → Bool := rule.listed rule.allowSet rule.allow rule.allowCompiledRegex

/-- `RestrictionRule::check_value`: whether the value is denied, unless the rule is skipped. -/
def checkValue : Option String → Option Bool
  | none => match rule.onMissing with
    | .allow => some false
    | .deny => some true
    | .skip => none
  | some value =>
    if rule.matchesDeny value then some true
    else if rule.hasAllowList then some (!rule.matchesAllow value)
    else some false

def displayName : String := rule.name.getD (rule.source.debug ++ ":" ++ rule.key.getD "")

def getValue : Option String :=
  match rule.source with
  | .header => rule.key.bind session.headerValue
  | .cookie => rule.key.bind session.getCookie
  | .query => rule.key.bind session.getQueryParam
  | .path => some session.getPath
  | .method => some session.getMethod
  | .referer => session.headerValue "Referer"

/-- What a rule says of a request. -/
def answer : Option Bool := rule.checkValue (rule.getValue session)

end RestrictionRule

namespace RequestRestrictionConfig

variable (config : RequestRestrictionConfig R)

def validateAndCompile : Except String (RequestRestrictionConfig R) :=
  if config.rules.isEmpty then .error "At least one rule must be specified"
  else if config.status < 100 || config.status ≥ 600 then
    .error s!"Invalid status code: {config.status}"
  else do
    let rules ← config.rules.zipIdx.mapM fun (rule, i) => rule.validate i
    .ok { config with rules }

/-- The loop of `evaluate_rules`, with its count and the name of the first rule that denied. -/
def evaluateFrom (mode : RuleMatchMode) (totalRules : ℕ) :
    List (RestrictionRule R) → ℕ → Option String → Bool × Option String
  | [], deniedCount, deniedRuleName =>
    match mode with
    | .any => (false, none)
    | .all => (decide (deniedCount > 0 ∧ deniedCount = totalRules), deniedRuleName)
  | rule :: rules, deniedCount, deniedRuleName =>
    match rule.answer session, mode with
    | some true, .any => (true, deniedRuleName.or (some rule.displayName))
    | some true, .all => evaluateFrom mode totalRules rules (deniedCount + 1)
        (deniedRuleName.or (some rule.displayName))
    | some false, .all => (false, none)
    | some false, .any => evaluateFrom mode totalRules rules deniedCount deniedRuleName
    | none, _ => evaluateFrom mode totalRules rules deniedCount deniedRuleName

/-- `RequestRestriction::evaluate_rules`: whether the request is denied, and by which rule. -/
def evaluateRules : Bool × Option String :=
  evaluateFrom session config.matchMode config.rules.length config.rules 0 none

/-! ## The decision -/

/-- What the rules say, one after the other. -/
def answers : List (Option Bool) := config.rules.map (RestrictionRule.answer session)

/-- **The decision is right**: the rules that are not skipped decide, and a skipped one never turns
a denial into an admission. -/
def DecidesRight : Prop :=
  ((config.evaluateRules session).1 = true ↔
    match config.matchMode with
    | .any => some true ∈ config.answers session
    | .all => (∃ a ∈ config.answers session, a ≠ none) ∧
        ∀ a ∈ config.answers session, a ≠ none → a = some true) ∧
  ∀ before rule after, config.rules = before ++ rule :: after → rule.answer session = none →
    (evaluateRules session { config with rules := before ++ after }).1 = true →
    (config.evaluateRules session).1 = true

/-- In `All` mode, where a rule is skipped another one allows, or all are skipped. -/
def SkipsHarmlessly : Prop :=
  config.matchMode = .all → none ∈ config.answers session →
    some false ∈ config.answers session ∨ ∀ a ∈ config.answers session, a = none

/-- When `evaluate_rules` denies: in `All` mode every rule has to, the skipped ones too. -/
def Denies (as : List (Option Bool)) : RuleMatchMode → Prop
  | .any => some true ∈ as
  | .all => as ≠ [] ∧ ∀ a ∈ as, a = some true

variable {session config} {n total : ℕ} {name : Option String} {rules : List (RestrictionRule R)}

open RestrictionRule

theorem evaluateFrom_any : (evaluateFrom session .any total rules n name).1 ↔
      some true ∈ rules.map (answer session) := by
  induction rules generalizing n name with
  | nil => simp [evaluateFrom]
  | cons rule rules ih =>
    rcases h : rule.answer session with _ | _ | _ <;> simp [evaluateFrom, h, ih]

theorem evaluateFrom_all : (evaluateFrom session .all total rules n name).1 ↔
      some false ∉ rules.map (answer session) ∧
        0 < n + (rules.map (answer session)).count (some true) ∧
        n + (rules.map (answer session)).count (some true) = total := by
  induction rules generalizing n name with
  | nil => simp [evaluateFrom]
  | cons rule rules ih =>
    rcases h : rule.answer session with _ | _ | _
    · simp [evaluateFrom, h, ih]
    · simp [evaluateFrom, h]
    · simp [evaluateFrom, h, ih, Nat.add_assoc, Nat.add_comm 1]

theorem evaluateRules_iff :
    (config.evaluateRules session).1 ↔ Denies (config.answers session) config.matchMode := by
  rw [evaluateRules]
  cases config.matchMode with
  | any => exact evaluateFrom_any
  | all =>
    have hlen : config.rules.length = (config.answers session).length := (length_map _).symm
    rw [evaluateFrom_all, ← answers, hlen, Nat.zero_add, count_eq_length]
    constructor
    · rintro ⟨-, hpos, hall⟩
      exact ⟨ne_nil_of_mem (count_pos_iff.1 hpos), fun a ha => (hall a ha).symm⟩
    · rintro ⟨hne, hall⟩
      obtain ⟨a, ha⟩ := exists_mem_of_ne_nil _ hne
      refine ⟨fun hfalse => ?_, count_pos_iff.2 (hall a ha ▸ ha), fun a ha => (hall a ha).symm⟩
      cases hall _ hfalse

/-- **When the decision is right.** -/
theorem decidesRight_iff : config.DecidesRight session ↔ config.SkipsHarmlessly session := by
  unfold DecidesRight SkipsHarmlessly
  simp only [evaluateRules_iff]
  rcases config.matchMode with _ | _
  · refine ⟨fun _ h => (by cases h), fun _ => ⟨.rfl, fun before rule after hrules _ hdenied => ?_⟩⟩
    simp only [Denies, answers, hrules, map_append, map_cons, mem_append, mem_cons] at hdenied ⊢
    exact hdenied.imp_right .inr
  · constructor
    · rintro ⟨hiff, -⟩ - hskipped
      by_contra hcon
      push Not at hcon
      -- the rules that are not skipped all deny, but the skipped one is counted as well
      have hdenied := hiff.2 ⟨hcon.2, fun a ha hne => by
        rcases a with _ | _ | _
        · exact absurd rfl hne
        · exact absurd ha hcon.1
        · rfl⟩
      cases hdenied.2 none hskipped
    · intro h
      have hiff : Denies (config.answers session) .all ↔ (∃ a ∈ config.answers session, a ≠ none) ∧
            ∀ a ∈ config.answers session, a ≠ none → a = some true := by
        refine ⟨fun ⟨hne, hall⟩ => ?_, fun ⟨⟨a, ha, hne⟩, hall⟩ => ?_⟩
        · obtain ⟨a, ha⟩ := exists_mem_of_ne_nil _ hne
          exact ⟨⟨a, ha, by simp [hall a ha]⟩, fun a ha _ => hall a ha⟩
        · refine ⟨ne_nil_of_mem ha, fun b hb => hall b hb fun hnil => ?_⟩
          rcases h rfl (hnil ▸ hb) with hfalse | hnone
          · cases hall _ hfalse (by simp)
          · exact hne (hnone a ha)
      refine ⟨hiff, fun before rule after hrules hskipped ⟨hne, hall⟩ => hiff.2 ?_⟩
      obtain ⟨a, ha⟩ := exists_mem_of_ne_nil _ hne
      have hrest : ∀ b, b ∈ config.answers session ↔ b = none ∨
          b ∈ answers session { config with rules := before ++ after } := by
        intro b
        simp only [answers, hrules, map_append, map_cons, hskipped, mem_append, mem_cons]
        tauto
      exact ⟨⟨a, (hrest a).2 (.inr ha), by simp [hall a ha]⟩,
        fun b hb hb' => hall b (((hrest b).1 hb).resolve_left hb')⟩

/-- Two rules, of which the first is skipped without its header. -/
def tokenAndPath : List (RestrictionRule ⟨plainRegex, id⟩) :=
  [{ key := some "X-Token", deny := some ["x"], onMissing := .skip },
    { source := .path, deny := some ["/admin"] }]

/-- A request for the path, without the header. -/
def toAdmin : PluginSession := ⟨fun _ => none, fun _ => none, fun _ => none, "/admin", "GET"⟩

/-- **A skipped rule admits what the other one denies.** -/
theorem not_decidesRight_skipped :
    validateAndCompile ⟨tokenAndPath, .all, 403⟩ = .ok ⟨tokenAndPath, .all, 403⟩ ∧
      (evaluateRules toAdmin ⟨tokenAndPath, .all, 403⟩).1 = false ∧
      (evaluateRules toAdmin ⟨tokenAndPath.tail, .all, 403⟩).1 = true ∧
      ¬ DecidesRight toAdmin ⟨tokenAndPath, .all, 403⟩ := by
  refine ⟨rfl, rfl, rfl, fun h => ?_⟩
  have hdenied := h.2 [] _ tokenAndPath.tail rfl rfl rfl
  cases hdenied

end RequestRestrictionConfig

end Edgion.Http
