import Edgion.Common.Parts

/-!
# HTTP requests — the key of a rate limit

The plugin counts a request under the values of the configured sources
that it has, joined by underscores. A value may hold underscores itself,
and a source that is missing leaves no trace: requests that differ may be
counted together. `separates_iff` says when they are not.
-/

namespace Edgion.Http

open List

inductive KeyGet
  | clientIp
  | header (name : String)
  | cookie (name : String)
  | query (name : String)
  | path
  | method
  | ctx (name : String)
  | clientIpAndPath
  | webhook (webhookRef extract : String)

inductive OnMissingKey
  | allow
  | deny

/-- `RateLimitConfig`, as far as it decides on the key. -/
structure RateLimitConfig where
  key : List KeyGet
  defaultKey : Option String
  onMissingKey : OnMissingKey
  validationError : Option String

/-- What `run_request` does before it counts. -/
inductive LimitKey
  | goodNext
  | reject
  | observe (limitKey : String)
deriving DecidableEq

namespace RateLimitConfig

-- what `key_get` of a request's session answers
variable (config : RateLimitConfig) (s s' : KeyGet → Option String)

/-- `run_request`, up to the count. -/
def runRequest : LimitKey :=
  if config.validationError.isSome then .goodNext
  else
    match config.key.filterMap s with
    | [] =>
      match config.defaultKey, config.onMissingKey with
      | some defaultKey, _ => .observe defaultKey
      | none, .allow => .goodNext
      | none, .deny => .reject
    | parts => .observe ("_".intercalate parts)

/-- Two requests that have a source each and differ in one are **counted under
different keys**. -/
def Separates : Prop :=
  config.validationError = none → config.key.filterMap s ≠ [] → config.key.filterMap s' ≠ [] →
    (∃ k ∈ config.key, s k ≠ s' k) → config.runRequest s ≠ config.runRequest s'

/-- The values of a request, cut at their underscores. -/
def pieces : List (List Char) := (config.key.filterMap s).flatMap (·.toList.splitOn '_')

variable {config s s'}

theorem splitOn_intercalate_eq {parts : List (List Char)} (h : parts ≠ []) :
    (['_'].intercalate parts).splitOn '_' = parts.flatMap (·.splitOn '_') := by
  induction parts with
  | nil => exact absurd rfl h
  | cons part parts ih =>
    rcases parts with - | ⟨next, rest⟩
    · simp
    · have hrest := ih (cons_ne_nil _ _)
      rw [splitOn_eq_splitOnP] at hrest
      rw [intercalate_cons_cons, append_assoc, singleton_append, flatMap_cons, splitOn_eq_splitOnP,
        splitOn_eq_splitOnP, splitOnP_append_cons _ _ (by simp), hrest]

/-- The key is known by its pieces. -/
theorem exists_runRequest (hvalid : config.validationError = none)
    (h : config.key.filterMap s ≠ []) :
    ∃ key, config.runRequest s = .observe key ∧ key.toList.splitOn '_' = config.pieces s := by
  refine ⟨"_".intercalate (config.key.filterMap s), ?_, ?_⟩
  · simp only [runRequest, hvalid]
    split
    · contradiction
    · rfl
  · have hsep : "_".toList = ['_'] := rfl
    rw [String.toList_intercalate, hsep, splitOn_intercalate_eq (by simpa using h), flatMap_map]
    rfl

/-- **Two requests are kept apart if and only if** they agree in all sources or
their values, cut at the underscores, are not the same pieces. -/
theorem separates_iff : config.Separates s s' ↔
    (config.validationError = none → config.key.filterMap s ≠ [] → config.key.filterMap s' ≠ [] →
      (∀ k ∈ config.key, s k = s' k) ∨ config.pieces s ≠ config.pieces s') := by
  refine forall_congr' fun hvalid => forall_congr' fun hs => forall_congr' fun hs' => ?_
  obtain ⟨key, hkey, hpieces⟩ := exists_runRequest hvalid hs
  obtain ⟨key', hkey', hpieces'⟩ := exists_runRequest hvalid hs'
  have hinj : Function.Injective fun key : List Char => key.splitOn '_' :=
    Function.LeftInverse.injective fun _ => intercalate_splitOn '_'
  rw [hkey, hkey', ← hpieces, ← hpieces', ne_eq, LimitKey.observe.injEq, ne_eq, hinj.eq_iff,
    String.toList_inj, imp_iff_not_or, not_exists]
  simp only [not_and, not_not]

/-- A request with two headers. -/
def twoHeaders (a b : String) : KeyGet → Option String
  | .header "x-a" => some a
  | .header "x-b" => some b
  | _ => none

/-- **The underscore moves** from one header to the other, and the key stays. -/
theorem not_separates_twoHeaders :
    ¬ Separates ⟨[.header "x-a", .header "x-b"], none, .allow, none⟩ (twoHeaders "a" "b_c")
      (twoHeaders "a_b" "c") := by
  intro h
  refine h rfl (by decide) (by decide) ⟨.header "x-a", by simp, by decide⟩ ?_
  decide +kernel

end RateLimitConfig

end Edgion.Http
