import Edgion.RadixTree.Entries

/-!
# HTTP routes — weighing paths

`RadixPath` is a path of a route as the engine keeps it: consecutive slashes merged, with a weight
that candidates are sorted by. A path's segments count first and the kind of the path breaks ties.
As a parameter stands for one segment, a pattern has as many segments as what it matches, so the
weight compares the segments that patterns match of one request.
-/

namespace Edgion.Http

open RadixTree List Nat

/-! ## The model -/

/-- The loop of `normalize_path`, given whether a slash came before. -/
def mergeSlashes : Bool → List Char → List Char
  | _, [] => []
  | prevWasSlash, c :: rest =>
    if c = '/' then
      if prevWasSlash then mergeSlashes true rest else c :: mergeSlashes true rest
    else c :: mergeSlashes false rest

def normalizePath (path : String) : String := String.ofList (mergeSlashes false path.toList)

/-- The loop of `count_segments_and_params`, with a bound on its rounds. -/
def countLoop : ℕ → Bytes → ℕ × Bool
  | 0, _ => (0, false)
  | _, [] => (0, false)
  | fuel + 1, b :: rest =>
    if b = slash then countLoop fuel rest
    else
      let isParam := b == colon && rest.head? != some colon
      let (segmentCount, hasParams) := countLoop fuel (rest.dropWhile (· != slash))
      (segmentCount + 1, isParam || hasParams)

def countSegmentsAndParams (path : Bytes) : ℕ × Bool := countLoop path.length path

structure RadixPath where
  original : String
  normalized : String
  priorityWeight : ℕ
  isPrefixMatch : Bool
  routeIdx : ℕ
  segmentCount : ℕ
  hasParams : Bool
  deriving DecidableEq

/-- What the kind of a path adds to its weight. -/
def typeBonus : Bool → Bool → ℕ
  | false, false => 3
  | false, true => 2
  | true, false => 1
  | true, true => 0

def RadixPath.new (path : String) (routeIdx : ℕ) (isPrefix : Bool) : RadixPath :=
  let normalized := normalizePath path
  let counted := countSegmentsAndParams (asBytes normalized)
  { original := path
    normalized := normalized
    priorityWeight := counted.1 * 4 + typeBonus isPrefix counted.2
    isPrefixMatch := isPrefix
    routeIdx := routeIdx
    segmentCount := counted.1
    hasParams := counted.2 }

/-! ## Segments -/

/-- The segments that begin in a text, given whether it continues one. -/
def segmentsFrom : Bool → Bytes → ℕ
  | _, [] => 0
  | inSegment, b :: rest =>
    if b = slash then segmentsFrom false rest
    else (if inSegment then 0 else 1) + segmentsFrom true rest

/-- **The segments of a path**: the stretches between slashes that are not empty. -/
def segments (path : Bytes) : ℕ := segmentsFrom false path

variable (f : Bool)

@[simp] theorem segmentsFrom_nil : segmentsFrom f [] = 0 := rfl

variable (rest : Bytes)

@[simp] theorem segmentsFrom_slash :
    segmentsFrom f (slash :: rest) = segmentsFrom false rest := if_pos rfl

variable {b : UInt8}

theorem segmentsFrom_cons (hb : b ≠ slash) (rest : Bytes) :
    segmentsFrom f (b :: rest) = (if f then 0 else 1) + segmentsFrom true rest := if_neg hb

variable {run : Bytes}

/-- What is left of the segment a text continues begins none. -/
theorem segmentsFrom_true_append (h : ∀ b ∈ run, b ≠ slash) (rest : Bytes) :
    segmentsFrom true (run ++ rest) = segmentsFrom true rest := by
  induction run with
  | nil => rfl
  | cons b run ih =>
    obtain ⟨hb, hrun⟩ := forall_mem_cons.1 h
    rw [cons_append, segmentsFrom_cons _ hb, ih hrun]
    simp

/-- From the next slash on, it does not matter whether there was a segment. -/
theorem segmentsFrom_dropWhile :
    segmentsFrom f (rest.dropWhile (· != slash)) = segmentsFrom true rest := by
  induction rest with
  | nil => rfl
  | cons b rest ih =>
    by_cases hb : b = slash
    · subst hb
      rw [dropWhile_cons_of_neg (by simp)]
      simp
    · rw [dropWhile_cons_of_pos (by simpa using hb), ih, segmentsFrom_cons _ hb]
      simp

theorem segmentsFrom_append_le (front rest : Bytes) :
    segmentsFrom f front ≤ segmentsFrom f (front ++ rest) := by
  induction front generalizing f with
  | nil => exact zero_le _
  | cons b front ih =>
    by_cases hb : b = slash
    · subst hb
      simpa using ih false
    · rw [cons_append, segmentsFrom_cons _ hb, segmentsFrom_cons _ hb]
      exact Nat.add_le_add_left (ih true) _

variable {path after : Bytes}

/-- A loop with enough rounds counts the segments. -/
theorem countLoop_fst {fuel : ℕ} (h : path.length ≤ fuel) :
    (countLoop fuel path).1 = segments path := by
  induction fuel generalizing path with
  | zero => simp [length_eq_zero_iff.1 (le_zero.1 h), countLoop, segments]
  | succ fuel ih =>
    cases path with
    | nil => rfl
    | cons b rest =>
      have hrest : rest.length ≤ fuel := le_of_succ_le_succ h
      by_cases hb : b = slash
      · rw [countLoop, if_pos hb, ih hrest, hb, segments, segments, segmentsFrom_slash]
      · have hdrop : (rest.dropWhile (· != slash)).length ≤ fuel :=
          (dropWhile_sublist _).length_le.trans hrest
        rw [countLoop, if_neg hb]
        simp only [ih hdrop, segments, segmentsFrom_dropWhile]
        rw [segmentsFrom_cons _ hb, add_comm]
        rfl

theorem RadixPath.segmentCount_new (path : String) (routeIdx : ℕ) (isPrefix : Bool) :
    (RadixPath.new path routeIdx isPrefix).segmentCount = segments (asBytes (normalizePath path)) :=
  countLoop_fst le_rfl

/-! ## A pattern and what it matches -/

variable {ts : List Tok}

theorem matchTokens_lit_eq_some (h : matchTokens (.lit b :: ts) path = some after) :
    ∃ path', path = b :: path' ∧ matchTokens ts path' = some after := by
  cases path with
  | nil => cases h
  | cons c path =>
    rw [matchTokens, Option.ite_none_right_eq_some] at h
    exact ⟨path, by rw [h.1], h.2⟩

theorem matchTokens_any_eq_some (h : matchTokens (.any :: ts) path = some after) :
    ∃ run path', run ≠ [] ∧ (∀ b ∈ run, b ≠ slash) ∧ path = run ++ path' ∧
      matchTokens ts path' = some after := by
  rw [matchTokens, Option.ite_none_left_eq_some] at h
  refine ⟨_, _, h.1, fun b hb => ?_, takeWhile_append_dropWhile.symm, h.2⟩
  simpa using mem_takeWhile_imp hb

/-- The stretch a parameter takes is one segment. -/
theorem segmentsFrom_run (hne : run ≠ []) (h : ∀ b ∈ run, b ≠ slash) (c : Bytes) :
    segmentsFrom false (run ++ c) = 1 + segmentsFrom true c := by
  cases run with
  | nil => exact absurd rfl hne
  | cons b run =>
    obtain ⟨hb, hrun⟩ := forall_mem_cons.1 h
    rw [cons_append, segmentsFrom_cons _ hb, segmentsFrom_true_append hrun]
    rfl

/-- Whether the path may be in a segment where a reading of the pattern stands. -/
def Fits : Reading → Bool → Prop
  | .text, _ => True
  | .slash, inSegment | .colon, inSegment => inSegment = false
  | .name, inSegment => inSegment = true

/-- The segments that are left to a pattern where its reading stands, with the one that a
parameter's `/:` has begun. -/
def segmentsLeft : Reading → Bool → Bytes → ℕ
  | .colon, _, pattern => 1 + segmentsFrom true pattern
  | _, inSegment, pattern => segmentsFrom inSegment pattern

variable {pattern : Bytes}

/-- **A pattern has as many segments as what it matches**, by induction over the pattern, from
every place its reading may stand at. -/
theorem segmentsFrom_of_matchTokens {m : Reading} {f : Bool}
    (hfits : Fits m f) (h : matchTokens (readPattern m pattern) path = some after) :
    ∃ c, path = c ++ after ∧ segmentsFrom f c = segmentsLeft m f pattern := by
  induction pattern generalizing m f path with
  | nil =>
    cases m
    case colon =>
      obtain ⟨run, path', hne, hrun, rfl, h'⟩ := matchTokens_any_eq_some h
      cases h'
      obtain rfl : f = false := hfits
      exact ⟨run, rfl, by simpa [segmentsLeft] using segmentsFrom_run hne hrun []⟩
    all_goals exact ⟨[], by simpa [readPattern, matchTokens] using h, rfl⟩
  | cons b rest ih =>
    have hcs : colon ≠ slash := by decide
    by_cases hb : b = slash
    · subst hb
      cases m
      case colon =>
        obtain rfl : f = false := hfits
        have hread : matchTokens (.any :: .lit slash :: readPattern .slash rest) path =
          some after := by simpa [readPattern] using h
        obtain ⟨run, path', hne, hrun, rfl, hrest⟩ := matchTokens_any_eq_some hread
        obtain ⟨path'', rfl, hrest⟩ := matchTokens_lit_eq_some hrest
        obtain ⟨c, rfl, hc⟩ := ih (m := .slash) (f := false) rfl hrest
        refine ⟨run ++ slash :: c, by simp, ?_⟩
        rw [segmentsFrom_run hne hrun, segmentsLeft, segmentsFrom_slash, segmentsFrom_slash, hc]
        rfl
      all_goals
        have hread : matchTokens (.lit slash :: readPattern .slash rest) path = some after := by
          simpa [readPattern] using h
        obtain ⟨path', rfl, hrest⟩ := matchTokens_lit_eq_some hread
        obtain ⟨c, rfl, hc⟩ := ih (m := .slash) (f := false) rfl hrest
        refine ⟨slash :: c, rfl, ?_⟩
        rw [segmentsFrom_slash, hc]
        exact (segmentsFrom_slash f rest).symm
    · -- a literal byte begins a segment in the path where it begins one in the pattern
      have hlit : ∀ f' : Bool, matchTokens (.lit b :: readPattern .text rest) path = some after →
          ∃ c, path = c ++ after ∧ segmentsFrom f' c = segmentsFrom f' (b :: rest) := by
        intro f' h
        obtain ⟨path', rfl, hrest⟩ := matchTokens_lit_eq_some h
        obtain ⟨c, rfl, hc⟩ := ih (m := .text) (f := true) trivial hrest
        refine ⟨b :: c, rfl, ?_⟩
        rw [segmentsFrom_cons _ hb, segmentsFrom_cons _ hb, hc]
        rfl
      have hnext : segmentsFrom true (b :: rest) = segmentsFrom true rest := by
        rw [segmentsFrom_cons _ hb]
        exact zero_add _
      cases m with
      | text => exact hlit f (by simpa [readPattern, hb] using h)
      | slash =>
        obtain rfl : f = false := hfits
        by_cases hcolon : b = colon
        · have hread : matchTokens (readPattern .colon rest) path = some after := by
            simpa [readPattern, hcs, hcolon] using h
          obtain ⟨c, rfl, hc⟩ := ih (m := .colon) (f := false) rfl hread
          exact ⟨c, rfl, hc.trans (segmentsFrom_cons false hb rest).symm⟩
        · exact hlit false (by simpa [readPattern, hb, hcolon] using h)
      | colon =>
        obtain rfl : f = false := hfits
        rw [segmentsLeft, hnext]
        by_cases hcolon : b = colon
        · have hread : matchTokens (.lit b :: readPattern .text rest) path = some after := by
            simpa [readPattern, hcs, hcolon] using h
          obtain ⟨c, rfl, hc⟩ := hlit false hread
          exact ⟨c, rfl, hc.trans (segmentsFrom_cons _ hb _)⟩
        · have hread : matchTokens (.any :: readPattern .name rest) path = some after := by
            simpa [readPattern, hb, hcolon] using h
          obtain ⟨run, path', hne, hrun, rfl, hrest⟩ := matchTokens_any_eq_some hread
          obtain ⟨c, rfl, hc⟩ := ih (m := .name) (f := true) rfl hrest
          exact ⟨run ++ c, by simp, by rw [segmentsFrom_run hne hrun, hc]; rfl⟩
      | name =>
        obtain rfl : f = true := hfits
        have hread : matchTokens (readPattern .name rest) path = some after := by
          simpa [readPattern, hb] using h
        obtain ⟨c, rfl, hc⟩ := ih (m := .name) (f := true) rfl hread
        exact ⟨c, rfl, hc.trans hnext.symm⟩

/-- What a pattern has matched of a path, by what is left of it. -/
def matched (path after : Bytes) : Bytes := path.take (path.length - after.length)

/-- **The segments a pattern matched are its own**, and no more than the path has. -/
theorem segments_matched (h : matchTokens (readPattern .text pattern) path = some after) :
    segments (matched path after) = segments pattern ∧ segments pattern ≤ segments path := by
  obtain ⟨c, rfl, hc⟩ := segmentsFrom_of_matchTokens (m := .text) (f := false) trivial h
  have hc' : segments c = segments pattern := hc
  have hcut : matched (c ++ after) after = c := by simp [matched]
  rw [hcut, ← hc']
  exact ⟨rfl, segmentsFrom_append_le false c after⟩

end Edgion.Http
