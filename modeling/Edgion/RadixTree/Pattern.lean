import Edgion.RadixTree.Frozen
import Mathlib.Data.List.Infix
import Mathlib.Data.List.TakeWhile

/-!
# What a pattern matches

`testRoute` says, from the bytes of a pattern and of a path alone, whether the pattern matches
and with which kind. `readPattern` reads a pattern as a list of tokens, a byte or a parameter each;
`parsePath` yields these tokens, escapes included, and they match as the pattern does where it has
no `/::`. The parsed segments are literals and parameters in turn, beginning with a literal, where
no segment follows an escape.
-/

namespace Edgion.RadixTree

open List Option

/-- **The bytes of a path left after a pattern.** A literal byte matches itself. After `/`, a
`:name` matches the bytes up to the next `/`, of which there must be one. -/
def matchPattern : Bytes → Bytes → Option Bytes
  | [], path => some path
  | _ :: _, [] => none
  | c :: pat, b :: path =>
    if c = slash ∧ pat.head? = some colon then
      if b = slash ∧ path.takeWhile (· != slash) ≠ [] then
        matchPattern (pat.dropWhile (· != slash)) (path.dropWhile (· != slash))
      else none
    else if b = c then matchPattern pat path
    else none
termination_by pat => pat.length
decreasing_by
  all_goals simp only [length_cons]
  · have := (dropWhile_suffix (l := pat) (· != slash)).length_le
    omega
  · omega

/-- **One pattern tested on its own**: the kind with which it matches the path, if it does. -/
def testRoute (pattern path : Bytes) : Option MatchKind :=
  (matchPattern pattern path).map fun after =>
    matchKind after (pattern.getLast? == some slash)

/-- The pattern has no `/::` escape. -/
def NoEscape (pattern : Bytes) : Prop := ¬ [slash, colon, colon] <:+: pattern

instance (pattern : Bytes) : Decidable (NoEscape pattern) :=
  inferInstanceAs (Decidable (¬ [slash, colon, colon] <:+: pattern))

/-- **An escape is in the last segment** of the pattern, if there is one. After any other, the
insertion goes wrong: it takes the literal after the escape for one beside it. -/
def EscapeLast (pattern : Bytes) : Prop :=
  ∀ s ∈ pattern.tails, [slash, colon, colon] <+: s → slash ∉ s.drop 3

instance (pattern : Bytes) : Decidable (EscapeLast pattern) :=
  inferInstanceAs (Decidable (∀ s ∈ pattern.tails, _))

/-- A byte of a pattern, or a parameter. -/
inductive Tok where
  | any
  | lit (b : UInt8)
  deriving Repr, DecidableEq

/-- Where the reading of a pattern is: in a literal, after a slash, after `/:`, or in the name of
a parameter. -/
inductive Reading where
  | text
  | slash
  | colon
  | name
  deriving DecidableEq

/-- **How a pattern is meant**: `/:name` is a parameter after a slash, `/::` stands for `/:`, and
everything else for itself. -/
def readPattern : Reading → Bytes → List Tok
  | .colon, [] => [.any]
  | _, [] => []
  | m, b :: rest =>
    if b = slash then
      (if m = .colon then [.any] else []) ++ .lit slash :: readPattern .slash rest
    else
      match m with
      | .text => .lit b :: readPattern .text rest
      | .slash => if b = colon then readPattern .colon rest else .lit b :: readPattern .text rest
      | .colon => if b = colon then .lit colon :: readPattern .text rest
        else .any :: readPattern .name rest
      | .name => readPattern .name rest

/-- What is left of a path after the tokens. A parameter takes the bytes up to the next slash, at
least one. -/
def matchTokens : List Tok → Bytes → Option Bytes
  | [], path => some path
  | .lit _ :: _, [] => none
  | .lit b :: ts, c :: path => if b = c then matchTokens ts path else none
  | .any :: ts, path =>
    if path.takeWhile (· != slash) = [] then none
    else matchTokens ts (path.dropWhile (· != slash))

/-- The kind with which tokens match a path. -/
def tokensKind (ts : List Tok) (path : Bytes) : Option MatchKind :=
  (matchTokens ts path).map fun after => matchKind after (ts.getLast? == some (.lit slash))

/-- The tokens of parsed segments. -/
def tokens : List PathSegment → List Tok
  | [] => []
  | .static p :: rest => p.map .lit ++ tokens rest
  | .param :: rest => .any :: tokens rest

/-- Literals, none empty, and parameters in turn, after a node of the given type. -/
def Alternates : NodeType → List PathSegment → Prop
  | _, [] => True
  | .param, .static p :: rest => p ≠ [] ∧ Alternates .static rest
  | .static, .param :: rest => Alternates .param rest
  | .param, .param :: _ => False
  | .static, .static _ :: _ => False

/-! ## Consuming -/

/-- The index of the first `/` cuts the path as `takeWhile` and `dropWhile` do. -/
theorem consumeParam_eq (path : Bytes) : consumeParam path =
      if path.takeWhile (· != slash) = [] then none
      else some (path.dropWhile (· != slash), false) := by
  have hcut : path.drop (path.findIdx (· == slash)) = path.dropWhile (· != slash) := by
    induction path with
    | nil => rfl
    | cons b path ih =>
      by_cases hb : b = slash
      · simp [findIdx_cons, hb]
      · simp [findIdx_cons, hb, beq_eq_false_iff_ne.2 hb, ih]
  have hzero : path.findIdx (· == slash) = 0 ↔ path.takeWhile (· != slash) = [] := by
    rcases path with _ | ⟨b, path⟩
    · simp
    · by_cases hb : b = slash
      · simp [findIdx_cons, hb]
      · simp [findIdx_cons, hb, beq_eq_false_iff_ne.2 hb]
  unfold consumeParam
  simp only [hcut, hzero]

variable {path p remaining : Bytes} {fuel : ℕ}

/-! ## Parsing -/

variable {pattern rest : Bytes}

namespace NoEscape

theorem of_suffix (h : NoEscape pattern) (hs : rest <:+ pattern) : NoEscape rest :=
  fun hi => h (hi.trans hs.isInfix)

/-- Where such a pattern has `/:`, no second colon follows. -/
theorem head_ne {tail : Bytes} (h : NoEscape (slash :: colon :: tail)) :
    tail.head? ≠ some colon := by
  intro hc
  obtain ⟨tail, rfl⟩ := head?_eq_some_iff.1 hc
  exact h ⟨[], tail, rfl⟩

end NoEscape

theorem EscapeLast.of_suffix (h : EscapeLast pattern) (hs : rest <:+ pattern) : EscapeLast rest :=
  fun s hmem => h s ((mem_tails _ _).2 (((mem_tails _ _).1 hmem).trans hs))

theorem NoEscape.escapeLast (h : NoEscape pattern) : EscapeLast pattern :=
  fun _ hmem hpre => absurd (hpre.isInfix.trans ((mem_tails _ _).1 hmem).isInfix) h

/-- At any other byte the literal grows. -/
theorem parseLoop_literal {b : UInt8} (h : ¬ (b = slash ∧ rest.head? = some colon)) (acc : Bytes) :
    parseLoop (fuel + 1) (b :: rest) acc = parseLoop fuel rest (acc ++ [b]) := by
  rw [parseLoop, if_neg h]

variable (tail : Bytes)

/-- What follows a parameter's name is a suffix of the pattern. -/
theorem dropName_suffix : tail.dropWhile (· != slash) <:+ slash :: colon :: tail :=
  (dropWhile_suffix _).trans ((suffix_cons _ _).trans (suffix_cons _ _))

/-- **Parsed segments take turns**, beginning with a literal, where no segment follows an escape. -/
theorem EscapeLast.parseLoop_alternates (fuel : ℕ) (h : EscapeLast remaining)
    (acc : Bytes) : Alternates .param (parseLoop fuel remaining acc) := by
  induction fuel generalizing remaining acc with
  | zero => trivial
  | succ fuel ih =>
    rcases remaining with _ | ⟨b, rest⟩
    · by_cases hacc : acc = []
      · simp [parseLoop, hacc, Alternates]
      · simp [parseLoop, hacc, Alternates]
    · by_cases hp : b = slash ∧ rest.head? = some colon
      · obtain ⟨rfl, hc⟩ := hp
        obtain ⟨tail, rfl⟩ := head?_eq_some_iff.1 hc
        by_cases hcc : tail.head? = some colon
        · obtain ⟨tail, rfl⟩ := head?_eq_some_iff.1 hcc
          have hslash : slash ∉ tail := h _ ((mem_tails _ _).2 suffix_rfl) ⟨tail, rfl⟩
          have hdrop : tail.dropWhile (· != slash) = [] := by
            rw [dropWhile_eq_nil_iff]
            intro c hc
            simpa using ne_of_mem_of_not_mem hc hslash
          rw [parseLoop, if_pos ⟨rfl, rfl⟩, if_pos (by simp)]
          simp only [tail_cons, hdrop]
          rcases fuel with _ | fuel
          · simp [parseLoop, Alternates]
          · simp [parseLoop, Alternates]
        · rw [parseLoop, if_pos ⟨rfl, rfl⟩, if_neg (by simpa using hcc)]
          exact ⟨by simp, ih (h.of_suffix (dropName_suffix _)) []⟩
      · rw [parseLoop_literal hp]
        exact ih (h.of_suffix (suffix_cons b rest)) _

/-- The parser never falls back to its last branch: a nonempty path has segments. -/
theorem parseLoop_ne_nil {acc : Bytes} (hfuel : remaining.length < fuel)
    (h : acc ≠ [] ∨ remaining ≠ []) : parseLoop fuel remaining acc ≠ [] := by
  induction fuel generalizing remaining acc with
  | zero => omega
  | succ fuel ih =>
    rcases remaining with _ | ⟨b, rest⟩
    · simpa [parseLoop] using h
    · rw [parseLoop]
      split
      · split <;> simp
      · exact ih (by simpa using hfuel) (.inl (by simp))

/-- `parsePath` is its loop. -/
theorem parsePath_eq (path : Bytes) : parsePath path = parseLoop (path.length + 1) path [] := by
  unfold parsePath
  simp only [ite_eq_right_iff]
  rintro ⟨hnil, hne⟩
  exact absurd hnil (parseLoop_ne_nil (Nat.lt_succ_self _) (.inr hne))

/-- The segments of a route that can be inserted: a literal first, then in turns. -/
theorem EscapeLast.parsePath_alternates (h : EscapeLast pattern) (hpat : pattern ≠ []) :
    ∃ literal rest, parsePath pattern = .static literal :: rest ∧ literal ≠ [] ∧
      Alternates .static rest := by
  have halt := h.parseLoop_alternates (pattern.length + 1) []
  have hsome : parseLoop (pattern.length + 1) pattern [] ≠ [] :=
    parseLoop_ne_nil (Nat.lt_succ_self _) (.inr hpat)
  rw [parsePath_eq]
  rcases hsegs : parseLoop (pattern.length + 1) pattern [] with _ | ⟨_ | _, rest⟩
  · exact absurd hsegs hsome
  · rw [hsegs] at halt
    exact ⟨_, rest, rfl, halt⟩
  · rw [hsegs] at halt
    exact halt.elim

/-! ## Reading patterns -/

variable {b : UInt8} {ts : List Tok}

@[simp] theorem readPattern_nil_text : readPattern .text [] = [] := rfl

@[simp] theorem readPattern_nil_colon : readPattern .colon [] = [.any] := by rw [readPattern]

/-- The name of a parameter is skipped. -/
theorem readPattern_name (rest : Bytes) :
    readPattern .name rest = readPattern .text (rest.dropWhile (· != slash)) := by
  induction rest with
  | nil => rfl
  | cons b rest ih =>
    by_cases hb : b = slash
    · subst hb
      rw [dropWhile_cons_of_neg (by simp)]
      simp [readPattern]
    · rw [dropWhile_cons_of_pos (by simpa using hb), ← ih]
      simp [readPattern, hb]

/-- Text without a slash stands for itself. -/
theorem readPattern_append {name rest : Bytes} (h : ∀ b ∈ name, b ≠ slash) :
    readPattern .text (name ++ rest) = name.map .lit ++ readPattern .text rest := by
  induction name with
  | nil => rfl
  | cons b name ih =>
    have hb : b ≠ slash := h b mem_cons_self
    rw [cons_append, map_cons, cons_append, ← ih fun c hc => h c (mem_cons_of_mem _ hc)]
    simp [readPattern, hb]

/-- At a byte that begins no parameter the literal goes on. -/
theorem readPattern_literal {rest : Bytes} (h : ¬ (b = slash ∧ rest.head? = some colon)) :
    readPattern .text (b :: rest) = .lit b :: readPattern .text rest := by
  by_cases hb : b = slash
  · subst hb
    rcases rest with _ | ⟨c, rest⟩
    · simp [readPattern]
    · have hc : c ≠ colon := by simpa using h
      by_cases hcs : c = slash
      · simp [readPattern, hcs]
      · simp [readPattern, hc, hcs]
  · simp [readPattern, hb]

/-- `/:` without a second colon is a parameter. -/
theorem readPattern_param {tail : Bytes} (h : tail.head? ≠ some colon) :
    readPattern .text (slash :: colon :: tail) =
      .lit slash :: .any :: readPattern .text (tail.dropWhile (· != slash)) := by
  have hcs : colon ≠ slash := by decide
  rcases tail with _ | ⟨b, tail⟩
  · simp [readPattern, hcs]
  · have hb : b ≠ colon := by simpa using h
    by_cases hbs : b = slash
    · subst hbs
      rw [dropWhile_cons_of_neg (by simp)]
      simp [readPattern, hcs]
    · rw [dropWhile_cons_of_pos (by simpa using hbs), ← readPattern_name]
      simp [readPattern, hcs, hb, hbs]

/-- `/::` is the escape. -/
theorem readPattern_escape : readPattern .text (slash :: colon :: colon :: tail) =
      .lit slash :: .lit colon :: readPattern .text tail := by
  have hcs : colon ≠ slash := by decide
  simp [readPattern, hcs]

theorem tokens_parseLoop {fuel : ℕ} {remaining : Bytes} (hfuel : remaining.length < fuel)
    (acc : Bytes) :
    tokens (parseLoop fuel remaining acc) = acc.map .lit ++ readPattern .text remaining := by
  induction fuel generalizing remaining acc with
  | zero => omega
  | succ fuel ih =>
    rcases remaining with _ | ⟨b, rest⟩
    · by_cases hacc : acc = []
      · simp [parseLoop, hacc, tokens]
      · simp [parseLoop, hacc, tokens]
    · rw [length_cons] at hfuel
      by_cases hp : b = slash ∧ rest.head? = some colon
      · obtain ⟨rfl, hc⟩ := hp
        obtain ⟨tail, rfl⟩ := head?_eq_some_iff.1 hc
        have hdrop : ∀ l : Bytes, (l.dropWhile (· != slash)).length ≤ l.length :=
          fun l => (dropWhile_suffix _).length_le
        rw [length_cons] at hfuel
        by_cases hcc : tail.head? = some colon
        · obtain ⟨tail, rfl⟩ := head?_eq_some_iff.1 hcc
          rw [length_cons] at hfuel
          have hname : ∀ b ∈ tail.takeWhile (· != slash), b ≠ slash := fun b hb => by
            simpa using mem_takeWhile_imp hb
          have hlen := hdrop tail
          rw [parseLoop, if_pos ⟨rfl, rfl⟩, if_pos (by simp)]
          simp only [tail_cons, tokens]
          rw [ih (by omega), readPattern_escape, map_nil, nil_append]
          nth_rewrite 3 [← takeWhile_append_dropWhile (p := (· != slash)) (l := tail)]
          rw [readPattern_append hname]
          simp
        · have hlen := hdrop tail
          rw [parseLoop, if_pos ⟨rfl, rfl⟩, if_neg (by simpa using hcc)]
          simp only [tail_cons, tokens]
          rw [ih (by omega), readPattern_param hcc]
          simp
      · rw [parseLoop_literal hp, ih (by omega), readPattern_literal hp]
        simp

/-- **`parse_path` reads a pattern as it is meant**, escapes included. -/
theorem tokens_parsePath (pattern : Bytes) :
    tokens (parsePath pattern) = readPattern .text pattern := by
  rw [parsePath_eq, tokens_parseLoop (Nat.lt_succ_self _)]
  rfl

/-! ## Matching tokens -/

theorem matchTokens_append (ts ts' : List Tok) (path : Bytes) :
    matchTokens (ts ++ ts') path = (matchTokens ts path).bind (matchTokens ts') := by
  induction ts generalizing path with
  | nil => rfl
  | cons tok ts ih =>
    rcases tok with _ | b
    · simp only [cons_append, matchTokens]
      split
      · rfl
      · exact ih _
    · rcases path with _ | ⟨c, path⟩
      · rfl
      · simp only [cons_append, matchTokens]
        split
        · exact ih path
        · rfl

theorem matchTokens_nil_path (h : ts ≠ []) : matchTokens ts [] = none := by
  obtain ⟨tok, ts, rfl⟩ := exists_cons_of_ne_nil h
  rcases tok with _ | b
  · simp [matchTokens]
  · rfl

theorem matchTokens_map_lit (p path : Bytes) :
    matchTokens (p.map .lit) path = if p.isPrefixOf path then some (path.drop p.length) else none := by
  induction p generalizing path with
  | nil => simp [matchTokens]
  | cons b p ih =>
    rcases path with _ | ⟨c, path⟩
    · simp [matchTokens]
    · by_cases hbc : b = c
      · simp [matchTokens, hbc, ih]
      · simp [matchTokens, hbc]

/-- No entry under a byte matches a path that begins with another. -/
theorem matchTokens_head_ne {after : Bytes}
    (h : after.head? ≠ some b) : matchTokens (.lit b :: ts) after = none := by
  rcases after with _ | ⟨c, after⟩
  · rfl
  · have hbc : b ≠ c := by simpa [eq_comm] using h
    simp [matchTokens, hbc]

/-- A pattern that begins with a parameter consumes the `/`, then the parameter's bytes. -/
theorem matchPattern_param (tail path : Bytes) : matchPattern (slash :: colon :: tail) path =
      (matchTokens [.lit slash, .any] path).bind (matchPattern (tail.dropWhile (· != slash))) := by
  have hdrop : (colon :: tail).dropWhile (· != slash) = tail.dropWhile (· != slash) :=
    dropWhile_cons_of_pos (by decide)
  rcases path with _ | ⟨b, path⟩
  · simp [matchPattern, matchTokens]
  · by_cases hb : b = slash
    · subst hb
      by_cases hrun : path.takeWhile (· != slash) = []
      · simp [matchPattern, matchTokens, hrun, -takeWhile_eq_nil_iff]
      · simp [matchPattern, matchTokens, hrun, hdrop, -takeWhile_eq_nil_iff]
    · simp [matchPattern, matchTokens, hb, Ne.symm hb]

/-- A pattern that begins with a literal byte consumes it. -/
theorem matchPattern_literal (h : ¬ (b = slash ∧ rest.head? = some colon)) (path : Bytes) :
    matchPattern (b :: rest) path = (matchTokens [.lit b] path).bind (matchPattern rest) := by
  rcases path with _ | ⟨c, path⟩
  · simp [matchPattern, matchTokens]
  · by_cases hc : c = b
    · simp [matchPattern, matchTokens, h, hc]
    · simp [matchPattern, matchTokens, h, hc, Ne.symm hc]

/-- **A rule for patterns**, from the end: nothing, a literal byte before a pattern, and a parameter
before what follows its name. -/
theorem pattern_induct {P : Bytes → Prop} (hnil : P [])
    (hliteral : ∀ b rest, ¬ (b = slash ∧ rest.head? = some colon) → P rest → P (b :: rest))
    (hparam : ∀ tail, P (tail.dropWhile (· != slash)) → P (slash :: colon :: tail))
    (pattern : Bytes) : P pattern := by
  induction hn : pattern.length using Nat.strong_induction_on generalizing pattern with
  | _ n ih =>
    rcases pattern with _ | ⟨b, rest⟩
    · exact hnil
    · by_cases hp : b = slash ∧ rest.head? = some colon
      · obtain ⟨rfl, hc⟩ := hp
        obtain ⟨tail, rfl⟩ := head?_eq_some_iff.1 hc
        have hlen := (dropWhile_suffix (l := tail) (· != slash)).length_le
        simp only [length_cons] at hn
        exact hparam tail (ih _ (by omega) _ rfl)
      · rw [length_cons] at hn
        exact hliteral b rest hp (ih _ (by omega) _ rfl)

/-- **The tokens match what the pattern does.** -/
theorem NoEscape.matchTokens_readPattern (h : NoEscape pattern) (path : Bytes) :
    matchTokens (readPattern .text pattern) path = matchPattern pattern path := by
  induction pattern using pattern_induct generalizing path with
  | hnil => simp [matchTokens, matchPattern]
  | hliteral b rest hb ih =>
    rw [readPattern_literal hb, ← singleton_append, matchTokens_append, matchPattern_literal hb]
    exact bind_congr fun after _ => ih (h.of_suffix (suffix_cons b rest)) after
  | hparam tail ih =>
    rw [readPattern_param h.head_ne, matchPattern_param]
    exact (matchTokens_append [.lit slash, .any] _ path).trans
      (bind_congr fun after _ => ih (h.of_suffix (dropName_suffix _)) after)

/-- The last byte of `/:name` and what follows the name: none is a `/` when nothing does. -/
theorem getLast?_param : ((slash :: colon :: tail).getLast? == some slash) =
      ((tail.dropWhile (· != slash)).getLast? == some slash) := by
  by_cases hd : tail.dropWhile (· != slash) = []
  · have hall : ∀ b ∈ colon :: tail, b ≠ slash := by
      intro b hb
      rcases mem_cons.1 hb with rfl | hb
      · decide
      · simpa using dropWhile_eq_nil_iff.1 hd b hb
    rw [hd, getLast?_cons_cons, getLast?_eq_some_getLast (cons_ne_nil colon tail)]
    simpa using hall _ (getLast_mem (cons_ne_nil colon tail))
  · obtain ⟨front, hfront⟩ := dropWhile_suffix (l := tail) (· != slash)
    have hlast : slash :: colon :: tail =
      (slash :: colon :: front) ++ tail.dropWhile (· != slash) := by simp [hfront]
    rw [hlast, getLast?_append_of_ne_nil _ hd]

/-- The tokens end with a slash where the pattern does. -/
theorem NoEscape.getLast?_readPattern (h : NoEscape pattern) :
    (readPattern .text pattern = [] ↔ pattern = []) ∧
      ((readPattern .text pattern).getLast? == some (.lit slash)) =
        (pattern.getLast? == some slash) := by
  induction pattern using pattern_induct with
  | hnil => simp
  | hliteral b rest hb ih =>
    obtain ⟨hempty, hlast⟩ := ih (h.of_suffix (suffix_cons b rest))
    rw [readPattern_literal hb]
    refine ⟨by simp, ?_⟩
    by_cases hrest : rest = []
    · simp [hrest, Bool.beq_eq_decide_eq]
    · rw [← singleton_append, ← singleton_append (l := rest), getLast?_append_of_ne_nil _ hrest,
        getLast?_append_of_ne_nil _ (mt hempty.1 hrest), hlast]
  | hparam tail ih =>
    obtain ⟨hempty, hlast⟩ := ih (h.of_suffix (dropName_suffix _))
    rw [readPattern_param h.head_ne, getLast?_param, ← hlast]
    refine ⟨by simp, ?_⟩
    rcases readPattern .text (tail.dropWhile (· != slash)) with _ | ⟨tok, ts⟩
    · rfl
    · rw [getLast?_cons_cons, getLast?_cons_cons]

/-- **One pattern tested on its own** is tested by its tokens. -/
theorem NoEscape.testRoute_eq (h : NoEscape pattern) (path : Bytes) :
    testRoute pattern path = tokensKind (readPattern .text pattern) path := by
  rw [testRoute, tokensKind, h.matchTokens_readPattern, h.getLast?_readPattern.2]

/-- A pattern consumes itself to the end: a parameter consumes its own `:name`. -/
theorem matchPattern_self (pattern : Bytes) : matchPattern pattern pattern = some [] := by
  induction pattern using pattern_induct with
  | hnil => simp [matchPattern]
  | hliteral b rest hb ih =>
    rw [matchPattern_literal hb]
    simpa [matchTokens] using ih
  | hparam tail ih =>
    have hname : (colon :: tail).takeWhile (· != slash) ≠ [] := by simp [colon, slash]
    rw [matchPattern_param]
    simpa [matchTokens, hname, colon, slash] using ih

/-- **A pattern matches itself**, as a path fully consumed. -/
theorem testRoute_self (pattern : Bytes) : testRoute pattern pattern = some .fullyConsumed := by
  rw [testRoute, matchPattern_self]
  rfl

end Edgion.RadixTree
