import Edgion.Common.Result
import Edgion.Dsl.Vm
import Mathlib.Data.Nat.Digits.Lemmas
import Mathlib.Data.String.Basic

/-!
# What a script can use

Whatever the script, the session and the limits: a run makes at most `max_steps` turns and
`max_call_count` calls, its stack stays within `max_stack_depth`, no counter overflows, and every
string it holds is within `max_string_len` or is a constant of the script. What it hands out may
also be the text of an integer, a truth value, `nil` or a list, which is never checked: at most
20 bytes.

One invariant of the state (`Inside`) says this, and one lemma for each instruction keeps it.
-/

namespace Edgion.Dsl

open List Nat Value

/-! ## Texts -/

open Text

/-- A text of digits has as many bytes as digits. -/
theorem len_ofList_digits {cs : List Char} (h : ∀ c ∈ cs, c.isDigit = true) :
    len (String.ofList cs) = cs.length := by
  rw [len_eq_length, String.toList_ofList]
  intro c hc
  have hdigit := h c (by simpa using hc)
  simp only [Char.isDigit, Bool.and_eq_true, decide_eq_true_eq] at hdigit
  have hle : c.val ≤ 57 := hdigit.2
  exact if_pos (UInt32.le_trans hle (by decide))

/-- The decimal text of a number below `10 ^ e` has at most `e` bytes. -/
theorem len_natRepr_le {n e : ℕ} (he : 0 < e) (h : n < 10 ^ e) : len n.repr ≤ e := by
  rw [repr_eq_ofList_toDigits,
    len_ofList_digits fun c hc => isDigit_of_mem_toDigits (by decide) (by decide) hc]
  exact toDigits_length 10 n e he h

/-- The text of an `i64` has at most 20 bytes. -/
theorem len_int64_le (n : Int64) : len (toString n.toInt) ≤ 20 := by
  have hlow := n.le_toInt
  have hhigh := n.toInt_lt
  change len n.toInt.repr ≤ 20
  rw [Int.repr_eq_if]
  split
  · exact (len_natRepr_le (e := 19) (by decide) (by omega)).trans (by decide)
  · have hdigits := len_natRepr_le (n := (-n.toInt).toNat) (e := 19) (by decide) (by omega)
    rw [len, String.utf8ByteSize_append]
    have hsign : "-".utf8ByteSize = 1 := by decide
    rw [len] at hdigits
    omega

variable {v : Value}

/-- The text of a value that is not a string is short. -/
theorem len_intoString_le (h : ∀ s, v ≠ .str s) : len v.intoString ≤ 20 := by
  match v with
  | .str s => exact absurd rfl (h s)
  | .int n => exact len_int64_le n
  | .bool true => decide
  | .bool false => decide
  | .nil => decide
  | .list _ => exact (by decide : len "[list]" ≤ 20)

/-- The texts a call hands to the session. -/
def SessionCall.texts {r : ReplyKind} : SessionCall r → List String
  | .headerValue name | .getQueryParam name | .getCookie name | .getPathParam name => [name]
  | .getMethod | .getPath | .getQuery | .clientAddr | .remoteAddr | .requestHeaders => []
  | .setRequestHeader name value | .appendRequestHeader name value => [name, value]
  | .removeRequestHeader name => [name]
  | .setUpstreamUri uri => [uri]
  | .setUpstreamHost host => [host]
  | .setUpstreamMethod method => [method]
  | .setResponseHeader name value | .appendResponseHeader name value => [name, value]
  | .removeResponseHeader name => [name]
  | .getCtxVar key | .removeCtxVar key => [key]
  | .setCtxVar key value => [key, value]
  | .logPush msg => [msg]
  | .timeNow => []

section

variable {σ : Type} {lib : Lib} {S : Session σ} (vm : Vm)

/-- A string the machine may hold: within the limit, or a constant of the script. -/
def Held (s : String) : Prop :=
  len s ≤ vm.limits.maxStringLen ∨ s ∈ vm.script.texts

/-- A string it may hand out: also the short text of another value. -/
def Handed (s : String) : Prop := Held vm s ∨ len s ≤ 20

/-- Every string of a value may be held. -/
def Value.Held (v : Value) : Prop := ∀ s ∈ v.strings, Dsl.Held vm s

/-- Every text handed to the session so far may be handed out. -/
def World.Within (w : World σ) : Prop := ∀ c ∈ w.trace, ∀ s ∈ c.2.texts, Handed vm s

variable {vm}

/-- A value without strings may be held. -/
theorem Value.held_of_strings_eq_nil (h : v.strings = []) : v.Held vm := by
  rw [Held, h]
  exact fun s hs => absurd hs (not_mem_nil)

/-! ## Operators

A result with a limit is compared with the one without, so that what is said here of the operators
and functions also serves where a run is compared with the reference semantics. -/

/-- **What an operator or a function answers**, with a limit and without one: a value whose strings
are all `P`, an error that is not internal, or the error of the limit. -/
inductive Answers (P : String → Prop) :
    Except RuntimeError Value → Except RuntimeError Value → Prop
  | value {v : Value} (h : ∀ s ∈ v.strings, P s) : Answers P (.ok v) (.ok v)
  | error {e : RuntimeError} (h : e.isInternal = false) : Answers P (.error e) (.error e)
  | limit {e : RuntimeError} (h : e.isLimit = true) (r : Except RuntimeError Value) :
      Answers P (.error e) r

/-- The answer of what takes no limit. -/
abbrev Fine (P : String → Prop) (r : Except RuntimeError Value) : Prop := Answers P r r

variable {P : String → Prop} {r r0 : Except RuntimeError Value} {limit : ℕ}

theorem Answers.held (h : Answers P r r0) (hr : r = .ok v) : ∀ s ∈ v.strings, P s := by
  subst hr
  cases h with
  | value h => exact h

theorem Answers.notInternal (h : Answers P r r0) {e : RuntimeError} (hr : r = .error e) :
    e.isInternal = false := by
  subst hr
  cases h with
  | error h => exact h
  | limit h => cases e <;> first | rfl | cases h

theorem Answers.plain (h : v.strings = []) : Fine P (.ok v) :=
  .value fun _ hs => absurd (h ▸ hs) not_mem_nil

theorem fine_checked (n : ℤ) (operation : String) : Fine P (checked n operation) := by
  unfold checked
  split
  · exact .plain rfl
  · exact .error rfl

theorem fine_intValues (op : ℤ → ℤ → ℤ) (operation : String) (a b : Value) :
    Fine P (intValues op operation a b) := by
  unfold intValues
  split
  · exact fine_checked _ _
  · exact .error rfl

theorem fine_divValues (a b : Value) : Fine P (divValues a b) := by
  unfold divValues
  split
  · split
    · exact .error rfl
    · exact fine_intValues _ _ _ _
  · exact fine_intValues _ _ _ _

theorem fine_negValue (v : Value) : Fine P (negValue v) := by
  unfold negValue
  split
  · exact fine_checked _ _
  · exact .error rfl

theorem fine_compareValues (onInt : Int64 → Int64 → Bool) (onStr : String → String → Bool)
    (operation : String) (a b : Value) : Fine P (compareValues onInt onStr operation a b) := by
  unfold compareValues
  split
  · exact .plain rfl
  · exact .plain rfl
  · exact .error rfl

theorem fine_testStrings (test : String → String → Bool) (a b : Value) :
    Fine P (testStrings test a b) := by
  unfold testStrings
  split <;> exact .plain rfl

theorem fine_listLen (v : Value) : Fine P (listLen v) := by
  unfold listLen
  split <;> exact .plain rfl

theorem fine_listGet {a : Value} (ha : ∀ s ∈ a.strings, P s) (b : Value) :
    Fine P (listGet a b) := by
  unfold listGet listElem
  split
  · split
    · exact .plain rfl
    · split
      · rename_i l i _ s hs
        refine .value fun t ht => ?_
        rw [mem_singleton.1 ht]
        exact ha s (mem_of_getElem? hs)
      · exact .plain rfl
  · exact .plain rfl

open Vm

theorem fine_matchesValue (idx : ℕ) (v : Value) : Fine P (vm.matchesValue lib idx v) := by
  unfold matchesValue
  split
  · split <;> exact .plain rfl
  · exact .plain rfl

theorem fine_lenValue (v : Value) : Fine P (lenValue v) := by
  unfold lenValue
  split
  · exact .plain rfl
  · exact .plain rfl
  · exact .plain rfl
  · exact .error rfl

section

variable (hP : ∀ s, len s ≤ limit → P s)

include hP

theorem answers_checkedValueStr (s : String) :
    Answers P (checkedValueStr s (some limit)) (checkedValueStr s none) := by
  simp only [checkedValueStr, checkLen]
  split
  · exact .limit rfl _
  · rename_i hle
    refine .value fun t ht => ?_
    rw [mem_singleton.1 ht]
    exact hP s (not_lt.1 hle)

theorem answers_checkedValueOptStr (s : Option String) :
    Answers P (checkedValueOptStr s (some limit)) (checkedValueOptStr s none) := by
  rcases s with _ | s
  · exact .plain rfl
  · exact answers_checkedValueStr hP s

theorem answers_concat (a b : String) : Answers P (concat a b (some limit)) (concat a b none) := by
  have h := answers_checkedValueStr hP (a ++ b)
  simp only [checkedValueStr, len, String.utf8ByteSize_append] at h
  exact h

theorem answers_addValues (a b : Value) :
    Answers P (addValues (some limit) a b) (addValues none a b) := by
  unfold addValues
  split
  · exact fine_checked _ _
  · exact answers_concat hP _ _
  · exact answers_concat hP _ _
  · exact answers_concat hP _ _
  · exact .error rfl

theorem answers_substrValue (start stop : ℕ) (v : Value) :
    Answers P (substrValue (some limit) start stop v) (substrValue none start stop v) := by
  unfold substrValue
  split
  · exact answers_checkedValueStr hP _
  · refine .value fun s hs => ?_
    rw [mem_singleton.1 hs]
    exact hP _ (zero_le _)
  · exact .error rfl

/-- Names are checked one by one. -/
theorem answers_checkNames {l : NameList} {names : List String}
    (h : ∀ s ∈ l.names, s ∈ names ∨ P s) :
    Answers P ((checkNames (some limit) names).map fun _ => .list l)
      ((checkNames none names).map fun _ => .list l) := by
  induction names with
  | nil => exact .value fun s hs => (h s hs).resolve_left not_mem_nil
  | cons name names ih =>
    by_cases hlen : limit < len name
    · have hfail : checkLen (len name) (some limit) =
          .error (.stringTooLong (len name) limit) := if_pos hlen
      rw [checkNames, hfail]
      exact .limit rfl _
    · have hok : checkLen (len name) (some limit) = .ok () := if_neg hlen
      rw [checkNames, hok]
      refine ih fun s hs => ?_
      rcases h s hs with h | h
      · rcases mem_cons.1 h with rfl | h
        · exact .inr (hP s (not_lt.1 hlen))
        · exact .inl h
      · exact .inr h

end

/-! ## Built-in functions -/

/-- A string that may be handed out if those that are `P` may be held. -/
def Passes (P : String → Prop) (s : String) : Prop := P s ∨ len s ≤ 20

/-- Every text handed to the session so far may be. -/
def World.Records (P : String → Prop) (w : World σ) : Prop :=
  ∀ c ∈ w.trace, ∀ s ∈ c.2.texts, Passes P s

/-- **What a built-in function leaves**, with a limit and without one: the session is the same. -/
structure Replies (P : String → Prop) (x x₀ : Except RuntimeError Value × World σ) : Prop where
  answers : Answers P x.1 x₀.1
  world : x.2 = x₀.2
  records : x.2.Records P

theorem passes_intoString (h : ∀ s ∈ v.strings, P s) : Passes P v.intoString := by
  by_cases hs : ∃ s, v = .str s
  · obtain ⟨s, rfl⟩ := hs
    exact .inl (h s (mem_singleton_self s))
  · exact .inr (len_intoString_le fun s hv => hs ⟨s, hv⟩)

/-- A call that hands out the text of a value. -/
theorem passes_one (hv : ∀ s ∈ v.strings, P s) : ∀ s ∈ [v.intoString], Passes P s := by
  intro s hs
  rw [mem_singleton.1 hs]
  exact passes_intoString hv

/-- A call that hands out the texts of two. -/
theorem passes_two {u : Value} (hv : ∀ s ∈ v.strings, P s) (hu : ∀ s ∈ u.strings, P s) :
    ∀ s ∈ [v.intoString, u.intoString], Passes P s := by
  intro s hs
  rcases mem_cons.1 hs with rfl | hs
  · exact passes_intoString hv
  · exact passes_one hu s hs

/-- A header the machine asks for by itself. -/
theorem passes_short {name : String} (h : len name ≤ 20) : ∀ s ∈ [name], Passes P s := by
  intro s hs
  rw [mem_singleton.1 hs]
  exact .inr h

variable {w : World σ} {id : BuiltinId}

section

variable (hw : w.Records P)

include hw

/-- A call whose texts may be handed out keeps the record so. -/
theorem World.Records.perform {r : ReplyKind} {c : SessionCall r}
    (hc : ∀ s ∈ c.texts, Passes P s) : (S.perform c w).2.Records P := by
  intro c' hc'
  rcases mem_append.1 hc' with hc' | hc'
  · exact hw c' hc'
  · rw [mem_singleton.1 hc']
    exact hc

theorem replies_mutate {function : String} {c : SessionCall .status}
    (hc : ∀ s ∈ c.texts, Passes P s) :
    Replies P (mutate S function c w) (mutate S function c w) := by
  refine ⟨?_, rfl, hw.perform hc⟩
  simp only [mutate]
  split
  · exact .plain rfl
  · exact .error rfl

theorem replies_builtin2 (h : id.pops = 2) {u : Value} (hv : ∀ s ∈ v.strings, P s)
    (hu : ∀ s ∈ u.strings, P s) : Replies P (builtin2 S id v u w) (builtin2 S id v u w) := by
  cases id
  case reqSetHeader | reqAppendHeader | respSetHeader | respAppendHeader | ctxSet =>
    exact replies_mutate hw (passes_two hv hu)
  all_goals cases h

end

section

variable (hP : ∀ s, len s ≤ limit → P s) (hw : w.Records P)

include hP hw

theorem replies_readOpt {c : SessionCall .optText} (hc : ∀ s ∈ c.texts, Passes P s) :
    Replies P (readOpt S (some limit) c w) (readOpt S none c w) :=
  ⟨answers_checkedValueOptStr hP _, rfl, hw.perform hc⟩

theorem replies_reqScheme : Replies P (reqScheme S (some limit) w) (reqScheme S none w) := by
  have hfst : (S.perform (.headerValue "X-Forwarded-Proto") w).2.Records P :=
    hw.perform (passes_short (by decide))
  unfold reqScheme
  split
  · rename_i heq
    rw [heq] at hfst
    exact ⟨answers_checkedValueStr hP _, rfl, hfst⟩
  · rename_i w' heq
    rw [heq] at hfst
    have hsecond : (S.perform (.headerValue "X-Scheme") w').2.Records P :=
      hfst.perform (passes_short (by decide))
    split
    · rename_i heq'
      rw [heq'] at hsecond
      exact ⟨answers_checkedValueStr hP _, rfl, hsecond⟩
    · rename_i heq'
      rw [heq'] at hsecond
      exact ⟨answers_checkedValueStr hP _, rfl, hsecond⟩

theorem replies_reqUri : Replies P (reqUri S (some limit) w) (reqUri S none w) := by
  have hquery : (S.perform .getQuery (S.perform .getPath w).2).2.Records P :=
    (hw.perform (c := .getPath) (fun s hs => absurd hs not_mem_nil)).perform
      (fun s hs => absurd hs not_mem_nil)
  simp only [reqUri]
  split
  · rename_i heq
    rw [heq] at hquery
    split
    · exact ⟨answers_checkedValueStr hP _, rfl, hquery⟩
    · exact ⟨answers_checkedValueStr hP _, rfl, hquery⟩
  · rename_i heq
    rw [heq] at hquery
    exact ⟨answers_checkedValueStr hP _, rfl, hquery⟩

theorem replies_builtin0 (h : id.pops = 0) :
    Replies P (builtin0 S (some limit) id w) (builtin0 S none id w) := by
  have hnone : ∀ s ∈ ([] : List String), Passes P s := fun s hs => absurd hs not_mem_nil
  cases id
  case reqMethod | reqPath | reqClientIp | reqRemoteIp =>
    exact ⟨answers_checkedValueStr hP _, rfl, hw.perform hnone⟩
  case reqQueryString => exact replies_readOpt hP hw hnone
  case reqHost | reqContentType => exact replies_readOpt hP hw (passes_short (by decide))
  case reqHeaderNames => exact ⟨answers_checkNames hP fun _ => .inl, rfl, hw.perform hnone⟩
  case reqScheme => exact replies_reqScheme hP hw
  case reqUri => exact replies_reqUri hP hw
  case timeNow => exact ⟨.plain rfl, rfl, hw.perform hnone⟩
  case sha256 | md5 | regexFind | regexReplace | range => exact ⟨.error rfl, rfl, hw⟩
  all_goals cases h

theorem replies_builtin1 (h : id.pops = 1) (hv : ∀ s ∈ v.strings, P s) :
    Replies P (builtin1 lib S (some limit) id v w) (builtin1 lib S none id v w) := by
  cases id
  case reqHeader | reqQuery | reqCookie | reqPathParam | ctxGet =>
    exact replies_readOpt hP hw (passes_one hv)
  case reqRemoveHeader | reqSetUri | reqSetHost | reqSetMethod | respRemoveHeader | ctxRemove =>
    exact replies_mutate hw (passes_one hv)
  case reqHasHeader | log => exact ⟨.plain rfl, rfl, hw.perform (passes_one hv)⟩
  case len => exact ⟨fine_lenValue v, rfl, hw⟩
  case toInt =>
    refine ⟨.plain ?_, rfl, hw⟩
    unfold toIntValue
    split
    · split <;> rfl
    · rfl
    · rfl
  case toStr | toUpper | toLower | base64Encode | urlEncode | urlDecode =>
    exact ⟨answers_checkedValueStr hP _, rfl, hw⟩
  case base64Decode => exact ⟨answers_checkedValueOptStr hP _, rfl, hw⟩
  all_goals cases h

end

/-- No function takes more than three arguments, and only `substr` takes three. -/
theorem BuiltinId.pops_cases (id : BuiltinId) : id.pops ≤ 2 ∨ id = .substr := by
  cases id
  case substr => exact .inr rfl
  all_goals exact .inl (by decide)

/-- **Every built-in function**, on the arguments it pops. -/
theorem replies_builtin (hP : ∀ s, len s ≤ limit → P s) (hw : w.Records P)
    {args : List Value} (h : args.length = id.pops) (hargs : ∀ v ∈ args, ∀ s ∈ v.strings, P s) :
    Replies P (builtin lib S (some limit) id args w) (builtin lib S none id args w) := by
  rcases id.pops_cases with hle | rfl
  · rcases args with _ | ⟨v, _ | ⟨u, _ | ⟨x, rest⟩⟩⟩
    · exact replies_builtin0 hP hw h.symm
    · exact replies_builtin1 hP hw h.symm (hargs v (by simp))
    · exact replies_builtin2 hw h.symm (hargs v (by simp)) (hargs u (by simp))
    · rw [← h] at hle
      simp only [length_cons] at hle
      omega
  · obtain ⟨v, start, stop, rfl⟩ := length_eq_three.1 h
    exact ⟨answers_substrValue hP _ _ _, rfl, hw⟩

/-! ## Instructions -/

/-- **The state is within the limits.** -/
structure Inside (vm : Vm) (st : VmState σ) : Prop where
  stack_le : st.stack.length ≤ vm.limits.maxStackDepth
  stack : ∀ v ∈ st.stack, v.Held vm
  locals : ∀ v ∈ st.locals, v.Held vm
  world : st.world.Within vm

/-- The end of a run is within the limits: the record of calls, and the body of an answer. -/
def EndsInside (vm : Vm) (outcome : Outcome) (w : World σ) : Prop :=
  w.Within vm ∧ ∀ status body, outcome = .ok (.errResponse status (some body)) → Handed vm body

/-- A turn stays within the limits. -/
def Turn.Inside (vm : Vm) : Turn σ → Prop
  | .next st => Dsl.Inside vm st
  | .halt outcome w => EndsInside vm outcome w

section

variable {st : VmState σ} (hst : Inside vm st)

include hst

theorem inside_fail (e : RuntimeError) : (st.fail e).Inside vm :=
  ⟨hst.world, fun _ _ h => nomatch h⟩

open VmState

theorem inside_push (hv : v.Held vm) : (st.push vm.limits v).Inside vm := by
  unfold push
  split
  · exact inside_fail hst _
  · rename_i hroom
    refine ⟨by simpa using hroom, fun u hu => ?_, hst.locals, hst.world⟩
    rcases mem_cons.1 hu with rfl | hu
    · exact hv
    · exact hst.stack u hu

/-- With less on the stack. -/
theorem inside_rest {rest : List Value} (h : st.stack = v :: rest) :
    Inside vm { st with stack := rest } := by
  have hle := hst.stack_le
  rw [h, length_cons] at hle
  exact ⟨le_of_succ_le hle, fun u hu => hst.stack u (h ▸ mem_cons_of_mem _ hu),
    hst.locals, hst.world⟩

theorem inside_unary {op op0 : Value → Except RuntimeError Value}
    (hop : ∀ v, Answers (Held vm) (op v) (op0 v)) :
    (st.unary vm.limits op).Inside vm := by
  unfold unary
  split
  · rename_i v rest hs
    split
    · rename_i r hr
      exact inside_push (inside_rest hst hs) ((hop v).held hr)
    · exact inside_fail hst _
  · exact inside_fail hst _

theorem inside_binary {op op0 : Value → Value → Except RuntimeError Value}
    (hop : ∀ a b, a.Held vm → Answers (Held vm) (op a b) (op0 a b)) :
    (st.binary vm.limits op).Inside vm := by
  unfold binary
  split
  · rename_i b a rest hs
    split
    · rename_i r hr
      have ha := hst.stack a (by rw [hs]; simp)
      have hrest : Inside vm { st with stack := rest } := inside_rest (inside_rest hst hs) rfl
      exact inside_push hrest ((hop a b ha).held hr)
    · exact inside_fail hst _
  · exact inside_fail hst _

theorem inside_jumpBy (codeLen : ℕ) (offset : ℤ) (name : String) :
    (st.jumpBy codeLen offset name).Inside vm := by
  simp only [jumpBy]
  split
  · exact inside_fail hst _
  · exact { hst with }

theorem inside_loopBack (offset : ℤ) : (vm.loopBack st offset).Inside vm := by
  unfold loopBack
  split
  · exact inside_fail hst _
  · split
    · exact ⟨hst.world, fun _ _ h => nomatch h⟩
    · split
      · exact inside_fail hst _
      · refine inside_jumpBy ?_ _ _ _
        exact { hst with }

theorem inside_loadConst (idx : ℕ) : (vm.loadConst st idx).Inside vm := by
  unfold loadConst
  split
  · rename_i c hc
    refine inside_push hst ?_
    match c with
    | .str s =>
      intro t ht
      rw [mem_singleton.1 ht]
      exact .inr (mem_filterMap.2 ⟨_, mem_of_getElem? hc, rfl⟩)
    | .int n => exact held_of_strings_eq_nil rfl
    | .regex p => exact held_of_strings_eq_nil rfl
  · exact inside_fail hst _

theorem inside_setLocal (slot : ℕ) : (setLocal st slot).Inside vm := by
  unfold setLocal
  split
  · rename_i v rest hs
    split
    · have hrest := inside_rest hst hs
      refine ⟨hrest.stack_le, hrest.stack, fun u hu => ?_, hst.world⟩
      rcases mem_or_eq_of_mem_set hu with hu | rfl
      · exact hst.locals u hu
      · exact hst.stack _ (by rw [hs]; exact mem_cons_self ..)
    · exact inside_fail hst _
  · exact inside_fail hst _

theorem inside_call (id : BuiltinId) : (vm.call lib S st id).Inside vm := by
  unfold call callBuiltin
  split
  · exact inside_fail hst _
  · rcases hpop : popArgs id.pops st.stack with _ | ⟨args, rest⟩
    · exact inside_fail hst _
    · obtain ⟨hlen, hstack⟩ := popArgs_eq_some.1 hpop
      have hle := hst.stack_le
      have hheld := hst.stack
      simp only [hstack, length_append, mem_append, mem_reverse] at hle hheld
      have hreplies : Replies (Held vm) (builtin lib S (some vm.limits.maxStringLen) id args st.world)
          (builtin lib S none id args st.world) :=
        replies_builtin (fun _ => .inl) hst.world hlen fun v hv => hheld v (.inl hv)
      rcases hb : builtin lib S (some vm.limits.maxStringLen) id args st.world with ⟨e | v, w⟩
      · rw [hb] at hreplies
        simp only [hb, Except.map]
        exact ⟨hreplies.records, fun _ _ h => by cases h⟩
      · rw [hb] at hreplies
        simp only [hb, Except.map]
        refine inside_push ?_ (hreplies.answers.held rfl)
        exact ⟨(le_add_left _ _).trans hle, fun u hu => hheld u (.inr hu), hst.locals,
          hreplies.records⟩

/-- A list read from the locals or `nil` for a slot that is not there. -/
theorem held_getD (slot : ℕ) : (st.locals.getD slot .nil).Held vm := by
  rw [getD_eq_getElem?_getD]
  rcases hl : st.locals[slot]? with _ | v
  · exact held_of_strings_eq_nil rfl
  · exact hst.locals v (mem_of_getElem? hl)

/-- **Every instruction keeps the state within the limits.** -/
theorem inside_runOp (op : OpCode) : (vm.runOp lib S st op).Inside vm := by
  cases op
  case loadConst idx => exact inside_loadConst hst idx
  case loadNil | loadTrue | loadFalse =>
    exact inside_push hst (held_of_strings_eq_nil rfl)
  case pop =>
    simp only [runOp]
    split
    · rename_i hs
      exact inside_rest hst hs
    · exact inside_fail hst _
  case getLocal slot => exact inside_push hst (held_getD hst slot)
  case setLocal slot => exact inside_setLocal hst slot
  case add =>
    exact inside_binary hst fun a b _ => answers_addValues (fun _ => .inl) a b
  case sub | mul => exact inside_binary hst fun a b _ => fine_intValues _ _ a b
  case div => exact inside_binary hst fun a b _ => fine_divValues a b
  case neg => exact inside_unary hst fine_negValue
  case equal | notEqual => exact inside_binary hst fun _ _ _ => .plain rfl
  case less | greater | lessEqual | greaterEqual =>
    exact inside_binary hst fun a b _ => fine_compareValues _ _ _ a b
  case not => exact inside_unary hst fun _ => .plain rfl
  case startsWith | endsWith | contains =>
    exact inside_binary hst fun a b _ => fine_testStrings _ a b
  case matchesRegex idx => exact inside_unary hst (fine_matchesValue idx)
  case jump offset => exact inside_jumpBy hst _ _ _
  case jumpIfFalse offset =>
    simp only [runOp]
    split
    · rename_i hs
      split
      · exact inside_rest hst hs
      · exact inside_jumpBy (inside_rest hst hs) _ _ _
    · exact inside_fail hst _
  case loopInit | loopEnd => exact { hst with }
  case loopBack offset => exact inside_loopBack hst offset
  case listLen => exact inside_unary hst fine_listLen
  case listGet => exact inside_binary hst fun a b ha => fine_listGet ha b
  case callBuiltin id argc => exact inside_call hst id
  case returnNext => exact ⟨hst.world, fun _ _ h => nomatch h⟩
  case returnDeny =>
    simp only [runOp]
    split
    · rename_i body status rest hs
      refine ⟨hst.world, fun code text h => ?_⟩
      have hbody := hst.stack body (by rw [hs]; exact mem_cons_self ..)
      simp only [Outcome.ok.injEq, PluginRunningResult.errResponse.injEq] at h
      unfold denyBody at h
      split at h
      · cases h.2
      · cases h.2
        exact passes_intoString hbody
    · exact inside_fail hst _

/-- So does a turn of the loop. -/
theorem inside_step : (vm.step lib S st).Inside vm := by
  unfold step
  split
  · exact ⟨hst.world, fun _ _ h => nomatch h⟩
  · refine inside_runOp ?_ _
    exact { hst with }

end

/-! ## Counters and calls -/

/-- The turn leaves the counters and the call budget of `st` as they are, and does not panic. -/
def Turn.Frames (st : VmState σ) : Turn σ → Prop
  | .next st' => st'.loopCounters = st.loopCounters ∧ st'.callBudget = st.callBudget
  | .halt outcome _ => outcome ≠ .panic

theorem frames_fail (st0 st : VmState σ) (e : RuntimeError) : (st.fail e).Frames st0 :=
  fun h => nomatch h

section

variable {st0 st : VmState σ}
  (hst : st.loopCounters = st0.loopCounters ∧ st.callBudget = st0.callBudget)

include hst

variable (limits : VmLimits)

theorem frames_push (v : Value) : (st.push limits v).Frames st0 := by
  unfold VmState.push
  split
  · exact frames_fail _ _ _
  · exact hst

theorem frames_unary (op : Value → Except RuntimeError Value) :
    (st.unary limits op).Frames st0 := by
  unfold VmState.unary
  split
  · split
    · exact frames_push (by exact hst) _ _
    · exact frames_fail _ _ _
  · exact frames_fail _ _ _

theorem frames_binary (op : Value → Value → Except RuntimeError Value) :
    (st.binary limits op).Frames st0 := by
  unfold VmState.binary
  split
  · split
    · exact frames_push (by exact hst) _ _
    · exact frames_fail _ _ _
  · exact frames_fail _ _ _

theorem frames_jumpBy (codeLen : ℕ) (offset : ℤ) (name : String) :
    (st.jumpBy codeLen offset name).Frames st0 := by
  simp only [VmState.jumpBy]
  split
  · exact frames_fail _ _ _
  · exact hst

/-- The instructions that touch the counters or the call budget. -/
def OpCode.counts : OpCode → Bool
  | .loopInit | .loopBack _ | .loopEnd | .callBuiltin _ _ => true
  | _ => false

/-- No other instruction does. -/
theorem frames_runOp {op : OpCode} (hop : op.counts = false) :
    (vm.runOp lib S st op).Frames st0 := by
  cases op
  case loadConst idx =>
    simp only [runOp, loadConst]
    split
    · exact frames_push hst _ _
    · exact frames_fail _ _ _
  case loadNil | loadTrue | loadFalse | getLocal => exact frames_push hst _ _
  case pop =>
    simp only [runOp]
    split
    · exact hst
    · exact frames_fail _ _ _
  case setLocal slot =>
    simp only [runOp, setLocal]
    split
    · split
      · exact hst
      · exact frames_fail _ _ _
    · exact frames_fail _ _ _
  case neg | not | matchesRegex | listLen =>
    simp only [runOp]
    exact frames_unary hst _ _
  case jump offset => exact frames_jumpBy hst _ _ _
  case jumpIfFalse offset =>
    simp only [runOp]
    split
    · split
      · exact hst
      · exact frames_jumpBy (by exact hst) _ _ _
    · exact frames_fail _ _ _
  case loopInit | loopBack | loopEnd | callBuiltin => cases hop
  case returnNext => exact fun h => nomatch h
  case returnDeny =>
    simp only [runOp]
    split
    · exact fun h => nomatch h
    · exact frames_fail _ _ _
  all_goals
    simp only [runOp]
    exact frames_binary hst _ _

end

/-- Whether the instruction at hand calls a built-in function, and may. -/
def Vm.calls (vm : Vm) (st : VmState σ) : Bool :=
  match vm.script.code[st.pc]? with
  | some (.callBuiltin _ _) => decide (0 < st.callBudget)
  | _ => false

/-- **What a turn does to the counters and the call budget**: a call pays one, the counters change
at their front only, and there is a panic only at the greatest `u32`. -/
def Turn.Counts (calls : Bool) (st : VmState σ) : Turn σ → Prop
  | .next st' => st'.callBudget + (if calls then 1 else 0) = st.callBudget ∧
    (st'.loopCounters = st.loopCounters ∨ st'.loopCounters = 0 :: st.loopCounters ∨
      st'.loopCounters = st.loopCounters.tail ∨
      ∃ c counters, st.loopCounters = c :: counters ∧ st'.loopCounters = (c + 1) :: counters)
  | .halt outcome _ => outcome = .panic → ∃ c ∈ st.loopCounters, c = UInt32.size - 1

variable {st st' : VmState σ}

theorem Turn.Frames.counts {turn : Turn σ} (h : turn.Frames st) : turn.Counts false st := by
  cases turn with
  | next st' => exact ⟨h.2, .inl h.1⟩
  | halt outcome w => exact fun hpanic => absurd hpanic h

theorem counts_loopBack (offset : ℤ) : (vm.loopBack st offset).Counts false st := by
  unfold loopBack
  split
  · exact (frames_fail st st _).counts
  · rename_i c counters hc
    split
    · rename_i hmax
      exact fun _ => ⟨c, by simp [hc], hmax⟩
    · split
      · exact (frames_fail st st _).counts
      · simp only [VmState.jumpBy]
        split
        · exact (frames_fail st _ _).counts
        · exact ⟨rfl, .inr (.inr (.inr ⟨c, counters, hc, rfl⟩))⟩

theorem counts_call (id : BuiltinId) :
    (vm.call lib S st id).Counts (decide (0 < st.callBudget)) st := by
  unfold call
  split
  · exact Outcome.noConfusion
  · rename_i budget hbudget
    split
    · unfold VmState.push
      split
      · exact Outcome.noConfusion
      · exact ⟨by simp [hbudget], .inl rfl⟩
    · exact Outcome.noConfusion

theorem step_counts : (vm.step lib S st).Counts (vm.calls st) st := by
  unfold step calls
  rcases vm.script.code[st.pc]? with _ | op
  · exact Outcome.noConfusion
  · -- the instructions that count, then all the others at once
    cases op
    case loopInit => exact ⟨rfl, .inr (.inl rfl)⟩
    case loopEnd => exact ⟨rfl, .inr (.inr (.inl rfl))⟩
    case loopBack offset => exact counts_loopBack offset
    case callBuiltin id argc => exact counts_call id
    all_goals
      refine Turn.Frames.counts (frames_runOp (by exact ⟨rfl, rfl⟩) ?_)
      rfl

theorem counts_of_next (h : vm.step lib S st = .next st') :
    (Turn.next st').Counts (vm.calls st) st := h ▸ step_counts

/-! ## Runs -/

variable (budget : ℕ)

/-- A run makes no more turns than its budget. -/
theorem length_visited_le (st : VmState σ) :
    (vm.visited lib S budget st).length ≤ budget := by
  induction budget generalizing st with
  | zero => exact le_rfl
  | succ budget ih =>
    rw [visited, length_cons]
    split
    · exact succ_le_succ (ih _)
    · exact succ_le_succ (zero_le _)

/-- A run makes no more calls than its call budget. -/
theorem calls_visited_le (st : VmState σ) :
    ((vm.visited lib S budget st).filter vm.calls).length ≤ st.callBudget := by
  induction budget generalizing st with
  | zero => exact zero_le _
  | succ budget ih =>
    rw [visited]
    -- the first state counts against the budget the others have
    have hhead : (if vm.calls st then 1 else 0) ≤ st.callBudget := by
      unfold calls
      split
      · split
        · rename_i hpos
          exact of_decide_eq_true hpos
        · exact zero_le _
      · exact zero_le _
    rw [filter_cons]
    split at hhead
    · rename_i hcalls
      rw [if_pos hcalls, length_cons]
      split
      · rename_i st' heq
        have hstep := (counts_of_next heq).1
        rw [if_pos hcalls] at hstep
        exact hstep ▸ succ_le_succ (ih st')
      · exact hhead
    · rename_i hcalls
      rw [if_neg hcalls]
      split
      · rename_i st' heq
        have hstep := (counts_of_next heq).1
        rw [if_neg hcalls] at hstep
        exact hstep ▸ ih st'
      · exact zero_le _

/-- A run whose counters and budget stay below the greatest `u32` does not panic. -/
theorem run_ne_panic {k budget : ℕ} (hst : ∀ c ∈ st.loopCounters, c ≤ k)
    (hk : k + budget < UInt32.size) : (vm.run lib S budget st).1 ≠ .panic := by
  induction budget generalizing st k with
  | zero => exact fun h => nomatch h
  | succ budget ih =>
    rw [run]
    split
    · rename_i st' heq
      have hk' : k + 1 + budget < UInt32.size := by omega
      refine ih (fun c hc => ?_) hk'
      -- a turn adds a counter, drops one or adds one to the innermost
      rcases (counts_of_next heq).2 with h | h | h | ⟨d, counters, h, h'⟩
      · exact le_succ_of_le (hst c (h ▸ hc))
      · rcases mem_cons.1 (h ▸ hc) with rfl | hc
        · exact zero_le _
        · exact le_succ_of_le (hst c hc)
      · exact le_succ_of_le (hst c (mem_of_mem_tail (h ▸ hc)))
      · rcases mem_cons.1 (h' ▸ hc) with rfl | hc
        · exact succ_le_succ (hst d (h ▸ mem_cons_self ..))
        · exact le_succ_of_le (hst c (h ▸ mem_cons_of_mem _ hc))
    · rename_i outcome w heq
      have hcounts : (vm.step lib S st).Counts (vm.calls st) st := step_counts
      rw [heq] at hcounts
      rintro rfl
      obtain ⟨c, hc, rfl⟩ := hcounts rfl
      have := hst _ hc
      omega

/-! ## Any script -/

/-- A fresh machine is within the limits. -/
theorem inside_new (s : σ) : Inside vm (VmState.new vm.script.localCount vm.limits ⟨s, []⟩) := by
  refine ⟨zero_le _, fun v hv => absurd hv not_mem_nil, fun v hv => ?_,
    fun c hc => absurd hc not_mem_nil⟩
  rw [(mem_replicate.1 hv).2]
  exact held_of_strings_eq_nil rfl

/-- **Whatever the script, a run halts within its limits.** It makes at most `max_steps` turns and
`max_call_count` calls and does not panic; in every state its stack is within `max_stack_depth`
and its strings within `max_string_len` or constants of the script; the texts it hands out, to the
session or as a body, are such strings or at most 20 bytes long. -/
theorem execute_within_limits (lib : Lib) (S : Session σ) (vm : Vm) (s : σ) :
    let states := vm.visited lib S vm.limits.maxSteps.toNat
      (VmState.new vm.script.localCount vm.limits ⟨s, []⟩)
    let result := vm.execute lib S ⟨s, []⟩
    states.length ≤ vm.limits.maxSteps.toNat ∧
      (states.filter vm.calls).length ≤ vm.limits.maxCallCount.toNat ∧
      result.1 ≠ .panic ∧ (∀ st ∈ states, Inside vm st) ∧ EndsInside vm result.1 result.2 := by
  refine ⟨length_visited_le _ _, calls_visited_le _ _, ?_, vm.run_rule lib S (R := Turn.Inside vm)
    (fun _ hst => inside_step hst) (fun _ hst => ⟨hst.world, fun _ _ h => nomatch h⟩) _ _
    (inside_new s)⟩
  refine run_ne_panic (fun c hc => absurd hc not_mem_nil) (k := 0) ?_
  rw [zero_add]
  exact vm.limits.maxSteps.toNat_lt

end

/-- `return deny(403, 12345)`. -/
def denyNumber : CompiledScript where
  code := [.loadConst 0, .loadConst 1, .returnDeny]
  constants := [.int 403, .int 12345]
  localCount := 0
  maxLoopDepth := 0

/-- **A body is not checked**: the text of a number is longer than the limit 0 allows. -/
theorem execute_denyNumber :
    (Vm.execute .idle .idle ⟨denyNumber, [none, none], ⟨10000, 100, 500, 128, 0⟩⟩ ⟨(), []⟩).1 =
        .ok (.errResponse 403 (some "12345")) ∧
      0 < len "12345" ∧ "12345" ∉ denyNumber.texts :=
  ⟨rfl, by decide, by decide⟩

end Edgion.Dsl
