import Edgion.Common.Segment
import Edgion.Dsl.Code
import Edgion.Dsl.Validator
import Edgion.Dsl.Vm
import Mathlib.Tactic.Ring

/-!
# Shapes

A bytecode verifier. A *shape* is the height of the operand stack and the number of loops that are
open. An assignment of shapes to the positions of a script is *sound* at an instruction if the
instruction finds what it takes, its operands are in range, and every position it can go on at has
the shape it leaves. A script with an assignment that is sound at every instruction never meets an
internal error, and its states always have the shapes assigned to them.
-/

namespace Edgion.Dsl

open Common List Nat

/-- The height of the stack and the number of open loops. -/
structure Shape where
  height : ℕ
  loops : ℕ
  deriving Repr, DecidableEq

/-- How many values an instruction takes. -/
def OpCode.takes : OpCode → ℕ
  | .pop | .setLocal _ | .neg | .not | .matchesRegex _ | .jumpIfFalse _ | .listLen => 1
  | .add | .sub | .mul | .div | .equal | .notEqual | .less | .greater | .lessEqual
  | .greaterEqual | .startsWith | .endsWith | .contains | .listGet | .returnDeny => 2
  | .callBuiltin _ argc => argc
  | _ => 0

/-- How many values it gives. -/
def OpCode.gives : OpCode → ℕ
  | .pop | .setLocal _ | .jump _ | .jumpIfFalse _ | .loopBack _ | .loopInit | .loopEnd
  | .returnNext | .returnDeny => 0
  | _ => 1

/-- Whether the next instruction can follow it. -/
def OpCode.falls : OpCode → Bool
  | .jump _ | .loopBack _ | .returnNext | .returnDeny => false
  | _ => true

/-- What an instruction does to the number of open loops, in the order of the code. -/
def OpCode.LoopsTo (loops loops' : ℕ) : OpCode → Prop
  | .loopInit => loops' = loops + 1
  | .loopEnd => loops = loops' + 1
  | .loopBack _ => loops' = loops ∧ 0 < loops
  | _ => loops' = loops

/-- The operands of an instruction are in range. -/
def OpCode.InRange (constants : List Constant) (localCount : ℕ) : OpCode → Prop
  | .loadConst idx => idx < constants.length
  | .matchesRegex idx => ∃ pattern, constants[idx]? = some (.regex pattern)
  | .getLocal slot | .setLocal slot => slot < localCount
  | .callBuiltin id argc => argc = builtinExpectedArgc id
  | _ => True

variable {K : List Constant} {N : ℕ} {W : List Shape} {p i : ℕ} {op : OpCode}
  {s t out : Shape} {c c1 c2 : List OpCode}

/-- **An assignment is sound at an instruction.** -/
structure Sound (K : List Constant) (N : ℕ) (W : List Shape) (i : ℕ) (op : OpCode)
    (s t : Shape) : Prop where
  here : W[i]? = some s
  next : W[i + 1]? = some t
  inRange : op.InRange K N
  takes_le : op.takes ≤ s.height
  loops : op.LoopsTo s.loops t.loops
  height : op.falls = true → t.height + op.takes = s.height + op.gives
  target : ∀ offset, op.offset = some offset → ∃ (j : ℕ) (u : Shape),
    (j : ℤ) = i + 1 + offset ∧ W[j]? = some u ∧ u.loops = s.loops ∧
      u.height + op.takes = s.height + op.gives

/-- It is sound at every instruction of the code at a position. -/
def SoundAt (K : List Constant) (N : ℕ) (W : List Shape) (p : ℕ) (code : List OpCode) : Prop :=
  ∀ i op, code[i]? = some op → ∃ s t, Sound K N W (p + i) op s t

theorem soundAt_nil : SoundAt K N W p [] := fun _ _ h => nomatch h

theorem soundAt_cons (hop : Sound K N W p op s t) (hc : SoundAt K N W (p + 1) c) :
    SoundAt K N W p (op :: c) := by
  intro i op' hi
  rcases i with - | i
  · cases hi
    exact ⟨s, t, hop⟩
  · obtain ⟨s', t', h⟩ := hc i op' hi
    exact ⟨s', t', by rwa [add_right_comm, add_assoc] at h⟩

theorem soundAt_append (h1 : SoundAt K N W p c1) (h2 : SoundAt K N W (p + c1.length) c2) :
    SoundAt K N W p (c1 ++ c2) := by
  intro i op hi
  rcases lt_or_ge i c1.length with hlt | hge
  · rw [getElem?_append_left hlt] at hi
    exact h1 i op hi
  · rw [getElem?_append_right hge] at hi
    obtain ⟨s, t, h⟩ := h2 _ op hi
    exact ⟨s, t, by rwa [Nat.add_assoc, Nat.add_sub_cancel' hge] at h⟩

/-- The stack is empty at the given distances from a position. -/
def RestsAt (W : List Shape) (p : ℕ) (bs : List ℕ) : Prop :=
  ∀ b ∈ bs, ∃ d, W[p + b]? = some ⟨0, d⟩

theorem restsAt_nil : RestsAt W p [] := fun _ hb => absurd hb not_mem_nil

theorem restsAt_append {bs bs' : List ℕ} (h : RestsAt W p bs) (h' : RestsAt W p bs') :
    RestsAt W p (bs ++ bs') := fun b hb =>
  (mem_append.1 hb).elim (h b) (h' b)

theorem restsAt_shift {k : ℕ} {bs : List ℕ} (h : RestsAt W (p + k) bs) :
    RestsAt W p (bs.map (· + k)) := by
  intro b hb
  obtain ⟨b', hb', rfl⟩ := mem_map.1 hb
  obtain ⟨d, hd⟩ := h b' hb'
  exact ⟨d, by rwa [add_comm b', ← add_assoc]⟩

/-! ## Shapes of code -/

/-- **Code from one shape to another.** The shapes `a` of its instructions make it sound wherever it
stands in a script, with `out` behind it; at the positions `bs` the stack is empty. -/
structure Shaped (K : List Constant) (N : ℕ) (c : List OpCode) (s out : Shape) (a : List Shape)
    (bs : List ℕ) : Prop where
  length : a.length = c.length
  head : (a ++ [out]).head? = some s
  sound : ∀ W p, SegAt W p (a ++ [out]) → SoundAt K N W p c
  rests : ∀ W p, SegAt W p (a ++ [out]) → RestsAt W p bs

namespace Shaped

variable {m : Shape} {a a1 a2 : List Shape} {bs bs1 bs2 : List ℕ} {h h' d : ℕ}

theorem eq_cons (hc : Shaped K N c s out a bs) : ∃ r, a ++ [out] = s :: r :=
  head?_eq_some_iff.1 hc.head

/-- The shapes of code with anything behind them end in its last one. -/
theorem seg (hc : Shaped K N c2 m out a2 bs2) {r : List Shape}
    (hW : SegAt W p (a1 ++ (a2 ++ out :: r))) : SegAt W p (a1 ++ [m]) := by
  obtain ⟨r', hr'⟩ := hc.eq_cons
  have heq : a1 ++ (a2 ++ out :: r) = (a1 ++ [m]) ++ (r' ++ r) := by
    have : a2 ++ out :: r = (a2 ++ [out]) ++ r := by simp
    rw [this, hr']
    simp
  rw [heq] at hW
  exact hW.left

theorem nil : Shaped K N [] s s [] [] :=
  ⟨rfl, rfl, fun _ _ _ => soundAt_nil, fun _ _ _ => restsAt_nil⟩

/-- **One piece of code after another.** -/
theorem append (h1 : Shaped K N c1 s m a1 bs1) (h2 : Shaped K N c2 m out a2 bs2) :
    Shaped K N (c1 ++ c2) s out (a1 ++ a2) (bs1 ++ bs2.map (· + c1.length)) := by
  obtain ⟨r, hr⟩ := h2.eq_cons
  have hsplit : ∀ {W p}, SegAt W p ((a1 ++ a2) ++ [out]) →
      SegAt W p (a1 ++ [m]) ∧ SegAt W (p + c1.length) (a2 ++ [out]) := by
    intro W p hW
    rw [append_assoc] at hW
    exact ⟨h2.seg hW, h1.length ▸ hW.right⟩
  refine ⟨by simp [h1.length, h2.length], ?_, fun W p hW => ?_, fun W p hW => ?_⟩
  · rw [append_assoc, hr]
    rcases a1 with - | ⟨x, a1⟩
    · simpa using h1.head
    · simpa using h1.head
  · obtain ⟨hW1, hW2⟩ := hsplit hW
    exact soundAt_append (h1.sound W p hW1) (h2.sound W _ hW2)
  · obtain ⟨hW1, hW2⟩ := hsplit hW
    exact restsAt_append (h1.rests W p hW1) (restsAt_shift (h2.rests W _ hW2))

/-- **An instruction that does not jump.** -/
theorem single (hoff : op.offset = none) (hin : op.InRange K N) (htakes : op.takes ≤ s.height)
    (hloops : op.LoopsTo s.loops out.loops)
    (hht : op.falls → out.height + op.takes = s.height + op.gives) :
    Shaped K N [op] s out [s] [] := by
  refine ⟨rfl, rfl, fun W p hW => soundAt_cons (s := s) (t := out) ?_ soundAt_nil,
    fun _ _ _ => restsAt_nil⟩
  exact ⟨hW.head, hW.tail.head, hin, htakes, hloops, hht, fun offset ho => by
    rw [hoff] at ho
    cases ho⟩

/-- An instruction that takes and gives values. -/
theorem operation (hoff : op.offset = none) (hin : op.InRange K N) (hloops : ∀ d, op.LoopsTo d d) :
    Shaped K N [op] ⟨h + op.takes, d⟩ ⟨h + op.gives, d⟩ [⟨h + op.takes, d⟩] [] :=
  single hoff hin (le_add_left _ _) (hloops d) fun _ => by
    show h + op.gives + op.takes = h + op.takes + op.gives
    omega

/-- **A conditional jump over code.** -/
theorem skip (hb : Shaped K N c ⟨h, d⟩ ⟨h, d⟩ a bs) :
    Shaped K N (.jumpIfFalse c.length :: c) ⟨h + 1, d⟩ ⟨h, d⟩ (⟨h + 1, d⟩ :: a)
      (bs.map (· + 1)) := by
  refine ⟨by simp [hb.length], rfl, fun W p hW => ?_,
    fun W p hW => restsAt_shift (hb.rests W _ hW.tail)⟩
  · obtain ⟨r, hr⟩ := hb.eq_cons
    have hbody : SegAt W (p + 1) (a ++ [⟨h, d⟩]) := hW.tail
    have hend : W[p + 1 + c.length]? = some ⟨h, d⟩ := hb.length ▸ hbody.right.head
    refine soundAt_cons (t := ⟨h, d⟩) ⟨hW.head, (hr ▸ hbody).head, trivial, ?_, rfl, fun _ => rfl,
      fun offset ho => ?_⟩ (hb.sound W _ hbody)
    · exact le_add_left _ _
    · cases ho
      exact ⟨_, _, by push_cast; rfl, hend, rfl, rfl⟩

/-- **A choice**: a conditional jump to the second piece of code, and a jump over it. -/
theorem choice (hb : Shaped K N c1 ⟨h, d⟩ ⟨h', d⟩ a1 bs1)
    (hr : Shaped K N c2 ⟨h, d⟩ ⟨h', d⟩ a2 bs2) :
    Shaped K N (.jumpIfFalse (c1.length + 1) :: (c1 ++ .jump c2.length :: c2)) ⟨h + 1, d⟩ ⟨h', d⟩
      (⟨h + 1, d⟩ :: (a1 ++ ⟨h', d⟩ :: a2))
      (bs1.map (· + 1) ++ bs2.map (· + (c1.length + 2))) := by
  obtain ⟨r1, hr1⟩ := hb.eq_cons
  obtain ⟨r2, hr2⟩ := hr.eq_cons
  -- where the pieces are, from where the whole is
  have hparts : ∀ {W p}, SegAt W p ((⟨h + 1, d⟩ :: (a1 ++ ⟨h', d⟩ :: a2)) ++ [⟨h', d⟩]) →
      SegAt W (p + 1) (a1 ++ [⟨h', d⟩]) ∧ W[p + 1 + c1.length]? = some ⟨h', d⟩ ∧
        SegAt W (p + 1 + c1.length + 1) (a2 ++ [⟨h', d⟩]) := by
    intro W p hW
    have htail : SegAt W (p + 1) ((a1 ++ [⟨h', d⟩]) ++ (a2 ++ [⟨h', d⟩])) := by
      simpa using hW.tail
    have hjump : SegAt W (p + 1 + c1.length) (⟨h', d⟩ :: (a2 ++ [⟨h', d⟩])) := by
      rw [append_assoc] at htail
      exact hb.length ▸ htail.right
    exact ⟨htail.left, hjump.head, hjump.tail⟩
  refine ⟨by simp [hb.length, hr.length], rfl, fun W p hW => ?_, fun W p hW => ?_⟩
  · obtain ⟨hW1, hjump, hW2⟩ := hparts hW
    have hfst : W[p + 1]? = some ⟨h, d⟩ := (hr1 ▸ hW1).head
    have hsecond : W[p + 1 + c1.length + 1]? = some ⟨h, d⟩ := (hr2 ▸ hW2).head
    have hend : W[p + 1 + c1.length + 1 + c2.length]? = some ⟨h', d⟩ := hr.length ▸ hW2.right.head
    refine soundAt_cons (t := ⟨h, d⟩) ⟨hW.head, hfst, trivial, le_add_left _ _, rfl,
      fun _ => rfl, fun offset ho => ?_⟩ (soundAt_append (hb.sound W _ hW1)
      (soundAt_cons (t := ⟨h, d⟩) ⟨hjump, hsecond, trivial, zero_le _, rfl, (fun hf => nomatch hf),
        fun offset ho => ?_⟩ (hr.sound W _ hW2)))
    · cases ho
      exact ⟨_, _, by push_cast; ring, hsecond, rfl, rfl⟩
    · cases ho
      exact ⟨_, _, by push_cast; ring, hend, rfl, rfl⟩
  · obtain ⟨hW1, -, hW2⟩ := hparts hW
    refine restsAt_append (restsAt_shift (hb.rests W _ hW1)) (restsAt_shift ?_)
    have hpos : p + 1 + c1.length + 1 = p + (c1.length + 2) := by omega
    exact hpos ▸ hr.rests W _ hW2

/-- **A loop.** -/
theorem loop (hh : Shaped K N c1 ⟨h, d + 1⟩ ⟨h + 1, d + 1⟩ a1 [])
    (hb : Shaped K N c2 ⟨h, d + 1⟩ ⟨h, d + 1⟩ a2 bs2) :
    Shaped K N (loopCode c1 c2) ⟨h, d⟩ ⟨h, d⟩
      (⟨h, d⟩ :: (a1 ++ ⟨h + 1, d + 1⟩ :: (a2 ++ [⟨h, d + 1⟩, ⟨h, d + 1⟩])))
      (bs2.map (· + (c1.length + 2))) := by
  obtain ⟨r1, hr1⟩ := hh.eq_cons
  obtain ⟨r2, hr2⟩ := hb.eq_cons
  have hparts : ∀ {W p}, SegAt W p ((⟨h, d⟩ ::
      (a1 ++ ⟨h + 1, d + 1⟩ :: (a2 ++ [⟨h, d + 1⟩, ⟨h, d + 1⟩]))) ++ [⟨h, d⟩]) →
      SegAt W (p + 1) (a1 ++ [⟨h + 1, d + 1⟩]) ∧ W[p + 1 + c1.length]? = some ⟨h + 1, d + 1⟩ ∧
        SegAt W (p + 1 + c1.length + 1) (a2 ++ [⟨h, d + 1⟩]) ∧
        SegAt W (p + 1 + c1.length + 1 + c2.length) [⟨h, d + 1⟩, ⟨h, d + 1⟩, ⟨h, d⟩] := by
    intro W p hW
    have htail : SegAt W (p + 1) ((a1 ++ [⟨h + 1, d + 1⟩]) ++
        ((a2 ++ [⟨h, d + 1⟩]) ++ [⟨h, d + 1⟩, ⟨h, d⟩])) := by
      simpa using hW.tail
    have hjump : SegAt W (p + 1 + c1.length) (⟨h + 1, d + 1⟩ ::
        ((a2 ++ [⟨h, d + 1⟩]) ++ [⟨h, d + 1⟩, ⟨h, d⟩])) := by
      rw [append_assoc] at htail
      exact hh.length ▸ htail.right
    refine ⟨htail.left, hjump.head, hjump.tail.left, ?_⟩
    have hlast := hjump.tail
    rw [append_assoc] at hlast
    exact hb.length ▸ hlast.right
  refine ⟨by simp [loopCode, hh.length, hb.length], rfl, fun W p hW => ?_, fun W p hW => ?_⟩
  · obtain ⟨hW1, hjump, hW2, hW3⟩ := hparts hW
    have hstart : W[p + 1]? = some ⟨h, d + 1⟩ := (hr1 ▸ hW1).head
    have hbody : W[p + 1 + c1.length + 1]? = some ⟨h, d + 1⟩ := (hr2 ▸ hW2).head
    refine soundAt_cons (t := ⟨h, d + 1⟩) ⟨hW.head, hstart, trivial, zero_le _, rfl,
      fun _ => rfl, fun offset ho => by cases ho⟩ (soundAt_append (hh.sound W _ hW1)
      (soundAt_cons (t := ⟨h, d + 1⟩) ⟨hjump, hbody, trivial, le_add_left _ _, rfl,
        fun _ => rfl, fun offset ho => ?_⟩ (soundAt_append (hb.sound W _ hW2)
        (soundAt_cons (t := ⟨h, d + 1⟩) ⟨hW3.head, hW3.tail.head, trivial, zero_le _,
          ⟨rfl, succ_pos d⟩, (fun hf => by cases hf), fun offset ho => ?_⟩
          (soundAt_cons (t := ⟨h, d⟩) ⟨hW3.tail.head, hW3.tail.tail.head, trivial, zero_le _,
            rfl, fun _ => rfl, fun offset ho => by cases ho⟩ soundAt_nil)))))
    · cases ho
      exact ⟨_, _, by push_cast; ring, hW3.tail.head, rfl, rfl⟩
    · cases ho
      exact ⟨_, _, by push_cast; ring, hstart, rfl, rfl⟩
  · obtain ⟨-, -, hW2, -⟩ := hparts hW
    refine restsAt_shift ?_
    have hpos : p + 1 + c1.length + 1 = p + (c1.length + 2) := by omega
    exact hpos ▸ hb.rests W _ hW2

end Shaped

/-- **A script with a sound assignment**, which starts and ends with nothing on the stack and no loop
open. -/
structure Verified (script : CompiledScript) (W : List Shape) : Prop where
  length : W.length = script.code.length + 1
  first : W[0]? = some ⟨0, 0⟩
  last : W[script.code.length]? = some ⟨0, 0⟩
  sound : SoundAt script.constants script.localCount W 0 script.code

/-! ## The structural checks of the validator -/

namespace Verified

variable {script : CompiledScript} (h : Verified script W)

include h

/-- What is known of the instruction at a position. -/
theorem soundOp (hi : script.code[i]? = some op) :
    ∃ s t, Sound script.constants script.localCount W i op s t := by
  obtain ⟨s, t, hs⟩ := h.sound i op hi
  exact ⟨s, t, by rwa [zero_add] at hs⟩

/-- A check that no sound instruction fails. -/
theorem checkEach_eq_nil {check : ℕ → OpCode → List ValidationError}
    (hcheck : ∀ i op s t, Sound script.constants script.localCount W i op s t → check i op = []) :
    checkEach check script.code = [] := by
  refine flatMap_eq_nil_iff.2 fun ⟨op, i⟩ hmem => ?_
  obtain ⟨s, t, hs⟩ := h.soundOp (mem_zipIdx_iff_getElem?.1 hmem)
  exact hcheck i op s t hs

theorem indexErrors_eq_nil : checkEach (indexErrors script.constants) script.code = [] := by
  refine h.checkEach_eq_nil fun i op s t hs => ?_
  have hin := hs.inRange
  unfold indexErrors
  split
  · exact if_neg (by simpa [OpCode.InRange] using hin)
  · obtain ⟨pattern, hp⟩ := hin
    rw [hp]
  · rfl

theorem argCountErrors_eq_nil : checkEach argCountErrors script.code = [] := by
  refine h.checkEach_eq_nil fun i op s t hs => ?_
  have hin := hs.inRange
  unfold argCountErrors
  split
  · exact if_neg (by simpa [OpCode.InRange] using hin)
  · rfl

theorem jumpErrors_eq_nil : checkEach (jumpErrors script.code.length) script.code = [] := by
  refine h.checkEach_eq_nil fun i op s t hs => ?_
  unfold jumpErrors
  split
  · rename_i offset ho
    obtain ⟨j, u, hj, hu, -, -⟩ := hs.target offset ho
    have hlt := (List.getElem?_eq_some_iff.1 hu).1
    rw [h.length] at hlt
    refine if_neg ?_
    simp only [← hj, Bool.or_eq_true, decide_eq_true_eq]
    omega
  · rfl

theorem slotErrors_eq_nil : checkEach (slotErrors script.localCount) script.code = [] := by
  refine h.checkEach_eq_nil fun i op s t hs => ?_
  have hin := hs.inRange
  unfold slotErrors
  split
  · exact if_neg (by simpa [OpCode.InRange] using hin)
  · exact if_neg (by simpa [OpCode.InRange] using hin)
  · rfl

/-- The loops are balanced from any position on, starting from those open there. -/
theorem loopErrors_eq_nil (hs : W[i]? = some s) {ops : List OpCode}
    (hops : script.code.drop i = ops) : loopErrors s.loops i ops = [] := by
  induction ops generalizing i s with
  | nil =>
    -- the end of the code, where no loop is open
    have hle : script.code.length ≤ i := drop_eq_nil_iff.1 hops
    have hlt := (List.getElem?_eq_some_iff.1 hs).1
    have hend : i = script.code.length := by
      rw [h.length] at hlt
      omega
    rw [hend, h.last] at hs
    cases hs
    rfl
  | cons op ops ih =>
    have hi : script.code[i]? = some op := by
      have := congrArg (·[0]?) hops
      simpa using this
    have hrest : script.code.drop (i + 1) = ops := by
      rw [← tail_drop, hops, tail_cons]
    obtain ⟨s', t, hsound⟩ := h.soundOp hi
    obtain rfl : s' = s := Option.some.inj (hsound.here.symm.trans hs)
    have hnext := ih hsound.next hrest
    have hloops := hsound.loops
    cases op
    case loopInit =>
      rw [loopErrors, ← hnext, hloops]
      rfl
    case loopEnd =>
      have heq : (s'.loops : ℤ) - 1 = t.loops := by rw [hloops]; push_cast; ring
      rw [loopErrors, heq, hnext, append_nil]
      exact if_neg (by simp)
    case loopBack offset =>
      rw [loopErrors, ← hloops.1, hnext, append_nil]
      have hpos : 0 < t.loops := hloops.1 ▸ hloops.2
      exact if_neg (by simpa using hpos.ne')
    all_goals
      rw [← hnext, show t.loops = s'.loops from hloops]
      rfl

/-- **Only the sizes of a verified script are left for the validator**, once its patterns compile and
are not too long. -/
theorem isSize_of_mem_validate {lib : Lib} {limits : ValidationLimits}
    (hre : ∀ pattern, Constant.regex pattern ∈ script.constants →
      lib.regexError pattern = none ∧ Text.len pattern ≤ maxRegexPatternLen)
    {e : ValidationError} (he : e ∈ validate lib limits script) : e.isSize = true := by
  have hreport : ∀ {bad : Bool} {e' : ValidationError}, e'.isSize → e ∈ reportIf bad e' →
      e.isSize = true := by
    intro bad e' hsize hmem
    unfold reportIf at hmem
    split at hmem
    · rw [mem_singleton.1 hmem]
      exact hsize
    · exact absurd hmem not_mem_nil
  have hloops : loopErrors 0 0 script.code = [] := h.loopErrors_eq_nil h.first rfl
  simp only [validate, h.indexErrors_eq_nil, h.argCountErrors_eq_nil, h.jumpErrors_eq_nil,
    h.slotErrors_eq_nil, hloops, append_nil, mem_append] at he
  rcases he with ((((he | he) | he) | he) | he) | he
  · exact hreport rfl he
  · exact hreport rfl he
  · exact hreport rfl he
  · -- the constants: a pattern has no error, a string only its length
    obtain ⟨⟨k, i⟩, hmem, he⟩ := mem_flatMap.1 he
    have hk : k ∈ script.constants := mem_of_getElem? (mem_zipIdx_iff_getElem?.1 hmem)
    rcases k with text | n | pattern
    · exact hreport rfl he
    · exact absurd he not_mem_nil
    · obtain ⟨hvalid, hlen⟩ := hre pattern hk
      simp only [constantErrors, hvalid, append_nil] at he
      rw [reportIf, if_neg (by simpa using hlen)] at he
      exact absurd he not_mem_nil
  · exact hreport rfl he
  · exact hreport rfl he

end Verified

end Edgion.Dsl
