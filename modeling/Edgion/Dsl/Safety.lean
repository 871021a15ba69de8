import Edgion.Dsl.Emission
import Edgion.Dsl.Limits
import Edgion.Dsl.Verifier

/-!
# Compiled scripts are safe

The operators and the built-in functions never fail with an internal error of their own (`Answers`),
so a script with a sound assignment of shapes never meets one (`safe_run`). The code of a program has
such an assignment, in which the stack is empty at the boundaries of its statements; the structural
checks of the validator are read off it too.
-/

namespace Edgion.Dsl

open Common List Function Nat Vm

/-! ## Runs -/

variable {id : BuiltinId}

section

variable {σ : Type} {lib : Lib} {S : Session σ} {vm : Vm} {W : List Shape}

/-- A built-in function that has its arguments, whatever they are. -/
theorem replies_any (limit : ℕ) {args : List Value} (h : args.length = id.pops) (w : World σ) :
    Replies (fun _ => True) (builtin lib S (some limit) id args w) (builtin lib S none id args w) :=
  replies_builtin (fun _ _ => trivial) (fun _ _ _ _ => .inl trivial) h fun _ _ _ _ => trivial

/-- A function whose branch pops fewer values than a call has is one that always fails. -/
theorem builtin_argc (id : BuiltinId) : id.pops = builtinExpectedArgc id ∨
      id.pops = 0 ∧ ∀ (S : Session σ) (limit : Option ℕ) (w : World σ),
        ∃ e, (builtin0 S limit id w).1 = .error e := by
  cases id
  case sha256 | md5 | regexFind | regexReplace | range => exact .inr ⟨rfl, fun S limit w => ⟨_, rfl⟩⟩
  all_goals exact .inl rfl

/-- A state has the shape assigned to its position. -/
structure HasShape (vm : Vm) (W : List Shape) (st : VmState σ) : Prop where
  shape : W[st.pc]? = some ⟨st.stack.length, st.loopCounters.length⟩
  locals : st.locals.length = vm.script.localCount

/-- A turn leads to such a state, or ends without an internal error. -/
def Turn.Safe (vm : Vm) (W : List Shape) : Turn σ → Prop
  | .next st => HasShape vm W st
  | .halt outcome _ => ∀ e, outcome = .error e → e.isInternal = false

theorem some_shape_eq {u : Shape} {height loops : ℕ} (hh : u.height = height)
    (hl : u.loops = loops) : some u = some ⟨height, loops⟩ := by
  subst hh hl
  rfl

theorem safe_fail (st : VmState σ) {e : RuntimeError} (h : e.isInternal = false) :
    (st.fail e).Safe vm W := fun e' he => by
  cases he
  exact h

theorem popArgs_of_le {n : ℕ} {stack : List Value} (h : n ≤ stack.length) :
    ∃ args rest, popArgs n stack = some (args, rest) ∧ args.length = n ∧
      rest.length + n = stack.length := by
  have hlen : (stack.take n).reverse.length = n := by simp [h]
  refine ⟨_, stack.drop n, popArgs_eq_some.2 ⟨hlen, by simp⟩, hlen, ?_⟩
  rw [length_drop, Nat.sub_add_cancel h]

section

variable {st : VmState σ} {t : Shape} (hnext : W[st.pc]? = some t)
  (hloops : t.loops = st.loopCounters.length) (hlocals : st.locals.length = vm.script.localCount)

include hnext hloops hlocals

theorem safe_push (hht : t.height = st.stack.length + 1) (limits : VmLimits) (v : Value) :
    (st.push limits v).Safe vm W := by
  unfold VmState.push
  split
  · exact safe_fail _ rfl
  · refine ⟨?_, hlocals⟩
    exact hnext.trans (some_shape_eq hht hloops)

theorem safe_unary (hht : t.height + 1 = st.stack.length + 1) (hpos : 1 ≤ st.stack.length)
    {f f0 : Value → Except RuntimeError Value} (hf : ∀ v, Answers (fun _ => True) (f v) (f0 v))
    (limits : VmLimits) :
    (st.unary limits f).Safe vm W := by
  unfold VmState.unary
  split
  · rename_i v rest hst
    rw [hst, length_cons] at hht
    split
    · exact safe_push (by exact hnext) (by exact hloops) (by exact hlocals)
        (succ_injective hht) _ _
    · exact safe_fail _ ((hf v).notInternal ‹_›)
  · rename_i hst
    rw [hst] at hpos
    cases hpos

theorem safe_binary (hht : t.height + 2 = st.stack.length + 1) (hpos : 2 ≤ st.stack.length)
    {f f0 : Value → Value → Except RuntimeError Value}
    (hf : ∀ v u, Answers (fun _ => True) (f v u) (f0 v u)) (limits : VmLimits) : (st.binary limits f).Safe vm W := by
  unfold VmState.binary
  split
  · rename_i b a rest hst
    rw [hst, length_cons, length_cons] at hht
    split
    · exact safe_push (by exact hnext) (by exact hloops) (by exact hlocals)
        (succ_injective (succ_injective hht)) _ _
    · exact safe_fail _ ((hf a b).notInternal ‹_›)
  · rename_i hne
    rcases hst : st.stack with - | ⟨b, - | ⟨a, rest⟩⟩
    · rw [hst] at hpos
      cases hpos
    · rw [hst] at hpos
      simp only [length_cons, length_nil] at hpos
      omega
    · exact absurd hst (hne b a rest)

/-- A call, in a state that has the arguments the function expects. -/
theorem safe_call (hargs : builtinExpectedArgc id ≤ st.stack.length)
    (hht : t.height + builtinExpectedArgc id = st.stack.length + 1) :
    (vm.call lib S st id).Safe vm W := by
  have hle : id.pops ≤ st.stack.length := by
    rcases builtin_argc (σ := σ) id with h | ⟨h, -⟩
    · omega
    · omega
  obtain ⟨args, rest, hpop, hlen, hrest⟩ := popArgs_of_le hle
  unfold call
  split
  · exact safe_fail _ rfl
  · unfold callBuiltin
    rw [hpop]
    rcases hr : builtin lib S (some vm.limits.maxStringLen) id args st.world with ⟨e | v, w⟩
    · simp only [hr, Except.map]
      intro e' he
      cases he
      exact (replies_any _ hlen st.world).answers.notInternal (congrArg Prod.fst hr)
    · -- only a function that takes all it is given succeeds
      have hpops : id.pops = builtinExpectedArgc id := by
        rcases builtin_argc (σ := σ) id with h | ⟨h, herr⟩
        · exact h
        · obtain rfl : args = [] := eq_nil_of_length_eq_zero (hlen.trans h)
          obtain ⟨e, he⟩ := herr S (some vm.limits.maxStringLen) st.world
          have hr' : (builtin0 S (some vm.limits.maxStringLen) id st.world).1 = .ok v :=
            congrArg Prod.fst hr
          rw [he] at hr'
          cases hr'
      simp only [hr, Except.map]
      refine safe_push (by exact hnext) (by exact hloops) (by exact hlocals) ?_ _ _
      show t.height = rest.length + 1
      omega

end

variable {st : VmState σ} {t : Shape}

/-- A jump to a position of the right shape. -/
theorem safe_jumpBy {offset : ℤ} {j : ℕ} {name : String}
    (hj : (j : ℤ) = st.pc + offset) (hle : j ≤ vm.script.code.length)
    (hshape : W[j]? = some ⟨st.stack.length, st.loopCounters.length⟩)
    (hlocals : st.locals.length = vm.script.localCount) :
    (st.jumpBy vm.script.code.length offset name).Safe vm W := by
  unfold VmState.jumpBy
  simp only [← hj]
  rw [if_neg (by omega)]
  exact ⟨hshape, hlocals⟩

/-- **An instruction at which the assignment is sound is safe.** -/
theorem safe_runOp {op : OpCode} {s : Shape} {i : ℕ} (hpc : st.pc = i + 1)
    (hlen : W.length = vm.script.code.length + 1)
    (hs : s = ⟨st.stack.length, st.loopCounters.length⟩)
    (hlocals : st.locals.length = vm.script.localCount)
    (h : Sound vm.script.constants vm.script.localCount W i op s t) :
    (vm.runOp lib S st op).Safe vm W := by
  subst hs
  obtain ⟨-, hnext, hin, htakes, hloops, hht, htgt⟩ := h
  rw [← hpc] at hnext
  -- a position the assignment has a shape for is one the machine may jump to
  have hbound : ∀ {j : ℕ} {u : Shape}, W[j]? = some u → j ≤ vm.script.code.length := by
    intro j u hj
    have := (List.getElem?_eq_some_iff.1 hj).1
    omega
  have hshape : ∀ {n : ℕ}, t.height = n → t.loops = st.loopCounters.length →
      W[st.pc]? = some ⟨n, st.loopCounters.length⟩ := by
    intro n hn hl
    exact hnext.trans (some_shape_eq hn hl)
  cases op
  case loadConst idx =>
    simp only [runOp, loadConst]
    rw [getElem?_eq_getElem hin]
    exact safe_push hnext hloops hlocals (hht rfl) _ _
  case loadNil | loadTrue | loadFalse | getLocal =>
    exact safe_push hnext hloops hlocals (hht rfl) _ _
  case pop =>
    simp only [runOp]
    split
    · rename_i v rest hst
      rw [hst] at hht
      exact ⟨hshape (succ_injective (hht rfl)) hloops, hlocals⟩
    · rename_i hst
      rw [hst] at htakes
      cases htakes
  case setLocal slot =>
    simp only [runOp, setLocal]
    split
    · rename_i v rest hst
      rw [hst] at hht
      rw [if_pos (hlocals ▸ hin)]
      exact ⟨hshape (succ_injective (hht rfl)) hloops, by rw [length_set, hlocals]⟩
    · rename_i hst
      rw [hst] at htakes
      cases htakes
  case neg =>
    exact safe_unary hnext hloops hlocals (hht rfl) htakes fine_negValue _
  case not =>
    exact safe_unary hnext hloops hlocals (hht rfl) htakes (fun v => .plain rfl) _
  case listLen =>
    exact safe_unary hnext hloops hlocals (hht rfl) htakes fine_listLen _
  case matchesRegex idx =>
    exact safe_unary hnext hloops hlocals (hht rfl) htakes (fine_matchesValue idx) _
  case jump offset =>
    obtain ⟨j, u, hj, hu, hul, huh⟩ := htgt offset rfl
    exact safe_jumpBy (by rw [hj, hpc]; rfl) (hbound hu) (hu.trans (some_shape_eq huh hul)) hlocals
  case jumpIfFalse offset =>
    obtain ⟨j, u, hj, hu, hul, huh⟩ := htgt offset rfl
    simp only [runOp]
    split
    · rename_i v rest hst
      rw [hst] at hht huh
      split
      · exact ⟨hshape (succ_injective (hht rfl)) hloops, hlocals⟩
      · refine safe_jumpBy (by rw [hj]; exact congrArg (· + offset) (by rw [hpc]; rfl)) (hbound hu)
          (hu.trans (some_shape_eq (succ_injective huh) hul)) hlocals
    · rename_i hst
      rw [hst] at htakes
      cases htakes
  case loopInit =>
    refine ⟨?_, hlocals⟩
    exact hnext.trans (some_shape_eq (hht rfl) hloops)
  case loopBack offset =>
    obtain ⟨j, u, hj, hu, hul, huh⟩ := htgt offset rfl
    simp only [runOp, loopBack]
    split
    · rename_i hnone
      have hpos : 0 < st.loopCounters.length := hloops.2
      rw [hnone] at hpos
      cases hpos
    · rename_i counter counters hc
      split
      · exact fun e he => by cases he
      · split
        · exact safe_fail _ rfl
        · rw [hc] at hul
          exact safe_jumpBy (by rw [hj]; exact congrArg (· + offset) (by rw [hpc]; rfl))
            (hbound hu) (hu.trans (some_shape_eq huh hul)) hlocals
  case loopEnd =>
    refine ⟨?_, hlocals⟩
    refine hnext.trans (some_shape_eq (hht rfl) ?_)
    rw [length_tail]
    exact (Nat.sub_eq_of_eq_add hloops).symm
  case callBuiltin id argc =>
    obtain rfl : argc = builtinExpectedArgc id := hin
    exact safe_call hnext hloops hlocals htakes (hht rfl)
  case returnNext => exact fun e h => by cases h
  case returnDeny =>
    simp only [runOp]
    split
    · exact fun e h => by cases h
    · rename_i hne
      rcases hst : st.stack with - | ⟨b, - | ⟨a, rest⟩⟩
      · rw [hst] at htakes
        cases htakes
      · rw [hst] at htakes
        cases le_of_succ_le_succ htakes
      · exact absurd hst (hne b a rest)
  case add =>
    exact safe_binary hnext hloops hlocals (hht rfl) htakes
      (answers_addValues fun _ _ => trivial) _
  case sub | mul =>
    exact safe_binary hnext hloops hlocals (hht rfl) htakes (fine_intValues _ _) _
  case div =>
    exact safe_binary hnext hloops hlocals (hht rfl) htakes fine_divValues _
  case less | greater | lessEqual | greaterEqual =>
    exact safe_binary hnext hloops hlocals (hht rfl) htakes (fine_compareValues _ _ _) _
  case startsWith | endsWith | contains =>
    exact safe_binary hnext hloops hlocals (hht rfl) htakes (fine_testStrings _) _
  case equal | notEqual =>
    exact safe_binary hnext hloops hlocals (hht rfl) htakes (fun _ _ => .plain rfl) _
  case listGet =>
    exact safe_binary hnext hloops hlocals (hht rfl) htakes
      (fun _ => fine_listGet fun _ _ => trivial) _

/-- **A turn of a verified script is safe.** -/
theorem safe_step (hv : Verified vm.script W) (hst : HasShape vm W st) :
    (vm.step lib S st).Safe vm W := by
  unfold step
  split
  · exact fun e he => nomatch he
  · rename_i op hop
    obtain ⟨s, t, hs⟩ := hv.soundOp hop
    exact safe_runOp rfl hv.length (Option.some.inj (hs.here.symm.trans hst.shape)) hst.locals hs

/-- **The states of a run of a verified script have the shapes assigned to their positions**, and
it never ends with an internal error. -/
theorem safe_run (hv : Verified vm.script W) (hst : HasShape vm W st) (budget : ℕ) :
    (∀ st' ∈ vm.visited lib S budget st, HasShape vm W st') ∧
      ∀ e, (vm.run lib S budget st).1 = .error e → e.isInternal = false := by
  refine vm.run_rule lib S (R := Turn.Safe vm W) (fun _ hst => safe_step hv hst)
    (fun _ _ e he => ?_) budget st hst
  cases he
  rfl

end

/-! ## Shapes of compiled code -/

section

variable {K : List Constant} {N : ℕ} {Γ : List Local} {c c1 c2 : List OpCode}

/-- Code that leaves so many values on the stack. -/
def Pushes (K : List Constant) (N : ℕ) (c : List OpCode) (count : ℕ) : Prop :=
  ∀ h d, ∃ a, Shaped K N c ⟨h, d⟩ ⟨h + count, d⟩ a []

theorem pushes_append {m n : ℕ} (h1 : Pushes K N c1 m) (h2 : Pushes K N c2 n) :
    Pushes K N (c1 ++ c2) (m + n) := by
  intro h d
  obtain ⟨a1, ha1⟩ := h1 h d
  obtain ⟨a2, ha2⟩ := h2 (h + m) d
  exact ⟨a1 ++ a2, add_assoc h m n ▸ ha1.append ha2⟩

theorem pushes_nil : Pushes K N [] 0 := fun _ _ => ⟨[], .nil⟩

/-- The instructions that make one value of what they take. -/
def OpCode.computes : OpCode → Bool
  | .pop | .setLocal _ | .jump _ | .jumpIfFalse _ | .loopBack _ | .loopInit | .loopEnd
  | .returnNext | .returnDeny => false
  | _ => true

/-- Operands, and an instruction that makes one value of them. -/
theorem pushes_operation (op : OpCode) (hop : op.computes) (h : Pushes K N c op.takes)
    (hin : op.InRange K N) : Pushes K N (c ++ [op]) 1 := by
  have hgives : op.gives = 1 := by cases op <;> first | rfl | cases hop
  have hoff : op.offset = none := by cases op <;> first | rfl | cases hop
  have hloops : ∀ d, op.LoopsTo d d := by
    intro d
    cases op <;> first | rfl | cases hop
  intro k d
  obtain ⟨a, ha⟩ := h k d
  have hshaped := Shaped.operation (h := k) (d := d) hoff hin hloops
  rw [hgives] at hshaped
  exact ⟨_, ha.append hshaped⟩

/-- An instruction that takes nothing. -/
theorem pushes_load (op : OpCode) (hop : op.computes) (htakes : op.takes = 0)
    (hin : op.InRange K N) : Pushes K N [op] 1 :=
  pushes_operation op hop (htakes ▸ pushes_nil) hin

variable {skipped : OpCode} {test : List OpCode}

/-- A test and a choice between two pieces of code that push one value each. -/
theorem pushes_short {cl cr : List OpCode} (hl : Pushes K N cl 1)
    (htest : ∀ h d, ∃ a, Shaped K N test ⟨h + 1, d⟩ ⟨h + 1, d⟩ a []) (hr : Pushes K N cr 1)
    (hs : Pushes K N [skipped] 1) :
    Pushes K N (cl ++ (test ++ .jumpIfFalse (cr.length + 1) :: (cr ++ [.jump 1, skipped]))) 1 := by
  intro h d
  obtain ⟨al, hal⟩ := hl h d
  obtain ⟨at', hat⟩ := htest h d
  obtain ⟨ar, har⟩ := hr h d
  obtain ⟨as, has⟩ := hs h d
  exact ⟨_, hal.append (hat.append (har.choice has))⟩

variable {op : BinOp}

theorem BinOp.inRange_of_opCode {opcode : OpCode} (h : op.opCode = some opcode) :
    opcode.computes ∧ opcode.takes = 2 ∧ opcode.InRange K N := by
  cases op <;> cases h <;> exact ⟨rfl, rfl, trivial⟩

theorem inRange_of_stringMethod {method : String} {op : OpCode}
    (h : stringMethod method = some op) :
    op.computes ∧ op.takes = 2 ∧ op.InRange K N := by
  unfold stringMethod at h
  split at h <;> cases h <;> exact ⟨rfl, rfl, trivial⟩

theorem argc_of_resolveFunction {name : String} {argc : ℕ}
    (h : resolveFunction name = some (id, argc)) : argc = builtinExpectedArgc id := by
  unfold resolveFunction at h
  split at h <;> cases h <;> rfl

/-- What tests the left operand of `&&` and `||`, and what stands in for the right one. -/
theorem shaped_of_shortCircuit (h : op.shortCircuit = some (test, skipped)) :
    (∀ h d, ∃ a, Shaped K N test ⟨h + 1, d⟩ ⟨h + 1, d⟩ a []) ∧ Pushes K N [skipped] 1 := by
  cases op <;> cases h
  · exact ⟨fun h d => ⟨[], .nil⟩, pushes_load .loadFalse rfl rfl trivial⟩
  · have hnot : ∀ h d, Shaped K N [.not] ⟨h + 1, d⟩ ⟨h + 1, d⟩ [⟨h + 1, d⟩] [] := fun h d =>
      .operation rfl trivial fun _ => rfl
    exact ⟨fun h d => ⟨_, hnot h d⟩, pushes_load .loadTrue rfl rfl trivial⟩

mutual

/-- **The code of an expression pushes one value.** -/
theorem ExprCode.pushes (hΓ : ∀ l ∈ Γ, l.slot < N) :
    ∀ {e : Expr} {c : List OpCode}, ExprCode K Γ e c → Pushes K N c 1
  | .stringLit _, _, h => by
    cases h with
    | stringLit hi => exact pushes_load _ rfl rfl (List.getElem?_eq_some_iff.1 hi).1
  | .intLit _, _, h => by
    cases h with
    | intLit hi => exact pushes_load _ rfl rfl (List.getElem?_eq_some_iff.1 hi).1
  | .boolLit _, _, h => by cases h <;> exact pushes_load _ rfl rfl trivial
  | .nilLit, _, h => by
    cases h
    exact pushes_load _ rfl rfl trivial
  | .ident _, _, h => by
    cases h with
    | ident hl => exact pushes_load _ rfl rfl (hΓ _ (mem_of_find?_eq_some hl))
  | .binaryOp op left right, _, h => by
    cases h with
    | short hop hl hr =>
      obtain ⟨htest, hskipped⟩ := shaped_of_shortCircuit hop
      exact pushes_short (hl.pushes hΓ) htest (hr.pushes hΓ) hskipped
    | binary hop hl hr =>
      obtain ⟨hcomputes, htakes, hin⟩ := BinOp.inRange_of_opCode hop
      rw [← append_assoc]
      exact pushes_operation _ hcomputes (htakes ▸ pushes_append (hl.pushes hΓ) (hr.pushes hΓ)) hin
  | .unaryOp op operand, _, h => by
    cases h with
    | unary hc =>
      rcases op with - | - <;> exact pushes_operation _ rfl (hc.pushes hΓ) trivial
  | .methodCall object method args, _, h => by
    cases h with
    | call hns hargc hargs => exact pushes_operation _ rfl (hargs.pushes hΓ) hargc
    | strMethod hns hm hone ho hargs =>
      obtain ⟨hcomputes, htakes, hin⟩ := inRange_of_stringMethod hm
      have hpush := pushes_append (ho.pushes hΓ) (hargs.pushes hΓ)
      rw [hone] at hpush
      rw [← append_assoc]
      exact pushes_operation _ hcomputes (htakes ▸ hpush) hin
    | regex hns hp ho => exact pushes_operation _ rfl (ho.pushes hΓ) ⟨_, hp⟩
  | .fnCall name args, _, h => by
    cases h with
    | fn hfn hargs =>
      exact pushes_operation _ rfl (hargs.pushes hΓ) (argc_of_resolveFunction hfn)
  | .fieldAccess object field, _, h => by
    cases h with
    | field hns hargc => exact pushes_load _ rfl rfl hargc.symm
termination_by structural e => e

theorem ArgsCode.pushes (hΓ : ∀ l ∈ Γ, l.slot < N) :
    ∀ {args : List Expr} {c : List OpCode}, ArgsCode K Γ args c → Pushes K N c args.length
  | [], _, h => by
    cases h
    exact pushes_nil
  | arg :: args, _, h => by
    cases h with
    | cons harg hargs =>
      rw [length_cons, add_comm]
      exact pushes_append (harg.pushes hΓ) (hargs.pushes hΓ)
termination_by structural args => args

end

end

/-! ## Statement boundaries -/

mutual

/-- The boundaries of the statements inside a statement, from where its own code starts. -/
def Stmt.inner : Stmt → List ℕ
  | .ifStmt branches elseBody =>
    branchesBoundaries branches elseBody.isSome ++
      (elseBoundaries elseBody).map (· + branchesSize branches elseBody.isSome)
  | .forRange _ start stop body =>
    (blockBoundaries body).map (· + (stop.size + start.size + 7))
  | .forIn _ iterable body => (blockBoundaries body).map (· + (iterable.size + 13))
  | .whileStmt condition body => (blockBoundaries body).map (· + (condition.size + 2))
  | _ => []
termination_by structural s => s

/-- **Where the code of each statement of a body starts and ends**, the statements inside them
included. -/
def blockBoundaries : List Stmt → List ℕ
  | [] => []
  | stmt :: stmts =>
    (0 :: (stmt.inner ++ [stmt.size])) ++ (blockBoundaries stmts).map (· + stmt.size)
termination_by structural stmts => stmts

/-- The same for the branches of a conditional. -/
def branchesBoundaries : List (Expr × List Stmt) → Bool → List ℕ
  | [], _ => []
  | (condition, body) :: rest, hasElse =>
    (blockBoundaries body).map (· + (condition.size + 1)) ++
      (branchesBoundaries rest hasElse).map (· + (condition.size + 1 + blockSize body +
        if !rest.isEmpty || hasElse then 1 else 0))
termination_by structural branches => branches

/-- The same for an `else` body. -/
def elseBoundaries : Option (List Stmt) → List ℕ
  | none => []
  | some stmts => blockBoundaries stmts
termination_by structural body => body

end

/-- The positions of a script at which a statement of the program starts or ends. -/
def Program.boundaries (p : Program) : List ℕ := blockBoundaries p.stmts

section

variable {K : List Constant} {N : ℕ} {c c1 c2 : List OpCode} {bs bs1 bs2 : List ℕ}

/-- Code that finds and leaves the stack empty, and has it empty at the given positions. -/
def Balanced (K : List Constant) (N : ℕ) (c : List OpCode) (bs : List ℕ) : Prop :=
  ∀ d, ∃ a, Shaped K N c ⟨0, d⟩ ⟨0, d⟩ a bs

theorem balanced_nil : Balanced K N [] [] := fun _ => ⟨[], .nil⟩

theorem balanced_append (h1 : Balanced K N c1 bs1) (h2 : Balanced K N c2 bs2) :
    Balanced K N (c1 ++ c2) (bs1 ++ bs2.map (· + c1.length)) := by
  intro d
  obtain ⟨a1, ha1⟩ := h1 d
  obtain ⟨a2, ha2⟩ := h2 d
  exact ⟨_, ha1.append ha2⟩

/-- Its own start and end are such positions too. -/
theorem Balanced.ends (h : Balanced K N c bs) : Balanced K N c (0 :: (bs ++ [c.length])) := by
  intro d
  obtain ⟨a, ha⟩ := h d
  obtain ⟨r, hr⟩ := ha.eq_cons
  refine ⟨a, ha.length, ha.head, ha.sound, fun W p hW b hb => ?_⟩
  rcases mem_cons.1 hb with rfl | hb
  · exact ⟨d, (hr ▸ hW).head⟩
  · rcases mem_append.1 hb with hb | hb
    · exact ha.rests W p hW b hb
    · rw [mem_singleton.1 hb, ← ha.length]
      exact ⟨d, hW.right.head⟩

/-- Values and an instruction that uses them up. -/
theorem balanced_sink (op : OpCode) {n : ℕ} (h : Pushes K N c n) (htakes : op.takes = n)
    (hgives : op.gives = 0) (hoff : op.offset = none) (hin : op.InRange K N)
    (hloops : ∀ d, op.LoopsTo d d) : Balanced K N (c ++ [op]) [] := by
  intro d
  obtain ⟨a, ha⟩ := h 0 d
  have hop := Shaped.operation (h := 0) (d := d) hoff hin hloops
  rw [htakes, hgives] at hop
  exact ⟨_, ha.append hop⟩

/-- A loop. -/
theorem balanced_loop (hh : Pushes K N c1 1) (hb : Balanced K N c2 bs) :
    Balanced K N (loopCode c1 c2) (bs.map (· + (c1.length + 2))) := by
  intro d
  obtain ⟨a1, ha1⟩ := hh 0 (d + 1)
  obtain ⟨a2, ha2⟩ := hb (d + 1)
  exact ⟨_, ha1.loop ha2⟩

/-- A condition and code that it may skip. -/
theorem balanced_skip (hh : Pushes K N c1 1) (hb : Balanced K N c2 bs) :
    Balanced K N (c1 ++ .jumpIfFalse c2.length :: c2) (bs.map (· + (c1.length + 1))) := by
  intro d
  obtain ⟨a1, ha1⟩ := hh 0 d
  obtain ⟨a2, ha2⟩ := hb d
  have hall := ha1.append ha2.skip
  refine ⟨_, hall.length, hall.head, hall.sound, fun W p hW => ?_⟩
  have := hall.rests W p hW
  simpa [comp_def, add_assoc, add_comm 1] using this

/-- A condition and a choice. -/
theorem balanced_choice {c3 : List OpCode} (hh : Pushes K N c1 1) (hb : Balanced K N c2 bs1)
    (hr : Balanced K N c3 bs2) :
    Balanced K N (c1 ++ .jumpIfFalse (c2.length + 1) :: (c2 ++ .jump c3.length :: c3))
      (bs1.map (· + (c1.length + 1)) ++ bs2.map (· + (c1.length + 1 + c2.length + 1))) := by
  intro d
  obtain ⟨a1, ha1⟩ := hh 0 d
  obtain ⟨a2, ha2⟩ := hb d
  obtain ⟨a3, ha3⟩ := hr d
  have hall := ha1.append (ha2.choice ha3)
  refine ⟨_, hall.length, hall.head, hall.sound, fun W p hW => ?_⟩
  have hrests := hall.rests W p hW
  have hone : ∀ b, b + 1 + c1.length = b + (c1.length + 1) := by omega
  have htwo : ∀ b, b + (c2.length + 2) + c1.length = b + (c1.length + 1 + c2.length + 1) := by
    omega
  simpa [comp_def, hone, htwo] using hrests

/-- Code in front, with no such position in it. -/
theorem balanced_prepend {k m : ℕ} (h1 : Balanced K N c1 [])
    (h2 : Balanced K N c2 (bs.map (· + k))) (hm : m = k + c1.length) :
    Balanced K N (c1 ++ c2) (bs.map (· + m)) := by
  have h := balanced_append h1 h2
  simp only [nil_append, map_map, comp_def, add_assoc] at h
  exact hm ▸ h

variable (slot : ℕ)

/-- `SetLocal` of a value. -/
theorem balanced_set (h : Pushes K N c 1) (hslot : slot < N) :
    Balanced K N (c ++ [.setLocal slot]) [] :=
  balanced_sink _ h rfl rfl rfl hslot fun _ => rfl

theorem pushes_getLocal (hslot : slot < N) : Pushes K N [.getLocal slot] 1 :=
  pushes_load _ rfl rfl hslot

theorem pushes_loadConst {i : ℕ} {k : Constant} (hi : K[i]? = some k) :
    Pushes K N [.loadConst i] 1 :=
  pushes_load _ rfl rfl (List.getElem?_eq_some_iff.1 hi).1

/-- The increment of a counter. -/
theorem balanced_increment {one : ℕ} (hslot : slot < N) (hone : K[one]? = some (.int 1)) :
    Balanced K N (incrementCode slot one) [] :=
  balanced_set slot (pushes_operation .add rfl
    (pushes_append (pushes_getLocal slot hslot) (pushes_loadConst hone)) trivial) hslot

variable {Γ Γ' : List Local} {n n' : ℕ}

mutual

/-- **The code of a statement finds and leaves the stack empty**, and so do the statements in it. -/
theorem StmtCode.balanced : ∀ {s : Stmt} {Γ Γ' : List Local} {n n' : ℕ} {c : List OpCode},
    StmtCode K Γ n s c Γ' n' → Fits Γ n → n' ≤ N → Balanced K N c s.inner
  | .letStmt name m value, _, _, _, _, _, h, hf, hn => by
    cases h with
    | letStmt hc =>
      exact balanced_set _ (hc.pushes fun l hl => (hf.slot_lt hl).trans (by omega)) (by omega)
  | .assign name value, _, _, _, _, _, h, hf, hn => by
    cases h with
    | assign hl hm hc =>
      have hΓ := fun l hl => lt_of_lt_of_le (hf.slot_lt (l := l) hl) hn
      exact balanced_set _ (hc.pushes hΓ) (hΓ _ (mem_of_find?_eq_some hl))
  | .ifStmt branches elseBody, _, _, _, _, _, h, hf, hn => by
    cases h with
    | ifStmt hb he =>
      have helse := he.balanced (hf.mono hb.slots_le) hn
      exact hb.balanced hf (he.slots_le.trans hn) helse
  | .forRange x start stop body, Γ, _, n, n', _, h, hf, hn => by
    cases h with
    | forRange hstop hstart hone hbody =>
      rename_i depth one ce cs cb
      have hle := hbody.scope.le
      have hf1 := hf.declare "__range_end__" false depth
      have hf2 := hf1.declare x false depth
      have hslots : ∀ l ∈ Γ, l.slot < N := fun l hl => (hf.slot_lt hl).trans_le (by omega)
      have hslots1 : ∀ l ∈ ⟨"__range_end__", n, false, depth⟩ :: Γ, l.slot < N := fun l hl =>
        (hf1.slot_lt hl).trans_le (by omega)
      have hhead : Pushes K N [.getLocal (n + 1), .getLocal n, .less] 1 :=
        pushes_operation .less rfl (pushes_append (pushes_getLocal (n + 1) (by omega))
          (pushes_getLocal n (by omega))) trivial
      have hinner := balanced_append (hbody.balanced hf2 hn)
        (balanced_increment (n + 1) (by omega) hone)
      rw [map_nil, append_nil] at hinner
      have hloop := balanced_loop hhead hinner
      have hvar := balanced_prepend (balanced_set (n + 1) (hstart.pushes hslots1) (by omega))
        hloop rfl
      have hall := balanced_prepend (balanced_set n (hstop.pushes hslots) (by omega)) hvar
        (m := stop.size + start.size + 7) (by
          simp only [length_append, length_cons, length_nil, hstop.length_eq, hstart.length_eq]
          omega)
      simpa [Stmt.inner] using hall
  | .forIn x iterable body, Γ, _, n, n', _, h, hf, hn => by
    cases h with
    | forIn hiter hzero hone hbody =>
      rename_i depth zeroIdx one ci cb
      have hle := hbody.scope.le
      have hf3 := ((hf.declare "__list__" false depth).declare "__idx__" true depth).declare x false
        depth
      have hslots : ∀ l ∈ Γ, l.slot < N := fun l hl => (hf.slot_lt hl).trans_le (by omega)
      have hhead : Pushes K N [.getLocal (n + 1), .getLocal n, .listLen, .less] 1 :=
        pushes_operation .less rfl (pushes_append (pushes_getLocal (n + 1) (by omega))
          (pushes_operation .listLen rfl (pushes_getLocal n (by omega)) trivial)) trivial
      have helem : Balanced K N [.getLocal n, .getLocal (n + 1), .listGet, .setLocal (n + 2)] [] :=
        balanced_set (n + 2) (pushes_operation .listGet rfl (pushes_append
          (pushes_getLocal n (by omega)) (pushes_getLocal (n + 1) (by omega))) trivial) (by omega)
      have hbody' := balanced_append (hbody.balanced hf3 hn)
        (balanced_increment (n + 1) (by omega) hone)
      rw [map_nil, append_nil] at hbody'
      have hinner := balanced_append helem hbody'
      rw [nil_append] at hinner
      have hloop := balanced_loop hhead hinner
      rw [map_map] at hloop
      have hzero' : Balanced K N ([.loadConst zeroIdx] ++ [.setLocal (n + 1)]) [] :=
        balanced_set (n + 1) (pushes_loadConst hzero) (by omega)
      have hidx := balanced_prepend hzero' (k := 10)
        (by simpa [comp_def, add_assoc] using hloop) rfl
      have hall := balanced_prepend (balanced_set n (hiter.pushes hslots) (by omega)) hidx
        (m := iterable.size + 13) (by
          simp only [length_append, length_cons, length_nil, hiter.length_eq]
          omega)
      simpa [Stmt.inner] using hall
  | .whileStmt condition body, _, _, _, _, _, h, hf, hn => by
    cases h with
    | whileStmt hcond hbody =>
      have hle := hbody.scope.le
      have hloop := balanced_loop (hcond.pushes fun l hl => (hf.slot_lt hl).trans_le (by omega))
        (hbody.balanced hf hn)
      rw [hcond.length_eq] at hloop
      exact hloop
  | .returnDeny status body, _, _, _, _, _, h, hf, hn => by
    cases h with
    | returnDeny hs hb =>
      have hΓ := fun l hl => lt_of_lt_of_le (hf.slot_lt (l := l) hl) hn
      rw [← append_assoc]
      exact balanced_sink _ (pushes_append (hs.pushes hΓ) (hb.pushes hΓ)) rfl rfl rfl trivial
        fun _ => rfl
  | .returnNext, _, _, _, _, _, h, hf, hn => by
    cases h
    exact balanced_sink .returnNext pushes_nil rfl rfl rfl trivial fun _ => rfl
  | .exprStmt expr, _, _, _, _, _, h, hf, hn => by
    cases h with
    | exprStmt hc =>
      have hΓ := fun l hl => lt_of_lt_of_le (hf.slot_lt (l := l) hl) hn
      exact balanced_sink _ (hc.pushes hΓ) rfl rfl rfl trivial fun _ => rfl
termination_by structural s => s

theorem BlockCode.balanced : ∀ {stmts : List Stmt} {Γ Γ' : List Local} {n n' : ℕ}
    {c : List OpCode}, BlockCode K Γ n stmts c Γ' n' → Fits Γ n → n' ≤ N →
    Balanced K N c (blockBoundaries stmts)
  | [], _, _, _, _, _, h, hf, hn => by
    cases h
    exact balanced_nil
  | stmt :: stmts, _, _, _, _, _, h, hf, hn => by
    cases h with
    | cons hs hss =>
      have hfst := (hs.balanced hf (hss.scope.le.trans hn)).ends
      have hall := balanced_append hfst (hss.balanced (hs.scope.fits hf) hn)
      rw [hs.length_eq] at hall
      exact hall
termination_by structural stmts => stmts

theorem BranchesCode.balanced : ∀ {branches : List (Expr × List Stmt)} {hasElse : Bool}
    {Γ : List Local} {n n' : ℕ} {ce c : List OpCode} {bs : List ℕ},
    BranchesCode K Γ n branches hasElse ce c n' → Fits Γ n → n' ≤ N → Balanced K N ce bs →
    Balanced K N c (branchesBoundaries branches hasElse ++
      bs.map (· + branchesSize branches hasElse))
  | [], _, _, _, _, _, _, _, h, hf, hn, hce => by
    cases h
    simpa [branchesBoundaries, branchesSize] using hce
  | (condition, body) :: rest, hasElse, _, _, _, _, _, bs, h, hf, hn, hce => by
    cases h with
    | last hc hb =>
      have hle := hb.scope.le
      have hskip := balanced_skip (hc.pushes fun l hl => (hf.slot_lt hl).trans_le (by omega))
        (hb.balanced hf hn)
      have hall := balanced_append hskip hce
      rw [append_nil] at hall
      simpa [branchesBoundaries, branchesSize, hc.length_eq, hb.length_eq, add_assoc,
        add_comm 1] using hall
    | branch hc hb hr hmore =>
      have hle := hb.scope.le
      have hle2 := hr.slots_le
      have hrest := hr.balanced (hf.mono hle) hn hce
      have hchoice := balanced_choice (hc.pushes fun l hl => (hf.slot_lt hl).trans_le (by omega))
        (hb.balanced hf (hle2.trans hn)) hrest
      have hshift : ∀ b, b + branchesSize rest hasElse + (condition.size + 1 + blockSize body + 1) =
        b + (condition.size + 1 + blockSize body + 1 + branchesSize rest hasElse) := by omega
      simpa [branchesBoundaries, branchesSize, hmore, comp_def, hc.length_eq, hb.length_eq,
        hshift] using hchoice
termination_by structural branches => branches

theorem ElseCode.balanced : ∀ {elseBody : Option (List Stmt)} {Γ : List Local} {n n' : ℕ}
    {c : List OpCode}, ElseCode K Γ n elseBody c n' → Fits Γ n → n' ≤ N →
    Balanced K N c (elseBoundaries elseBody)
  | none, _, _, _, _, h, hf, hn => by
    cases h
    exact balanced_nil
  | some body, _, _, _, _, h, hf, hn => by
    cases h with
    | some hb => exact hb.balanced hf hn
termination_by structural elseBody => elseBody

end

end

/-! ## Compiled scripts -/

variable {lib : Lib}

/-- **A compiled script can be verified**, with the stack empty wherever a statement starts or
ends. -/
theorem verified_of_compile {p : Program} {script : CompiledScript}
    (hp : p.size < 2 ^ 31) (h : Compiler.compile lib p = .ok script) :
    ∃ W, Verified script W ∧ RestsAt W 0 p.boundaries := by
  obtain ⟨seg, tail, Γ', hcode, htail, hblock, -⟩ := Compiler.compile_spec hp h
  -- the implicit return is balanced as well
  have hreturn : Balanced script.constants script.localCount tail [] := by
    rcases htail with rfl | rfl
    · exact balanced_nil
    · exact balanced_sink .returnNext pushes_nil rfl rfl rfl trivial fun _ => rfl
  have hall := balanced_append (hblock.balanced (pairwise_singleton _ 0) le_rfl) hreturn
  rw [← hcode, map_nil, append_nil] at hall
  obtain ⟨a, ha⟩ := hall 0
  have hseg : SegAt (a ++ [⟨0, 0⟩]) 0 (a ++ [⟨0, 0⟩]) := by
    simpa using SegAt.mid [] (a ++ [⟨0, 0⟩]) []
  refine ⟨a ++ [⟨0, 0⟩], ⟨?_, ?_, ?_, ha.sound _ _ hseg⟩, ha.rests _ _ hseg⟩
  · rw [length_append, ha.length, length_singleton]
  · rw [← head?_eq_getElem?, ha.head]
  · rw [← ha.length, getElem?_append_right le_rfl, Nat.sub_self, getElem?_cons_zero]

/-- `Vm::new` takes constants whose patterns all compile. -/
theorem buildCache_isOk {constants : List Constant}
    (h : ∀ pattern, Constant.regex pattern ∈ constants → lib.regexError pattern = none) :
    ∃ cache, buildCache lib constants = .ok cache := by
  induction constants with
  | nil => exact ⟨[], rfl⟩
  | cons c cs ih =>
    obtain ⟨cache, hcache⟩ := ih fun pattern hp => h pattern (mem_cons_of_mem _ hp)
    have hentry : ∃ entry, regexEntry lib c = .ok entry := by
      cases c with
      | regex pattern =>
        refine ⟨some pattern, ?_⟩
        rw [regexEntry, h pattern (mem_cons_self ..)]
      | _ => exact ⟨none, rfl⟩
    obtain ⟨entry, hentry⟩ := hentry
    exact ⟨entry :: cache, by rw [buildCache, hentry, hcache]; rfl⟩

/-- **What the compiler accepts runs safely.** The validator finds nothing wrong with the script but
that it may be too large. Every position has one stack height and one loop depth on every path, with
the stack empty wherever a statement starts or ends. With any limits and in any session the machine
starts, never reports an internal error, and has its stack empty at those positions.
Programs are below `2 ^ 31` instructions, so that offsets fit their type: sources are at most
64 KiB long. -/
theorem compile_safe (lib : Lib) (p : Program) (script : CompiledScript) (hp : p.size < 2 ^ 31)
    (h : Compiler.compile lib p = .ok script) :
    (∀ limits, ∀ e ∈ validate lib limits script, e.isSize = true) ∧
      (∃ W, Verified script W ∧ ∀ b ∈ p.boundaries, ∃ d, W[b]? = some ⟨0, d⟩) ∧
      ∀ limits, ∃ vm, Vm.new lib script limits = .ok vm ∧
        ∀ (σ : Type) (S : Session σ) (w : World σ),
          (∀ e, (vm.execute lib S w).1 = .error e → e.isInternal = false) ∧
          ∀ st ∈ vm.visited lib S limits.maxSteps.toNat (VmState.new script.localCount limits w),
            st.pc ∈ p.boundaries → st.stack = [] := by
  obtain ⟨W, hW, hrests⟩ := verified_of_compile hp h
  obtain ⟨-, -, -, -, -, -, hregex⟩ := Compiler.compile_spec hp h
  have hpos : ∀ b ∈ p.boundaries, ∃ d, W[b]? = some ⟨0, d⟩ := fun b hb => by
    obtain ⟨d, hd⟩ := hrests b hb
    exact ⟨d, by rwa [zero_add] at hd⟩
  refine ⟨fun limits e he => hW.isSize_of_mem_validate hregex he, ⟨W, hW, hpos⟩, fun limits => ?_⟩
  obtain ⟨cache, hcache⟩ := buildCache_isOk fun pattern hp => (hregex pattern hp).1
  refine ⟨⟨script, cache, limits⟩, by rw [new, hcache]; rfl, fun σ S w => ?_⟩
  have hfresh : HasShape ⟨script, cache, limits⟩ W (VmState.new script.localCount limits w) :=
    ⟨hW.first, length_replicate⟩
  refine ⟨(safe_run hW hfresh _).2, fun st hst hb => ?_⟩
  have hshape := ((safe_run hW hfresh _).1 st hst).shape
  obtain ⟨d, hd⟩ := hpos _ hb
  rw [hd, Option.some.injEq, Shape.mk.injEq] at hshape
  exact eq_nil_of_length_eq_zero hshape.1.symm

/-- Two nested loops with a conditional that returns from inside them. -/
def nestedLoops : Program :=
  ⟨[.letStmt "n" true (.intLit 0),
    .forRange "i" (.intLit 0) (.intLit 3)
      [.whileStmt (.binaryOp .lt (.ident "n") (.ident "i"))
        [.assign "n" (.binaryOp .add (.ident "n") (.intLit 1)),
         .ifStmt [(.binaryOp .gt (.ident "n") (.intLit 1), [.returnNext])] none]]]⟩

/-- The script of `nestedLoops` runs safely. -/
theorem compile_safe_nestedLoops : ∃ script, Compiler.compile .idle nestedLoops = .ok script ∧
    (∀ limits, ∀ e ∈ validate .idle limits script, e.isSize = true) ∧
    ∀ limits, ∃ vm, Vm.new .idle script limits = .ok vm ∧
      ∀ w, ∀ e, (vm.execute .idle .idle w).1 = .error e → e.isInternal = false := by
  have hok : (Compiler.compile .idle nestedLoops).toOption.isSome = true := by decide +kernel
  obtain ⟨script, hscript⟩ := Option.isSome_iff_exists.1 hok
  rw [toOption_eq_some] at hscript
  obtain ⟨hvalid, -, hrun⟩ := compile_safe .idle nestedLoops script (by decide +kernel) hscript
  refine ⟨script, hscript, hvalid, fun limits => ?_⟩
  obtain ⟨vm, hvm, hsafe⟩ := hrun limits
  exact ⟨vm, hvm, fun w => (hsafe Unit .idle w).1⟩

end Edgion.Dsl
