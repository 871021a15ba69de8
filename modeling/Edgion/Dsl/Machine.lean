import Edgion.Dsl.Safety
import Edgion.Dsl.Semantics

/-!
# Single instructions against the reference semantics

The virtual machine is a machine on a budget whose runs are cut short by its limits. An instruction
does what the reference semantics does in its place, or ends the run with the error of a limit.
-/

namespace Edgion.Dsl

open Common Vm

/-! ## Results up to limits -/

/-- The run was cut short: by a limit, or by the overflow of a loop counter. -/
def Outcome.isCut : Outcome → Bool
  | .error e => e.isLimit
  | .panic => true
  | .ok _ => false

/-- A result computed with a limit is the one without, or the error of the limit. -/
def Agrees {α : Type} (r r₀ : Except RuntimeError α) : Prop :=
  r = r₀ ∨ ∃ e, r = .error e ∧ e.isLimit = true

theorem Agrees.rfl {α : Type} {r : Except RuntimeError α} : Agrees r r := .inl (Eq.refl r)

theorem Answers.agrees {P : String → Prop} {r r₀ : Except RuntimeError Value}
    (h : Answers P r r₀) : Agrees r r₀ := by
  cases h with
  | value h => exact .rfl
  | error h => exact .rfl
  | limit h => exact .inr ⟨_, rfl, h⟩

/-! ## Turns -/

/-- The machine on a budget. -/
def Vm.machine {σ : Type} (lib : Lib) (S : Session σ) (vm : Vm) :
    Machine (VmState σ) (Outcome × World σ) where
  run := vm.run lib S
  Limited r := r.1.isCut = true

section

variable {σ : Type} {lib : Lib} {S : Session σ} {vm : Vm} {α : Type}
  {x : Eval (Outcome × World σ) α} {post : α → VmState σ → Prop} {k : ℕ}

/-- The turn leads to a state, or is cut short. -/
def Turn.Leads (t : Turn σ) (st : VmState σ) : Prop :=
  t = .next st ∨ ∃ o w, t = .halt o w ∧ o.isCut = true

/-- The turn does what the evaluation does, or is cut short. -/
def Turn.Gives (t : Turn σ) (x : Eval (Outcome × World σ) α) (post : α → VmState σ → Prop) : Prop :=
  match x with
  | .value a => ∃ st, t.Leads st ∧ post a st
  | .ended r => ∃ o w, t = .halt o w ∧ (o.isCut = true ∨ (o, w) = r)
  | .unfinished => False

variable {st : VmState σ} {op : OpCode} {v u : Value}

theorem Vm.advances_of_step {st' : VmState σ} (h : (vm.step lib S st).Leads st') :
    (vm.machine lib S).Advances st st' := by
  refine ⟨rfl, fun n => ?_⟩
  show (vm.run lib S (n + 1) st).1.isCut ∨ vm.run lib S (n + 1) st = vm.run lib S n st'
  rw [run]
  rcases h with h | ⟨o, w, h, ho⟩
  · rw [h]
    exact .inr rfl
  · rw [h]
    exact .inl ho

theorem Vm.follows_of_step (h : (vm.step lib S st).Gives x post) :
    (vm.machine lib S).Follows k st x post := by
  cases x with
  | value a =>
    obtain ⟨st', hlead, hpost⟩ := h
    exact ⟨st', (advances_of_step hlead).reaches, hpost⟩
  | ended r =>
    obtain ⟨o, w, hstep, ho⟩ := h
    intro n
    show (vm.run lib S n st).1.isCut ∨ vm.run lib S n st = r
    cases n with
    | zero => exact .inl rfl
    | succ n =>
      rw [run, hstep]
      exact ho
  | unfinished => exact h.elim

theorem Vm.step_eq (st : VmState σ) (hop : vm.script.code[st.pc]? = some op) :
    vm.step lib S st = vm.runOp lib S { st with pc := st.pc + 1 } op := by
  rw [step, hop]

open VmState

theorem leads_push (st : VmState σ) (limits : VmLimits) (v : Value) :
    (st.push limits v).Leads { st with stack := v :: st.stack } := by
  unfold push
  split
  · exact .inr ⟨_, _, rfl, rfl⟩
  · exact .inl rfl

/-- A value is pushed, at a position and with nothing else changed but the calls that are left. -/
def Pushed (pc : ℕ) (stk L : List Value) (lc : List ℕ) (p : Value × World σ) (st : VmState σ) :
    Prop :=
  ∃ b, st = ⟨pc, p.1 :: stk, L, lc, b, p.2⟩

variable {pc b : ℕ} {stk L : List Value} {lc : List ℕ} {w : World σ}

theorem gives_push (limits : VmLimits) (v : Value) :
    (push ⟨pc, stk, L, lc, b, w⟩ limits v).Gives (.value (v, w)) (Pushed pc stk L lc) :=
  ⟨_, leads_push _ _ _, b, rfl⟩

variable {r₀ : Except RuntimeError Value} {limits : VmLimits} {r : Value} {offset : ℤ} {t : Turn σ}

/-- A result that agrees with the reference is pushed, or its error ends both. -/
theorem gives_of_agrees {r : Except RuntimeError Value} (limits : VmLimits)
    (h : Agrees r r₀) (hok : ∀ v, r = .ok v → t = push ⟨pc, stk, L, lc, b, w⟩ limits v)
    (herr : ∀ e, r = .error e → t = .halt (.error e) w) :
    t.Gives (raise r₀ w) (Pushed pc stk L lc) := by
  rcases h with rfl | ⟨e, rfl, he⟩
  · rcases r with e | v
    · exact ⟨_, _, herr e rfl, .inr rfl⟩
    · rw [hok v rfl]
      exact gives_push limits v
  · rcases r₀ with e0 | v
    · exact ⟨_, _, herr e rfl, .inl he⟩
    · exact ⟨_, .inr ⟨_, _, herr e rfl, he⟩, b, rfl⟩

theorem gives_unary (op : Value → Except RuntimeError Value) (h : Agrees (op v) r₀) :
    (unary ⟨pc, v :: stk, L, lc, b, w⟩ limits op).Gives (raise r₀ w) (Pushed pc stk L lc) :=
  gives_of_agrees limits (b := b) h (fun u hu => by simp only [unary, hu])
    fun e he => by simp only [unary, he, fail]

theorem gives_binary (op : Value → Value → Except RuntimeError Value) (h : Agrees (op u v) r₀) :
    (binary ⟨pc, v :: u :: stk, L, lc, b, w⟩ limits op).Gives (raise r₀ w)
      (Pushed pc stk L lc) :=
  gives_of_agrees limits (b := b) h (fun r hr => by simp only [binary, hr])
    fun e he => by simp only [binary, he, fail]

theorem leads_unary {op : Value → Except RuntimeError Value} (h : op v = .ok r) :
    (unary ⟨pc, v :: stk, L, lc, b, w⟩ limits op).Leads ⟨pc, r :: stk, L, lc, b, w⟩ := by
  simp only [unary, h]
  exact leads_push _ _ _

theorem leads_binary {op : Value → Value → Except RuntimeError Value} (h : op u v = .ok r) :
    (binary ⟨pc, v :: u :: stk, L, lc, b, w⟩ limits op).Leads
      ⟨pc, r :: stk, L, lc, b, w⟩ := by
  simp only [binary, h]
  exact leads_push _ _ _

/-- The instruction of a binary operator does what the operator does. -/
theorem BinOp.gives_opCode {op : BinOp} {opcode : OpCode} (hop : op.opCode = some opcode)
    (u v : Value) :
    (vm.runOp lib S ⟨pc, v :: u :: stk, L, lc, b, w⟩ opcode).Gives (raise (op.apply u v) w)
      (Pushed pc stk L lc) := by
  cases op with
  | add =>
    cases hop
    exact gives_binary _ (answers_addValues (P := fun _ => True) (fun _ _ => trivial) u v).agrees
  | and => cases hop
  | or => cases hop
  | eq =>
    cases hop
    exact gives_binary equalValues .rfl
  | ne =>
    cases hop
    exact gives_binary notEqualValues .rfl
  | _ =>
    cases hop
    exact gives_binary _ .rfl

theorem UnaryOp.gives_opCode (op : UnaryOp) (v : Value) :
    (vm.runOp lib S ⟨pc, v :: stk, L, lc, b, w⟩ op.opCode).Gives (raise (op.apply v) w)
      (Pushed pc stk L lc) := by
  cases op with
  | not => exact gives_unary notValue .rfl
  | neg => exact gives_unary negValue .rfl

/-- The instruction of a string method does what the method does. -/
theorem gives_stringMethod {method : String} (hop : stringMethod method = some op)
    (object arg : Value) :
    (vm.runOp lib S ⟨pc, arg :: object :: stk, L, lc, b, w⟩ op).Gives
      (applyMethod lib method object [arg] w) (Pushed pc stk L lc) := by
  unfold stringMethod at hop
  split at hop
  · cases hop
    exact gives_binary _ .rfl
  · cases hop
    exact gives_binary _ .rfl
  · cases hop
    exact gives_binary _ .rfl
  · cases hop

/-- The cache holds the patterns of the constants. -/
def Vm.Cached (vm : Vm) : Prop :=
  ∀ (i : ℕ) (pattern : String), vm.script.constants[i]? = some (.regex pattern) →
    vm.regexCache[i]? = some (some pattern)

theorem gives_matches (hvm : vm.Cached) {i : ℕ} {pattern : String}
    (hi : vm.script.constants[i]? = some (.regex pattern)) (v : Value) :
    (vm.runOp lib S ⟨pc, v :: stk, L, lc, b, w⟩ (.matchesRegex i)).Gives
      (applyMethod lib "matches" v [.str pattern] w) (Pushed pc stk L lc) := by
  have hcache := hvm i pattern hi
  have heq : vm.matchesValue lib i v = matchesText lib pattern v := by
    cases v with
    | str s => rw [matchesValue, hcache]; rfl
    | _ => rfl
  exact gives_unary _ (.inl heq)

variable {id : BuiltinId}

/-- What a call does once it is paid and its arguments are popped. -/
theorem call_eq {args rest : List Value} (hpop : popArgs id.pops stk = some (args, rest)) :
    vm.call lib S ⟨pc, stk, L, lc, b + 1, w⟩ id =
      let r := builtin lib S (some vm.limits.maxStringLen) id args w
      match r.1 with
      | .ok v => push ⟨pc, rest, L, lc, b, r.2⟩ vm.limits v
      | .error e => .halt (.error e) r.2 := by
  simp only [call, callBuiltin, hpop]
  rcases builtin lib S (some vm.limits.maxStringLen) id args w with ⟨_ | _, _⟩
  · rfl
  · rfl

/-- A call, on the arguments the function expects. -/
theorem gives_call {vs : List Value} {argc : ℕ} (hvs : vs.length = builtinExpectedArgc id) :
    (vm.runOp lib S ⟨pc, vs.reverse ++ stk, L, lc, b, w⟩ (.callBuiltin id argc)).Gives
      (applyBuiltin lib S id vs w) (Pushed pc stk L lc) := by
  have hlen : (if id.pops = 0 then [] else vs).length = id.pops := by
    split
    · rename_i hzero
      exact hzero.symm
    · rename_i hpos
      exact hvs.trans ((builtin_argc (σ := σ) id).resolve_right fun h => hpos h.1).symm
  have hreplies : Replies _ _ (builtin lib S none id (if id.pops = 0 then [] else vs) w) :=
    replies_any vm.limits.maxStringLen hlen w
  have hagree := hreplies.answers.agrees
  have hbuiltin : applyBuiltin lib S id vs w =
    raise (builtin lib S none id (if id.pops = 0 then [] else vs) w).1
      (builtin lib S none id (if id.pops = 0 then [] else vs) w).2 := rfl
  rw [hbuiltin]
  cases b with
  | zero =>
    have hcut : vm.runOp lib S ⟨pc, vs.reverse ++ stk, L, lc, 0, w⟩ (.callBuiltin id argc) =
      .halt (.error (.callLimitExceeded vm.limits.maxCallCount.toNat)) w := rfl
    -- a turn that is cut short may be taken for any result
    rcases builtin lib S none id (if id.pops = 0 then [] else vs) w with ⟨e | v, w'⟩
    · exact ⟨_, w, hcut, .inl rfl⟩
    · exact ⟨⟨pc, v :: stk, L, lc, 0, w'⟩, .inr ⟨_, w, hcut, rfl⟩, 0, rfl⟩
  | succ b =>
    rw [← hreplies.world]
    show (vm.call lib S ⟨pc, vs.reverse ++ stk, L, lc, b + 1, w⟩ id).Gives _ _
    rcases builtin_argc (σ := σ) id with hpops | ⟨hpops, herr⟩
    · -- the arguments are popped, and what is below them stays
      have hargs : (if id.pops = 0 then [] else vs) = vs := by
        split
        · rename_i hzero
          exact (List.eq_nil_of_length_eq_zero (by omega)).symm
        · rfl
      have hpop : popArgs id.pops (vs.reverse ++ stk) = some (vs, stk) :=
        popArgs_eq_some.2 ⟨hvs.trans hpops.symm, rfl⟩
      rw [hargs] at hagree ⊢
      rw [call_eq hpop]
      exact gives_of_agrees vm.limits (b := b) hagree (fun v hv => by simp only [hv])
        fun e he => by simp only [he]
    · -- not implemented: an error, whatever is left on the stack
      rw [if_pos hpops] at hagree ⊢
      obtain ⟨e, he⟩ := herr S (some vm.limits.maxStringLen) w
      rw [call_eq (show popArgs id.pops (vs.reverse ++ stk) = some ([], vs.reverse ++ stk) by
        rw [hpops]; rfl)]
      refine gives_of_agrees vm.limits (b := b) hagree (fun v hv => ?_) fun e he => by simp only [he]
      have := he.symm.trans hv
      cases this

/-! ## Instructions in place -/

theorem follows_of_op (hop : vm.script.code[pc]? = some op)
    (h : (vm.runOp lib S ⟨pc + 1, stk, L, lc, b, w⟩ op).Gives x post) :
    (vm.machine lib S).Follows k ⟨pc, stk, L, lc, b, w⟩ x post :=
  follows_of_step (by rwa [step_eq ⟨pc, stk, L, lc, b, w⟩ hop])

theorem advances_of_op (hop : vm.script.code[pc]? = some op)
    (h : (vm.runOp lib S ⟨pc + 1, stk, L, lc, b, w⟩ op).Leads st) :
    (vm.machine lib S).Advances ⟨pc, stk, L, lc, b, w⟩ st :=
  advances_of_step (by rwa [step_eq ⟨pc, stk, L, lc, b, w⟩ hop])

theorem leads_jumpBy (st : VmState σ) {codeLen target : ℕ} (name : String)
    (ht : (st.pc : ℤ) + offset = target) (hlen : target ≤ codeLen) :
    (st.jumpBy codeLen offset name).Leads { st with pc := target } := by
  left
  unfold jumpBy
  rw [if_neg, ht]
  · rfl
  · rw [ht]
    omega

variable {v : Value} {slot : ℕ}

theorem advances_getLocal (hop : vm.script.code[pc]? = some (.getLocal slot)) :
    (vm.machine lib S).Advances ⟨pc, stk, L, lc, b, w⟩
      ⟨pc + 1, L.getD slot .nil :: stk, L, lc, b, w⟩ :=
  advances_of_op hop (leads_push _ _ _)

theorem advances_loadConst {i : ℕ} {c : Constant} (hop : vm.script.code[pc]? = some (.loadConst i))
    (hc : vm.script.constants[i]? = some c) :
    (vm.machine lib S).Advances ⟨pc, stk, L, lc, b, w⟩ ⟨pc + 1, c.value :: stk, L, lc, b, w⟩ := by
  refine advances_of_op hop ?_
  simp only [runOp, loadConst, hc]
  exact leads_push _ _ _

theorem advances_listLen (hop : vm.script.code[pc]? = some .listLen) (h : listLen v = .ok r) :
    (vm.machine lib S).Advances ⟨pc, v :: stk, L, lc, b, w⟩ ⟨pc + 1, r :: stk, L, lc, b, w⟩ :=
  advances_of_op hop (leads_unary h)

theorem advances_listGet (hop : vm.script.code[pc]? = some .listGet) (h : listGet u v = .ok r) :
    (vm.machine lib S).Advances ⟨pc, v :: u :: stk, L, lc, b, w⟩ ⟨pc + 1, r :: stk, L, lc, b, w⟩ :=
  advances_of_op hop (leads_binary h)

theorem advances_less (hop : vm.script.code[pc]? = some .less) (h : lessValues u v = .ok r) :
    (vm.machine lib S).Advances ⟨pc, v :: u :: stk, L, lc, b, w⟩ ⟨pc + 1, r :: stk, L, lc, b, w⟩ :=
  advances_of_op hop (leads_binary h)

theorem advances_setLocal (hop : vm.script.code[pc]? = some (.setLocal slot))
    (hslot : slot < L.length) :
    (vm.machine lib S).Advances ⟨pc, v :: stk, L, lc, b, w⟩ ⟨pc + 1, stk, L.set slot v, lc, b, w⟩ :=
  advances_of_op hop (.inl (if_pos hslot))

variable (target : ℕ)

theorem advances_jump (hop : vm.script.code[pc]? = some (.jump offset))
    (ht : ((pc + 1 : ℕ) : ℤ) + offset = target) (hlen : target ≤ vm.script.code.length) :
    (vm.machine lib S).Advances ⟨pc, stk, L, lc, b, w⟩ ⟨target, stk, L, lc, b, w⟩ :=
  advances_of_op hop (leads_jumpBy ⟨pc + 1, stk, L, lc, b, w⟩ "Jump" ht hlen)

theorem advances_jumpIfFalse_of_truthy
    (hop : vm.script.code[pc]? = some (.jumpIfFalse offset)) (hv : v.isTruthy) :
    (vm.machine lib S).Advances ⟨pc, v :: stk, L, lc, b, w⟩ ⟨pc + 1, stk, L, lc, b, w⟩ :=
  advances_of_op hop (.inl (if_pos hv))

theorem advances_jumpIfFalse_of_not
    (hop : vm.script.code[pc]? = some (.jumpIfFalse offset)) (hv : ¬ v.isTruthy = true)
    (ht : ((pc + 1 : ℕ) : ℤ) + offset = target) (hlen : target ≤ vm.script.code.length) :
    (vm.machine lib S).Advances ⟨pc, v :: stk, L, lc, b, w⟩ ⟨target, stk, L, lc, b, w⟩ := by
  refine advances_of_op hop ?_
  simp only [runOp, if_neg hv]
  exact leads_jumpBy ⟨pc + 1, stk, L, lc, b, w⟩ "JumpIfFalse" ht hlen

theorem advances_loopInit (hop : vm.script.code[pc]? = some .loopInit) :
    (vm.machine lib S).Advances ⟨pc, stk, L, lc, b, w⟩ ⟨pc + 1, stk, L, 0 :: lc, b, w⟩ :=
  advances_of_op hop (.inl rfl)

theorem advances_loopBack {c : ℕ} (hop : vm.script.code[pc]? = some (.loopBack offset))
    (ht : ((pc + 1 : ℕ) : ℤ) + offset = target) (hlen : target ≤ vm.script.code.length) :
    (vm.machine lib S).Advances ⟨pc, stk, L, c :: lc, b, w⟩
      ⟨target, stk, L, (c + 1) :: lc, b, w⟩ := by
  refine advances_of_op hop ?_
  simp only [runOp, loopBack]
  split
  · exact .inr ⟨_, _, rfl, rfl⟩
  · split
    · exact .inr ⟨_, _, rfl, rfl⟩
    · exact leads_jumpBy ⟨pc + 1, stk, L, (c + 1) :: lc, b, w⟩ "LoopBack" ht hlen

end

end Edgion.Dsl
