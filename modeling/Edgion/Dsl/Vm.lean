import Edgion.Dsl.Builtins

/-!
# The virtual machine

`vm.rs`. A turn of the loop of `Vm::execute` pays one step, fetches an instruction and runs it;
`step` is the turn without the payment, and `run` is the loop, by recursion on the step budget.
The head of a list is the top of a stack.

What the source would panic on is a result of its own: the only operation of the loop that can is
`*counter += 1` on a `u32`, where overflow checks are on.
-/

namespace Edgion.Dsl

/-- `PluginRunningResult`: the two results a script can have. -/
inductive PluginRunningResult where
  | goodNext
  | errResponse (status : ℕ) (body : Option String)
  deriving Repr, DecidableEq

structure VmLimits where
  maxSteps : UInt32
  maxLoopIterations : UInt32
  maxCallCount : UInt32
  maxStackDepth : ℕ
  maxStringLen : ℕ

def VmLimits.default : VmLimits := ⟨10000, 100, 500, 128, 8192⟩

/-- How a run ends. -/
inductive Outcome where
  | ok (r : PluginRunningResult)
  | error (e : RuntimeError)
  | panic
  deriving Repr, DecidableEq

/-- `VmState`, with the session; the step budget is the argument of `run`. -/
structure VmState (σ : Type) where
  pc : ℕ
  stack : List Value
  locals : List Value
  loopCounters : List ℕ
  callBudget : ℕ
  world : World σ

/-- What a turn of the loop leads to. -/
inductive Turn (σ : Type) where
  | next (state : VmState σ)
  | halt (outcome : Outcome) (world : World σ)

/-- `Vm`. A compiled regular expression is kept as its pattern. -/
structure Vm where
  script : CompiledScript
  regexCache : List (Option String)
  limits : VmLimits

/-- The entry of the cache for a constant. -/
def regexEntry (lib : Lib) : Constant → Except RuntimeError (Option String)
  | .regex pattern =>
    match lib.regexError pattern with
    | some e => .error (.regexError ("failed to compile regex '" ++ pattern ++ "': " ++ e))
    | none => .ok (some pattern)
  | _ => .ok none

/-- The loop of `Vm::new` over the constants. -/
def buildCache (lib : Lib) : List Constant → Except RuntimeError (List (Option String))
  | [] => .ok []
  | c :: cs => do
    let entry ← regexEntry lib c
    let cache ← buildCache lib cs
    return entry :: cache

def Vm.new (lib : Lib) (script : CompiledScript) (limits : VmLimits) : Except RuntimeError Vm := do
  let cache ← buildCache lib script.constants
  return ⟨script, cache, limits⟩

/-- The value `OpCode::LoadConst` pushes. -/
def Constant.value : Constant → Value
  | .str s => .str s
  | .int n => .int n
  | .regex _ => .nil

/-- The status `OpCode::ReturnDeny` answers with. -/
def denyStatus : Value → ℕ
  | .int n => if 100 ≤ n.toInt ∧ n.toInt ≤ 599 then n.toInt.toNat else 500
  | _ => 500

/-- The body it answers with. -/
def denyBody : Value → Option String
  | .nil => none
  | v => some v.intoString

namespace VmState

variable {σ : Type}

def new (localCount : ℕ) (limits : VmLimits) (w : World σ) : VmState σ :=
  ⟨0, [], List.replicate localCount .nil, [], limits.maxCallCount.toNat, w⟩

variable (st : VmState σ)

/-- The end of a run with an error. -/
def fail (e : RuntimeError) : Turn σ := .halt (.error e) st.world

variable (limits : VmLimits)

def push (v : Value) : Turn σ :=
  if limits.maxStackDepth ≤ st.stack.length then st.fail (.stackOverflow limits.maxStackDepth)
  else .next { st with stack := v :: st.stack }

/-- `VmState::pop` on an empty stack. -/
def underflow (st : VmState σ) : Turn σ := st.fail (.internal "stack underflow")

/-- Pops a value and pushes what the operation makes of it. -/
def unary (op : Value → Except RuntimeError Value) : Turn σ :=
  match st.stack with
  | v :: rest =>
    match op v with
    | .ok r => push { st with stack := rest } limits r
    | .error e => st.fail e
  | [] => st.underflow

/-- Pops two values, the right operand first, and pushes what the operation makes of them. -/
def binary (op : Value → Value → Except RuntimeError Value) : Turn σ :=
  match st.stack with
  | b :: a :: rest =>
    match op a b with
    | .ok r => push { st with stack := rest } limits r
    | .error e => st.fail e
  | _ => st.underflow

/-- A jump relative to the next instruction, named in its error. -/
def jumpBy (codeLen : ℕ) (offset : ℤ) (name : String) : Turn σ :=
  let target : ℤ := st.pc + offset
  if target < 0 ∨ codeLen < target.toNat then
    st.fail (.internal (name ++ " target " ++ toString target ++ " out of bounds (code length: " ++
      toString codeLen ++ ")"))
  else .next { st with pc := target.toNat }

end VmState

namespace Vm

variable {σ : Type} (lib : Lib) (S : Session σ) (vm : Vm) (st : VmState σ)

/-- `OpCode::LoadConst`. -/
def loadConst (idx : ℕ) : Turn σ :=
  match vm.script.constants[idx]? with
  | some c => st.push vm.limits c.value
  | none =>
    st.fail (.internal ("constant index " ++ toString idx ++ " out of bounds (pool size: " ++
      toString vm.script.constants.length ++ ")"))

/-- `OpCode::SetLocal`. -/
def setLocal (slot : ℕ) : Turn σ :=
  match st.stack with
  | v :: rest =>
    if slot < st.locals.length then
      .next { st with stack := rest, locals := st.locals.set slot v }
    else
      st.fail (.internal ("SetLocal slot " ++ toString slot ++ " out of bounds (locals size: " ++
        toString st.locals.length ++ ")"))
  | [] => st.underflow

/-- `OpCode::Matches` on the value popped. -/
def matchesValue (idx : ℕ) : Value → Except RuntimeError Value
  | .str s =>
    match vm.regexCache[idx]? with
    | some (some pattern) => .ok (.bool (lib.regexIsMatch pattern s))
    | _ => .ok (.bool false)
  | _ => .ok (.bool false)

/-- `OpCode::LoopBack`. -/
def loopBack (offset : ℤ) : Turn σ :=
  match st.loopCounters with
  | [] => st.fail (.internal "LoopBack without matching LoopInit")
  | counter :: counters =>
    if counter = UInt32.size - 1 then .halt .panic st.world
    else if vm.limits.maxLoopIterations.toNat < counter + 1 then
      st.fail (.loopLimitExceeded vm.limits.maxLoopIterations.toNat)
    else
      { st with loopCounters := (counter + 1) :: counters }.jumpBy vm.script.code.length offset
        "LoopBack"

/-- `OpCode::CallBuiltin`. -/
def call (id : BuiltinId) : Turn σ :=
  match st.callBudget with
  | 0 => st.fail (.callLimitExceeded vm.limits.maxCallCount.toNat)
  | budget + 1 =>
    match callBuiltin lib S (some vm.limits.maxStringLen) id st.stack st.world with
    | (.ok (v, stack), world) =>
      { st with stack := stack, callBudget := budget, world := world }.push vm.limits v
    | (.error e, world) => .halt (.error e) world

/-- The instruction `op`, in a state whose `pc` is already past it. -/
def runOp (op : OpCode) : Turn σ :=
  let limits := vm.limits
  match op with
  | .loadConst idx => vm.loadConst st idx
  | .loadNil => st.push limits .nil
  | .loadTrue => st.push limits (.bool true)
  | .loadFalse => st.push limits (.bool false)
  | .pop =>
    match st.stack with
    | _ :: rest => .next { st with stack := rest }
    | [] => st.underflow
  | .getLocal slot => st.push limits (st.locals.getD slot .nil)
  | .setLocal slot => setLocal st slot
  | .add => st.binary limits (addValues (some limits.maxStringLen))
  | .sub => st.binary limits subValues
  | .mul => st.binary limits mulValues
  | .div => st.binary limits divValues
  | .neg => st.unary limits negValue
  | .equal => st.binary limits equalValues
  | .notEqual => st.binary limits notEqualValues
  | .less => st.binary limits lessValues
  | .greater => st.binary limits greaterValues
  | .lessEqual => st.binary limits lessEqualValues
  | .greaterEqual => st.binary limits greaterEqualValues
  | .not => st.unary limits notValue
  | .startsWith => st.binary limits startsWithValues
  | .endsWith => st.binary limits endsWithValues
  | .contains => st.binary limits containsValues
  | .matchesRegex idx => st.unary limits (vm.matchesValue lib idx)
  | .jump offset => st.jumpBy vm.script.code.length offset "Jump"
  | .jumpIfFalse offset =>
    match st.stack with
    | v :: rest =>
      if v.isTruthy then .next { st with stack := rest }
      else { st with stack := rest }.jumpBy vm.script.code.length offset "JumpIfFalse"
    | [] => st.underflow
  | .loopInit => .next { st with loopCounters := 0 :: st.loopCounters }
  | .loopBack offset => vm.loopBack st offset
  | .loopEnd => .next { st with loopCounters := st.loopCounters.tail }
  | .listLen => st.unary limits listLen
  | .listGet => st.binary limits listGet
  | .callBuiltin id _ => vm.call lib S st id
  | .returnNext => .halt (.ok .goodNext) st.world
  | .returnDeny =>
    match st.stack with
    | body :: status :: _ =>
      .halt (.ok (.errResponse (denyStatus status) (denyBody body))) st.world
    | _ => st.underflow

/-- A turn of the loop, once its step is paid. -/
def step : Turn σ :=
  match vm.script.code[st.pc]? with
  | none => .halt (.ok .goodNext) st.world
  | some op => vm.runOp lib S { st with pc := st.pc + 1 } op

/-- The loop of `Vm::execute`, on the step budget that is left. -/
def run : ℕ → VmState σ → Outcome × World σ
  | 0, st => (.error (.stepLimitExceeded vm.limits.maxSteps.toNat), st.world)
  | budget + 1, st =>
    match vm.step lib S st with
    | .next st' => run budget st'
    | .halt outcome world => (outcome, world)

def execute (w : World σ) : Outcome × World σ :=
  vm.run lib S vm.limits.maxSteps.toNat (VmState.new vm.script.localCount vm.limits w)

/-- The states in which a turn of the loop fetches, in order. -/
def visited : ℕ → VmState σ → List (VmState σ)
  | 0, _ => []
  | budget + 1, st =>
    st :: match vm.step lib S st with
      | .next st' => visited budget st'
      | .halt _ _ => []

/-- **The rule of the loop**: what is so of a turn that goes on in a state, and so of the turn taken
in that state, is so of all states of a run and of its end. -/
theorem run_rule {R : Turn σ → Prop} (hstep : ∀ st, R (.next st) → R (vm.step lib S st))
    (hlimit : ∀ st, R (.next st) →
      R (.halt (.error (.stepLimitExceeded vm.limits.maxSteps.toNat)) st.world)) (budget : ℕ) :
    ∀ st, R (.next st) → (∀ st' ∈ vm.visited lib S budget st, R (.next st')) ∧
      R (.halt (vm.run lib S budget st).1 (vm.run lib S budget st).2) := by
  induction budget with
  | zero => exact fun st hst => ⟨fun st' h => absurd h List.not_mem_nil, hlimit st hst⟩
  | succ budget ih =>
    intro st hst
    have hturn := hstep st hst
    rw [visited, run]
    cases hnext : vm.step lib S st with
    | next st1 =>
      rw [hnext] at hturn
      obtain ⟨hvisited, hend⟩ := ih st1 hturn
      exact ⟨List.forall_mem_cons.2 ⟨hst, hvisited⟩, hend⟩
    | halt outcome w =>
      rw [hnext] at hturn
      exact ⟨List.forall_mem_cons.2 ⟨hst, fun st' h => absurd h List.not_mem_nil⟩, hturn⟩

end Vm

end Edgion.Dsl
