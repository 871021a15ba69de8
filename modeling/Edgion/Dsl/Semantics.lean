import Edgion.Common.Budget
import Edgion.Dsl.Compiler
import Edgion.Dsl.Vm

/-!
# The meaning of a program

A direct evaluation of the syntax tree, with variables by name and no limits. It says what the
compiled script is for; nothing of it is in the source.

* A block's variables end with it, and an inner variable hides an outer one of its name.
* `&&` and `||` do not evaluate their right operand when the left one decides. `a && b` is then
  `false` and `a || b` is `true`; otherwise the value is that of the right operand.
* The bounds of a range are evaluated once before the loop, the end before the start.
* The list of a `for … in` is evaluated once before the loop. What is not a list has no elements.
* The functions that are not implemented yet fail once their arguments are evaluated.

A loop makes as many rounds as it is allowed, and is unfinished after them.
-/

namespace Edgion.Dsl

open Common

/-- The variables in scope, the innermost first. -/
abbrev Env := List (String × Value)

/-- The innermost variable of a name gets a value. -/
def Env.assign (name : String) (v : Value) : Env → Env
  | [] => []
  | (x, old) :: env => if x = name then (x, v) :: env else (x, old) :: Env.assign name v env

/-- The variables of a block end with it. -/
def Env.leave (outer inner : Env) : Env := inner.drop (inner.length - outer.length)

/-! ## Expressions -/

/-- What `&&` and `||` are when their left operand decides. -/
def BinOp.decided : BinOp → Value → Option Value
  | .and, v => if v.isTruthy then none else some (.bool false)
  | .or, v => if v.isTruthy then some (.bool true) else none
  | _, _ => none

/-- A binary operator on its operands. -/
def BinOp.apply : BinOp → Value → Value → Except RuntimeError Value
  | .add => addValues none
  | .sub => subValues
  | .mul => mulValues
  | .div => divValues
  | .eq => equalValues
  | .ne => notEqualValues
  | .lt => lessValues
  | .gt => greaterValues
  | .le => lessEqualValues
  | .ge => greaterEqualValues
  | .and | .or => fun _ b => .ok b

/-- A unary operator on its operand. -/
def UnaryOp.apply : UnaryOp → Value → Except RuntimeError Value
  | .not => notValue
  | .neg => negValue

/-- The elements a `for … in` goes through. -/
def Value.elements : Value → List String
  | .list l => l.names
  | _ => []

section

variable {σ : Type} (lib : Lib) (S : Session σ)

/-- An error ends the evaluation. -/
def raise (r : Except RuntimeError Value) (w : World σ) :
    Eval (Outcome × World σ) (Value × World σ) :=
  match r with
  | .ok v => .value (v, w)
  | .error e => .ended (.error e, w)

/-- What the compiler refuses has no meaning. -/
def refused (w : World σ) : Eval (Outcome × World σ) (Value × World σ) :=
  raise (.error (.internal "refused")) w

/-- `s.matches(pattern)`. -/
def matchesText (pattern : String) : Value → Except RuntimeError Value
  | .str s => .ok (.bool (lib.regexIsMatch pattern s))
  | _ => .ok (.bool false)

/-- A method of a string. -/
def applyMethod (method : String) (object : Value) (args : List Value) (w : World σ) :
    Eval (Outcome × World σ) (Value × World σ) :=
  match method, args with
  | "starts_with", [arg] => raise (startsWithValues object arg) w
  | "ends_with", [arg] => raise (endsWithValues object arg) w
  | "contains", [arg] => raise (containsValues object arg) w
  | "matches", [.str pattern] => raise (matchesText lib pattern object) w
  | _, _ => refused w

/-- A built-in function. One that is not implemented yet does not look at its arguments. -/
def applyBuiltin (id : BuiltinId) (args : List Value) (w : World σ) :
    Eval (Outcome × World σ) (Value × World σ) :=
  let (r, w) := builtin lib S none id (if id.pops = 0 then [] else args) w
  raise r w

mutual

/-- **The value of an expression.** -/
def Expr.eval (env : Env) : Expr → World σ → Eval (Outcome × World σ) (Value × World σ)
  | .stringLit s, w => return (.str s, w)
  | .intLit n, w => return (.int n, w)
  | .boolLit b, w => return (.bool b, w)
  | .nilLit, w => return (.nil, w)
  | .ident name, w =>
    match env.lookup name with
    | some v => return (v, w)
    | none => refused w
  | .binaryOp op left right, w => do
    let (a, w) ← left.eval env w
    match op.decided a with
    | some v => return (v, w)
    | none =>
      let (b, w) ← right.eval env w
      raise (op.apply a b) w
  | .unaryOp op operand, w => do
    let (v, w) ← operand.eval env w
    raise (op.apply v) w
  | .methodCall object method args, w =>
    match namespaceCall object method with
    | some (_, id) => do
      let (vs, w) ← evalArgs env args w
      applyBuiltin lib S id vs w
    | none => do
      let (v, w) ← object.eval env w
      let (vs, w) ← evalArgs env args w
      applyMethod lib method v vs w
  | .fnCall name args, w =>
    match resolveFunction name with
    | some (id, _) => do
      let (vs, w) ← evalArgs env args w
      applyBuiltin lib S id vs w
    | none => refused w
  | .fieldAccess object field, w =>
    match namespaceCall object field with
    | some (_, id) => applyBuiltin lib S id [] w
    | none => refused w
termination_by structural e => e

/-- The values of the arguments of a call, from left to right. -/
def evalArgs (env : Env) : List Expr → World σ → Eval (Outcome × World σ) (List Value × World σ)
  | [], w => return ([], w)
  | arg :: args, w => do
    let (v, w) ← arg.eval env w
    let (vs, w) ← evalArgs env args w
    return (v :: vs, w)
termination_by structural args => args

end

/-! ## Loops -/

/-- What becomes of the variables and the session. -/
abbrev Action (σ : Type) := Env → World σ → Eval (Outcome × World σ) (Env × World σ)

/-- A block, with variables of its own from the start. -/
def inBlock (body : Action σ) (own : Env) : Action σ := fun env w => do
  let (inner, w) ← body (own ++ env) w
  return (env.leave inner, w)

/-- `while`. -/
def whileLoop (condition : Env → World σ → Eval (Outcome × World σ) (Value × World σ))
    (body : Action σ) : ℕ → Action σ
  | 0, _, _ => .unfinished
  | rounds + 1, env, w => do
    let (c, w) ← condition env w
    if c.isTruthy then
      let (env, w) ← body env w
      whileLoop condition body rounds env w
    else return (env, w)

/-- `for x in start..stop`, from a value of `x` on. -/
def countUp (stop : Value) (body : Value → Action σ) : ℕ → Value → Action σ
  | 0, _, _, _ => .unfinished
  | rounds + 1, x, env, w => do
    let (c, w) ← raise (lessValues x stop) w
    if c.isTruthy then
      let (env, w) ← body x env w
      let (x, w) ← raise (addValues none x (.int 1)) w
      countUp stop body rounds x env w
    else return (env, w)

/-- `for x in list`. -/
def forEach (body : Value → Action σ) : List String → Action σ
  | [], env, w => return (env, w)
  | name :: names, env, w => do
    let (env, w) ← body (.str name) env w
    forEach body names env w

/-! ## Statements -/

mutual

/-- **What a statement does**, its loops with so many rounds allowed. -/
def Stmt.exec (rounds : ℕ) : Stmt → Action σ
  | .letStmt name _ value, env, w => do
    let (v, w) ← value.eval lib S env w
    return ((name, v) :: env, w)
  | .assign name value, env, w => do
    let (v, w) ← value.eval lib S env w
    return (env.assign name v, w)
  | .ifStmt branches elseBody, env, w =>
    execBranches rounds branches (execElse rounds elseBody) env w
  | .forRange x start stop body, env, w => do
    let (stopValue, w) ← stop.eval lib S env w
    let (startValue, w) ← start.eval lib S env w
    countUp stopValue (fun v => inBlock (execBlock rounds body) [(x, v)]) rounds startValue env w
  | .forIn x iterable body, env, w => do
    let (v, w) ← iterable.eval lib S env w
    forEach (fun v => inBlock (execBlock rounds body) [(x, v)]) v.elements env w
  | .whileStmt condition body, env, w =>
    whileLoop (condition.eval lib S) (inBlock (execBlock rounds body) []) rounds env w
  | .returnDeny status body, env, w => do
    let (status, w) ← status.eval lib S env w
    let (body, w) ← body.eval lib S env w
    .ended (.ok (.errResponse (denyStatus status) (denyBody body)), w)
  | .returnNext, _, w => .ended (.ok .goodNext, w)
  | .exprStmt expr, env, w => do
    let (_, w) ← expr.eval lib S env w
    return (env, w)
termination_by structural s => s

/-- The statements of a body, one after the other. -/
def execBlock (rounds : ℕ) : List Stmt → Action σ
  | [], env, w => return (env, w)
  | stmt :: stmts, env, w => do
    let (env, w) ← stmt.exec rounds env w
    execBlock rounds stmts env w
termination_by structural stmts => stmts

/-- The first branch whose condition holds, or what is done otherwise. -/
def execBranches (rounds : ℕ) : List (Expr × List Stmt) → Action σ → Action σ
  | [], otherwise, env, w => otherwise env w
  | (condition, body) :: rest, otherwise, env, w => do
    let (c, w) ← condition.eval lib S env w
    if c.isTruthy then inBlock (execBlock rounds body) [] env w
    else execBranches rounds rest otherwise env w
termination_by structural branches => branches

/-- The `else` body, if there is one. -/
def execElse (rounds : ℕ) : Option (List Stmt) → Action σ
  | none, env, w => return (env, w)
  | some stmts, env, w => inBlock (execBlock rounds stmts) [] env w
termination_by structural body => body

end

/-- **The result of a program** and what becomes of the session, or nothing when a loop is still
going after the rounds it is allowed. -/
def Program.eval (rounds : ℕ) (p : Program) (w : World σ) : Option (Outcome × World σ) :=
  match execBlock lib S rounds p.stmts [] w with
  | .value (_, w) => some (.ok .goodNext, w)
  | .ended r => some r
  | .unfinished => none

end

end Edgion.Dsl
