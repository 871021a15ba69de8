import Edgion.Dsl.Builtins

/-!
# The compiler

`compiler.rs`. A function of the source that changes the compiler is a `Pass` here: it takes the
compiler and gives the next one, or stops. A construct of the language whose parts are compiled by
recursion takes the passes of its parts.

Forward jumps are emitted with offset 0 and patched once their target is known. Offsets are `i32`,
computed from positions that are narrowed to `i32`; `asI32` is that narrowing. The maps from
constants to their indices are association lists, and the list of locals has the newest first.
-/

namespace Edgion.Dsl

/-- How a compilation stops. It panics only where a `u16` of the compiler itself would overflow or
where `leave_scope` finds no scope. -/
inductive CompileStop where
  | error (message : String)
  | panic
  deriving Repr, DecidableEq

structure Local where
  name : String
  slot : ℕ
  «mutable» : Bool
  depth : ℕ
  deriving Repr, DecidableEq

structure Compiler where
  code : List OpCode
  constants : List Constant
  constStrMap : List (String × ℕ)
  constIntMap : List (Int64 × ℕ)
  locals : List Local
  nextSlot : ℕ
  scopeDepth : ℕ
  loopDepth : ℕ
  maxLoopDepth : ℕ

/-- A method of `Compiler` that may fail. -/
abbrev Pass := Compiler → Except CompileStop Compiler

/-- `as i32`. -/
def asI32 (n : ℤ) : ℤ := Int.bmod n (2 ^ 32)

/-- `u16::MAX`. -/
def maxU16 : ℕ := 65535

/-- `MAX_REGEX_PATTERN_LEN`. -/
def maxRegexPatternLen : ℕ := 1024

/-- The jumps that `patch_jump` completes. -/
def OpCode.setOffset (offset : ℤ) : OpCode → OpCode
  | .jump _ => .jump offset
  | .jumpIfFalse _ => .jumpIfFalse offset
  | op => op

/-- `patch_jump` on the code: the jump at `idx` leads to the end. -/
def patchAt (code : List OpCode) (idx : ℕ) : List OpCode :=
  let target := asI32 code.length
  let source := asI32 (asI32 idx + 1)
  code.modify idx (OpCode.setOffset (asI32 (target - source)))

/-- `Compiler::resolve_local`, on the locals in scope. -/
def resolveLocal (locals : List Local) (name : String) : Option Local :=
  locals.find? fun l => l.name == name

variable (name : String)

/-- The names of the built-in namespaces. -/
def isNamespace : Bool := name == "req" || name == "resp" || name == "ctx"

/-! ## Methods and functions -/

def resolveNamespaceMethod (ns method : String) : Option BuiltinId :=
  match ns, method with
  | "req", "header" => some .reqHeader
  | "req", "method" => some .reqMethod
  | "req", "path" => some .reqPath
  | "req", "query" => some .reqQuery
  | "req", "query_string" => some .reqQueryString
  | "req", "cookie" => some .reqCookie
  | "req", "client_ip" => some .reqClientIp
  | "req", "remote_ip" => some .reqRemoteIp
  | "req", "path_param" => some .reqPathParam
  | "req", "header_names" => some .reqHeaderNames
  | "req", "scheme" => some .reqScheme
  | "req", "host" => some .reqHost
  | "req", "uri" => some .reqUri
  | "req", "content_type" => some .reqContentType
  | "req", "has_header" => some .reqHasHeader
  | "req", "set_header" => some .reqSetHeader
  | "req", "append_header" => some .reqAppendHeader
  | "req", "remove_header" => some .reqRemoveHeader
  | "req", "set_uri" => some .reqSetUri
  | "req", "set_host" => some .reqSetHost
  | "req", "set_method" => some .reqSetMethod
  | "resp", "set_header" => some .respSetHeader
  | "resp", "append_header" => some .respAppendHeader
  | "resp", "remove_header" => some .respRemoveHeader
  | "ctx", "get" => some .ctxGet
  | "ctx", "set" => some .ctxSet
  | "ctx", "remove" => some .ctxRemove
  | _, _ => none

def builtinExpectedArgc : BuiltinId → ℕ
  | .reqMethod | .reqPath | .reqQueryString | .reqClientIp | .reqRemoteIp | .reqHeaderNames
  | .reqScheme | .reqHost | .reqUri | .reqContentType => 0
  | .reqHeader | .reqQuery | .reqCookie | .reqPathParam | .reqHasHeader | .reqRemoveHeader
  | .reqSetUri | .reqSetHost | .reqSetMethod => 1
  | .reqSetHeader | .reqAppendHeader => 2
  | .respRemoveHeader => 1
  | .respSetHeader | .respAppendHeader => 2
  | .ctxGet | .ctxRemove => 1
  | .ctxSet => 2
  | .log | .len | .toStr | .toInt | .toUpper | .toLower | .base64Encode | .base64Decode
  | .urlEncode | .urlDecode | .sha256 | .md5 => 1
  | .substr | .regexReplace => 3
  | .timeNow => 0
  | .regexFind => 2
  | .range => 2

/-- The table of `compile_fn_call`: the function and how many arguments it expects. -/
def resolveFunction : Option (BuiltinId × ℕ) :=
  match name with
  | "log" => some (.log, 1)
  | "len" => some (.len, 1)
  | "substr" => some (.substr, 3)
  | "to_int" => some (.toInt, 1)
  | "to_str" => some (.toStr, 1)
  | "to_upper" => some (.toUpper, 1)
  | "to_lower" => some (.toLower, 1)
  | "base64_encode" => some (.base64Encode, 1)
  | "base64_decode" => some (.base64Decode, 1)
  | "url_encode" => some (.urlEncode, 1)
  | "url_decode" => some (.urlDecode, 1)
  | "sha256" => some (.sha256, 1)
  | "md5" => some (.md5, 1)
  | "time_now" => some (.timeNow, 0)
  | "regex_find" => some (.regexFind, 2)
  | "regex_replace" => some (.regexReplace, 3)
  | _ => none

/-- The instruction of a string method other than `matches`. -/
def stringMethod (method : String) : Option OpCode :=
  match method with
  | "starts_with" => some .startsWith
  | "ends_with" => some .endsWith
  | "contains" => some .contains
  | _ => none

/-- The namespace and the function a method call names, if its object is one of the namespaces. -/
def namespaceCall (object : Expr) (method : String) : Option (String × BuiltinId) :=
  match object with
  | .ident ns => (resolveNamespaceMethod ns method).map (ns, ·)
  | _ => none

/-- The instruction of a binary operator that evaluates both operands. -/
def BinOp.opCode : BinOp → Option OpCode
  | .add => some .add
  | .sub => some .sub
  | .mul => some .mul
  | .div => some .div
  | .eq => some .equal
  | .ne => some .notEqual
  | .lt => some .less
  | .gt => some .greater
  | .le => some .lessEqual
  | .ge => some .greaterEqual
  | .and | .or => none

/-- The instruction of a unary operator. -/
def UnaryOp.opCode : UnaryOp → OpCode
  | .not => .not
  | .neg => .neg

namespace Compiler

def new : Compiler := ⟨[], [], [], [], [], 0, 0, 0, 0⟩

variable (c : Compiler)

/-- `Compiler::emit`; the index it returns is the length of the code before. -/
def emit (op : OpCode) : Compiler := { c with code := c.code ++ [op] }

def currentOffset : ℕ := c.code.length

def patchJump (idx : ℕ) : Compiler := { c with code := patchAt c.code idx }

def endsWithReturn : Bool :=
  c.code.getLast? == some .returnNext || c.code.getLast? == some .returnDeny

/-! ## Constants -/

def checkConstLimit : Except CompileStop ℕ :=
  if maxU16 ≤ c.constants.length then
    .error (.error "constant pool overflow: too many constants (max 65535)")
  else .ok c.constants.length

def addStrConst (s : String) : Except CompileStop (ℕ × Compiler) :=
  match c.constStrMap.lookup s with
  | some idx => .ok (idx, c)
  | none => do
    let idx ← c.checkConstLimit
    return (idx, { c with
      constants := c.constants ++ [.str s], constStrMap := (s, idx) :: c.constStrMap })

def addIntConst (n : Int64) : Except CompileStop (ℕ × Compiler) :=
  match c.constIntMap.lookup n with
  | some idx => .ok (idx, c)
  | none => do
    let idx ← c.checkConstLimit
    return (idx, { c with
      constants := c.constants ++ [.int n], constIntMap := (n, idx) :: c.constIntMap })

def addRegexConst (lib : Lib) (c : Compiler) (pattern : String) :
    Except CompileStop (ℕ × Compiler) :=
  if maxRegexPatternLen < Text.len pattern then
    .error (.error ("regex pattern too long: " ++ toString (Text.len pattern) ++ " (max " ++
      toString maxRegexPatternLen ++ ")"))
  else
    match c.constants.findIdx? (· == .regex pattern) with
    | some idx => .ok (idx, c)
    | none =>
      match lib.regexError pattern with
      | some e => .error (.error ("invalid regex '" ++ pattern ++ "': " ++ e))
      | none => do
        let idx ← c.checkConstLimit
        return (idx, { c with constants := c.constants ++ [.regex pattern] })

/-! ## Locals and scopes -/

variable (name : String)

/-- `Compiler::declare_local`: a slot is never used for a second local. -/
def declareLocal («mutable» : Bool) : Except CompileStop (ℕ × Compiler) :=
  if c.nextSlot = maxU16 then .error (.error "too many local variables (max 65534)")
  else .ok (c.nextSlot, { c with
    nextSlot := c.nextSlot + 1
    locals := ⟨name, c.nextSlot, «mutable», c.scopeDepth⟩ :: c.locals })

/-- `Compiler::enter_scope`. Where overflow checks are off, the depth wraps around instead and the
assertion of the matching `leave_scope` fails: such a program is never accepted. -/
def enterScope : Pass := fun c =>
  if c.scopeDepth = maxU16 then .error .panic else .ok { c with scopeDepth := c.scopeDepth + 1 }

def leaveScope : Pass := fun c =>
  if c.scopeDepth = 0 then .error .panic
  else .ok { c with
    locals := c.locals.dropWhile fun l => !decide (l.depth < c.scopeDepth)
    scopeDepth := c.scopeDepth - 1 }

/-- A loop is entered: its depth counts towards the deepest. There are no more loops around a place
than scopes, so the `u16` does not overflow. -/
def enterLoop : Compiler :=
  { c with loopDepth := c.loopDepth + 1, maxLoopDepth := max c.maxLoopDepth (c.loopDepth + 1) }

/-- A loop is left. -/
def leaveLoop : Compiler := { c with loopDepth := c.loopDepth - 1 }

/-- The statements of a block, in a scope of their own. -/
def inScope (stmts : Pass) : Pass := fun c => do
  let c ← enterScope c
  let c ← stmts c
  leaveScope c

/-! ## Expressions -/

/-- The arms for `&&` and `||`: the test that decides, and what is pushed when the right operand
is skipped. -/
def shortCircuit (test : List OpCode) (skipped : OpCode) (left right : Pass) : Pass := fun c => do
  let c ← left c
  let c := test.foldl emit c
  let falseJump := c.currentOffset
  let c := c.emit (.jumpIfFalse 0)
  let c ← right c
  let endJump := c.currentOffset
  let c := c.emit (.jump 0)
  let c := c.patchJump falseJump
  let c := c.emit skipped
  return c.patchJump endJump

/-- The arms of `compile_expr` for a binary operator. -/
def compileBinary (op : BinOp) (left right : Pass) : Pass := fun c =>
  match op with
  | .and => shortCircuit [] .loadFalse left right c
  | .or => shortCircuit [.not] .loadTrue left right c
  | op => do
    let c ← left c
    let c ← right c
    match op.opCode with
    | some opcode => return c.emit opcode
    | none => .error (.error "internal error: And/Or should be handled above")

/-- The arguments of a call that expects so many, and the call. -/
def compileCall (id : BuiltinId) (args : List Expr) (compileArgs : Pass) : Pass := fun c => do
  let c ← compileArgs c
  return c.emit (.callBuiltin id args.length)

/-- `Compiler::compile_method_call`, with the passes of the object and of the arguments. -/
def compileMethodCall (lib : Lib) (object : Expr) (method : String) (args : List Expr)
    (compileObject compileArgs : Pass) : Pass := fun c =>
  match namespaceCall object method with
  | some (ns, id) =>
    if args.length ≠ builtinExpectedArgc id then
      .error (.error (ns ++ "." ++ method ++ "() expects " ++ toString (builtinExpectedArgc id) ++
        " argument(s), got " ++ toString args.length))
    else compileCall id args compileArgs c
  | none =>
    match stringMethod method with
    | some op =>
      if args.length ≠ 1 then .error (.error (method ++ "() requires 1 argument"))
      else do
        let c ← compileObject c
        let c ← compileArgs c
        return c.emit op
    | none =>
      if method = "matches" then
        match args with
        | [.stringLit pattern] => do
          let (idx, c) ← c.addRegexConst lib pattern
          let c ← compileObject c
          return c.emit (.matchesRegex idx)
        | [_] => .error (.error "matches() pattern must be a string literal")
        | _ => .error (.error "matches() requires 1 string literal argument")
      else .error (.error ("unknown method: ." ++ method ++ "()"))

/-- `Compiler::compile_fn_call`, with the pass of the arguments. -/
def compileFnCall (args : List Expr) (compileArgs : Pass) : Pass := fun c =>
  match resolveFunction name with
  | some (id, expected) =>
    if args.length ≠ expected then
      .error (.error (name ++ "() expects " ++ toString expected ++ " argument(s), got " ++
        toString args.length))
    else compileCall id args compileArgs c
  | none => .error (.error ("unknown function: " ++ name ++ "()"))

/-- A literal that is a constant, as it is added. -/
def loadConstant (add : Compiler → Except CompileStop (ℕ × Compiler)) : Pass := fun c => do
  let (idx, c) ← add c
  return c.emit (.loadConst idx)

mutual

def compileExpr (lib : Lib) : Expr → Pass
  | .stringLit s => loadConstant (addStrConst · s)
  | .intLit n => loadConstant (addIntConst · n)
  | .boolLit true => fun c => .ok (c.emit .loadTrue)
  | .boolLit false => fun c => .ok (c.emit .loadFalse)
  | .nilLit => fun c => .ok (c.emit .loadNil)
  | .ident name => fun c =>
    match resolveLocal c.locals name with
    | some l => .ok (c.emit (.getLocal l.slot))
    | none => .error (.error ("undefined variable '" ++ name ++ "'"))
  | .binaryOp op left right => compileBinary op (compileExpr lib left) (compileExpr lib right)
  | .unaryOp op operand => fun c => do
    let c ← compileExpr lib operand c
    return c.emit op.opCode
  | .methodCall object method args =>
    compileMethodCall lib object method args (compileExpr lib object) (compileArgs lib args)
  | .fnCall name args => compileFnCall name args (compileArgs lib args)
  | .fieldAccess object field =>
    compileMethodCall lib object field [] (compileExpr lib object) .ok
termination_by structural e => e

/-- The arguments of a call, in order. -/
def compileArgs (lib : Lib) : List Expr → Pass
  | [] => .ok
  | arg :: args => fun c => do
    let c ← compileExpr lib arg c
    compileArgs lib args c
termination_by structural args => args

end

/-! ## Statements -/

/-- The check of a name that is about to be declared. -/
def checkName (name what : String) : Except CompileStop Unit :=
  if isNamespace name then
    .error (.error ("'" ++ name ++ "' is a built-in namespace and cannot be used as a " ++ what))
  else .ok ()

/-- `StmtKind::Let`. -/
def compileLet («mutable» : Bool) (value : Pass) : Pass := fun c => do
  checkName name "variable name"
  let c ← value c
  let (slot, c) ← c.declareLocal name «mutable»
  return c.emit (.setLocal slot)

/-- `StmtKind::Assign`. -/
def compileAssign (value : Pass) : Pass := fun c =>
  match resolveLocal c.locals name with
  | some l =>
    if l.mutable then do
      let c ← value c
      return c.emit (.setLocal l.slot)
    else .error (.error ("cannot assign to immutable variable '" ++ name ++ "'"))
  | none => .error (.error ("undefined variable '" ++ name ++ "'"))

/-- `LoopBack` to the start of a loop. -/
def emitLoopBack (c : Compiler) (loopStart : ℕ) : Compiler :=
  c.emit (.loopBack (asI32 (asI32 loopStart - asI32 (asI32 c.currentOffset + 1))))

/-- The increment at the end of a counting loop. -/
def emitIncrement (c : Compiler) (slot : ℕ) : Except CompileStop Compiler := do
  let c := c.emit (.getLocal slot)
  let (one, c) ← c.addIntConst 1
  return ((c.emit (.loadConst one)).emit .add).emit (.setLocal slot)

/-- The end of every loop. -/
def closeLoop (exitJump loopStart : ℕ) : Pass := fun c =>
  leaveScope (((c.emitLoopBack loopStart).patchJump exitJump).emit .loopEnd).leaveLoop

variable (varName : String)

/-- `Compiler::compile_for_range`, with the passes of its parts. -/
def compileForRange (start stop body : Pass) : Pass := fun c => do
  checkName varName "loop variable"
  let c ← enterScope c
  let c := c.enterLoop
  let c ← stop c
  let (endSlot, c) ← c.declareLocal "__range_end__" false
  let c := c.emit (.setLocal endSlot)
  let c ← start c
  let (varSlot, c) ← c.declareLocal varName false
  let c := (c.emit (.setLocal varSlot)).emit .loopInit
  let loopStart := c.currentOffset
  let c := ((c.emit (.getLocal varSlot)).emit (.getLocal endSlot)).emit .less
  let exitJump := c.currentOffset
  let c ← inScope body (c.emit (.jumpIfFalse 0))
  let c ← c.emitIncrement varSlot
  closeLoop exitJump loopStart c

/-- `Compiler::compile_for_in`, with the passes of its parts. -/
def compileForIn (iterable body : Pass) : Pass := fun c => do
  checkName varName "loop variable"
  let c ← enterScope c
  let c := c.enterLoop
  let c ← iterable c
  let (listSlot, c) ← c.declareLocal "__list__" false
  let c := c.emit (.setLocal listSlot)
  let (zeroIdx, c) ← c.addIntConst 0
  let c := c.emit (.loadConst zeroIdx)
  let (idxSlot, c) ← c.declareLocal "__idx__" true
  let c := (c.emit (.setLocal idxSlot)).emit .loopInit
  let loopStart := c.currentOffset
  let c := (((c.emit (.getLocal idxSlot)).emit (.getLocal listSlot)).emit .listLen).emit .less
  let exitJump := c.currentOffset
  let c := c.emit (.jumpIfFalse 0)
  let c := ((c.emit (.getLocal listSlot)).emit (.getLocal idxSlot)).emit .listGet
  let (varSlot, c) ← c.declareLocal varName false
  let c ← inScope body (c.emit (.setLocal varSlot))
  let c ← c.emitIncrement idxSlot
  closeLoop exitJump loopStart c

/-- `Compiler::compile_while`, with the passes of its parts. -/
def compileWhile (condition body : Pass) : Pass := fun c => do
  let c ← enterScope c
  let c := c.enterLoop.emit .loopInit
  let loopStart := c.currentOffset
  let c ← condition c
  let exitJump := c.currentOffset
  let c ← inScope body (c.emit (.jumpIfFalse 0))
  closeLoop exitJump loopStart c

/-- A branch of `compile_if`: its end jump, if anything follows it, and the compiler after it. -/
def compileBranch (more : Bool) (condition body : Pass) (c : Compiler) :
    Except CompileStop (List ℕ × Compiler) := do
  let c ← condition c
  let falseJump := c.currentOffset
  let c ← inScope body (c.emit (.jumpIfFalse 0))
  if more then return ([c.currentOffset], (c.emit (.jump 0)).patchJump falseJump)
  else return ([], c.patchJump falseJump)

/-- The end of `compile_if`: the `else` body, and the end jumps are patched. -/
def closeIf (elseBody : Pass) (branches : List ℕ × Compiler) : Except CompileStop Compiler := do
  let c ← elseBody branches.2
  return branches.1.foldl patchJump c

mutual

def compileStmt (lib : Lib) : Stmt → Pass
  | .letStmt name «mutable» value => compileLet name «mutable» (compileExpr lib value)
  | .assign name value => compileAssign name (compileExpr lib value)
  | .ifStmt branches elseBody => fun c => do
    let r ← compileBranches lib branches elseBody.isSome c
    closeIf (compileElse lib elseBody) r
  | .forRange varName start stop body =>
    compileForRange varName (compileExpr lib start) (compileExpr lib stop) (compileStmts lib body)
  | .forIn varName iterable body =>
    compileForIn varName (compileExpr lib iterable) (compileStmts lib body)
  | .whileStmt condition body =>
    compileWhile (compileExpr lib condition) (compileStmts lib body)
  | .returnDeny status body => fun c => do
    let c ← compileExpr lib status c
    let c ← compileExpr lib body c
    return c.emit .returnDeny
  | .returnNext => fun c => .ok (c.emit .returnNext)
  | .exprStmt expr => fun c => do
    let c ← compileExpr lib expr c
    return c.emit .pop
termination_by structural s => s

/-- The statements of a body or of a program, in order. -/
def compileStmts (lib : Lib) : List Stmt → Pass
  | [] => .ok
  | stmt :: stmts => fun c => do
    let c ← compileStmt lib stmt c
    compileStmts lib stmts c
termination_by structural stmts => stmts

/-- The loop of `compile_if` over the branches, with the end jumps it collects. -/
def compileBranches (lib : Lib) : List (Expr × List Stmt) → Bool → Compiler →
    Except CompileStop (List ℕ × Compiler)
  | [], _, c => .ok ([], c)
  | (condition, body) :: rest, hasElse, c => do
    let (ends, c) ← compileBranch (!rest.isEmpty || hasElse) (compileExpr lib condition)
      (compileStmts lib body) c
    let (more, c) ← compileBranches lib rest hasElse c
    return (ends ++ more, c)
termination_by structural branches => branches

/-- The `else` body. -/
def compileElse (lib : Lib) : Option (List Stmt) → Pass
  | none => .ok
  | some stmts => inScope (compileStmts lib stmts)
termination_by structural body => body

end

def compile (lib : Lib) (program : Program) : Except CompileStop CompiledScript := do
  let c ← compileStmts lib program.stmts new
  let c := if c.endsWithReturn then c else c.emit .returnNext
  return ⟨c.code, c.constants, c.nextSlot, c.maxLoopDepth⟩

end Compiler

end Edgion.Dsl
