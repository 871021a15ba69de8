import Edgion.Common.Text
import Mathlib.Algebra.Group.Int.Defs
import Mathlib.Algebra.Group.Nat.Defs

/-!
# Values of the plugin language

`core/gateway/plugins/http/dsl/lang/value.rs` and `error.rs`, and the operators as the virtual
machine applies them.

An operator that makes a string takes the length limit it is checked against. The machine passes
its own; the reference semantics, which has no limits, passes `none`.
-/

namespace Edgion.Dsl

/-- `Vec<String>`. A vector holds at most `isize::MAX` bytes, so its length fits in an `i64`. -/
structure NameList where
  names : List String
  length_lt : names.length < 2 ^ 63
  deriving Repr, DecidableEq

/-- A runtime value. -/
inductive Value where
  | str (s : String)
  | int (n : Int64)
  | bool (b : Bool)
  | nil
  | list (l : NameList)
  deriving Repr, DecidableEq

inductive RuntimeError where
  | typeError (expected got operation : String)
  | divisionByZero
  | integerOverflow (operation : String)
  | stepLimitExceeded (limit : ℕ)
  | loopLimitExceeded (limit : ℕ)
  | callLimitExceeded (limit : ℕ)
  | stackOverflow (limit : ℕ)
  | stringTooLong (len limit : ℕ)
  | undefinedLocal (slot : ℕ)
  | apiError (function message : String)
  | regexError (message : String)
  | internal (message : String)
  deriving Repr, DecidableEq

/-- The errors that say that a limit of the machine was reached. -/
def RuntimeError.isLimit : RuntimeError → Bool
  | .stepLimitExceeded _ => true
  | .loopLimitExceeded _ => true
  | .callLimitExceeded _ => true
  | .stackOverflow _ => true
  | .stringTooLong _ _ => true
  | _ => false

/-- The error that says that the machine met code it cannot run. -/
def RuntimeError.isInternal : RuntimeError → Bool
  | .internal _ => true
  | _ => false

namespace Value

def intoString : Value → String
  | .str s => s
  | .int n => toString n.toInt
  | .bool true => "true"
  | .bool false => "false"
  | .nil => "nil"
  | .list _ => "[list]"

def asInt : Value → Option Int64
  | .int n => some n
  | _ => none

/-- `Value::is_truthy`: all but `nil` and `false`. -/
def isTruthy : Value → Bool
  | .nil => false
  | .bool b => b
  | _ => true

def typeName : Value → String
  | .str _ => "Str"
  | .int _ => "Int"
  | .bool _ => "Bool"
  | .nil => "Nil"
  | .list _ => "List"

/-- The strings a value holds. -/
def strings : Value → List String
  | .str s => [s]
  | .list l => l.names
  | _ => []

end Value

/-! ## Lengths -/

/-- `check_string_len`, on the length in bytes. -/
def checkLen (len : ℕ) : Option ℕ → Except RuntimeError Unit
  | none => .ok ()
  | some limit => if limit < len then .error (.stringTooLong len limit) else .ok ()

def checkedValueStr (s : String) (limit : Option ℕ) : Except RuntimeError Value :=
  (checkLen (Text.len s) limit).map fun _ => .str s

def checkedValueOptStr (s : Option String) (limit : Option ℕ) : Except RuntimeError Value :=
  match s with
  | some s => checkedValueStr s limit
  | none => .ok .nil

/-! ## Operators -/

/-- The integer as an `i64`, if it is one: what the `checked_` operations test. -/
def toI64 (n : ℤ) : Option Int64 :=
  if -2 ^ 63 ≤ n ∧ n < 2 ^ 63 then some (Int64.ofInt n) else none

/-- The value of a checked operation, or the overflow it is reported as. -/
def checked (n : ℤ) (operation : String) : Except RuntimeError Value :=
  match toI64 n with
  | some n => .ok (.int n)
  | none => .error (.integerOverflow operation)

/-- `format!("{}{}", a, b)` after the check of its length. -/
def concat (a b : String) (limit : Option ℕ) : Except RuntimeError Value :=
  (checkLen (Text.len a + Text.len b) limit).map fun _ => .str (a ++ b)

/-- `OpCode::Add`. -/
def addValues (limit : Option ℕ) : Value → Value → Except RuntimeError Value
  | .int a, .int b => checked (a.toInt + b.toInt) "+"
  | .str a, .str b => concat a b limit
  | .str a, b => concat a b.intoString limit
  | a, .str b => concat a.intoString b limit
  | a, _ => .error (.typeError "Int or Str" a.typeName "+")

/-- The operators on integers alone: `OpCode::Sub`, `Mul` and, past its test for zero, `Div`. -/
def intValues (op : ℤ → ℤ → ℤ) (operation : String) : Value → Value → Except RuntimeError Value
  | .int a, .int b => checked (op a.toInt b.toInt) operation
  | a, _ => .error (.typeError "Int" a.typeName operation)

/-- `OpCode::Sub`. -/
def subValues : Value → Value → Except RuntimeError Value := intValues (· - ·) "-"

/-- `OpCode::Mul`. -/
def mulValues : Value → Value → Except RuntimeError Value := intValues (· * ·) "*"

/-- `OpCode::Div`, which rounds towards zero. -/
def divValues : Value → Value → Except RuntimeError Value
  | .int a, .int b =>
    if b = 0 then .error .divisionByZero else intValues Int.tdiv "/" (.int a) (.int b)
  | a, b => intValues Int.tdiv "/" a b

/-- `OpCode::Neg`. -/
def negValue : Value → Except RuntimeError Value
  | .int n => checked (-n.toInt) "unary -"
  | v => .error (.typeError "Int" v.typeName "unary -")

/-- The comparisons, on two integers or two strings. -/
def compareValues (onInt : Int64 → Int64 → Bool) (onStr : String → String → Bool)
    (operation : String) : Value → Value → Except RuntimeError Value
  | .int a, .int b => .ok (.bool (onInt a b))
  | .str a, .str b => .ok (.bool (onStr a b))
  | a, _ =>
    .error (.typeError "matching comparable types (Int/Int or Str/Str)" a.typeName operation)

/-- `OpCode::Less`. -/
def lessValues : Value → Value → Except RuntimeError Value :=
  compareValues (fun a b => a < b) (fun a b => a < b) "<"

/-- `OpCode::Greater`. -/
def greaterValues : Value → Value → Except RuntimeError Value :=
  compareValues (fun a b => b < a) (fun a b => b < a) ">"

/-- `OpCode::LessEqual`. -/
def lessEqualValues : Value → Value → Except RuntimeError Value :=
  compareValues (fun a b => a ≤ b) (fun a b => a ≤ b) "<="

/-- `OpCode::GreaterEqual`. -/
def greaterEqualValues : Value → Value → Except RuntimeError Value :=
  compareValues (fun a b => b ≤ a) (fun a b => b ≤ a) ">="

variable (a b : Value)

/-- `OpCode::Equal`. -/
def equalValues : Except RuntimeError Value := .ok (.bool (a == b))

/-- `OpCode::NotEqual`. -/
def notEqualValues : Except RuntimeError Value := .ok (.bool (a != b))

/-- `OpCode::Not`. -/
def notValue (v : Value) : Except RuntimeError Value := .ok (.bool !v.isTruthy)

/-- The tests on two strings, `false` on anything else. -/
def testStrings (test : String → String → Bool) : Value → Value → Except RuntimeError Value
  | .str s, .str p => .ok (.bool (test s p))
  | _, _ => .ok (.bool false)

/-- `OpCode::StartsWith`. -/
def startsWithValues : Value → Value → Except RuntimeError Value := testStrings Text.startsWith

/-- `OpCode::EndsWith`. -/
def endsWithValues : Value → Value → Except RuntimeError Value := testStrings Text.endsWith

/-- `str::contains`. -/
def containsText (s p : String) : Bool := decide (p.toList <:+: s.toList)

/-- `OpCode::Contains`. -/
def containsValues : Value → Value → Except RuntimeError Value := testStrings containsText

/-- `OpCode::ListLen`: zero for what is not a list. -/
def listLen : Value → Except RuntimeError Value
  | .list l => .ok (.int (Int64.ofNat l.names.length))
  | _ => .ok (.int 0)

/-- The element `OpCode::ListGet` pushes. -/
def listElem : Value → Value → Value
  | .list l, .int i =>
    if i.toInt < 0 then .nil
    else match l.names[i.toInt.toNat]? with
      | some s => .str s
      | none => .nil
  | _, _ => .nil

/-- `OpCode::ListGet`. -/
def listGet (l i : Value) : Except RuntimeError Value := .ok (listElem l i)

/-! ## Programs and scripts

The syntax trees of `ast.rs` and the instructions of `bytecode.rs`. Source spans are left out:
neither the compiler nor the machine reads them. So are the version and the source text of a
script, which only its serialized form carries. -/

/-! ### Syntax trees -/

inductive BinOp where
  | add | sub | mul | div | eq | ne | lt | gt | le | ge | and | or
  deriving Repr, DecidableEq

inductive UnaryOp where
  | not | neg
  deriving Repr, DecidableEq

/-- `ExprKind`. -/
inductive Expr where
  | stringLit (s : String)
  | intLit (n : Int64)
  | boolLit (b : Bool)
  | nilLit
  | ident (name : String)
  | binaryOp (op : BinOp) (left right : Expr)
  | unaryOp (op : UnaryOp) (operand : Expr)
  | methodCall (object : Expr) (method : String) (args : List Expr)
  | fnCall (name : String) (args : List Expr)
  | fieldAccess (object : Expr) (field : String)

/-- `StmtKind`. -/
inductive Stmt where
  | letStmt (name : String) («mutable» : Bool) (value : Expr)
  | assign (name : String) (value : Expr)
  | ifStmt (branches : List (Expr × List Stmt)) (elseBody : Option (List Stmt))
  | forIn (varName : String) (iterable : Expr) (body : List Stmt)
  | forRange (varName : String) (start stop : Expr) (body : List Stmt)
  | whileStmt (condition : Expr) (body : List Stmt)
  | returnDeny (status body : Expr)
  | returnNext
  | exprStmt (expr : Expr)

structure Program where
  stmts : List Stmt

/-! ### Bytecode -/

inductive BuiltinId where
  | reqHeader | reqMethod | reqPath | reqQuery | reqQueryString | reqCookie | reqClientIp
  | reqRemoteIp | reqPathParam | reqHeaderNames | reqScheme | reqHost | reqUri | reqContentType
  | reqHasHeader
  | reqSetHeader | reqAppendHeader | reqRemoveHeader | reqSetUri | reqSetHost | reqSetMethod
  | respSetHeader | respAppendHeader | respRemoveHeader
  | ctxGet | ctxSet | ctxRemove
  | log | len | substr | toInt | toStr | toUpper | toLower | base64Encode | base64Decode
  | urlEncode | urlDecode | sha256 | md5 | timeNow | regexFind | regexReplace | range
  deriving Repr, DecidableEq

/-- `OpCode`. Indices and slots are `u16`, jump offsets `i32`; the compiler narrows them. -/
inductive OpCode where
  | loadConst (idx : ℕ)
  | loadNil
  | loadTrue
  | loadFalse
  | pop
  | getLocal (slot : ℕ)
  | setLocal (slot : ℕ)
  | add | sub | mul | div | neg
  | equal | notEqual | less | greater | lessEqual | greaterEqual
  | not
  | startsWith | endsWith | contains
  | matchesRegex (idx : ℕ)
  | jump (offset : ℤ)
  | jumpIfFalse (offset : ℤ)
  | loopBack (offset : ℤ)
  | loopInit
  | loopEnd
  | listGet
  | listLen
  | callBuiltin (id : BuiltinId) (argc : ℕ)
  | returnNext
  | returnDeny
  deriving Repr, DecidableEq

inductive Constant where
  | str (s : String)
  | int (n : Int64)
  | regex (pattern : String)
  deriving Repr, DecidableEq

structure CompiledScript where
  code : List OpCode
  constants : List Constant
  localCount : ℕ
  maxLoopDepth : ℕ

/-- The string constants of a script. -/
def CompiledScript.texts (script : CompiledScript) : List String :=
  script.constants.filterMap fun
    | .str s => some s
    | _ => none

end Edgion.Dsl
