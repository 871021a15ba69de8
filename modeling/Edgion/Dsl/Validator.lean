import Edgion.Dsl.Compiler
import Mathlib.Algebra.Ring.Nat

/-!
# The validator

`validator.rs`. The checks of `Validator::validate`, in their order. An error is kept as what it
reports; `message` is the text of the source. `isSize` tells the errors about a configured size
from those about the structure of a script.
-/

namespace Edgion.Dsl

structure ValidationLimits where
  maxInstructions : ℕ
  maxLocals : ℕ
  maxConstants : ℕ
  maxStringConstLen : ℕ
  maxConstPoolBytes : ℕ
  maxLoopDepth : ℕ

/-- `ValidationError`, by what it is about; `i` is the index of a constant or an instruction. -/
inductive ValidationError where
  | tooManyInstructions (count max : ℕ)
  | tooManyLocals (count max : ℕ)
  | tooManyConstants (count max : ℕ)
  | stringTooLong (i len max : ℕ)
  | regexTooLong (i len : ℕ)
  | invalidRegex (i : ℕ) (pattern error : String)
  | poolTooLarge (bytes max : ℕ)
  | loadConstIndex (i idx count : ℕ)
  | matchesIndex (i idx count : ℕ)
  | matchesNotRegex (i idx : ℕ)
  | argCount (id : BuiltinId) (i expected argc : ℕ)
  | jumpTarget (i : ℕ) (target : ℤ) (len : ℕ)
  | localSlot (i slot count : ℕ)
  | loopEnd (i : ℕ)
  | loopBack (i : ℕ)
  | unbalanced (depth : ℤ)
  | loopNesting (depth max : ℕ)
  deriving Repr, DecidableEq

/-- The errors about a configured size. -/
def ValidationError.isSize : ValidationError → Bool
  | .tooManyInstructions _ _ | .tooManyLocals _ _ | .tooManyConstants _ _
  | .stringTooLong _ _ _ | .poolTooLarge _ _ | .loopNesting _ _ => true
  | _ => false

/-- The `Debug` text of a `BuiltinId`: the name of its variant. -/
def BuiltinId.debug : BuiltinId → String
  | .reqHeader => "ReqHeader" | .reqMethod => "ReqMethod" | .reqPath => "ReqPath"
  | .reqQuery => "ReqQuery" | .reqQueryString => "ReqQueryString" | .reqCookie => "ReqCookie"
  | .reqClientIp => "ReqClientIp" | .reqRemoteIp => "ReqRemoteIp"
  | .reqPathParam => "ReqPathParam" | .reqHeaderNames => "ReqHeaderNames"
  | .reqScheme => "ReqScheme" | .reqHost => "ReqHost" | .reqUri => "ReqUri"
  | .reqContentType => "ReqContentType" | .reqHasHeader => "ReqHasHeader"
  | .reqSetHeader => "ReqSetHeader" | .reqAppendHeader => "ReqAppendHeader"
  | .reqRemoveHeader => "ReqRemoveHeader" | .reqSetUri => "ReqSetUri"
  | .reqSetHost => "ReqSetHost" | .reqSetMethod => "ReqSetMethod"
  | .respSetHeader => "RespSetHeader" | .respAppendHeader => "RespAppendHeader"
  | .respRemoveHeader => "RespRemoveHeader"
  | .ctxGet => "CtxGet" | .ctxSet => "CtxSet" | .ctxRemove => "CtxRemove"
  | .log => "Log" | .len => "Len" | .substr => "Substr" | .toInt => "ToInt" | .toStr => "ToStr"
  | .toUpper => "ToUpper" | .toLower => "ToLower" | .base64Encode => "Base64Encode"
  | .base64Decode => "Base64Decode" | .urlEncode => "UrlEncode" | .urlDecode => "UrlDecode"
  | .sha256 => "Sha256" | .md5 => "Md5" | .timeNow => "TimeNow" | .regexFind => "RegexFind"
  | .regexReplace => "RegexReplace" | .range => "Range"

/-- The text of an error. -/
def ValidationError.message : ValidationError → String
  | .tooManyInstructions count max =>
    "too many instructions: " ++ toString count ++ " (max " ++ toString max ++ ")"
  | .tooManyLocals count max =>
    "too many local variables: " ++ toString count ++ " (max " ++ toString max ++ ")"
  | .tooManyConstants count max =>
    "too many constants: " ++ toString count ++ " (max " ++ toString max ++ ")"
  | .stringTooLong i len max =>
    "string constant[" ++ toString i ++ "] too long: " ++ toString len ++ " bytes (max " ++
      toString max ++ ")"
  | .regexTooLong i len =>
    "regex constant[" ++ toString i ++ "] too long: " ++ toString len ++ " bytes (max " ++
      toString maxRegexPatternLen ++ ")"
  | .invalidRegex i pattern error =>
    "invalid regex constant[" ++ toString i ++ "] '" ++ pattern ++ "': " ++ error
  | .poolTooLarge bytes max =>
    "constant pool too large: " ++ toString bytes ++ " bytes (max " ++ toString max ++ ")"
  | .loadConstIndex i idx count =>
    "LoadConst at instruction " ++ toString i ++ " references constant " ++ toString idx ++
      " but pool size is " ++ toString count
  | .matchesIndex i idx count =>
    "Matches at instruction " ++ toString i ++ " references constant " ++ toString idx ++
      " but pool size is " ++ toString count
  | .matchesNotRegex i idx =>
    "Matches at instruction " ++ toString i ++ " references constant " ++ toString idx ++
      " which is not a Regex"
  | .argCount id i expected argc =>
    "CallBuiltin " ++ id.debug ++ " at instruction " ++ toString i ++ " expects " ++
      toString expected ++ " arg(s), bytecode says " ++ toString argc
  | .jumpTarget i target len =>
    "jump at instruction " ++ toString i ++ " targets out of bounds: " ++ toString target ++
      " (code length: " ++ toString len ++ ")"
  | .localSlot i slot count =>
    "instruction " ++ toString i ++ " references local slot " ++ toString slot ++ " but only " ++
      toString count ++ " locals declared"
  | .loopEnd i => "LoopEnd at instruction " ++ toString i ++ " without matching LoopInit"
  | .loopBack i => "LoopBack at instruction " ++ toString i ++ " without active LoopInit"
  | .unbalanced depth =>
    "unbalanced LoopInit/LoopEnd: " ++ toString depth ++ " LoopInit(s) without matching LoopEnd"
  | .loopNesting depth max =>
    "loop nesting too deep: " ++ toString depth ++ " (max " ++ toString max ++ ")"

/-- An error where the condition holds. -/
def reportIf (bad : Bool) (e : ValidationError) : List ValidationError := if bad then [e] else []

/-! ## The checks -/

/-- The bytes a constant counts for. -/
def Constant.bytes : Constant → ℕ
  | .str s => Text.len s
  | .int _ => 8
  | .regex pattern => Text.len pattern

/-- Checks 4 and 5, of the constant at `i`. -/
def constantErrors (lib : Lib) (maxStringConstLen : ℕ) (i : ℕ) : Constant → List ValidationError
  | .str s =>
    reportIf (decide (maxStringConstLen < Text.len s))
      (.stringTooLong i (Text.len s) maxStringConstLen)
  | .int _ => []
  | .regex pattern =>
    reportIf (decide (maxRegexPatternLen < Text.len pattern)) (.regexTooLong i (Text.len pattern)) ++
      match lib.regexError pattern with
      | some e => [.invalidRegex i pattern e]
      | none => []

/-- Check 6b, of the instruction at `i`. -/
def indexErrors (constants : List Constant) (i : ℕ) : OpCode → List ValidationError
  | .loadConst idx =>
    reportIf (decide (constants.length ≤ idx)) (.loadConstIndex i idx constants.length)
  | .matchesRegex idx =>
    match constants[idx]? with
    | none => [.matchesIndex i idx constants.length]
    | some (.regex _) => []
    | some _ => [.matchesNotRegex i idx]
  | _ => []

/-- Check 6c. -/
def argCountErrors (i : ℕ) : OpCode → List ValidationError
  | .callBuiltin id argc =>
    reportIf (argc != builtinExpectedArgc id) (.argCount id i (builtinExpectedArgc id) argc)
  | _ => []

/-- The offset of an instruction that jumps. -/
def OpCode.offset : OpCode → Option ℤ
  | .jump offset | .jumpIfFalse offset | .loopBack offset => some offset
  | _ => none

/-- Check 7. -/
def jumpErrors (codeLen : ℕ) (i : ℕ) (op : OpCode) : List ValidationError :=
  match op.offset with
  | some offset =>
    let target : ℤ := i + 1 + offset
    reportIf (decide (target < 0) || decide (codeLen < target.toNat)) (.jumpTarget i target codeLen)
  | none => []

/-- Check 8. -/
def slotErrors (localCount : ℕ) (i : ℕ) : OpCode → List ValidationError
  | .getLocal slot | .setLocal slot =>
    reportIf (decide (localCount ≤ slot)) (.localSlot i slot localCount)
  | _ => []

/-- Check 9: the loop over the code from the instruction at `i` on. -/
def loopErrors (depth : ℤ) (i : ℕ) : List OpCode → List ValidationError
  | [] => reportIf (depth != 0) (.unbalanced depth)
  | .loopInit :: ops => loopErrors (depth + 1) (i + 1) ops
  | .loopEnd :: ops =>
    reportIf (decide (depth - 1 < 0)) (.loopEnd i) ++ loopErrors (depth - 1) (i + 1) ops
  | .loopBack _ :: ops =>
    reportIf (decide (depth ≤ 0)) (.loopBack i) ++ loopErrors depth (i + 1) ops
  | _ :: ops => loopErrors depth (i + 1) ops

/-- A check of every element of a list, with its index. -/
def checkEach {α : Type} (check : ℕ → α → List ValidationError) (xs : List α) :
    List ValidationError :=
  xs.zipIdx.flatMap fun (x, i) => check i x

def validate (lib : Lib) (limits : ValidationLimits) (script : CompiledScript) :
    List ValidationError :=
  let bytes := (script.constants.map Constant.bytes).sum
  reportIf (decide (limits.maxInstructions < script.code.length))
      (.tooManyInstructions script.code.length limits.maxInstructions) ++
    reportIf (decide (limits.maxLocals < script.localCount))
      (.tooManyLocals script.localCount limits.maxLocals) ++
    reportIf (decide (limits.maxConstants < script.constants.length))
      (.tooManyConstants script.constants.length limits.maxConstants) ++
    checkEach (constantErrors lib limits.maxStringConstLen) script.constants ++
    reportIf (decide (limits.maxConstPoolBytes < bytes))
      (.poolTooLarge bytes limits.maxConstPoolBytes) ++
    checkEach (indexErrors script.constants) script.code ++
    checkEach argCountErrors script.code ++
    checkEach (jumpErrors script.code.length) script.code ++
    checkEach (slotErrors script.localCount) script.code ++
    loopErrors 0 0 script.code ++
    reportIf (decide (limits.maxLoopDepth < script.maxLoopDepth))
      (.loopNesting script.maxLoopDepth limits.maxLoopDepth)

end Edgion.Dsl
