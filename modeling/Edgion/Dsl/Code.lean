import Edgion.Common.Result
import Edgion.Dsl.Compiler

/-!
# What the compiler emits

The code of a program, said without the compiler: `ExprCode`, `StmtCode` and their companions
relate a syntax tree to the instructions it becomes, given the constants of the script, the locals
in scope and the next free slot. Every jump has its final offset there; the patching is behind us
once `compileStmts_code` says that the compiler produces such code.

Positions of a program below `2 ^ 31` are assumed, since offsets are `i32`: the parser refuses a
source of more than 64 KiB.
-/

namespace Edgion.Dsl

open Common List Stmt Nat

/-! ## Sizes -/

/-- How many instructions an operator takes, beside its operands. -/
def BinOp.size : BinOp → ℕ
  | .and => 3
  | .or => 4
  | _ => 1

mutual

/-- **How many instructions an expression becomes.** -/
def Expr.size : Expr → ℕ
  | .stringLit _ | .intLit _ | .boolLit _ | .nilLit | .ident _ => 1
  | .binaryOp op left right => left.size + right.size + op.size
  | .unaryOp _ operand => operand.size + 1
  | .methodCall object method args =>
    if (namespaceCall object method).isSome then argsSize args + 1
    else if (stringMethod method).isSome then object.size + argsSize args + 1
    else object.size + 1
  | .fnCall _ args => argsSize args + 1
  | .fieldAccess _ _ => 1
termination_by structural e => e

/-- The arguments of a call. -/
def argsSize : List Expr → ℕ
  | [] => 0
  | arg :: args => arg.size + argsSize args
termination_by structural args => args

end

mutual

/-- **How many instructions a statement becomes.** -/
def Stmt.size : Stmt → ℕ
  | .letStmt _ _ value | .assign _ value => value.size + 1
  | .ifStmt branches elseBody => branchesSize branches elseBody.isSome + elseSize elseBody
  | .forRange _ start stop body => stop.size + start.size + blockSize body + 13
  | .forIn _ iterable body => iterable.size + blockSize body + 19
  | .whileStmt condition body => condition.size + blockSize body + 4
  | .returnDeny status body => status.size + body.size + 1
  | .returnNext => 1
  | .exprStmt expr => expr.size + 1
termination_by structural s => s

/-- The statements of a body. -/
def blockSize : List Stmt → ℕ
  | [] => 0
  | stmt :: stmts => stmt.size + blockSize stmts
termination_by structural stmts => stmts

/-- The branches of a conditional; all but the last of it end in a jump. -/
def branchesSize : List (Expr × List Stmt) → Bool → ℕ
  | [], _ => 0
  | (condition, body) :: rest, hasElse =>
    condition.size + 1 + blockSize body + (if !rest.isEmpty || hasElse then 1 else 0) +
      branchesSize rest hasElse
termination_by structural branches => branches

/-- The `else` body. -/
def elseSize : Option (List Stmt) → ℕ
  | none => 0
  | some stmts => blockSize stmts
termination_by structural body => body

end

/-- How many instructions a program becomes, its implicit return apart. -/
def Program.size (p : Program) : ℕ := blockSize p.stmts

/-! ## Code -/

/-- The operators that skip their right operand: what tests the left one, and what is pushed in
place of the right one. -/
def BinOp.shortCircuit : BinOp → Option (List OpCode × OpCode)
  | .and => some ([], .loadFalse)
  | .or => some ([.not], .loadTrue)
  | _ => none

/-- The increment of a counter. -/
def incrementCode (slot one : ℕ) : List OpCode :=
  [.getLocal slot, .loadConst one, .add, .setLocal slot]

/-- A loop: the code of its condition, and of what is repeated. -/
def loopCode (head body : List OpCode) : List OpCode :=
  .loopInit :: (head ++ .jumpIfFalse (body.length + 1) ::
    (body ++ [.loopBack (-(head.length + body.length + 2)), .loopEnd]))

mutual

/-- **The code of an expression.** -/
inductive ExprCode (K : List Constant) (Γ : List Local) : Expr → List OpCode → Prop
  | stringLit {s : String} {i : ℕ} : K[i]? = some (.str s) →
      ExprCode K Γ (.stringLit s) [.loadConst i]
  | intLit {n : Int64} {i : ℕ} : K[i]? = some (.int n) → ExprCode K Γ (.intLit n) [.loadConst i]
  | trueLit : ExprCode K Γ (.boolLit true) [.loadTrue]
  | falseLit : ExprCode K Γ (.boolLit false) [.loadFalse]
  | nilLit : ExprCode K Γ .nilLit [.loadNil]
  | ident {name : String} {l : Local} : resolveLocal Γ name = some l →
      ExprCode K Γ (.ident name) [.getLocal l.slot]
  | short {op : BinOp} {test : List OpCode} {skipped : OpCode} {left right : Expr}
      {cl cr : List OpCode} : op.shortCircuit = some (test, skipped) → ExprCode K Γ left cl →
      ExprCode K Γ right cr →
      ExprCode K Γ (.binaryOp op left right)
        (cl ++ (test ++ .jumpIfFalse (cr.length + 1) :: (cr ++ [.jump 1, skipped])))
  | binary {op : BinOp} {opcode : OpCode} {left right : Expr} {cl cr : List OpCode} :
      op.opCode = some opcode → ExprCode K Γ left cl → ExprCode K Γ right cr →
      ExprCode K Γ (.binaryOp op left right) (cl ++ (cr ++ [opcode]))
  | unary {op : UnaryOp} {operand : Expr} {c : List OpCode} : ExprCode K Γ operand c →
      ExprCode K Γ (.unaryOp op operand) (c ++ [op.opCode])
  | call {object : Expr} {method ns : String} {id : BuiltinId} {args : List Expr}
      {c : List OpCode} : namespaceCall object method = some (ns, id) →
      args.length = builtinExpectedArgc id → ArgsCode K Γ args c →
      ExprCode K Γ (.methodCall object method args) (c ++ [.callBuiltin id args.length])
  | strMethod {object : Expr} {method : String} {args : List Expr} {op : OpCode}
      {co ca : List OpCode} : namespaceCall object method = none →
      stringMethod method = some op → args.length = 1 → ExprCode K Γ object co →
      ArgsCode K Γ args ca → ExprCode K Γ (.methodCall object method args) (co ++ (ca ++ [op]))
  | regex {object : Expr} {pattern : String} {i : ℕ} {co : List OpCode} :
      namespaceCall object "matches" = none → K[i]? = some (.regex pattern) →
      ExprCode K Γ object co →
      ExprCode K Γ (.methodCall object "matches" [.stringLit pattern]) (co ++ [.matchesRegex i])
  | fn {name : String} {id : BuiltinId} {args : List Expr} {c : List OpCode} :
      resolveFunction name = some (id, args.length) → ArgsCode K Γ args c →
      ExprCode K Γ (.fnCall name args) (c ++ [.callBuiltin id args.length])
  | field {object : Expr} {field ns : String} {id : BuiltinId} :
      namespaceCall object field = some (ns, id) → builtinExpectedArgc id = 0 →
      ExprCode K Γ (.fieldAccess object field) [.callBuiltin id 0]

/-- The code of the arguments of a call. -/
inductive ArgsCode (K : List Constant) (Γ : List Local) : List Expr → List OpCode → Prop
  | nil : ArgsCode K Γ [] []
  | cons {arg : Expr} {args : List Expr} {c cs : List OpCode} : ExprCode K Γ arg c →
      ArgsCode K Γ args cs → ArgsCode K Γ (arg :: args) (c ++ cs)

end

mutual

/-- **The code of a statement**, from the locals in scope and the next free slot to those after
it. -/
inductive StmtCode (K : List Constant) :
    List Local → ℕ → Stmt → List OpCode → List Local → ℕ → Prop
  | letStmt {Γ : List Local} {n depth : ℕ} {name : String} {m : Bool} {value : Expr}
      {c : List OpCode} : ExprCode K Γ value c →
      StmtCode K Γ n (.letStmt name m value) (c ++ [.setLocal n]) (⟨name, n, m, depth⟩ :: Γ) (n + 1)
  | assign {Γ : List Local} {n : ℕ} {name : String} {l : Local} {value : Expr}
      {c : List OpCode} : resolveLocal Γ name = some l → l.mutable = true →
      ExprCode K Γ value c → StmtCode K Γ n (.assign name value) (c ++ [.setLocal l.slot]) Γ n
  | ifStmt {Γ : List Local} {n n₁ n' : ℕ} {branches : List (Expr × List Stmt)}
      {elseBody : Option (List Stmt)} {ce c : List OpCode} :
      BranchesCode K Γ n branches elseBody.isSome ce c n₁ → ElseCode K Γ n₁ elseBody ce n' →
      StmtCode K Γ n (.ifStmt branches elseBody) c Γ n'
  | forRange {Γ Γ' : List Local} {n n' depth one : ℕ} {x : String} {start stop : Expr}
      {body : List Stmt} {ce cs cb : List OpCode} : ExprCode K Γ stop ce →
      ExprCode K (⟨"__range_end__", n, false, depth⟩ :: Γ) start cs → K[one]? = some (.int 1) →
      BlockCode K (⟨x, n + 1, false, depth⟩ :: ⟨"__range_end__", n, false, depth⟩ :: Γ) (n + 2)
        body cb Γ' n' →
      StmtCode K Γ n (.forRange x start stop body) (ce ++ .setLocal n :: (cs ++ .setLocal (n + 1) ::
          loopCode [.getLocal (n + 1), .getLocal n, .less] (cb ++ incrementCode (n + 1) one)))
        Γ n'
  | forIn {Γ Γ' : List Local} {n n' depth zeroIdx one : ℕ} {x : String} {iterable : Expr}
      {body : List Stmt} {ci cb : List OpCode} : ExprCode K Γ iterable ci →
      K[zeroIdx]? = some (.int 0) → K[one]? = some (.int 1) →
      BlockCode K (⟨x, n + 2, false, depth⟩ :: ⟨"__idx__", n + 1, true, depth⟩ ::
        ⟨"__list__", n, false, depth⟩ :: Γ) (n + 3) body cb Γ' n' →
      StmtCode K Γ n (.forIn x iterable body)
        (ci ++ .setLocal n :: .loadConst zeroIdx :: .setLocal (n + 1) ::
          loopCode [.getLocal (n + 1), .getLocal n, .listLen, .less]
            (.getLocal n :: .getLocal (n + 1) :: .listGet :: .setLocal (n + 2) ::
              (cb ++ incrementCode (n + 1) one)))
        Γ n'
  | whileStmt {Γ Γ' : List Local} {n n' : ℕ} {condition : Expr} {body : List Stmt}
      {cc cb : List OpCode} : ExprCode K Γ condition cc → BlockCode K Γ n body cb Γ' n' →
      StmtCode K Γ n (.whileStmt condition body) (loopCode cc cb) Γ n'
  | returnDeny {Γ : List Local} {n : ℕ} {status body : Expr} {cs cb : List OpCode} :
      ExprCode K Γ status cs → ExprCode K Γ body cb →
      StmtCode K Γ n (.returnDeny status body) (cs ++ (cb ++ [.returnDeny])) Γ n
  | returnNext {Γ : List Local} {n : ℕ} : StmtCode K Γ n .returnNext [.returnNext] Γ n
  | exprStmt {Γ : List Local} {n : ℕ} {expr : Expr} {c : List OpCode} : ExprCode K Γ expr c →
      StmtCode K Γ n (.exprStmt expr) (c ++ [.pop]) Γ n

/-- The code of the statements of a body. -/
inductive BlockCode (K : List Constant) :
    List Local → ℕ → List Stmt → List OpCode → List Local → ℕ → Prop
  | nil {Γ : List Local} {n : ℕ} : BlockCode K Γ n [] [] Γ n
  | cons {Γ Γ₁ Γ₂ : List Local} {n n₁ n₂ : ℕ} {stmt : Stmt} {stmts : List Stmt}
      {c cs : List OpCode} : StmtCode K Γ n stmt c Γ₁ n₁ → BlockCode K Γ₁ n₁ stmts cs Γ₂ n₂ →
      BlockCode K Γ n (stmt :: stmts) (c ++ cs) Γ₂ n₂

/-- The code of the branches of a conditional in front of the code of its `else` body. A branch with
nothing behind it ends without a jump. -/
inductive BranchesCode (K : List Constant) :
    List Local → ℕ → List (Expr × List Stmt) → Bool → List OpCode → List OpCode → ℕ → Prop
  | nil {Γ : List Local} {n : ℕ} {hasElse : Bool} {ce : List OpCode} :
      BranchesCode K Γ n [] hasElse ce ce n
  | last {Γ Γ' : List Local} {n n' : ℕ} {condition : Expr} {body : List Stmt}
      {cc cb : List OpCode} : ExprCode K Γ condition cc → BlockCode K Γ n body cb Γ' n' →
      BranchesCode K Γ n [(condition, body)] false [] (cc ++ .jumpIfFalse cb.length :: cb) n'
  | branch {Γ Γ' : List Local} {n n₁ n₂ : ℕ} {condition : Expr} {body : List Stmt}
      {rest : List (Expr × List Stmt)} {hasElse : Bool} {ce cc cb cr : List OpCode} :
      ExprCode K Γ condition cc → BlockCode K Γ n body cb Γ' n₁ →
      BranchesCode K Γ n₁ rest hasElse ce cr n₂ → (!rest.isEmpty || hasElse) = true →
      BranchesCode K Γ n ((condition, body) :: rest) hasElse ce
        (cc ++ .jumpIfFalse (cb.length + 1) :: (cb ++ .jump cr.length :: cr)) n₂

/-- The code of an `else` body. -/
inductive ElseCode (K : List Constant) :
    List Local → ℕ → Option (List Stmt) → List OpCode → ℕ → Prop
  | none {Γ : List Local} {n : ℕ} : ElseCode K Γ n none [] n
  | some {Γ Γ' : List Local} {n n' : ℕ} {body : List Stmt} {c : List OpCode} :
      BlockCode K Γ n body c Γ' n' → ElseCode K Γ n (some body) c n'

end

/-! ## Lengths -/

variable {K : List Constant} {Γ : List Local} {c : List OpCode}

theorem BinOp.size_of_opCode {op : BinOp} {opcode : OpCode} (h : op.opCode = some opcode) :
    op.size = 1 := by
  cases op <;> first | rfl | cases h

theorem BinOp.size_of_shortCircuit {op : BinOp} {test : List OpCode} {skipped : OpCode}
    (h : op.shortCircuit = some (test, skipped)) : op.size = test.length + 3 := by
  cases op <;> cases h <;> rfl

mutual

/-- **The code of an expression is as long as its size says.** -/
theorem ExprCode.length_eq : ∀ {e : Expr} {c : List OpCode}, ExprCode K Γ e c → c.length = e.size
  | .stringLit _, _, h | .intLit _, _, h | .nilLit, _, h | .ident _, _, h => by
    cases h
    rfl
  | .boolLit _, _, h => by cases h <;> rfl
  | .binaryOp op left right, _, h => by
    rw [Expr.size]
    cases h with
    | short hop hl hr =>
      have := BinOp.size_of_shortCircuit hop
      have := hl.length_eq
      have := hr.length_eq
      simp only [length_append, length_cons, length_nil]
      omega
    | binary hop hl hr =>
      have := BinOp.size_of_opCode hop
      have := hl.length_eq
      have := hr.length_eq
      simp only [length_append, length_cons, length_nil]
      omega
  | .unaryOp op operand, _, h => by
    cases h with
    | unary hc => simp [Expr.size, hc.length_eq]
  | .methodCall object method args, _, h => by
    rw [Expr.size]
    cases h with
    | call hns _ hargs => simp [hns, hargs.length_eq]
    | strMethod hns hm _ ho hargs =>
      simp only [hns, hm, ho.length_eq, hargs.length_eq, length_append]
      simp [add_assoc]
    | regex hns _ ho => simp [hns, stringMethod, ho.length_eq]
  | .fnCall name args, _, h => by
    cases h with
    | fn _ hargs => simp [Expr.size, hargs.length_eq]
  | .fieldAccess object field, _, h => by
    cases h
    rfl
termination_by structural e => e

theorem ArgsCode.length_eq :
    ∀ {args : List Expr} {c : List OpCode}, ArgsCode K Γ args c → c.length = argsSize args
  | [], _, h => by
    cases h
    rfl
  | arg :: args, _, h => by
    cases h with
    | cons harg hargs => simp [argsSize, harg.length_eq, hargs.length_eq]
termination_by structural args => args

end

theorem length_loopCode (head body : List OpCode) :
    (loopCode head body).length = head.length + body.length + 4 := by
  simp only [loopCode, length_cons, length_append, length_nil]
  omega

mutual

theorem StmtCode.length_eq : ∀ {s : Stmt} {Γ Γ' : List Local} {n n' : ℕ} {c : List OpCode},
    StmtCode K Γ n s c Γ' n' → c.length = s.size
  | .letStmt name m value, _, _, _, _, _, h => by
    cases h with
    | letStmt hc => simp [Stmt.size, hc.length_eq]
  | .assign name value, _, _, _, _, _, h => by
    cases h with
    | assign _ _ hc => simp [Stmt.size, hc.length_eq]
  | .ifStmt branches elseBody, _, _, _, _, _, h => by
    cases h with
    | ifStmt hb he => rw [hb.length_eq, he.length_eq, Stmt.size]
  | .forRange x start stop body, _, _, _, _, _, h => by
    cases h with
    | forRange hstop hstart _ hbody =>
      simp only [length_append, length_cons, length_loopCode, incrementCode,
        hstop.length_eq, hstart.length_eq, hbody.length_eq, Stmt.size, length_nil]
      omega
  | .forIn x iterable body, _, _, _, _, _, h => by
    cases h with
    | forIn hiter _ _ hbody =>
      simp only [length_append, length_cons, length_loopCode, incrementCode,
        hiter.length_eq, hbody.length_eq, Stmt.size, length_nil]
      omega
  | .whileStmt condition body, _, _, _, _, _, h => by
    cases h with
    | whileStmt hcond hbody =>
      rw [length_loopCode, hcond.length_eq, hbody.length_eq, Stmt.size]
  | .returnDeny status body, _, _, _, _, _, h => by
    cases h with
    | returnDeny hs hb => simp [Stmt.size, hs.length_eq, hb.length_eq, add_assoc]
  | .returnNext, _, _, _, _, _, h => by
    cases h
    rfl
  | .exprStmt expr, _, _, _, _, _, h => by
    cases h with
    | exprStmt hc => simp [Stmt.size, hc.length_eq]
termination_by structural s => s

theorem BlockCode.length_eq : ∀ {stmts : List Stmt} {Γ Γ' : List Local} {n n' : ℕ}
    {c : List OpCode}, BlockCode K Γ n stmts c Γ' n' → c.length = blockSize stmts
  | [], _, _, _, _, _, h => by
    cases h
    rfl
  | stmt :: stmts, _, _, _, _, _, h => by
    cases h with
    | cons hs hss => simp [blockSize, hs.length_eq, hss.length_eq]
termination_by structural stmts => stmts

theorem BranchesCode.length_eq : ∀ {branches : List (Expr × List Stmt)} {hasElse : Bool}
    {Γ : List Local} {n n' : ℕ} {ce c : List OpCode},
    BranchesCode K Γ n branches hasElse ce c n' →
    c.length = branchesSize branches hasElse + ce.length
  | [], _, _, _, _, _, _, h => by
    cases h
    simp [branchesSize]
  | (condition, body) :: rest, hasElse, _, _, _, _, _, h => by
    cases h with
    | last hc hb =>
      simp only [length_append, length_cons, hc.length_eq, hb.length_eq, branchesSize]
      simp only [isEmpty_nil, Bool.not_true, Bool.or_self, length_nil]
      simp
      omega
    | branch hc hb hr hmore =>
      simp only [length_append, length_cons, hc.length_eq, hb.length_eq, hr.length_eq,
        branchesSize, hmore, if_true]
      omega
termination_by structural branches => branches

theorem ElseCode.length_eq : ∀ {elseBody : Option (List Stmt)} {Γ : List Local} {n n' : ℕ}
    {c : List OpCode}, ElseCode K Γ n elseBody c n' → c.length = elseSize elseBody
  | none, _, _, _, _, h => by
    cases h
    rfl
  | some body, _, _, _, _, h => by
    cases h with
    | some hb => rw [hb.length_eq, elseSize]
termination_by structural elseBody => elseBody

end

/-! ## Scopes -/

/-- **The slots of the locals in scope are all different**: they fall from the next free one on, the
newest local first. -/
def Fits (Γ : List Local) (n : ℕ) : Prop := (n :: Γ.map Local.slot).Pairwise (· > ·)

namespace Fits

theorem slot_lt (h : Fits Γ n) {l : Local} (hl : l ∈ Γ) : l.slot < n :=
  (pairwise_cons.1 h).1 _ (mem_map_of_mem hl)

theorem mono (h : Fits Γ n) (hn : n ≤ n') : Fits Γ n' :=
  pairwise_cons.2 ⟨fun slot hs => lt_of_lt_of_le ((pairwise_cons.1 h).1 slot hs) hn,
    (pairwise_cons.1 h).2⟩

theorem declare (h : Fits Γ n) (name : String) (m : Bool) (depth : ℕ) :
    Fits (⟨name, n, m, depth⟩ :: Γ) (n + 1) := by
  refine pairwise_cons.2 ⟨fun slot hs => ?_, h⟩
  rcases mem_cons.1 hs with rfl | hs
  · exact lt_succ_self _
  · exact lt_succ_of_lt ((pairwise_cons.1 h).1 slot hs)

end Fits

/-- What a statement does to the scope: locals are added in front, with new slots. -/
structure Extends (Γ : List Local) (n : ℕ) (Γ' : List Local) (n' : ℕ) : Prop where
  suffix : Γ <:+ Γ'
  le : n ≤ n'
  fits : Fits Γ n → Fits Γ' n'

namespace Extends

theorem of_le (h : n ≤ n') : Extends Γ n Γ n' := ⟨suffix_rfl, h, fun hf => hf.mono h⟩

theorem trans {Γ₁ : List Local} {n₁ : ℕ} (h : Extends Γ n Γ₁ n₁) (h' : Extends Γ₁ n₁ Γ' n') :
    Extends Γ n Γ' n' :=
  ⟨h.suffix.trans h'.suffix, h.le.trans h'.le, fun hf => h'.fits (h.fits hf)⟩

theorem declare (name : String) (m : Bool) (depth : ℕ) :
    Extends Γ n (⟨name, n, m, depth⟩ :: Γ) (n + 1) :=
  ⟨suffix_cons _ _, le_succ n, fun hf => hf.declare name m depth⟩

end Extends

mutual

/-- **A statement only adds to the scope.** -/
theorem StmtCode.scope : ∀ {s : Stmt} {Γ Γ' : List Local} {n n' : ℕ} {c : List OpCode},
    StmtCode K Γ n s c Γ' n' → Extends Γ n Γ' n'
  | .letStmt _ _ _, _, _, _, _, _, h => by
    cases h
    exact .declare ..
  | .assign _ _, _, _, _, _, _, h | .returnDeny _ _, _, _, _, _, _, h
  | .returnNext, _, _, _, _, _, h | .exprStmt _, _, _, _, _, _, h => by
    cases h
    exact .of_le le_rfl
  | .ifStmt branches elseBody, _, _, _, _, _, h => by
    cases h with
    | ifStmt hb he => exact .of_le (hb.slots_le.trans he.slots_le)
  | .forRange x start stop body, _, _, _, _, _, h => by
    cases h with
    | forRange _ _ _ hbody => exact .of_le (by have := hbody.scope.le; omega)
  | .forIn x iterable body, _, _, _, _, _, h => by
    cases h with
    | forIn _ _ _ hbody => exact .of_le (by have := hbody.scope.le; omega)
  | .whileStmt condition body, _, _, _, _, _, h => by
    cases h with
    | whileStmt _ hbody => exact .of_le hbody.scope.le
termination_by structural s => s

theorem BlockCode.scope : ∀ {stmts : List Stmt} {Γ Γ' : List Local} {n n' : ℕ}
    {c : List OpCode}, BlockCode K Γ n stmts c Γ' n' → Extends Γ n Γ' n'
  | [], _, _, _, _, _, h => by
    cases h
    exact .of_le le_rfl
  | stmt :: stmts, _, _, _, _, _, h => by
    cases h with
    | cons hs hss => exact hs.scope.trans hss.scope
termination_by structural stmts => stmts

theorem BranchesCode.slots_le : ∀ {branches : List (Expr × List Stmt)} {hasElse : Bool}
    {Γ : List Local} {n n' : ℕ} {ce c : List OpCode},
    BranchesCode K Γ n branches hasElse ce c n' → n ≤ n'
  | [], _, _, _, _, _, _, h => by
    cases h
    exact le_rfl
  | (condition, body) :: rest, hasElse, _, _, _, _, _, h => by
    cases h with
    | last _ hb => exact hb.scope.le
    | branch _ hb hr _ => exact hb.scope.le.trans hr.slots_le
termination_by structural branches => branches

theorem ElseCode.slots_le : ∀ {elseBody : Option (List Stmt)} {Γ : List Local} {n n' : ℕ}
    {c : List OpCode}, ElseCode K Γ n elseBody c n' → n ≤ n'
  | none, _, _, _, _, h => by
    cases h
    exact le_rfl
  | some body, _, _, _, _, h => by
    cases h with
    | some hb => exact hb.scope.le
termination_by structural elseBody => elseBody

end

theorem StmtCode.added {s : Stmt} (h : StmtCode K Γ n s c Γ' n') :
    ∀ l ∈ Γ', l ∈ Γ ∨ n ≤ l.slot := by
  intro l hl
  cases h with
  | letStmt _ =>
    rcases mem_cons.1 hl with rfl | hl
    · exact .inr le_rfl
    · exact .inl hl
  | _ => exact .inl hl

theorem BlockCode.added {stmts : List Stmt} (h : BlockCode K Γ n stmts c Γ' n') :
    ∀ l ∈ Γ', l ∈ Γ ∨ n ≤ l.slot := by
  induction stmts generalizing Γ n c with
  | nil =>
    cases h
    exact fun l hl => .inl hl
  | cons stmt stmts ih =>
    cases h with
    | cons hs hss =>
      intro l hl
      rcases ih hss l hl with hl | hle
      · exact hs.added l hl
      · exact .inr (hs.scope.le.trans hle)

end Edgion.Dsl
