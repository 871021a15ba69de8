import Edgion.Dsl.Machine

/-!
# Variables in slots, and expressions

The machine keeps the variables of a program in slots. `envOf` reads them back by name, innermost
first, without the locals the compiler makes for its loops. The code of an expression follows the
evaluation of the expression, and leaves the slots alone.
-/

namespace Edgion.Dsl

open Common List Machine Nat

/-! ## Names -/

/-- The names the compiler gives the locals of its own. -/
def hiddenNames : List String := ["__range_end__", "__list__", "__idx__"]

mutual

/-- The identifiers of an expression. -/
def Expr.names : Expr → List String
  | .ident name => [name]
  | .binaryOp _ left right => left.names ++ right.names
  | .unaryOp _ operand => operand.names
  | .methodCall object _ args => object.names ++ argsNames args
  | .fnCall _ args => argsNames args
  | .fieldAccess object _ => object.names
  | _ => []
termination_by structural e => e

def argsNames : List Expr → List String
  | [] => []
  | arg :: args => arg.names ++ argsNames args
termination_by structural args => args

end

mutual

/-- The identifiers of a statement. -/
def Stmt.names : Stmt → List String
  | .letStmt name _ value | .assign name value => name :: value.names
  | .ifStmt branches elseBody => branchesNames branches ++ elseNames elseBody
  | .forRange x start stop body => x :: (start.names ++ (stop.names ++ blockNames body))
  | .forIn x iterable body => x :: (iterable.names ++ blockNames body)
  | .whileStmt condition body => condition.names ++ blockNames body
  | .returnDeny status body => status.names ++ body.names
  | .returnNext => []
  | .exprStmt expr => expr.names
termination_by structural s => s

def blockNames : List Stmt → List String
  | [] => []
  | stmt :: stmts => stmt.names ++ blockNames stmts
termination_by structural stmts => stmts

def branchesNames : List (Expr × List Stmt) → List String
  | [] => []
  | (condition, body) :: rest => condition.names ++ (blockNames body ++ branchesNames rest)
termination_by structural branches => branches

def elseNames : Option (List Stmt) → List String
  | none => []
  | some stmts => blockNames stmts
termination_by structural body => body

end

/-- The identifiers of a program. -/
def Program.names (p : Program) : List String := blockNames p.stmts

/-- None of the names is one the compiler uses itself. -/
def Clear (names : List String) : Prop := ∀ x ∈ names, x ∉ hiddenNames

instance (names : List String) : Decidable (Clear names) :=
  inferInstanceAs (Decidable (∀ x ∈ names, x ∉ hiddenNames))

theorem clear_append {xs ys : List String} : Clear (xs ++ ys) ↔ Clear xs ∧ Clear ys :=
  forall_mem_append

theorem clear_cons {x : String} {xs : List String} : Clear (x :: xs) ↔ x ∉ hiddenNames ∧ Clear xs :=
  forall_mem_cons

/-! ## Variables in slots -/

/-- A variable of the program. -/
def Local.visible (l : Local) : Bool := decide (l.name ∉ hiddenNames)

/-- **The variables of the program**, with their values. -/
def envOf (Γ : List Local) (L : List Value) : Env :=
  (Γ.filter Local.visible).map fun l => (l.name, L.getD l.slot .nil)

variable {Γ Γ' : List Local} {L L' : List Value} {n : ℕ} {l : Local} {v : Value}

theorem envOf_cons_of_visible (hl : l.name ∉ hiddenNames) :
    envOf (l :: Γ) L = (l.name, L.getD l.slot .nil) :: envOf Γ L := by
  have hvis : l.visible = true := decide_eq_true hl
  rw [envOf, filter_cons, if_pos hvis]
  rfl

theorem envOf_cons_of_hidden (hl : l.name ∈ hiddenNames) : envOf (l :: Γ) L = envOf Γ L := by
  have hvis : ¬ l.visible := by simpa [Local.visible] using hl
  rw [envOf, filter_cons, if_neg hvis]
  rfl

variable {name : String}

theorem lookup_envOf (hname : name ∉ hiddenNames)
    (hl : resolveLocal Γ name = some l) : (envOf Γ L).lookup name = some (L.getD l.slot .nil) := by
  induction Γ with
  | nil => cases hl
  | cons l' Γ ih =>
    rw [resolveLocal, find?_cons] at hl
    by_cases heq : l'.name = name
    · -- the innermost local of the name is a variable
      rw [show (l'.name == name) = true from beq_iff_eq.2 heq] at hl
      cases hl
      rw [envOf_cons_of_visible (heq ▸ hname), lookup_cons,
        show (name == l.name) = true from beq_iff_eq.2 heq.symm]
    · rw [show (l'.name == name) = false from beq_eq_false_iff_ne.2 heq] at hl
      by_cases hhidden : l'.name ∈ hiddenNames
      · rw [envOf_cons_of_hidden hhidden]
        exact ih hl
      · rw [envOf_cons_of_visible hhidden, lookup_cons,
          show (name == l'.name) = false from beq_eq_false_iff_ne.2 (Ne.symm heq)]
        exact ih hl

/-- A slot no local has may change. -/
theorem envOf_congr (h : ∀ l ∈ Γ, L'.getD l.slot .nil = L.getD l.slot .nil) :
    envOf Γ L' = envOf Γ L := by
  refine map_congr_left fun l hl => ?_
  rw [h l (mem_filter.1 hl).1]

theorem getD_set_ne {slot slot' : ℕ} (h : slot ≠ slot') :
    (L.set slot v).getD slot' .nil = L.getD slot' .nil := by
  rw [getD_eq_getElem?_getD, getElem?_set_ne h, ← getD_eq_getElem?_getD]

theorem getD_set_self {slot : ℕ} (h : slot < L.length) : (L.set slot v).getD slot .nil = v := by
  rw [getD_eq_getElem?_getD, getElem?_set_self h]
  rfl

/-- A slot above the locals is free. -/
theorem Fits.envOf_set (h : Fits Γ n) {slot : ℕ} (hslot : n ≤ slot) :
    envOf Γ (L.set slot v) = envOf Γ L :=
  envOf_congr fun _ hl => getD_set_ne ((h.slot_lt hl).trans_le hslot).ne'

/-- **An assignment to a variable** is one to its slot. -/
theorem envOf_assign (hname : name ∉ hiddenNames)
    (hl : resolveLocal Γ name = some l) (hfits : Fits Γ n) (hslot : l.slot < L.length) :
    envOf Γ (L.set l.slot v) = (envOf Γ L).assign name v := by
  induction Γ generalizing n with
  | nil => cases hl
  | cons l' Γ ih =>
    have hfits' : Fits Γ l'.slot := (pairwise_cons.1 hfits).2
    rw [resolveLocal, find?_cons] at hl
    by_cases heq : l'.name = name
    · rw [show (l'.name == name) = true from beq_iff_eq.2 heq] at hl
      cases hl
      rw [envOf_cons_of_visible (heq ▸ hname), envOf_cons_of_visible (heq ▸ hname), Env.assign,
        if_pos heq, getD_set_self hslot, hfits'.envOf_set le_rfl]
    · rw [show (l'.name == name) = false from beq_eq_false_iff_ne.2 heq] at hl
      have hlt := hfits'.slot_lt (mem_of_find?_eq_some hl)
      by_cases hhidden : l'.name ∈ hiddenNames
      · rw [envOf_cons_of_hidden hhidden, envOf_cons_of_hidden hhidden]
        exact ih hl hfits'
      · rw [envOf_cons_of_visible hhidden, envOf_cons_of_visible hhidden, Env.assign, if_neg heq,
          getD_set_ne hlt.ne, ih hl hfits']

theorem length_envOf (Γ : List Local) (L L' : List Value) :
    (envOf Γ L).length = (envOf Γ L').length := by
  rw [envOf, envOf, length_map, length_map]

/-- **Leaving a block** gives back the variables outside it, as they are now. -/
theorem leave_envOf (h : Γ <:+ Γ') : (envOf Γ L).leave (envOf Γ' L') = envOf Γ L' := by
  obtain ⟨Δ, rfl⟩ := h
  have happend : envOf (Δ ++ Γ) L' = envOf Δ L' ++ envOf Γ L' := by
    rw [envOf, filter_append, map_append]
    rfl
  rw [Env.leave, happend, length_append, length_envOf Γ L L', Nat.add_sub_cancel, drop_left]

/-! ## Expressions -/

section

variable {σ : Type} {lib : Lib} {S : Session σ} {vm : Vm} {pc b k : ℕ} {stk : List Value}
  {lc : List ℕ} {w : World σ} {c c1 c2 : List OpCode}

/-- The script has the code at a position. -/
structure Placed (vm : Vm) (pc : ℕ) (c : List OpCode) : Prop where
  seg : SegAt vm.script.code pc c
  le : pc + c.length ≤ vm.script.code.length

namespace Placed

theorem left (h : Placed vm pc (c1 ++ c2)) : Placed vm pc c1 := by
  have := h.le
  rw [length_append] at this
  exact ⟨h.seg.left, by omega⟩

theorem right (h : Placed vm pc (c1 ++ c2)) : Placed vm (pc + c1.length) c2 := by
  have := h.le
  rw [length_append] at this
  exact ⟨h.seg.right, by omega⟩

theorem head {op : OpCode} (h : Placed vm pc (op :: c)) : vm.script.code[pc]? = some op :=
  h.seg.head

theorem tail {op : OpCode} (h : Placed vm pc (op :: c)) : Placed vm (pc + 1) c := by
  have hcons : Placed vm pc ([op] ++ c) := h
  exact hcons.right

end Placed

variable {op : BinOp} {test : List OpCode} {skipped : OpCode}

/-- What tests the left operand tells whether it decides. -/
theorem BinOp.reaches_test
    (hop : op.shortCircuit = some (test, skipped)) (a : Value) (hp : Placed vm pc test) :
    ∃ t, (vm.machine lib S).Reaches ⟨pc, a :: stk, L, lc, b, w⟩
      ⟨pc + test.length, t :: stk, L, lc, b, w⟩ ∧ t.isTruthy = (op.decided a).isNone := by
  cases op with
  | and =>
    cases hop
    refine ⟨a, .refl _, ?_⟩
    rw [BinOp.decided]
    split
    · assumption
    · rename_i hfalse
      exact Bool.eq_false_iff.2 hfalse
  | or =>
    cases hop
    have hnot : (vm.runOp lib S ⟨pc + 1, a :: stk, L, lc, b, w⟩ .not).Leads
        ⟨pc + 1, .bool (!a.isTruthy) :: stk, L, lc, b, w⟩ :=
      leads_push ⟨pc + 1, stk, L, lc, b, w⟩ vm.limits (.bool !a.isTruthy)
    refine ⟨.bool !a.isTruthy, (advances_of_op hp.head hnot).reaches, ?_⟩
    rw [BinOp.decided, Value.isTruthy]
    split
    · rename_i htrue
      rw [htrue]
      rfl
    · rename_i hfalse
      rw [Bool.eq_false_iff.2 hfalse]
      rfl
  | _ => cases hop

/-- What is pushed in place of the right operand is what the left one decides. -/
theorem BinOp.advances_skipped {a v : Value}
    (hop : op.shortCircuit = some (test, skipped)) (hv : op.decided a = some v)
    (hskip : vm.script.code[pc]? = some skipped) :
    (vm.machine lib S).Advances ⟨pc, stk, L, lc, b, w⟩ ⟨pc + 1, v :: stk, L, lc, b, w⟩ := by
  cases op with
  | and =>
    cases hop
    rw [BinOp.decided] at hv
    split at hv
    · cases hv
    · cases hv
      exact advances_of_op hskip (leads_push _ _ _)
  | or =>
    cases hop
    rw [BinOp.decided] at hv
    split at hv
    · cases hv
      exact advances_of_op hskip (leads_push _ _ _)
    · cases hv
  | _ => cases hop

theorem BinOp.apply_of_shortCircuit {p : List OpCode × OpCode}
    (hop : op.shortCircuit = some p) (u v : Value) : op.apply u v = .ok v := by
  cases op with
  | and => rfl
  | or => rfl
  | _ => cases hop

theorem BinOp.decided_of_opCode {opcode : OpCode} (hop : op.opCode = some opcode)
    (v : Value) : op.decided v = none := by
  cases op with
  | and => cases hop
  | or => cases hop
  | _ => rfl

/-- The code of the arguments pushes their values, the last one on top. -/
def PushedAll (pc : ℕ) (stk L : List Value) (lc : List ℕ) (argc : ℕ) (p : List Value × World σ)
    (st : VmState σ) : Prop :=
  p.1.length = argc ∧ ∃ b, st = ⟨pc, p.1.reverse ++ stk, L, lc, b, p.2⟩

/-- The last instruction of some code. -/
theorem follows_last {op : OpCode} {pc' : ℕ} {x : Eval (Outcome × World σ) (Value × World σ)}
    {stk' : List Value} (hop : vm.script.code[pc]? = some op) (hpc : pc' = pc + 1)
    (h : (vm.runOp lib S ⟨pc + 1, stk', L, lc, b, w⟩ op).Gives x (Pushed (pc + 1) stk L lc)) :
    (vm.machine lib S).Follows k ⟨pc, stk', L, lc, b, w⟩ x (Pushed pc' stk L lc) :=
  hpc ▸ follows_of_op hop h

/-- `&&` and `||`. -/
theorem follows_short {left right : Expr}
    {cl cr : List OpCode} {env : Env} (hop : op.shortCircuit = some (test, skipped))
    (hp : Placed vm pc (cl ++ (test ++ .jumpIfFalse (cr.length + 1) :: (cr ++ [.jump 1, skipped]))))
    (hl : (vm.machine lib S).Follows k ⟨pc, stk, L, lc, b, w⟩ (left.eval lib S env w)
      (Pushed (pc + cl.length) stk L lc))
    (hr : ∀ {pc b : ℕ} {w : World σ}, Placed vm pc cr →
      (vm.machine lib S).Follows k ⟨pc, stk, L, lc, b, w⟩ (right.eval lib S env w)
        (Pushed (pc + cr.length) stk L lc)) :
    (vm.machine lib S).Follows k ⟨pc, stk, L, lc, b, w⟩
      ((Expr.binaryOp op left right).eval lib S env w)
      (Pushed (pc + (cl ++ (test ++ .jumpIfFalse (cr.length + 1) ::
        (cr ++ [.jump 1, skipped]))).length) stk L lc) := by
  have hjump := hp.right.right
  have hlast := hjump.tail.right
  have hend := hp.le
  simp only [length_append, length_cons, length_nil] at hend ⊢
  rw [Expr.eval]
  refine hl.bind ?_
  rintro ⟨a, w⟩ _ ⟨b, rfl⟩
  obtain ⟨t, htest, htruth⟩ : ∃ t, (vm.machine lib S).Reaches
    ⟨pc + cl.length, a :: stk, L, lc, b, w⟩
    ⟨pc + cl.length + test.length, t :: stk, L, lc, b, w⟩ ∧
      t.isTruthy = (op.decided a).isNone := BinOp.reaches_test hop a hp.right.left
  refine htest.follows ?_
  dsimp only
  cases hd : op.decided a with
  | some v =>
    rw [hd] at htruth
    have hfalse : ¬ t.isTruthy := by simp [htruth]
    refine (advances_jumpIfFalse_of_not (pc + cl.length + test.length + 1 + cr.length + 1)
      hjump.head hfalse (by push_cast; ring) (by omega)).reaches.follows ?_
    refine (BinOp.advances_skipped hop hd hlast.tail.head).reaches.follows ?_
    exact follows_value ⟨b, by congr 1; omega⟩
  | none =>
    rw [hd] at htruth
    refine (advances_jumpIfFalse_of_truthy hjump.head (by simp [htruth])).reaches.follows ?_
    refine (hr hjump.tail.left).bind ?_
    rintro ⟨v, w⟩ _ ⟨b, rfl⟩
    dsimp only
    rw [BinOp.apply_of_shortCircuit hop]
    refine (advances_jump (pc + cl.length + test.length + 1 + cr.length + 2) hlast.head
      (by push_cast; ring) (by omega)).reaches.follows ?_
    exact follows_value ⟨b, by congr 1; omega⟩

mutual

/-- **The code of an expression computes its value.** -/
theorem ExprCode.follows (hvm : vm.Cached) : ∀ {e : Expr} {c : List OpCode} {pc b : ℕ}
    {stk : List Value} {w : World σ}, ExprCode vm.script.constants Γ e c → Clear e.names →
    Placed vm pc c →
    (vm.machine lib S).Follows k ⟨pc, stk, L, lc, b, w⟩ (e.eval lib S (envOf Γ L) w)
      (Pushed (pc + c.length) stk L lc)
  | .stringLit s, _, _, _, _, _, h, _, hp => by
    cases h with
    | stringLit hi => exact ⟨_, (advances_loadConst hp.head hi).reaches, _, rfl⟩
  | .intLit n, _, _, _, _, _, h, _, hp => by
    cases h with
    | intLit hi => exact ⟨_, (advances_loadConst hp.head hi).reaches, _, rfl⟩
  | .boolLit true, _, _, _, _, _, h, _, hp => by
    cases h
    exact follows_of_op hp.head (gives_push _ _)
  | .boolLit false, _, _, _, _, _, h, _, hp => by
    cases h
    exact follows_of_op hp.head (gives_push _ _)
  | .nilLit, _, _, _, _, _, h, _, hp => by
    cases h
    exact follows_of_op hp.head (gives_push _ _)
  | .ident name, _, _, _, _, w, h, hn, hp => by
    cases h with
    | ident hl =>
      rw [Expr.eval, lookup_envOf (hn name (mem_singleton.2 rfl)) hl]
      exact ⟨_, (advances_getLocal hp.head).reaches, _, rfl⟩
  | .binaryOp op left right, _, _, _, _, _, h, hn, hp => by
    have hnames := clear_append.1 hn
    cases h with
    | short hop hl hr =>
      exact follows_short hop hp (hl.follows hvm hnames.1 hp.left) fun hpr =>
        hr.follows hvm hnames.2 hpr
    | binary hop hl hr =>
      rw [Expr.eval]
      refine (hl.follows hvm hnames.1 hp.left).bind ?_
      rintro ⟨u, w⟩ _ ⟨b, rfl⟩
      simp only [BinOp.decided_of_opCode hop]
      refine (hr.follows hvm hnames.2 hp.right.left).bind ?_
      rintro ⟨v, w⟩ _ ⟨b, rfl⟩
      refine follows_last hp.right.right.head ?_ (BinOp.gives_opCode hop u v)
      simp only [length_append, length_singleton]
      omega
  | .unaryOp op operand, _, _, _, _, _, h, hn, hp => by
    cases h with
    | unary hc =>
      rw [Expr.eval]
      refine (hc.follows hvm hn hp.left).bind ?_
      rintro ⟨v, w⟩ _ ⟨b, rfl⟩
      refine follows_last hp.right.head ?_ (op.gives_opCode v)
      rw [length_append, length_singleton, add_assoc]
  | .methodCall object method args, _, _, _, _, _, h, hn, hp => by
    have hnames := clear_append.1 hn
    cases h with
    | call hns hargc hargs =>
      rw [Expr.eval, hns]
      refine (hargs.follows hvm hnames.2 hp.left).bind ?_
      rintro ⟨vs, w⟩ _ ⟨hlen, b, rfl⟩
      refine follows_last hp.right.head ?_ (gives_call (hlen.trans hargc))
      rw [length_append, length_singleton, add_assoc]
    | strMethod hns hop hone ho hargs =>
      rw [Expr.eval, hns]
      refine (ho.follows hvm hnames.1 hp.left).bind ?_
      rintro ⟨u, w⟩ _ ⟨b, rfl⟩
      refine (hargs.follows hvm hnames.2 hp.right.left).bind ?_
      rintro ⟨vs, w⟩ _ ⟨hlen, b, rfl⟩
      obtain ⟨v, rfl⟩ := length_eq_one_iff.1 (hlen.trans hone)
      refine follows_last hp.right.right.head ?_ (gives_stringMethod hop u v)
      simp only [length_append, length_singleton]
      omega
    | regex hns hi ho =>
      rw [Expr.eval, hns]
      refine (ho.follows hvm hnames.1 hp.left).bind ?_
      rintro ⟨u, w⟩ _ ⟨b, rfl⟩
      refine follows_last hp.right.head ?_ (gives_matches hvm hi u)
      rw [length_append, length_singleton, add_assoc]
  | .fnCall name args, _, _, _, _, _, h, hn, hp => by
    cases h with
    | fn hfn hargs =>
      rw [Expr.eval, hfn]
      refine (hargs.follows hvm hn hp.left).bind ?_
      rintro ⟨vs, w⟩ _ ⟨hlen, b, rfl⟩
      refine follows_last hp.right.head ?_ (gives_call (hlen.trans (argc_of_resolveFunction hfn)))
      rw [length_append, length_singleton, add_assoc]
  | .fieldAccess object field, _, _, _, _, _, h, hn, hp => by
    cases h with
    | field hns hargc =>
      rw [Expr.eval, hns]
      exact follows_last hp.head rfl 
        (gives_call (show ([] : List Value).length = _ from hargc.symm))
termination_by structural e => e

theorem ArgsCode.follows (hvm : vm.Cached) : ∀ {args : List Expr} {c : List OpCode} {pc b : ℕ}
    {stk : List Value} {w : World σ}, ArgsCode vm.script.constants Γ args c →
    Clear (argsNames args) → Placed vm pc c →
    (vm.machine lib S).Follows k ⟨pc, stk, L, lc, b, w⟩ (evalArgs lib S (envOf Γ L) args w)
      (PushedAll (pc + c.length) stk L lc args.length)
  | [], _, _, b, _, _, h, _, hp => by
    cases h
    exact follows_value ⟨rfl, b, rfl⟩
  | arg :: args, _, _, _, _, _, h, hn, hp => by
    have hnames := clear_append.1 hn
    cases h with
    | cons ha has =>
      rw [evalArgs]
      refine (ha.follows hvm hnames.1 hp.left).bind ?_
      rintro ⟨v, w⟩ _ ⟨b, rfl⟩
      refine (has.follows hvm hnames.2 hp.right).bind ?_
      rintro ⟨vs, w⟩ _ ⟨hlen, b, rfl⟩
      refine follows_value ⟨?_, b, ?_⟩
      · rw [length_cons, length_cons, hlen]
      · simp only [length_append, reverse_cons, append_assoc, add_assoc, singleton_append]
termination_by structural args => args

end

end

end Edgion.Dsl
