import Edgion.Dsl.Code
import Mathlib.Data.List.TakeWhile

/-!
# The compiler emits the code

`Lays c c' seg` says what a pass did: it appended `seg` to the code, added constants behind those
there were and locals in front of them, and left the compiler in order. It composes along `++`, and
every pass of the compiler is shown to lay the code of the syntax tree it compiles.
-/

namespace Edgion.Dsl

open Common List Option Stmt OpCode StmtCode

/-! ## Patching -/

/-- A small number is itself as an `i32`. -/
theorem asI32_of_lt {n : ℤ} (hlow : -2 ^ 31 ≤ n) (hhigh : n < 2 ^ 31) : asI32 n = n := by
  unfold asI32
  rw [Int.bmod_eq_of_le (by omega) (by omega)]

theorem modify_append {α : Type*} (a b : List α) (x : α) (f : α → α) :
    (a ++ x :: b).modify a.length f = a ++ f x :: b := by
  induction a with
  | nil => rfl
  | cons y a ih => simp [ih]

/-- **A patched jump leads to the end of the code**: its offset is what stands behind it. -/
theorem patchAt_eq (op : OpCode) {a b : List OpCode} (h : a.length + b.length + 1 < 2 ^ 31) :
    patchAt (a ++ op :: b) a.length = a ++ op.setOffset b.length :: b := by
  simp only [patchAt, length_append, length_cons]
  rw [asI32_of_lt (n := a.length) (by omega) (by omega), asI32_of_lt (n := a.length + 1) (by omega) (by omega),
    asI32_of_lt (n := (a.length + (b.length + 1) : ℕ)) (by omega) (by omega),
    asI32_of_lt (by omega) (by omega), modify_append]
  congr 3
  omega

/-- The offset of a backward jump. -/
theorem backOffset_eq {start cur : ℕ} (hs : start ≤ cur) (h : cur + 1 < 2 ^ 31) :
    asI32 (asI32 start - asI32 (asI32 cur + 1)) = start - (cur + 1) := by
  rw [asI32_of_lt (n := cur) (by omega) (by omega), asI32_of_lt (n := start) (by omega) (by omega),
    asI32_of_lt (n := cur + 1) (by omega) (by omega), asI32_of_lt (by omega) (by omega)]

/-! ## What a pass does -/

namespace Compiler

variable {lib : Lib} {c c1 c2 c' : Compiler} {seg seg' : List OpCode}

/-- The compiler is in order: its maps name the right constants, every pattern compiles, and the
locals belong to the scopes that are open. -/
structure Good (lib : Lib) (c : Compiler) : Prop where
  strs : ∀ s i, (s, i) ∈ c.constStrMap → c.constants[i]? = some (.str s)
  ints : ∀ n i, (n, i) ∈ c.constIntMap → c.constants[i]? = some (.int n)
  regexes : ∀ p, Constant.regex p ∈ c.constants →
    lib.regexError p = none ∧ Text.len p ≤ maxRegexPatternLen
  depths : ∀ l ∈ c.locals, l.depth ≤ c.scopeDepth
  fits : Fits c.locals c.nextSlot

/-- **A pass that lays code.** -/
structure Lays (lib : Lib) (c c' : Compiler) (seg : List OpCode) : Prop where
  code : c'.code = c.code ++ seg
  constants : c.constants <+: c'.constants
  scopeDepth : c'.scopeDepth = c.scopeDepth
  good : c'.Good lib
  locals : ∃ new, c'.locals = new ++ c.locals ∧ ∀ l ∈ new, c.scopeDepth ≤ l.depth

/-- A pass that lays code and leaves the scope as it is. -/
structure Emits (lib : Lib) (c c' : Compiler) (seg : List OpCode) : Prop extends
    Lays lib c c' seg where
  locals_eq : c'.locals = c.locals
  nextSlot_eq : c'.nextSlot = c.nextSlot

theorem Lays.refl (h : c.Good lib) : Lays lib c c [] :=
  ⟨(append_nil _).symm, prefix_rfl, rfl, h, [], rfl, fun _ hl => absurd hl not_mem_nil⟩

theorem Lays.trans (h : Lays lib c c1 seg) (h' : Lays lib c1 c2 seg') :
    Lays lib c c2 (seg ++ seg') := by
  obtain ⟨new, hnew, hdepth⟩ := h.locals
  obtain ⟨new', hnew', hdepth'⟩ := h'.locals
  refine ⟨by rw [h'.code, h.code, append_assoc], h.constants.trans h'.constants,
    h'.scopeDepth.trans h.scopeDepth, h'.good, new' ++ new, by rw [hnew', hnew, append_assoc],
    fun l hl => ?_⟩
  rcases mem_append.1 hl with hl | hl
  · exact h.scopeDepth ▸ hdepth' l hl
  · exact hdepth l hl

theorem Emits.refl (h : c.Good lib) : Emits lib c c [] := ⟨Lays.refl h, rfl, rfl⟩

theorem Emits.trans (h : Emits lib c c1 seg) (h' : Emits lib c1 c2 seg') :
    Emits lib c c2 (seg ++ seg') :=
  ⟨h.toLays.trans h'.toLays, h'.locals_eq.trans h.locals_eq, h'.nextSlot_eq.trans h.nextSlot_eq⟩

/-- One instruction. -/
theorem emits_emit (h : c.Good lib) (op : OpCode) : Emits lib c (c.emit op) [op] :=
  ⟨⟨rfl, prefix_rfl, rfl, { h with }, [], rfl, fun _ hl => absurd hl not_mem_nil⟩, rfl, rfl⟩

theorem Emits.emit (h : Emits lib c c' seg) (op : OpCode) :
    Emits lib c (c'.emit op) (seg ++ [op]) :=
  h.trans (emits_emit h.good op)

theorem Lays.emit (h : Lays lib c c' seg) (op : OpCode) : Lays lib c (c'.emit op) (seg ++ [op]) :=
  h.trans (emits_emit h.good op).toLays

theorem Lays.length_eq (h : Lays lib c c' seg) : c'.code.length = c.code.length + seg.length := by
  rw [h.code, length_append]

variable {op : OpCode} {i slot : ℕ} {m : Bool} {object : Expr} {a b : List OpCode}

/-- **A jump is patched** once what it skips is laid. -/
theorem Lays.patchJump (h : Lays lib c c' seg) (idx : ℕ)
    (hseg : seg = a ++ op :: b) (hidx : idx = c.code.length + a.length)
    (hlen : c.code.length + seg.length < 2 ^ 31) :
    Lays lib c (c'.patchJump idx) (a ++ op.setOffset b.length :: b) := by
  subst hseg
  rw [length_append, length_cons] at hlen
  refine ⟨?_, h.constants, h.scopeDepth,
    { h.good with }, h.locals⟩
  have hpatch := patchAt_eq op (a := c.code ++ a) (b := b) (by rw [length_append]; omega)
  rw [length_append, ← hidx] at hpatch
  simp only [patchJump]
  rw [h.code, ← append_assoc, hpatch, append_assoc]

theorem Emits.patchJump (h : Emits lib c c' seg) (idx : ℕ)
    (hseg : seg = a ++ op :: b) (hidx : idx = c.code.length + a.length)
    (hlen : c.code.length + seg.length < 2 ^ 31) :
    Emits lib c (c'.patchJump idx) (a ++ op.setOffset b.length :: b) :=
  ⟨h.toLays.patchJump idx hseg hidx hlen, h.locals_eq, h.nextSlot_eq⟩

theorem Emits.emitAll (h : Emits lib c c' seg) (ops : List OpCode) :
    Emits lib c (ops.foldl Compiler.emit c') (seg ++ ops) := by
  induction ops generalizing c' seg with
  | nil => simpa using h
  | cons op ops ih => simpa using ih (h.emit op)

/-! ## Constants -/

theorem getElem?_of_isPrefix {α : Type*} {xs ys : List α} {x : α} (hp : xs <+: ys)
    (h : xs[i]? = some x) : ys[i]? = some x := by
  obtain ⟨t, rfl⟩ := hp
  exact List.getElem?_append_left (List.getElem?_eq_some_iff.1 h).1 ▸ h

theorem checkConstLimit_eq (h : c.checkConstLimit = .ok i) : i = c.constants.length := by
  unfold checkConstLimit at h
  split at h
  · cases h
  · exact (Except.ok.inj h).symm

/-- A new constant keeps the compiler in order, if its own map is right about it. -/
theorem emits_push (h : c.Good lib) (k : Constant)
    (hk : ∀ p, k = .regex p → lib.regexError p = none ∧ Text.len p ≤ maxRegexPatternLen)
    {strs : List (String × ℕ)} {ints : List (Int64 × ℕ)}
    (hstrs : ∀ s i, (s, i) ∈ strs → (s, i) ∈ c.constStrMap ∨ i = c.constants.length ∧ k = .str s)
    (hints : ∀ n i, (n, i) ∈ ints → (n, i) ∈ c.constIntMap ∨ i = c.constants.length ∧ k = .int n) :
    Emits lib c
      { c with constants := c.constants ++ [k], constStrMap := strs, constIntMap := ints } [] ∧
      (c.constants ++ [k])[c.constants.length]? = some k := by
  have hlast : (c.constants ++ [k])[c.constants.length]? = some k := by simp
  refine ⟨⟨⟨(append_nil _).symm, prefix_append _ _, rfl,
    ⟨fun s i hi => ?_, fun n i hi => ?_, fun p hp => ?_, h.depths, h.fits⟩, [], rfl,
    fun _ hl => absurd hl not_mem_nil⟩, rfl, rfl⟩, hlast⟩
  · obtain hi | ⟨rfl, rfl⟩ := hstrs s i hi
    · exact getElem?_of_isPrefix (prefix_append _ _) (h.strs s i hi)
    · exact hlast
  · obtain hi | ⟨rfl, rfl⟩ := hints n i hi
    · exact getElem?_of_isPrefix (prefix_append _ _) (h.ints n i hi)
    · exact hlast
  · rcases mem_append.1 hp with hp | hp
    · exact h.regexes p hp
    · exact hk p (mem_singleton.1 hp).symm

theorem mem_of_lookup {α β : Type*} [BEq α] [LawfulBEq α] {xs : List (α × β)} {a : α} {b : β}
    (h : xs.lookup a = some b) : (a, b) ∈ xs := by
  obtain ⟨before, behind, rfl, -⟩ := lookup_eq_some_iff.1 h
  exact mem_append_right _ (mem_cons_self ..)

/-- **A string constant is where its index says.** -/
theorem addStrConst_spec (h : c.Good lib) {s : String} (hc : c.addStrConst s = .ok (i, c')) :
    Emits lib c c' [] ∧ c'.constants[i]? = some (.str s) := by
  unfold addStrConst at hc
  split at hc
  · rename_i idx hget
    cases hc
    exact ⟨.refl h, h.strs s i (mem_of_lookup hget)⟩
  · obtain ⟨idx, hidx, hc⟩ := bind_eq_ok.1 hc
    cases hc
    obtain rfl := checkConstLimit_eq hidx
    refine emits_push h _ (fun p hp => by cases hp) (fun t j hj => ?_) fun _ _ => .inl
    exact (mem_cons.1 hj).symm.imp_right fun heq => by cases heq; exact ⟨rfl, rfl⟩

/-- So is an integer. -/
theorem addIntConst_spec (h : c.Good lib) {n : Int64} (hc : c.addIntConst n = .ok (i, c')) :
    Emits lib c c' [] ∧ c'.constants[i]? = some (.int n) := by
  unfold addIntConst at hc
  split at hc
  · rename_i idx hget
    cases hc
    exact ⟨.refl h, h.ints n i (mem_of_lookup hget)⟩
  · obtain ⟨idx, hidx, hc⟩ := bind_eq_ok.1 hc
    cases hc
    obtain rfl := checkConstLimit_eq hidx
    refine emits_push h _ (fun p hp => by cases hp) (fun _ _ => .inl) fun m j hj => ?_
    exact (mem_cons.1 hj).symm.imp_right fun heq => by cases heq; exact ⟨rfl, rfl⟩

/-- So is a pattern, and it compiles. -/
theorem addRegexConst_spec (h : c.Good lib) {pattern : String}
    (hc : c.addRegexConst lib pattern = .ok (i, c')) :
    Emits lib c c' [] ∧ c'.constants[i]? = some (.regex pattern) := by
  unfold addRegexConst at hc
  split at hc
  · cases hc
  · rename_i hlen
    split at hc
    · rename_i idx hfind
      cases hc
      obtain ⟨hlt, heq, -⟩ := findIdx?_eq_some_iff_getElem.1 hfind
      exact ⟨.refl h, by rw [getElem?_eq_getElem hlt, eq_of_beq heq]⟩
    · split at hc
      · cases hc
      · rename_i hvalid
        obtain ⟨idx, hidx, hc⟩ := bind_eq_ok.1 hc
        cases hc
        obtain rfl := checkConstLimit_eq hidx
        refine emits_push h _ (fun p hp => ?_) (fun _ _ => .inl) fun _ _ => .inl
        cases hp
        exact ⟨hvalid, not_lt.1 hlen⟩

/-! ## Locals and scopes -/

variable {name : String} {args : List Expr} {pass : Pass}

/-- **A declaration takes the next slot**, in front of the locals there are. -/
theorem declareLocal_spec (h : c.Good lib) (hc : c.declareLocal name m = .ok (slot, c')) :
    slot = c.nextSlot ∧ c'.locals = ⟨name, c.nextSlot, m, c.scopeDepth⟩ :: c.locals ∧
      c'.nextSlot = c.nextSlot + 1 ∧ Lays lib c c' [] := by
  unfold declareLocal at hc
  split at hc
  · cases hc
  · cases hc
    refine ⟨rfl, rfl, rfl, (append_nil _).symm, prefix_rfl, rfl,
      ⟨h.strs, h.ints, h.regexes, fun l hl => ?_, h.fits.declare _ _ _⟩, [_], rfl, fun l hl => ?_⟩
    · rcases mem_cons.1 hl with rfl | hl
      · exact le_rfl
      · exact h.depths l hl
    · rw [mem_singleton.1 hl]

/-- **A value is put in a new local**, as `let` and the loops do it. -/
theorem Emits.setLocal (h : Emits lib c c1 seg) (hc : c1.declareLocal name m = .ok (slot, c2)) :
    slot = c.nextSlot ∧ c2.locals = ⟨name, c.nextSlot, m, c.scopeDepth⟩ :: c.locals ∧
      c2.nextSlot = c.nextSlot + 1 ∧ c1.constants <+: c2.constants ∧
      Lays lib c (c2.emit (.setLocal slot)) (seg ++ [.setLocal slot]) := by
  obtain ⟨rfl, hloc, hnext, hlays⟩ := declareLocal_spec h.good hc
  refine ⟨h.nextSlot_eq, ?_, ?_, hlays.constants, h.toLays.trans (hlays.emit _)⟩
  · rw [hloc, h.nextSlot_eq, h.scopeDepth, h.locals_eq]
  · rw [hnext, h.nextSlot_eq]

/-- A scope is entered. -/
structure Enters (lib : Lib) (c c' : Compiler) : Prop where
  code : c'.code = c.code
  constants : c'.constants = c.constants
  locals : c'.locals = c.locals
  nextSlot : c'.nextSlot = c.nextSlot
  scopeDepth : c'.scopeDepth = c.scopeDepth + 1
  good : c'.Good lib

theorem enterScope_spec (h : c.Good lib) (hc : enterScope c = .ok c') : Enters lib c c' := by
  unfold enterScope at hc
  split at hc
  · cases hc
  · cases hc
    exact ⟨rfl, rfl, rfl, rfl, rfl, h.strs, h.ints, h.regexes,
      fun l hl => Nat.le_succ_of_le (h.depths l hl), h.fits⟩

/-- **A scope that is left takes its locals with it.** -/
theorem leaveScope_spec (h : c.Good lib) (he : Enters lib c c1) (hl : Lays lib c1 c2 seg)
    (hle : c.nextSlot ≤ c2.nextSlot) (hc : leaveScope c2 = .ok c') :
    Lays lib c c' seg ∧ c'.locals = c.locals ∧ c'.nextSlot = c2.nextSlot ∧
      c'.constants = c2.constants := by
  have hdepth : c2.scopeDepth = c.scopeDepth + 1 := hl.scopeDepth.trans he.scopeDepth
  unfold leaveScope at hc
  rw [hdepth] at hc
  cases hc
  have hloc : c2.locals.dropWhile (fun l => !decide (l.depth < c.scopeDepth + 1)) =
      c.locals := by
    obtain ⟨new, hnew, hin⟩ := hl.locals
    rw [hnew, he.locals, dropWhile_append_of_pos fun l hl => by
      have := hin l hl
      rw [he.scopeDepth] at this
      simpa using this]
    -- the locals there were belong to scopes that stay open
    refine dropWhile_eq_self_iff.2 fun hpos => ?_
    have := h.depths _ (getElem_mem hpos)
    simpa using Nat.lt_succ_of_le this
  refine ⟨⟨he.code ▸ hl.code, he.constants ▸ hl.constants, rfl, ⟨hl.good.strs, hl.good.ints,
    hl.good.regexes, ?_, ?_⟩, [], hloc, fun _ hn => absurd hn not_mem_nil⟩, hloc, rfl,
    rfl⟩
  · simp only [hloc]
    exact h.depths
  · simp only [hloc]
    exact h.fits.mono hle

/-! ## Expressions -/

/-- **The pass of an expression** lays its code. -/
def ExprPass (lib : Lib) (e : Expr) (pass : Pass) : Prop :=
  ∀ ⦃c c' : Compiler⦄, c.Good lib → c.code.length + e.size < 2 ^ 31 → pass c = .ok c' →
    ∃ seg, Emits lib c c' seg ∧ ∀ ⦃K⦄, c'.constants <+: K → ExprCode K c.locals e seg

/-- The pass of the arguments of a call. -/
def ArgsPass (lib : Lib) (args : List Expr) (pass : Pass) : Prop :=
  ∀ ⦃c c' : Compiler⦄, c.Good lib → c.code.length + argsSize args < 2 ^ 31 → pass c = .ok c' →
    ∃ seg, Emits lib c c' seg ∧ ∀ ⦃K⦄, c'.constants <+: K → ArgsCode K c.locals args seg

variable {passl passr : Pass} {left right : Expr}

/-- The operators that skip their right operand. -/
theorem exprPass_shortCircuit {op : BinOp} {test : List OpCode} {skipped : OpCode}
    (hop : op.shortCircuit = some (test, skipped))
    (hl : ExprPass lib left passl) (hr : ExprPass lib right passr) :
    ExprPass lib (.binaryOp op left right) (shortCircuit test skipped passl passr) := by
  intro c c' hgood hlen hc
  rw [Expr.size, BinOp.size_of_shortCircuit hop] at hlen
  obtain ⟨c1, h1, c2, h2, hc⟩ := bind_bind_eq_ok.1 hc
  obtain ⟨cl, hcl, hleft⟩ := hl hgood (by omega) h1
  have hll := (hleft prefix_rfl).length_eq
  have htest := hcl.emitAll test
  have hjump := htest.emit (.jumpIfFalse 0)
  have hlj := hjump.length_eq
  simp only [length_append, length_cons, length_nil] at hlj
  obtain ⟨cr, hcr, hright⟩ := hr hjump.good (by omega) h2
  have hrl := (hright prefix_rfl).length_eq
  have hbody := hjump.trans hcr
  -- the first jump skips the right operand and the jump behind it
  have hfst := (hbody.emit (.jump 0)).patchJump _ (a := cl ++ test) (b := cr ++ [.jump 0])
    (by simp; rfl) htest.length_eq
    (by simp only [length_append, length_cons, length_nil]; omega)
  -- the second one skips what is pushed in place of the right operand
  have hall := (hfst.emit skipped).patchJump _
    (a := cl ++ (test ++ .jumpIfFalse (cr.length + 1) :: cr)) (b := [skipped])
    (by simp [setOffset]; rfl) (hbody.length_eq.trans (by simp))
    (by simp only [length_append, length_cons, length_nil]; omega)
  cases hc
  refine ⟨_, hall, fun K hK => ?_⟩
  have hconst := ((Emits.refl hcl.good).emitAll test).constants
  have hcode := ExprCode.short hop (hleft (hconst.trans (hcr.constants.trans hK)))
    (hjump.locals_eq ▸ hright hK)
  simpa [setOffset] using hcode

/-- Two operands one after the other. -/
theorem exprPass_binary {op : BinOp}
    (hl : ExprPass lib left passl) (hr : ExprPass lib right passr) :
    ExprPass lib (.binaryOp op left right) (compileBinary op passl passr) := by
  rcases hop : op.opCode with - | opcode
  · cases op
    case and => exact exprPass_shortCircuit rfl hl hr
    case or => exact exprPass_shortCircuit rfl hl hr
    all_goals cases hop
  · intro c c' hgood hlen hc
    rw [Expr.size] at hlen
    have hc : (passl c >>= fun c => passr c >>= fun c => .ok (c.emit opcode)) = .ok c' := by
      cases op <;> cases hop <;> exact hc
    obtain ⟨c1, h1, c2, h2, hc⟩ := bind_bind_eq_ok.1 hc
    cases hc
    obtain ⟨cl, hcl, hleft⟩ := hl hgood (by omega) h1
    have hll := (hleft prefix_rfl).length_eq
    obtain ⟨cr, hcr, hright⟩ := hr hcl.good (by rw [hcl.length_eq]; omega) h2
    refine ⟨_, hcl.trans (hcr.emit opcode), fun K hK => .binary hop (hleft (hcr.constants.trans hK))
      (hcl.locals_eq ▸ hright hK)⟩

/-- A call, from its arguments on. -/
theorem compileCall_spec {id : BuiltinId} (hargs : ArgsPass lib args pass) (hgood : c.Good lib)
    (hlen : c.code.length + argsSize args < 2 ^ 31) (hc : compileCall id args pass c = .ok c') :
    ∃ seg, Emits lib c c' (seg ++ [.callBuiltin id args.length]) ∧
      ∀ ⦃K⦄, c'.constants <+: K → ArgsCode K c.locals args seg := by
  obtain ⟨c1, h1, hc⟩ := bind_eq_ok.1 hc
  cases hc
  obtain ⟨seg, hseg, hcode⟩ := hargs hgood hlen h1
  exact ⟨seg, hseg.emit _, fun K hK => hcode hK⟩

variable {method : String} {passa passo : Pass}

/-- A method that is a string operation. -/
theorem exprPass_strMethod (hns : namespaceCall object method = none)
    (hm : stringMethod method = some op) (hone : args.length = 1)
    (ho : ExprPass lib object passo) (ha : ArgsPass lib args passa) :
    ExprPass lib (.methodCall object method args)
      (fun c => passo c >>= fun c => passa c >>= fun c => .ok (c.emit op)) := by
  intro c c' hgood hlen hc
  simp only [Expr.size, hns, hm, isSome_none, isSome_some, if_true,
    Bool.false_eq_true, if_false] at hlen
  obtain ⟨c1, h1, c2, h2, hc⟩ := bind_bind_eq_ok.1 hc
  cases hc
  obtain ⟨co, hco, hobj⟩ := ho hgood (by omega) h1
  have hol := (hobj prefix_rfl).length_eq
  obtain ⟨ca, hca, hcode⟩ := ha hco.good (by rw [hco.length_eq]; omega) h2
  exact ⟨_, hco.trans (hca.emit op), fun K hK => .strMethod hns hm hone
    (hobj (hca.constants.trans hK)) (hco.locals_eq ▸ hcode hK)⟩

/-- A method call. -/
theorem exprPass_methodCall (ho : ExprPass lib object passo) (ha : ArgsPass lib args passa) :
    ExprPass lib (.methodCall object method args)
      (compileMethodCall lib object method args passo passa) := by
  intro c c' hgood hlen hc
  unfold compileMethodCall at hc
  split at hc
  · rename_i ns id hns
    split at hc
    · cases hc
    · rename_i hargc
      simp only [Expr.size, hns, isSome_some, if_true] at hlen
      obtain ⟨seg, hseg, hcode⟩ := compileCall_spec ha hgood (by omega) hc
      exact ⟨_, hseg, fun K hK => .call hns (not_not.1 hargc) (hcode hK)⟩
  · rename_i hns
    split at hc
    · rename_i op hm
      split at hc
      · cases hc
      · rename_i hone
        exact exprPass_strMethod hns hm (not_not.1 hone) ho ha hgood hlen hc
    · rename_i hstr
      split at hc
      · rename_i hm
        subst hm
        split at hc
        · simp only [Expr.size, hns, hstr, isSome_none, Bool.false_eq_true, if_false] at hlen
          obtain ⟨⟨i, c1⟩, h1, hc⟩ := bind_eq_ok.1 hc
          obtain ⟨c2, h2, hc⟩ := bind_eq_ok.1 hc
          cases hc
          obtain ⟨hempty, hidx⟩ := addRegexConst_spec hgood h1
          have hl := hempty.length_eq
          obtain ⟨co, hco, hobj⟩ := ho hempty.good (by rw [hl, length_nil]; omega) h2
          refine ⟨_, hempty.trans (hco.emit _), fun K hK => ?_⟩
          exact .regex hns (getElem?_of_isPrefix (hco.constants.trans hK) hidx)
            (hempty.locals_eq ▸ hobj hK)
        · cases hc
        · cases hc
      · cases hc

/-- A function call. -/
theorem exprPass_fnCall (ha : ArgsPass lib args pass) :
    ExprPass lib (.fnCall name args) (compileFnCall name args pass) := by
  intro c c' hgood hlen hc
  rw [Expr.size] at hlen
  unfold compileFnCall at hc
  split at hc
  · rename_i id expected hfn
    split at hc
    · cases hc
    · rename_i hargc
      obtain ⟨seg, hseg, hcode⟩ := compileCall_spec ha hgood (by omega) hc
      exact ⟨_, hseg, fun K hK => .fn (not_not.1 hargc ▸ hfn) (hcode hK)⟩
  · cases hc

/-- A field of a namespace. -/
theorem exprPass_fieldAccess {field : String} : ExprPass lib (.fieldAccess object field)
      (compileMethodCall lib object field [] passo .ok) := by
  intro c c' hgood hlen hc
  unfold compileMethodCall at hc
  split at hc
  · rename_i ns id hns
    split at hc
    · cases hc
    · rename_i hargc
      cases hc
      exact ⟨_, emits_emit hgood _, fun K hK => .field hns (not_not.1 hargc).symm⟩
  · -- no other method goes without arguments
    split at hc
    · cases hc
    · split at hc <;> cases hc

mutual

/-- **`compile_expr` lays the code of the expression.** -/
theorem exprPass_compileExpr : ∀ e : Expr, ExprPass lib e (compileExpr lib e)
  | .stringLit s => by
    intro c c' hgood hlen hc
    obtain ⟨⟨i, c1⟩, h1, hc⟩ := bind_eq_ok.1 hc
    cases hc
    obtain ⟨hempty, hidx⟩ := addStrConst_spec hgood h1
    exact ⟨_, hempty.emit _, fun K hK => .stringLit (getElem?_of_isPrefix hK hidx)⟩
  | .intLit n => by
    intro c c' hgood hlen hc
    obtain ⟨⟨i, c1⟩, h1, hc⟩ := bind_eq_ok.1 hc
    cases hc
    obtain ⟨hempty, hidx⟩ := addIntConst_spec hgood h1
    exact ⟨_, hempty.emit _, fun K hK => .intLit (getElem?_of_isPrefix hK hidx)⟩
  | .boolLit true => by
    intro c c' hgood hlen hc
    cases hc
    exact ⟨_, emits_emit hgood _, fun K hK => .trueLit⟩
  | .boolLit false => by
    intro c c' hgood hlen hc
    cases hc
    exact ⟨_, emits_emit hgood _, fun K hK => .falseLit⟩
  | .nilLit => by
    intro c c' hgood hlen hc
    cases hc
    exact ⟨_, emits_emit hgood _, fun K hK => .nilLit⟩
  | .ident name => by
    intro c c' hgood hlen hc
    simp only [compileExpr] at hc
    split at hc
    · rename_i l hl
      cases hc
      exact ⟨_, emits_emit hgood _, fun K hK => .ident hl⟩
    · cases hc
  | .binaryOp op left right =>
    exprPass_binary (exprPass_compileExpr left) (exprPass_compileExpr right)
  | .unaryOp op operand => by
    intro c c' hgood hlen hc
    rw [Expr.size] at hlen
    obtain ⟨c1, h1, hc⟩ := bind_eq_ok.1 hc
    cases hc
    obtain ⟨seg, hseg, hcode⟩ := exprPass_compileExpr operand hgood (by omega) h1
    exact ⟨_, hseg.emit _, fun K hK => .unary (hcode hK)⟩
  | .methodCall object method args =>
    exprPass_methodCall (exprPass_compileExpr object) (argsPass_compileArgs args)
  | .fnCall name args => exprPass_fnCall (argsPass_compileArgs args)
  | .fieldAccess object field => exprPass_fieldAccess
termination_by structural e => e

theorem argsPass_compileArgs : ∀ args : List Expr, ArgsPass lib args (compileArgs lib args)
  | [] => by
    intro c c' hgood hlen hc
    cases hc
    exact ⟨_, .refl hgood, fun K hK => .nil⟩
  | arg :: args => by
    intro c c' hgood hlen hc
    rw [argsSize] at hlen
    obtain ⟨c1, h1, hc⟩ := bind_eq_ok.1 hc
    obtain ⟨seg, hseg, hcode⟩ := exprPass_compileExpr arg hgood (by omega) h1
    have hl := (hcode prefix_rfl).length_eq
    obtain ⟨segs, hsegs, hcodes⟩ := argsPass_compileArgs args hseg.good
      (by rw [hseg.length_eq]; omega) hc
    exact ⟨_, hseg.trans hsegs, fun K hK => .cons (hcode (hsegs.constants.trans hK))
      (hseg.locals_eq ▸ hcodes hK)⟩
termination_by structural args => args

end

/-! ## Statements -/

/-- **The pass of a statement** lays its code. -/
def StmtPass (lib : Lib) (s : Stmt) (pass : Pass) : Prop :=
  ∀ ⦃c c' : Compiler⦄, c.Good lib → c.code.length + s.size < 2 ^ 31 → pass c = .ok c' →
    ∃ seg, Lays lib c c' seg ∧ ∀ ⦃K⦄, c'.constants <+: K →
      StmtCode K c.locals c.nextSlot s seg c'.locals c'.nextSlot

/-- The pass of the statements of a body. -/
def BlockPass (lib : Lib) (stmts : List Stmt) (pass : Pass) : Prop :=
  ∀ ⦃c c' : Compiler⦄, c.Good lib → c.code.length + blockSize stmts < 2 ^ 31 → pass c = .ok c' →
    ∃ seg, Lays lib c c' seg ∧ ∀ ⦃K⦄, c'.constants <+: K →
      BlockCode K c.locals c.nextSlot stmts seg c'.locals c'.nextSlot

/-- A body in a scope of its own: the locals are those from before. -/
theorem inScope_spec {stmts : List Stmt} (hb : BlockPass lib stmts pass)
    (hgood : c.Good lib) (hlen : c.code.length + blockSize stmts < 2 ^ 31)
    (hc : inScope pass c = .ok c') :
    ∃ seg Γ', Lays lib c c' seg ∧ c'.locals = c.locals ∧ ∀ ⦃K⦄, c'.constants <+: K →
      BlockCode K c.locals c.nextSlot stmts seg Γ' c'.nextSlot := by
  obtain ⟨c1, h1, c2, h2, hc⟩ := bind_bind_eq_ok.1 hc
  have he := enterScope_spec hgood h1
  obtain ⟨seg, hseg, hcode⟩ := hb he.good (he.code ▸ hlen) h2
  rw [he.locals, he.nextSlot] at hcode
  have hle := (hcode prefix_rfl).scope.le
  obtain ⟨hlays, hloc, hnext, hconst⟩ := leaveScope_spec hgood he hseg hle hc
  exact ⟨seg, c2.locals, hlays, hloc, fun K hK => hnext ▸ hcode (hconst ▸ hK)⟩

theorem emits_enterLoop (h : c.Good lib) : Emits lib c c.enterLoop [] :=
  ⟨⟨(append_nil _).symm, prefix_rfl, rfl, { h with }, [], rfl,
    fun _ hl => absurd hl not_mem_nil⟩, rfl, rfl⟩

theorem Lays.leaveLoop (h : Lays lib c c' seg) : Lays lib c c'.leaveLoop seg :=
  ⟨h.code, h.constants, h.scopeDepth,
    { h.good with }, h.locals⟩

/-- **The end of a loop**: the jump out of it is patched, and the scope is left. -/
theorem closeLoop_spec {c3 c4 : Compiler} {pre head body : List OpCode} (hgood : c.Good lib)
    (he : Enters lib c c1) (hpre : Lays lib c1 c2 (pre ++ [.loopInit]))
    (hhead : Lays lib c2 c3 head) (hbody : Lays lib (c3.emit (.jumpIfFalse 0)) c4 body)
    (hlen : c.code.length + pre.length + head.length + body.length + 4 < 2 ^ 31)
    (hle : c.nextSlot ≤ c4.nextSlot)
    (hc : closeLoop c3.currentOffset c2.currentOffset c4 = .ok c') :
    Lays lib c c' (pre ++ loopCode head body) ∧ c'.locals = c.locals ∧
      c'.nextSlot = c4.nextSlot ∧ c'.constants = c4.constants := by
  have hl := ((hpre.trans hhead).emit (.jumpIfFalse 0)).trans hbody
  have hstart := hpre.length_eq
  have hexit := hhead.length_eq
  have hcur := hl.length_eq
  simp only [length_append, length_cons, length_nil, he.code] at hstart hcur
  -- the offset back to the start of the loop
  have hback : asI32 (asI32 c2.currentOffset - asI32 (asI32 c4.currentOffset + 1)) =
      -(head.length + body.length + 2) := by
    simp only [currentOffset]
    rw [backOffset_eq (by omega) (by omega)]
    omega
  unfold closeLoop emitLoopBack at hc
  rw [hback] at hc
  -- the jump out of the loop leads behind the jump back
  have hpatched := (hl.emit (.loopBack (-(head.length + body.length + 2)))).patchJump
    c3.currentOffset (a := pre ++ .loopInit :: head)
    (b := body ++ [.loopBack (-(head.length + body.length + 2))]) (by simp; rfl)
    (by simp only [currentOffset, he.code, length_append, length_cons]; omega)
    (by simp only [he.code, length_append, length_cons, length_nil]; omega)
  obtain ⟨hlays, hloc, hnext, hconst⟩ :=
    leaveScope_spec hgood he (hpatched.emit .loopEnd).leaveLoop hle hc
  refine ⟨?_, hloc, hnext, hconst⟩
  simpa [loopCode, setOffset] using hlays

/-- The increment of a counter. -/
theorem emitIncrement_spec (hgood : c.Good lib) (hc : c.emitIncrement slot = .ok c') :
    ∃ one, Emits lib c c' (incrementCode slot one) ∧ c'.constants[one]? = some (.int 1) := by
  obtain ⟨⟨one, c1⟩, h1, hc⟩ := bind_eq_ok.1 hc
  cases hc
  have hget := emits_emit hgood (.getLocal slot)
  obtain ⟨hempty, hone⟩ := addIntConst_spec hget.good h1
  refine ⟨one, ?_, hone⟩
  simpa [incrementCode] using
    (((hget.trans hempty).emit (.loadConst one)).emit .add).emit (.setLocal slot)

variable {value : Expr}

/-- `let`. -/
theorem stmtPass_let (hv : ExprPass lib value pass) :
    StmtPass lib (.letStmt name m value) (compileLet name m pass) := by
  intro c c' hgood hlen hc
  rw [size] at hlen
  obtain ⟨-, -, c1, h1, hc⟩ := bind_bind_eq_ok.1 hc
  obtain ⟨⟨slot, c2⟩, h2, hc⟩ := bind_eq_ok.1 hc
  cases hc
  obtain ⟨seg, hseg, hcode⟩ := hv hgood (by omega) h1
  obtain ⟨rfl, hloc, hnext, hK2, hlays⟩ := hseg.setLocal h2
  refine ⟨_, hlays, fun K hK => ?_⟩
  have hstmt : StmtCode K c.locals c.nextSlot (.letStmt name m value)
      (seg ++ [.setLocal c.nextSlot]) (⟨name, c.nextSlot, m, c.scopeDepth⟩ :: c.locals)
      (c.nextSlot + 1) :=
    .letStmt (hcode (hK2.trans hK))
  rw [← hloc, ← hnext] at hstmt
  exact hstmt

/-- `x = value`. -/
theorem stmtPass_assign (hv : ExprPass lib value pass) :
    StmtPass lib (.assign name value) (compileAssign name pass) := by
  intro c c' hgood hlen hc
  rw [size] at hlen
  unfold compileAssign at hc
  split at hc
  · rename_i l hl
    split at hc
    · rename_i hm
      obtain ⟨c1, h1, hc⟩ := bind_eq_ok.1 hc
      cases hc
      obtain ⟨seg, hseg, hcode⟩ := hv hgood (by omega) h1
      refine ⟨_, (hseg.emit _).toLays, fun K hK => ?_⟩
      have hstmt := assign (n := c.nextSlot) hl hm (hcode hK)
      simpa only [Compiler.emit, hseg.locals_eq, hseg.nextSlot_eq] using hstmt
    · cases hc
  · cases hc

/-- `while`. -/
theorem stmtPass_while (hcond : ExprPass lib condition passc) (hbody : BlockPass lib body passb) :
    StmtPass lib (.whileStmt condition body) (compileWhile passc passb) := by
  intro c c' hgood hlen hc
  rw [size] at hlen
  obtain ⟨c1, h1, c2, h2, hc⟩ := bind_bind_eq_ok.1 hc
  obtain ⟨c3, h3, hc⟩ := bind_eq_ok.1 hc
  have he := enterScope_spec hgood h1
  have hinit := (emits_enterLoop he.good).emit .loopInit
  have hl1 := hinit.length_eq
  rw [he.code] at hl1
  obtain ⟨cc, hcc, hcode⟩ := hcond hinit.good (by
    rw [hl1]
    simp only [length_append, length_cons, length_nil]
    omega) h2
  have hlc := (hcode prefix_rfl).length_eq
  have hjump := hcc.emit (.jumpIfFalse 0)
  have hl2 := hjump.length_eq
  simp only [length_append, length_cons, length_nil] at hl1 hl2
  obtain ⟨cb, Γ', hcb, hloc, hblock⟩ := inScope_spec hbody hjump.good (by omega) h3
  have hlb := (hblock prefix_rfl).length_eq
  have hle := (hblock prefix_rfl).scope.le
  rw [hjump.locals_eq, hjump.nextSlot_eq, hinit.locals_eq, hinit.nextSlot_eq, he.locals,
    he.nextSlot] at hblock
  rw [hjump.nextSlot_eq, hinit.nextSlot_eq, he.nextSlot] at hle
  obtain ⟨hlays, hlocals', hnext, hconst⟩ := closeLoop_spec hgood he hinit.toLays hcc.toLays hcb
    (by simp only [length_nil]; omega) hle hc
  refine ⟨_, hlays, fun K hK => ?_⟩
  rw [hlocals', hnext]
  rw [hconst] at hK
  rw [hinit.locals_eq, he.locals] at hcode
  exact .whileStmt (hcode (hcb.constants.trans hK)) (hblock hK)

variable {passe : Pass} {x : String}

/-- `for x in start..stop`. -/
theorem stmtPass_forRange {start stop : Expr} {passs : Pass} (hstart : ExprPass lib start passs)
    (hstop : ExprPass lib stop passe) (hbody : BlockPass lib body passb) :
    StmtPass lib (.forRange x start stop body) (compileForRange x passs passe passb) := by
  intro c c' hgood hlen hc
  rw [size] at hlen
  obtain ⟨-, -, c1, h1, hc⟩ := bind_bind_eq_ok.1 hc
  obtain ⟨c2, h2, ⟨endSlot, c3⟩, h3, hc⟩ := bind_bind_eq_ok.1 hc
  obtain ⟨c4, h4, ⟨varSlot, c5⟩, h5, hc⟩ := bind_bind_eq_ok.1 hc
  obtain ⟨c6, h6, c7, h7, hclose⟩ := bind_bind_eq_ok.1 hc
  have he := enterScope_spec hgood h1
  have hloop := emits_enterLoop he.good
  -- the upper bound, and its hidden local
  obtain ⟨ce, hce, hend⟩ := hstop hloop.good (by
    rw [hloop.length_eq, he.code, length_nil]; omega) h2
  have hle := (hend prefix_rfl).length_eq
  obtain ⟨rfl, hΓ3, hn3, hK3, hset⟩ := (hloop.trans hce).setLocal h3
  rw [he.locals, he.nextSlot] at hΓ3
  rw [he.nextSlot] at hn3
  have hd3 : c3.scopeDepth = c1.scopeDepth := hset.scopeDepth
  -- the lower bound, and the loop variable
  obtain ⟨cs, hcs, hbegin⟩ := hstart hset.good (by
    rw [hset.length_eq, he.code]
    simp only [length_append, length_cons, length_nil]
    omega) h4
  have hls := (hbegin prefix_rfl).length_eq
  obtain ⟨hvarSlot, hΓ5, hn5, hK5, hvar⟩ := hcs.setLocal h5
  obtain rfl : varSlot = c3.nextSlot := hvarSlot
  change c5.locals = ⟨x, c3.nextSlot, false, c3.scopeDepth⟩ :: c3.locals at hΓ5
  change c5.nextSlot = c3.nextSlot + 1 at hn5
  rw [hn3, hd3, hΓ3] at hΓ5
  rw [hn3] at hn5
  have hinit := (hset.trans hvar).emit .loopInit
  have hhead := (((emits_emit hinit.good (.getLocal c3.nextSlot)).emit
    (.getLocal c1.nextSlot)).emit .less).toLays
  have hjump := (hinit.trans hhead).emit (.jumpIfFalse 0)
  obtain ⟨cb, Γ', hcb, hΓ6, hblock⟩ := inScope_spec hbody hjump.good (by
    rw [hjump.length_eq, he.code]
    simp only [length_append, length_cons, length_nil]
    omega) h6
  have hlb := (hblock prefix_rfl).length_eq
  have hslots : c5.nextSlot ≤ c6.nextSlot := (hblock prefix_rfl).scope.le
  obtain ⟨one, hinc, hone⟩ := emitIncrement_spec hcb.good h7
  obtain ⟨hlays, hloc, hnext, hconst⟩ := closeLoop_spec hgood he hinit hhead
    (hcb.trans hinc.toLays)
    (by
      simp only [length_append, length_cons, length_nil, incrementCode]
      omega)
    (by rw [hinc.nextSlot_eq]; omega) hclose
  refine ⟨_, hlays, fun K hK => ?_⟩
  rw [hconst] at hK
  have hK6 := hinc.constants.trans hK
  have hK4 := hK5.trans (hcb.constants.trans hK6)
  have hend := hend (hK3.trans (hcs.constants.trans hK4))
  have hbegin : ExprCode K c3.locals start cs := hbegin hK4
  have hblock : BlockCode K c5.locals c5.nextSlot body cb Γ' c6.nextSlot := hblock hK6
  rw [hloop.locals_eq, he.locals] at hend
  rw [hΓ3] at hbegin
  rw [hΓ5, hn5] at hblock
  rw [hloc, hnext, hinc.nextSlot_eq]
  have hstmt := forRange hend hbegin (getElem?_of_isPrefix hK hone) hblock
  simpa [he.nextSlot, hn3] using hstmt

/-- `for x in iterable`. -/
theorem stmtPass_forIn {iterable : Expr} {passi : Pass}
    (hiter : ExprPass lib iterable passi) (hbody : BlockPass lib body passb) :
    StmtPass lib (.forIn x iterable body) (compileForIn x passi passb) := by
  intro c c' hgood hlen hc
  rw [size] at hlen
  obtain ⟨-, -, c1, h1, hc⟩ := bind_bind_eq_ok.1 hc
  obtain ⟨c2, h2, ⟨listSlot, c3⟩, h3, hc⟩ := bind_bind_eq_ok.1 hc
  obtain ⟨⟨zeroIdx, c4⟩, h4, hc⟩ := bind_eq_ok.1 hc
  obtain ⟨⟨idxSlot, c5⟩, h5, hc⟩ := bind_eq_ok.1 hc
  obtain ⟨⟨varSlot, c6⟩, h6, hc⟩ := bind_eq_ok.1 hc
  obtain ⟨c7, h7, c8, h8, hclose⟩ := bind_bind_eq_ok.1 hc
  have he := enterScope_spec hgood h1
  have hloop := emits_enterLoop he.good
  -- the list, and the hidden locals for it and for the index
  obtain ⟨ci, hci, hlist⟩ := hiter hloop.good (by
    rw [hloop.length_eq, he.code, length_nil]; omega) h2
  have hli := (hlist prefix_rfl).length_eq
  obtain ⟨rfl, hΓ3, hn3, hK3, hset⟩ := (hloop.trans hci).setLocal h3
  rw [he.locals, he.nextSlot] at hΓ3
  rw [he.nextSlot] at hn3
  have hd3 : c3.scopeDepth = c1.scopeDepth := hset.scopeDepth
  obtain ⟨hzero, hzeroIdx⟩ := addIntConst_spec hset.good h4
  obtain ⟨hidxSlot, hΓ5, hn5, hK5, hidx⟩ := (hzero.emit (.loadConst zeroIdx)).setLocal h5
  obtain rfl : idxSlot = c3.nextSlot := hidxSlot
  change c5.locals = ⟨"__idx__", c3.nextSlot, true, c3.scopeDepth⟩ :: c3.locals at hΓ5
  change c5.nextSlot = c3.nextSlot + 1 at hn5
  rw [hn3, hd3, hΓ3] at hΓ5
  rw [hn3] at hn5
  have hinit := (hset.trans hidx).emit .loopInit
  have hhead := ((((emits_emit hinit.good (.getLocal c3.nextSlot)).emit
    (.getLocal c1.nextSlot)).emit .listLen).emit .less).toLays
  have hjump := (hinit.trans hhead).emit (.jumpIfFalse 0)
  -- the loop variable is set in front of the body
  obtain ⟨rfl, hΓ6, hn6, hK6, helem⟩ := (((emits_emit hjump.good (.getLocal c1.nextSlot)).emit
    (.getLocal c3.nextSlot)).emit .listGet).setLocal h6
  change c6.locals = ⟨x, c5.nextSlot, false, c5.scopeDepth⟩ :: c5.locals at hΓ6
  change c6.nextSlot = c5.nextSlot + 1 at hn6
  have hd5 : c5.scopeDepth = c1.scopeDepth := hidx.scopeDepth.trans hd3
  rw [hn5, hd5, hΓ5] at hΓ6
  rw [hn5] at hn6
  have hvar := hjump.trans helem
  obtain ⟨cb, Γ', hcb, hΓ7, hblock⟩ := inScope_spec hbody hvar.good (by
    rw [hvar.length_eq, he.code]
    simp only [length_append, length_cons, length_nil]
    omega) h7
  have hlb := (hblock prefix_rfl).length_eq
  have hslots : c6.nextSlot ≤ c7.nextSlot := (hblock prefix_rfl).scope.le
  obtain ⟨one, hinc, hone⟩ := emitIncrement_spec hcb.good h8
  obtain ⟨hlays, hloc, hnext, hconst⟩ := closeLoop_spec hgood he hinit hhead
    (helem.trans (hcb.trans hinc.toLays))
    (by
      simp only [length_append, length_cons, length_nil, incrementCode]
      omega)
    (by rw [hinc.nextSlot_eq]; omega) hclose
  refine ⟨_, hlays, fun K hK => ?_⟩
  rw [hconst] at hK
  have hK7 := hinc.constants.trans hK
  have hK4 : c4.constants <+: K := hK5.trans (hK6.trans (hcb.constants.trans hK7))
  have hlist := hlist (hK3.trans (hzero.constants.trans hK4))
  have hblock : BlockCode K c6.locals c6.nextSlot body cb Γ' c7.nextSlot := hblock hK7
  rw [hloop.locals_eq, he.locals] at hlist
  rw [hΓ6, hn6] at hblock
  rw [hloc, hnext, hinc.nextSlot_eq]
  have hstmt := forIn hlist (getElem?_of_isPrefix hK4 hzeroIdx)
    (getElem?_of_isPrefix hK hone) hblock
  simpa [Compiler.emit, he.nextSlot, hn3, hn5] using hstmt

/-! ## Conditionals

The end jumps of the branches are all patched at the very end. Until then a branch stands there with
offset 0, so what the loop over the branches lays is said in two parts: the segment it leaves, and
the code that segment becomes once an `else` body follows and the jumps are patched. -/

/-- **The pass of the branches**, up to the patching of their end jumps. -/
def BranchesPass (lib : Lib) (branches : List (Expr × List Stmt)) (hasElse : Bool)
    (pass : Compiler → Except CompileStop (List ℕ × Compiler)) : Prop :=
  ∀ ⦃c c' : Compiler⦄ ⦃ends : List ℕ⦄, c.Good lib →
    c.code.length + branchesSize branches hasElse < 2 ^ 31 → pass c = .ok (ends, c') →
    ∃ seg, Lays lib c c' seg ∧ c'.locals = c.locals ∧
      seg.length = branchesSize branches hasElse ∧ c.nextSlot ≤ c'.nextSlot ∧
      ∀ ce : List OpCode, (hasElse = false → ce = []) →
        c.code.length + seg.length + ce.length < 2 ^ 31 →
        ∃ code, (∀ pre : List OpCode, pre.length = c.code.length →
            ends.foldl patchAt (pre ++ (seg ++ ce)) = pre ++ code) ∧
          ∀ ⦃K⦄, c'.constants <+: K →
            BranchesCode K c.locals c.nextSlot branches hasElse ce code c'.nextSlot

/-- A branch: its condition, its body and the jump that ends it if there is more. -/
theorem compileBranch_spec {more : Bool} {ends : List ℕ} (hcond : ExprPass lib condition passc)
    (hbody : BlockPass lib body passb) (hgood : c.Good lib)
    (hlen : c.code.length + (condition.size + 1 + blockSize body + if more then 1 else 0) < 2 ^ 31)
    (hc : compileBranch more passc passb c = .ok (ends, c')) :
    ∃ cc cb Γ', (if more then
          Lays lib c c' (cc ++ .jumpIfFalse (cb.length + 1) :: (cb ++ [.jump 0])) ∧
            ends = [c.code.length + (cc.length + 1 + cb.length)]
        else Lays lib c c' (cc ++ .jumpIfFalse cb.length :: cb) ∧ ends = []) ∧
      c'.locals = c.locals ∧ ∀ ⦃K⦄, c'.constants <+: K → ExprCode K c.locals condition cc ∧
        BlockCode K c.locals c.nextSlot body cb Γ' c'.nextSlot := by
  obtain ⟨c1, h1, c2, h2, hc⟩ := bind_bind_eq_ok.1 hc
  obtain ⟨cc, hcc, hcode⟩ := hcond hgood (by omega) h1
  have hlc := (hcode prefix_rfl).length_eq
  have hjump := hcc.emit (.jumpIfFalse 0)
  have hlj := hjump.length_eq
  simp only [length_append, length_cons, length_nil] at hlj
  obtain ⟨cb, Γ', hcb, hloc, hblock⟩ := inScope_spec hbody hjump.good (by omega) h2
  have hlb := (hblock prefix_rfl).length_eq
  have hlays := hjump.toLays.trans hcb
  rw [hjump.locals_eq] at hloc
  rw [hjump.locals_eq, hjump.nextSlot_eq] at hblock
  refine ⟨cc, cb, Γ', ?_⟩
  rcases more with - | -
  · -- nothing follows: only the jump over the body is patched
    cases hc
    have hpatched := hlays.patchJump _ (a := cc) (b := cb) (by simp; rfl) hcc.length_eq (by
      simp only [length_append, length_cons, length_nil]
      omega)
    exact ⟨⟨hpatched, rfl⟩, hloc, fun K hK => ⟨hcode (hcb.constants.trans hK), hblock hK⟩⟩
  · cases hc
    rw [if_pos rfl] at hlen
    have hpatched := (hlays.emit (.jump 0)).patchJump _ (a := cc) (b := cb ++ [.jump 0])
      (by simp; rfl) hcc.length_eq (by
        simp only [length_append, length_cons, length_nil]
        omega)
    refine ⟨⟨?_, ?_⟩, hloc, fun K hK => ⟨hcode (hcb.constants.trans hK), hblock hK⟩⟩
    · simpa [setOffset, currentOffset] using hpatched
    · rw [currentOffset, hlays.length_eq]
      simp only [length_append, length_cons, length_nil]

/-- The last branch of a conditional without `else`. -/
theorem branchesPass_last
    (hcond : ExprPass lib condition passc) (hbody : BlockPass lib body passb) :
    BranchesPass lib [(condition, body)] false (compileBranch false passc passb) := by
  intro c c' ends hgood hlen hc
  obtain ⟨cc, cb, Γ', hlays, hloc, hcode⟩ := compileBranch_spec hcond hbody hgood hlen hc
  obtain ⟨hlays, rfl⟩ : Lays lib c c' (cc ++ .jumpIfFalse cb.length :: cb) ∧ ends = [] := hlays
  obtain ⟨hlc, hlb⟩ := hcode prefix_rfl
  refine ⟨_, hlays, hloc, ?_, hlb.scope.le, fun ce hce _ => ⟨_, fun pre _ => rfl, fun K hK => ?_⟩⟩
  · simp [branchesSize, hlc.length_eq, hlb.length_eq]
    omega
  · rw [hce rfl, append_nil]
    exact .last (hcode hK).1 (hcode hK).2

/-- A branch with more behind it. -/
theorem branchesPass_branch {rest : List (Expr × List Stmt)} {hasElse : Bool}
    {passr : Compiler → Except CompileStop (List ℕ × Compiler)}
    (hcond : ExprPass lib condition passc) (hbody : BlockPass lib body passb)
    (hrest : BranchesPass lib rest hasElse passr) (hmore : (!rest.isEmpty || hasElse)) :
    BranchesPass lib ((condition, body) :: rest) hasElse
      (fun c => compileBranch true passc passb c >>= fun r => passr r.2 >>= fun r' =>
        .ok (r.1 ++ r'.1, r'.2)) := by
  intro c c' ends hgood hlen hc
  rw [branchesSize, hmore, if_pos rfl] at hlen
  obtain ⟨⟨ends1, c1⟩, h1, hc⟩ := bind_eq_ok.1 hc
  obtain ⟨⟨ends2, c2⟩, h2, hc⟩ := bind_eq_ok.1 hc
  cases hc
  obtain ⟨cc, cb, Γ', hlays, hloc, hcode⟩ :=
    compileBranch_spec hcond hbody hgood (by rw [if_pos rfl]; omega) h1
  obtain ⟨hlays, rfl⟩ := hlays
  have hlc := (hcode prefix_rfl).1.length_eq
  have hlb := (hcode prefix_rfl).2.length_eq
  have hl1 := hlays.length_eq
  simp only [length_append, length_cons, length_nil] at hl1
  obtain ⟨seg, hseg, hlocals2, hls, hslots, hpatch⟩ := hrest hlays.good (by omega) h2
  refine ⟨_, hlays.trans hseg, hlocals2.trans hloc, ?_,
    (hcode prefix_rfl).2.scope.le.trans hslots, fun ce hce hlen' => ?_⟩
  · rw [branchesSize, hmore, if_pos rfl]
    simp only [length_append, length_cons, length_nil]
    omega
  · simp only [length_append, length_cons, length_nil] at hlen'
    obtain ⟨code, hfold, hbranches⟩ := hpatch ce hce (by omega)
    rw [hloc] at hbranches
    have hlr := (hbranches prefix_rfl).length_eq
    refine ⟨cc ++ .jumpIfFalse (cb.length + 1) :: (cb ++ .jump code.length :: code),
      fun pre hpre => ?_, fun K hK => .branch (hcode (hseg.constants.trans hK)).1
        (hcode (hseg.constants.trans hK)).2 (hbranches hK) hmore⟩
    -- the jump of this branch comes first, then those of the others
    have hfst := patchAt_eq (.jump 0)
      (a := pre ++ (cc ++ .jumpIfFalse (cb.length + 1) :: cb)) (b := seg ++ ce) (by
        simp only [length_append, length_cons]
        omega)
    have hrestFold := hfold
      (pre ++ (cc ++ .jumpIfFalse (cb.length + 1) :: (cb ++ [.jump code.length]))) (by
        simp only [length_append, length_cons, length_nil]
        omega)
    have hidx : c.code.length + (cc.length + 1 + cb.length) =
        (pre ++ (cc ++ .jumpIfFalse (cb.length + 1) :: cb)).length := by
      simp only [length_append, length_cons]
      omega
    have hoffset : (seg ++ ce).length = code.length := by
      rw [length_append]
      omega
    rw [singleton_append, foldl_cons, hidx]
    simp only [setOffset, hoffset] at hfst
    simp only [append_assoc, cons_append, nil_append] at hfst hrestFold ⊢
    rw [hfst, hrestFold]

/-- The pass of an `else` body. -/
def ElsePass (lib : Lib) (elseBody : Option (List Stmt)) (pass : Pass) : Prop :=
  ∀ ⦃c c' : Compiler⦄, c.Good lib → c.code.length + elseSize elseBody < 2 ^ 31 →
    pass c = .ok c' → ∃ seg, Lays lib c c' seg ∧ c'.locals = c.locals ∧ ∀ ⦃K⦄,
      c'.constants <+: K → ElseCode K c.locals c.nextSlot elseBody seg c'.nextSlot

theorem foldl_patchJump (ends : List ℕ) (c : Compiler) :
    ends.foldl patchJump c = { c with code := ends.foldl patchAt c.code } := by
  induction ends generalizing c with
  | nil => rfl
  | cons idx ends ih => rw [foldl_cons, ih]; rfl

/-- `if`. -/
theorem stmtPass_if {branches : List (Expr × List Stmt)} {elseBody : Option (List Stmt)}
    {passb : Compiler → Except CompileStop (List ℕ × Compiler)}
    (hb : BranchesPass lib branches elseBody.isSome passb) (he : ElsePass lib elseBody passe) :
    StmtPass lib (.ifStmt branches elseBody) (fun c => passb c >>= closeIf passe) := by
  intro c c' hgood hlen hc
  rw [size] at hlen
  obtain ⟨⟨ends, c1⟩, h1, hc⟩ := bind_eq_ok.1 hc
  obtain ⟨c2, h2, hc⟩ := bind_eq_ok.1 hc
  cases hc
  obtain ⟨seg, hseg, hloc, hls, hslots, hpatch⟩ := hb hgood (by omega) h1
  obtain ⟨ce, hce, hlocals2, helse⟩ := he hseg.good (by rw [hseg.length_eq]; omega) h2
  have hle := (helse prefix_rfl).length_eq
  have hempty : elseBody.isSome = false → ce = [] := by
    intro hnone
    rw [isSome_eq_false_iff, isNone_iff_eq_none] at hnone
    exact eq_nil_of_length_eq_zero (hle.trans (hnone ▸ rfl))
  obtain ⟨code, hfold, hcode⟩ := hpatch ce hempty (by omega)
  have hlays := hseg.trans hce
  rw [foldl_patchJump]
  refine ⟨code, ⟨?_, hlays.constants, hlays.scopeDepth, ⟨hlays.good.strs, hlays.good.ints,
    hlays.good.regexes, hlays.good.depths, hlays.good.fits⟩, hlays.locals⟩, fun K hK => ?_⟩
  · exact hlays.code ▸ hfold c.code rfl
  · have hK1 := hce.constants.trans hK
    rw [hloc] at helse
    simpa only [hlocals2, hloc] using ifStmt (hcode hK1) (helse hK)

mutual

/-- **`compile_stmt` lays the code of the statement.** -/
theorem stmtPass_compileStmt : ∀ s : Stmt, StmtPass lib s (compileStmt lib s)
  | .letStmt name m value => stmtPass_let (exprPass_compileExpr value)
  | .assign name value => stmtPass_assign (exprPass_compileExpr value)
  | .ifStmt branches elseBody =>
    stmtPass_if (branchesPass_compileBranches branches elseBody.isSome)
      (elsePass_compileElse elseBody)
  | .forRange x start stop body =>
    stmtPass_forRange (exprPass_compileExpr start) (exprPass_compileExpr stop)
      (blockPass_compileStmts body)
  | .forIn x iterable body =>
    stmtPass_forIn (exprPass_compileExpr iterable) (blockPass_compileStmts body)
  | .whileStmt condition body =>
    stmtPass_while (exprPass_compileExpr condition) (blockPass_compileStmts body)
  | .returnDeny status body => by
    intro c c' hgood hlen hc
    rw [size] at hlen
    obtain ⟨c1, h1, c2, h2, hc⟩ := bind_bind_eq_ok.1 hc
    cases hc
    obtain ⟨cs, hcs, hs⟩ := exprPass_compileExpr status hgood (by omega) h1
    have hl := (hs prefix_rfl).length_eq
    obtain ⟨cb, hcb, hb⟩ := exprPass_compileExpr body hcs.good (by rw [hcs.length_eq]; omega) h2
    have hall := hcs.trans (hcb.emit .returnDeny)
    refine ⟨_, hall.toLays, fun K hK => ?_⟩
    rw [hall.locals_eq, hall.nextSlot_eq]
    exact .returnDeny (hs (hcb.constants.trans hK)) (hcs.locals_eq ▸ hb hK)
  | .returnNext => by
    intro c c' hgood hlen hc
    cases hc
    exact ⟨_, (emits_emit hgood _).toLays, fun K hK => .returnNext⟩
  | .exprStmt expr => by
    intro c c' hgood hlen hc
    rw [size] at hlen
    obtain ⟨c1, h1, hc⟩ := bind_eq_ok.1 hc
    cases hc
    obtain ⟨seg, hseg, hcode⟩ := exprPass_compileExpr expr hgood (by omega) h1
    have hall := hseg.emit .pop
    refine ⟨_, hall.toLays, fun K hK => ?_⟩
    rw [hall.locals_eq, hall.nextSlot_eq]
    exact .exprStmt (hcode hK)
termination_by structural s => s

/-- A sequence of statements lays their code one after the other. -/
theorem blockPass_compileStmts : ∀ stmts : List Stmt, BlockPass lib stmts (compileStmts lib stmts)
  | [] => by
    intro c c' hgood hlen hc
    cases hc
    exact ⟨_, .refl hgood, fun K hK => .nil⟩
  | stmt :: stmts => by
    intro c c' hgood hlen hc
    rw [blockSize] at hlen
    obtain ⟨c1, h1, hc⟩ := bind_eq_ok.1 hc
    obtain ⟨seg, hseg, hcode⟩ := stmtPass_compileStmt stmt hgood (by omega) h1
    have hl := (hcode prefix_rfl).length_eq
    obtain ⟨segs, hsegs, hcodes⟩ := blockPass_compileStmts stmts hseg.good
      (by rw [hseg.length_eq]; omega) hc
    exact ⟨_, hseg.trans hsegs, fun K hK => .cons (hcode (hsegs.constants.trans hK)) (hcodes hK)⟩
termination_by structural stmts => stmts

/-- The branches of a conditional, in front of its `else` body. -/
theorem branchesPass_compileBranches : ∀ (branches : List (Expr × List Stmt)) (hasElse : Bool),
    BranchesPass lib branches hasElse (compileBranches lib branches hasElse)
  | [], hasElse => by
    intro c c' ends hgood hlen hc
    cases hc
    exact ⟨[], .refl hgood, rfl, rfl, le_rfl, fun ce _ _ => ⟨ce, fun pre _ => rfl,
      fun K hK => .nil⟩⟩
  | (condition, body) :: rest, hasElse => by
    have hcond : ExprPass lib condition (compileExpr lib condition) := exprPass_compileExpr condition
    have hbody := blockPass_compileStmts body
    have hrest := branchesPass_compileBranches rest hasElse
    intro c c' ends hgood hlen hc
    by_cases hmore : (!rest.isEmpty || hasElse) = true
    · refine branchesPass_branch hcond hbody hrest hmore hgood hlen ?_
      rw [compileBranches, hmore] at hc
      exact hc
    · -- nothing behind it: there is no branch left, and no `else`
      rcases rest with - | ⟨r, rest⟩
      · rcases hasElse with - | -
        · refine branchesPass_last hcond hbody hgood hlen ?_
          obtain ⟨⟨ends1, c1⟩, h1, hc⟩ := bind_eq_ok.1 hc
          cases hc
          rw [append_nil]
          exact h1
        · exact absurd rfl hmore
      · exact absurd rfl hmore
termination_by structural branches => branches

theorem elsePass_compileElse : ∀ elseBody : Option (List Stmt),
    ElsePass lib elseBody (compileElse lib elseBody)
  | none => by
    intro c c' hgood hlen hc
    cases hc
    exact ⟨_, .refl hgood, rfl, fun K hK => .none⟩
  | some body => by
    intro c c' hgood hlen hc
    obtain ⟨seg, Γ', hseg, hloc, hcode⟩ :=
      inScope_spec (blockPass_compileStmts body) hgood hlen hc
    exact ⟨_, hseg, hloc, fun K hK => .some (hcode hK)⟩
termination_by structural elseBody => elseBody

end

/-! ## Programs -/

/-- **The script of a program**: the code of its statements, perhaps with a return behind it, and
constants whose patterns all compile. -/
theorem compile_spec {p : Program} {script : CompiledScript} (hp : p.size < 2 ^ 31)
    (h : compile lib p = .ok script) :
    ∃ seg tail Γ', script.code = seg ++ tail ∧ (tail = [] ∨ tail = [.returnNext]) ∧
      BlockCode script.constants [] 0 p.stmts seg Γ' script.localCount ∧
      ∀ pattern, Constant.regex pattern ∈ script.constants →
        lib.regexError pattern = none ∧ Text.len pattern ≤ maxRegexPatternLen := by
  obtain ⟨c, h1, h⟩ := bind_eq_ok.1 h
  have hgood : new.Good lib :=
    ⟨fun _ _ h => absurd h not_mem_nil, fun _ _ h => absurd h not_mem_nil,
      fun _ h => absurd h not_mem_nil, fun _ h => absurd h not_mem_nil, pairwise_singleton _ _⟩
  obtain ⟨seg, hseg, hcode⟩ := blockPass_compileStmts p.stmts hgood
    (by exact (Nat.zero_add _).symm ▸ hp) h1
  have hc : c.code = seg := hseg.code
  cases h
  by_cases hr : c.endsWithReturn = true
  · simp only [hr, if_true]
    exact ⟨seg, [], c.locals, by rw [hc, append_nil], .inl rfl, hcode prefix_rfl, hseg.good.regexes⟩
  · simp only [hr, Bool.false_eq_true, if_false]
    exact ⟨seg, [.returnNext], c.locals, by rw [← hc]; rfl, .inr rfl, hcode prefix_rfl,
      hseg.good.regexes⟩

end Compiler

end Edgion.Dsl
