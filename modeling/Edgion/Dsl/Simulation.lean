import Edgion.Dsl.Evaluation

/-!
# Compiled scripts do what their programs mean

The code of a statement follows the statement. It changes no slot below the next free one but those
of variables that can be assigned, which is why the locals of a loop are still there after its body.
Put together, a compiled script gives the result of its program and makes the same calls on the
session in the same order, unless a limit cuts it short.
-/

namespace Edgion.Dsl

open Common List Int64 Nat Stmt Option OpCode

section

variable {σ : Type} {lib : Lib} {S : Session σ} {vm : Vm} {pc b k n n' : ℕ} {stk L L' L'' : List Value}
  {lc : List ℕ} {w : World σ} {Γ Γ' : List Local}

/-! ## What statements leave alone -/

/-- The slots below a free one hold what they held, but those of variables that can be assigned. -/
structure Spares (Γ : List Local) (n : ℕ) (L L' : List Value) : Prop where
  length : L'.length = L.length
  slots : ∀ slot < n, (∀ l ∈ Γ, l.slot = slot → l.mutable = true → l.name ∈ hiddenNames) →
    L'.getD slot .nil = L.getD slot .nil

namespace Spares

theorem refl (Γ : List Local) (n : ℕ) (L : List Value) : Spares Γ n L L := ⟨rfl, fun _ _ _ => rfl⟩

theorem trans (h : Spares Γ n L L') (h' : Spares Γ n L' L'') : Spares Γ n L L'' :=
  ⟨h'.length.trans h.length, fun slot hs hl => (h'.slots slot hs hl).trans (h.slots slot hs hl)⟩

/-- A free slot is set. -/
theorem set {slot : ℕ} (hslot : n ≤ slot) (v : Value) : Spares Γ n L (L.set slot v) :=
  ⟨length_set, fun slot' hs _ => getD_set_ne (by omega)⟩

/-- A variable is assigned. -/
theorem assign {name : String} {l : Local} (hl : resolveLocal Γ name = some l)
    (hm : l.mutable) (hname : name ∉ hiddenNames) (v : Value) :
    Spares Γ n L (L.set l.slot v) := by
  refine ⟨length_set, fun slot _ hslot => getD_set_ne ?_⟩
  rintro rfl
  have heq : l.name = name := by simpa using find?_some hl
  exact hname (heq ▸ hslot l (mem_of_find?_eq_some hl) rfl hm)

theorem narrow (h : Spares Γ' n' L L') (hn : n ≤ n') (hadded : ∀ l ∈ Γ', l ∈ Γ ∨ n ≤ l.slot) :
    Spares Γ n L L' := by
  refine ⟨h.length, fun slot hs hslot => h.slots slot (by omega) fun l hl heq hm => ?_⟩
  rcases hadded l hl with hl | hle
  · exact hslot l hl heq hm
  · omega

variable (added : List Local)

/-- A loop's own locals, which its body cannot assign, hold what they held. -/
theorem own (slot : ℕ) (h : Spares (added ++ Γ) n' L L') (hfits : Fits Γ n)
    (hadded : ∀ l ∈ added, l.mutable → l.name ∈ hiddenNames) (hn : n ≤ slot)
    (hslot : slot < n') : L'.getD slot .nil = L.getD slot .nil := by
  refine h.slots slot hslot fun l hl _ hm => ?_
  rcases mem_append.1 hl with hl | hl
  · exact hadded l hl hm
  · have := hfits.slot_lt hl
    omega

/-- They do not matter outside. -/
theorem drop (h : Spares (added ++ Γ) n' L L') (hn : n ≤ n')
    (hadded : ∀ l ∈ added, n ≤ l.slot) : Spares Γ n L L' :=
  h.narrow hn fun l hl => (mem_append.1 hl).symm.imp_right (hadded l)

end Spares

/-- A statement is done: its variables are where the scope after it has them. -/
def Done (pc : ℕ) (stk : List Value) (lc : List ℕ) (Γ : List Local) (n : ℕ) (L : List Value)
    (Γ' : List Local) (p : Env × World σ) (st : VmState σ) : Prop :=
  ∃ b L', st = ⟨pc, stk, L', lc, b, p.2⟩ ∧ envOf Γ' L' = p.1 ∧ Spares Γ n L L'

variable {st : VmState σ} {one i depth : ℕ} {v : Value} {name : String}
  {p : Env × World σ} {Γ1 Γ2 : List Local}

theorem Done.narrow (h : Done pc stk lc Γ1 n' L Γ2 p st) (hn : n ≤ n')
    (hadded : ∀ l ∈ Γ1, l ∈ Γ ∨ n ≤ l.slot) : Done pc stk lc Γ n L Γ2 p st := by
  obtain ⟨b, L', hst, henv, hspares⟩ := h
  exact ⟨b, L', hst, henv, hspares.narrow hn hadded⟩

theorem Done.after (h : Done pc stk lc Γ n L' Γ' p st)
    (hspares : Spares Γ n L L') : Done pc stk lc Γ n L Γ' p st := by
  obtain ⟨b, L'', hst, henv, hspares'⟩ := h
  exact ⟨b, L'', hst, henv, hspares.trans hspares'⟩

open Machine

/-- **A block**: the variables outside it are there again once it is done. -/
theorem follows_inBlock {body : Action σ} {own : Env} (hown : own ++ envOf Γ L = envOf Γ1 L)
    (hb : (vm.machine lib S).Follows k st (body (envOf Γ1 L) w) (Done pc stk lc Γ1 n L Γ2))
    (hsuf : Γ <:+ Γ2) :
    (vm.machine lib S).Follows k st (inBlock body own (envOf Γ L) w) (Done pc stk lc Γ1 n L Γ) := by
  rw [inBlock, hown]
  refine hb.bind ?_
  rintro ⟨env, w⟩ _ ⟨b, L', rfl, rfl, hspares⟩
  exact follows_value ⟨b, L', rfl, (leave_envOf hsuf).symm, hspares⟩

/-! ## Loops -/

/-- The locals of `for … in start..stop`. -/
abbrev rangeScope (Γ : List Local) (n depth : ℕ) (x : String) : List Local :=
  ⟨x, n + 1, false, depth⟩ :: ⟨"__range_end__", n, false, depth⟩ :: Γ

/-- The locals of `for … in list`. -/
abbrev listScope (Γ : List Local) (n depth : ℕ) (x : String) : List Local :=
  ⟨x, n + 2, false, depth⟩ :: ⟨"__idx__", n + 1, true, depth⟩ :: ⟨"__list__", n, false, depth⟩ :: Γ

/-- What `for … in start..stop` repeats, around the code of its body. -/
abbrev rangeLoop (n one : ℕ) (cb : List OpCode) : List OpCode :=
  loopCode [.getLocal (n + 1), .getLocal n, .less] (cb ++ incrementCode (n + 1) one)

/-- What `for … in list` repeats. -/
abbrev listLoop (n one : ℕ) (cb : List OpCode) : List OpCode :=
  loopCode [.getLocal (n + 1), .getLocal n, .listLen, .less]
    (.getLocal n :: .getLocal (n + 1) :: .listGet :: .setLocal (n + 2) ::
      (cb ++ incrementCode (n + 1) one))

section

variable {head body : List OpCode} (hp : Placed vm pc (loopCode head body))

include hp

variable {c : ℕ} {v : Value}

/-- The condition of a loop does not hold. -/
theorem reaches_loopExit (hv : ¬ v.isTruthy = true) :
    (vm.machine lib S).Reaches ⟨pc + 1 + head.length, v :: stk, L, c :: lc, b, w⟩
      ⟨pc + (loopCode head body).length, stk, L, lc, b, w⟩ := by
  have hjump := hp.tail.right
  have hend := hjump.tail.right.tail
  have hle := hp.le
  rw [length_loopCode] at hle
  refine (advances_jumpIfFalse_of_not (pc + 1 + head.length + 1 + body.length + 1) hjump.head hv
    (by push_cast; ring) (by omega)).reaches.trans ?_
  have hpc : pc + (loopCode head body).length = pc + 1 + head.length + 1 + body.length + 1 + 1 := by
    rw [length_loopCode]
    omega
  rw [hpc]
  exact (advances_of_op hend.head (.inl rfl)).reaches

/-- The condition of a loop holds. -/
theorem reaches_loopBody (hv : v.isTruthy) :
    (vm.machine lib S).Reaches ⟨pc + 1 + head.length, v :: stk, L, c :: lc, b, w⟩
      ⟨pc + 1 + head.length + 1, stk, L, c :: lc, b, w⟩ :=
  (advances_jumpIfFalse_of_truthy hp.tail.right.head hv).reaches

/-- A loop goes back to its condition. -/
theorem advances_loopAgain : (vm.machine lib S).Advances
      ⟨pc + 1 + head.length + 1 + body.length, stk, L, c :: lc, b, w⟩
      ⟨pc + 1, stk, L, (c + 1) :: lc, b, w⟩ := by
  have hback := hp.tail.right.tail.right
  have hle := hp.le
  rw [length_loopCode] at hle
  exact advances_loopBack (pc + 1) hback.head (by push_cast; ring) (by omega)

/-- **`while`**, on as many rounds as its condition and its body allow. -/
theorem follows_whileLoop {condition : Env → World σ → Eval (Outcome × World σ) (Value × World σ)}
    {act : Action σ} {N : ℕ}
    (hcond : ∀ {L : List Value} {c b : ℕ} {w : World σ},
      (vm.machine lib S).Follows k ⟨pc + 1, stk, L, c :: lc, b, w⟩ (condition (envOf Γ L) w)
        (Pushed (pc + 1 + head.length) stk L (c :: lc)))
    (hbody : ∀ {L : List Value} {c b : ℕ} {w : World σ}, L.length = N →
      (vm.machine lib S).Follows k ⟨pc + 1 + head.length + 1, stk, L, c :: lc, b, w⟩
        (act (envOf Γ L) w)
        (Done (pc + 1 + head.length + 1 + body.length) stk (c :: lc) Γ n L Γ))
    {rounds : ℕ} (hrounds : rounds ≤ k) (hL : L.length = N) :
    (vm.machine lib S).Follows rounds ⟨pc + 1, stk, L, c :: lc, b, w⟩
      (whileLoop condition act rounds (envOf Γ L) w)
      (Done (pc + (loopCode head body).length) stk lc Γ n L Γ) := by
  induction rounds generalizing L c b w with
  | zero =>
    -- with no round left a run of no steps is cut short
    intro m hm
    obtain rfl : m = 0 := le_zero.1 hm
    rfl
  | succ rounds ih =>
    refine (hcond.of_le hrounds).bind ?_
    rintro ⟨v, w⟩ _ ⟨b, rfl⟩
    dsimp only
    split
    · rename_i hv
      refine (reaches_loopBody hp hv).follows ?_
      refine ((hbody hL).of_le hrounds).bind ?_
      rintro ⟨env, w⟩ _ ⟨b, L', rfl, rfl, hspares⟩
      have hnext := ih (w := w) (b := b) (c := c + 1) (by omega) (hspares.length.trans hL)
      exact ((advances_loopAgain hp).follows hnext).mono fun p st hdone => hdone.after hspares
    · rename_i hv
      exact (reaches_loopExit hp hv).follows (follows_value ⟨b, L, rfl, rfl, .refl Γ n L⟩)

end

/-- The increment of a counter. -/
theorem follows_increment {slot : ℕ} (hp : Placed vm pc (incrementCode slot one))
    (hone : vm.script.constants[one]? = some (.int 1)) (hslot : slot < L.length)
    (hv : L.getD slot .nil = v) :
    (vm.machine lib S).Follows k ⟨pc, stk, L, lc, b, w⟩ (raise (addValues none v (.int 1)) w)
      (fun p st => ∃ b, st = ⟨pc + 4, stk, L.set slot p.1, lc, b, p.2⟩) := by
  subst hv
  refine (advances_getLocal hp.head).reaches.follows ?_
  refine (advances_loadConst hp.tail.head hone).reaches.follows ?_
  have hadd : BinOp.add.opCode = some .add := rfl
  refine (follows_of_op hp.tail.tail.head (BinOp.gives_opCode hadd _ _)).andReaches ?_
  rintro ⟨v, w⟩ _ ⟨b, rfl⟩
  exact ⟨_, (advances_setLocal hp.tail.tail.tail.head hslot).reaches, b, rfl⟩

section

variable {cb : List OpCode} {one depth : ℕ} {x : String} (hp : Placed vm pc (rangeLoop n one cb))

include hp

/-- **`for … in start..stop`**, from a value of the variable on. -/
theorem follows_countUp (act : Value → Action σ) {N : ℕ} {stop v : Value}
    (hone : vm.script.constants[one]? = some (.int 1)) (hfits : Fits Γ n) (hN : n + 1 < N)
    (hbody : ∀ {L : List Value} {c b : ℕ} {w : World σ}, L.length = N →
      (vm.machine lib S).Follows k ⟨pc + 1 + 3 + 1, stk, L, c :: lc, b, w⟩
        (act (L.getD (n + 1) .nil) (envOf Γ L) w)
        (Done (pc + 1 + 3 + 1 + cb.length) stk (c :: lc) (rangeScope Γ n depth x) (n + 2) L Γ))
    {rounds c : ℕ} (hrounds : rounds ≤ k) (hL : L.length = N) (hstop : L.getD n .nil = stop)
    (hv : L.getD (n + 1) .nil = v) :
    (vm.machine lib S).Follows rounds ⟨pc + 1, stk, L, c :: lc, b, w⟩
      (countUp stop act rounds v (envOf Γ L) w)
      (Done (pc + (rangeLoop n one cb).length) stk lc Γ n L Γ) := by
  induction rounds generalizing L c b w v with
  | zero =>
    intro m hm
    obtain rfl : m = 0 := le_zero.1 hm
    rfl
  | succ rounds ih =>
    have hlt : BinOp.lt.opCode = some .less := rfl
    refine (advances_getLocal hp.tail.head).reaches.follows ?_
    refine (advances_getLocal hp.tail.tail.head).reaches.follows ?_
    rw [hstop, hv]
    refine (follows_of_op hp.tail.tail.tail.head (BinOp.gives_opCode hlt _ _)).bind ?_
    rintro ⟨t, w⟩ _ ⟨b, rfl⟩
    dsimp only
    split
    · rename_i ht
      refine (reaches_loopBody hp ht).follows ?_
      refine ((hv ▸ hbody hL).of_le hrounds).bind ?_
      rintro ⟨env, w⟩ _ ⟨b, L', rfl, rfl, hspares⟩
      -- the body cannot have assigned the end or the variable
      have hown := fun slot => hspares.own [_, _] slot hfits (by simp)
      have hstop' := (hown n le_rfl (by omega)).trans hstop
      have hv' := (hown (n + 1) (le_succ n) (by omega)).trans hv
      have hL' := hspares.length.trans hL
      refine (follows_increment hp.tail.right.tail.left.right hone (by omega) hv').bind ?_
      rintro ⟨v', w⟩ _ ⟨b, rfl⟩
      have hpos : pc + 1 + 3 + 1 + cb.length + 4 = pc + 1 +
          [getLocal (n + 1), .getLocal n, .less].length + 1 +
          (cb ++ incrementCode (n + 1) one).length := by
        rw [length_append]
        rfl
      have hspares' : Spares Γ n L (L'.set (n + 1) v') :=
        (hspares.drop [_, _] (by omega) (by simp)).trans (.set (by omega) v')
      have hnext := ih (w := w) (b := b) (c := c + 1) (by omega) (hspares'.length.trans hL)
        ((getD_set_ne (by omega)).trans hstop') (getD_set_self (by omega))
      rw [hfits.envOf_set (le_succ n)] at hnext
      rw [length_cons, length_cons, length_cons, length_nil]
      rw [hpos]
      exact ((advances_loopAgain hp).follows hnext).mono fun p st hdone => hdone.after hspares'
    · rename_i ht
      exact (reaches_loopExit hp ht).follows (follows_value ⟨b, L, rfl, rfl, .refl Γ n L⟩)

end

/-! The index of a `for … in` counts through the elements. -/

theorem Value.length_elements_lt (v : Value) : v.elements.length < 2 ^ 63 := by
  cases v with
  | list l => exact l.length_lt
  | _ => exact Nat.two_pow_pos 63

theorem listLen_eq (v : Value) : listLen v = .ok (.int (ofNat v.elements.length)) := by
  cases v with
  | _ => rfl

theorem lessValues_ofNat {m : ℕ} (hi : i < 2 ^ 63) (hm : m < 2 ^ 63) :
    lessValues (.int (ofNat i)) (.int (ofNat m)) = .ok (.bool (decide (i < m))) := by
  have hiff : ofNat i < ofNat m ↔ i < m := by
    rw [lt_iff_toInt_lt, toInt_ofNat_of_lt hi, toInt_ofNat_of_lt hm]
    exact Int.ofNat_lt
  simp only [lessValues, compareValues, hiff]

theorem listElem_ofNat (hi : v.elements[i]? = some name) :
    listElem v (.int (ofNat i)) = .str name := by
  have hlt : i < v.elements.length := (List.getElem?_eq_some_iff.1 hi).1
  have htoInt := toInt_ofNat_of_lt (hlt.trans v.length_elements_lt)
  cases v with
  | list l =>
    have hname : l.names[i]? = some name := hi
    simp only [listElem, htoInt, Int.toNat_natCast, hname]
    rw [if_neg (by omega)]
  | _ => cases hi

theorem addValues_ofNat (hi : i + 1 < 2 ^ 63) :
    addValues none (.int (ofNat i)) (.int 1) = .ok (.int (ofNat (i + 1))) := by
  have htoInt := toInt_ofNat_of_lt (lt_of_succ_lt hi)
  have hrange : -2 ^ 63 ≤ ((i + 1 : ℕ) : ℤ) ∧ ((i + 1 : ℕ) : ℤ) < 2 ^ 63 := by omega
  have hsum : (ofNat i).toInt + (1 : Int64).toInt = ((i + 1 : ℕ) : ℤ) := by
    rw [htoInt]
    push_cast
    ring
  simp only [addValues, checked, toI64]
  rw [hsum, if_pos hrange, ofInt_eq_ofNat]

section

variable {cb : List OpCode} {one depth : ℕ} {x : String} (hp : Placed vm pc (listLoop n one cb))

include hp

variable {v : Value} {i c : ℕ}

/-- The condition compares the index with the number of elements. -/
theorem reaches_elementTest (hlist : L.getD n .nil = v)
    (hidx : L.getD (n + 1) .nil = .int (ofNat i)) (hi : i ≤ v.elements.length) :
    (vm.machine lib S).Reaches ⟨pc + 1, stk, L, c :: lc, b, w⟩
      ⟨pc + 1 + 4, .bool (decide (i < v.elements.length)) :: stk, L, c :: lc, b, w⟩ := by
  have hlen := v.length_elements_lt
  refine (advances_getLocal hp.tail.head).reaches.trans ?_
  refine (advances_getLocal hp.tail.tail.head).reaches.trans ?_
  rw [hlist, hidx]
  refine (advances_listLen hp.tail.tail.tail.head (listLen_eq v)).reaches.trans ?_
  exact (advances_less hp.tail.tail.tail.tail.head
    (lessValues_ofNat (hi.trans_lt hlen) hlen)).reaches

/-- The variable becomes the element at the index. -/
theorem reaches_element {name : String} (hN : n + 2 < L.length)
    (hlist : L.getD n .nil = v) (hidx : L.getD (n + 1) .nil = .int (ofNat i))
    (hname : v.elements[i]? = some name) :
    (vm.machine lib S).Reaches ⟨pc + 1 + 4 + 1, stk, L, c :: lc, b, w⟩
      ⟨pc + 1 + 4 + 1 + 4, stk, L.set (n + 2) (.str name), c :: lc, b, w⟩ := by
  have hbody := hp.tail.right.tail
  have hget : listGet v (.int (ofNat i)) = .ok (.str name) :=
    congrArg Except.ok (listElem_ofNat hname)
  refine (advances_getLocal hbody.head).reaches.trans ?_
  refine (advances_getLocal hbody.tail.head).reaches.trans ?_
  rw [hlist, hidx]
  refine (advances_listGet hbody.tail.tail.head hget).reaches.trans ?_
  exact (advances_setLocal hbody.tail.tail.tail.head hN).reaches

/-- **`for … in list`**, from an element on. -/
theorem follows_forEach (act : Value → Action σ) {N : ℕ} {names : List String}
    (hone : vm.script.constants[one]? = some (.int 1)) (hfits : Fits Γ n) (hN : n + 2 < N)
    (hbody : ∀ {L : List Value} {c b : ℕ} {w : World σ}, L.length = N →
      (vm.machine lib S).Follows k ⟨pc + 1 + 4 + 1 + 4, stk, L, c :: lc, b, w⟩
        (act (L.getD (n + 2) .nil) (envOf Γ L) w)
        (Done (pc + 1 + 4 + 1 + 4 + cb.length) stk (c :: lc) (listScope Γ n depth x) (n + 3) L Γ))
    (hL : L.length = N) (hlist : L.getD n .nil = v)
    (hidx : L.getD (n + 1) .nil = .int (ofNat i)) (hnames : v.elements.drop i = names)
    (hi : i ≤ v.elements.length) :
    (vm.machine lib S).Follows k ⟨pc + 1, stk, L, c :: lc, b, w⟩ (forEach act names (envOf Γ L) w)
      (Done (pc + (listLoop n one cb).length) stk lc Γ n L Γ) := by
  induction names generalizing L i c b w with
  | nil =>
    have hend : ¬ i < v.elements.length := by
      have := drop_eq_nil_iff.1 hnames
      omega
    refine (reaches_elementTest hp hlist hidx hi).follows ?_
    refine (reaches_loopExit hp (by simpa [Value.isTruthy] using hend)).follows ?_
    exact follows_value ⟨b, L, rfl, rfl, .refl Γ n L⟩
  | cons name names ih =>
    have hname : v.elements[i]? = some name := by
      rw [← add_zero i, ← getElem?_drop, hnames]
      rfl
    have hlt : i < v.elements.length := (List.getElem?_eq_some_iff.1 hname).1
    have hlen := v.length_elements_lt
    refine (reaches_elementTest hp hlist hidx hi).follows ?_
    refine (reaches_loopBody hp (by simpa [Value.isTruthy] using hlt)).follows ?_
    refine (reaches_element hp (by omega) hlist hidx hname).follows ?_
    have hrun := hbody (L := L.set (n + 2) (.str name)) (c := c) (b := b) (w := w)
      (length_set.trans hL)
    rw [getD_set_self (by omega), hfits.envOf_set (by omega)] at hrun
    refine hrun.bind ?_
    rintro ⟨env, w⟩ _ ⟨b, L', rfl, rfl, hspares⟩
    -- the body cannot have assigned the list or the index
    have hown := fun slot => hspares.own [_, _, _] slot hfits (by simp [hiddenNames])
    have hlist' := (hown n le_rfl (by omega)).trans ((getD_set_ne (by omega)).trans hlist)
    have hidx' := (hown (n + 1) (le_succ n) (by omega)).trans
      ((getD_set_ne (by omega)).trans hidx)
    have hL' : L'.length = N := hspares.length.trans (length_set.trans hL)
    have hinc : (vm.machine lib S).Follows k
        ⟨pc + 1 + 4 + 1 + 4 + cb.length, stk, L', c :: lc, b, w⟩
        (raise (addValues none (.int (ofNat i)) (.int 1)) w)
        (fun p st => ∃ b, st = ⟨pc + 1 + 4 + 1 + 4 + cb.length + 4, stk, L'.set (n + 1) p.1,
          c :: lc, b, p.2⟩) :=
      follows_increment hp.tail.right.tail.left.tail.tail.tail.tail.right hone (by omega) hidx'
    rw [addValues_ofNat (by omega)] at hinc
    obtain ⟨_, hreaches, b, rfl⟩ := hinc
    refine hreaches.follows ?_
    have hpos : pc + 1 + 4 + 1 + 4 + cb.length + 4 = pc + 1 +
        [getLocal (n + 1), .getLocal n, .listLen, .less].length + 1 +
        (getLocal n :: .getLocal (n + 1) :: .listGet :: .setLocal (n + 2) ::
          (cb ++ incrementCode (n + 1) one)).length := by
      simp only [length_cons, length_append, length_nil, incrementCode]
      omega
    have hspares' : Spares Γ n L (L'.set (n + 1) (.int (ofNat (i + 1)))) :=
      ((Spares.set (by omega) (.str name)).trans
        (hspares.drop [_, _, _] (by omega) (by simp))).trans (.set (by omega) _)
    have hnext := ih (w := w) (b := b) (c := c + 1) (i := i + 1) (hspares'.length.trans hL)
      ((getD_set_ne (by omega)).trans hlist') (getD_set_self (by omega))
      (by rw [← tail_drop, hnames]; rfl) hlt
    rw [hfits.envOf_set (le_succ n)] at hnext
    rw [hpos]
    exact ((advances_loopAgain hp).reaches.follows hnext).mono fun p st hdone =>
      hdone.after hspares'

end

/-! ## Statements -/

variable {m : Bool}

theorem envOf_declare (hname : name ∉ hiddenNames) (hfits : Fits Γ n) (hn : n < L.length) :
    envOf (⟨name, n, m, depth⟩ :: Γ) (L.set n v) = (name, v) :: envOf Γ L := by
  rw [envOf_cons_of_visible hname, getD_set_self hn, hfits.envOf_set le_rfl]

variable {body : List Stmt} {x : String}

/-- `for … in start..stop`, on what its body does. -/
theorem follows_forRange (hvm : vm.Cached) {start stop : Expr}
    {ce cs cb : List OpCode} (he : ExprCode vm.script.constants Γ stop ce)
    (hs : ExprCode vm.script.constants (⟨"__range_end__", n, false, depth⟩ :: Γ) start cs)
    (hone : vm.script.constants[one]? = some (.int 1)) (hf : Fits Γ n)
    (hnames : Clear (forRange x start stop body).names)
    (hp : Placed vm pc (ce ++ .setLocal n :: (cs ++ .setLocal (n + 1) :: rangeLoop n one cb)))
    (hle : n + 2 ≤ n') (hn : n' ≤ L.length) (hsuf : rangeScope Γ n depth x <:+ Γ')
    (hb : ∀ {pc b : ℕ} {L : List Value} {lc : List ℕ} {w : World σ}, Placed vm pc cb →
      n' ≤ L.length → (vm.machine lib S).Follows k ⟨pc, stk, L, lc, b, w⟩ (execBlock lib S k body
          (envOf (rangeScope Γ n depth x) L) w)
        (Done (pc + cb.length) stk lc (rangeScope Γ n depth x) (n + 2) L Γ')) :
    (vm.machine lib S).Follows k ⟨pc, stk, L, lc, b, w⟩
      ((forRange x start stop body).exec lib S k (envOf Γ L) w)
      (Done (pc + (ce ++ .setLocal n :: (cs ++ .setLocal (n + 1) ::
        rangeLoop n one cb)).length) stk lc Γ n L Γ) := by
  obtain ⟨hx, hnames'⟩ := clear_cons.1 hnames
  obtain ⟨hstart, hnames''⟩ := clear_append.1 hnames'
  obtain ⟨hstop, -⟩ := clear_append.1 hnames''
  have hend : "__range_end__" ∈ hiddenNames := mem_cons_self ..
  refine (he.follows hvm hstop hp.left).bind ?_
  rintro ⟨u, w⟩ _ ⟨b, rfl⟩
  refine (advances_setLocal hp.right.head (by omega)).reaches.follows ?_
  have hp1 := hp.right.tail
  -- the start, in that of the variable
  have henv : envOf (⟨"__range_end__", n, false, depth⟩ :: Γ) (L.set n u) = envOf Γ L := by
    rw [envOf_cons_of_hidden hend, hf.envOf_set le_rfl]
  rw [← henv]
  refine (hs.follows hvm hstart hp1.left).bind ?_
  rintro ⟨v, w⟩ _ ⟨b, rfl⟩
  rw [henv]
  refine (advances_setLocal hp1.right.head
    (show n + 1 < (L.set n u).length by rw [length_set]; omega)).reaches.follows ?_
  have hp2 := hp1.right.tail
  refine (advances_loopInit hp2.head).reaches.follows ?_
  have hspares : Spares Γ n L ((L.set n u).set (n + 1) v) :=
    (Spares.set le_rfl u).trans (.set (le_succ n) v)
  have hloop : (vm.machine lib S).Follows k ⟨_, _, _, 0 :: lc, _, _⟩ _ _ := follows_countUp hp2
    (fun v => inBlock (execBlock lib S k body) [(x, v)]) hone hf (by omega)
    (fun hL => follows_inBlock (by rw [envOf_cons_of_visible hx]; rfl)
      (hb hp2.tail.right.tail.left.left (hn.trans hL.ge))
      (((suffix_cons _ Γ).trans (suffix_cons _ _)).trans hsuf))
    (L := (L.set n u).set (n + 1) v) (N := L.length) (w := w) (b := b) le_rfl
    hspares.length ((getD_set_ne (by omega)).trans (getD_set_self (by omega)))
    (getD_set_self (by rw [length_set]; omega))
  rw [hf.envOf_set (le_succ n), hf.envOf_set le_rfl] at hloop
  have hpc : pc + (ce ++ .setLocal n :: (cs ++ .setLocal (n + 1) :: rangeLoop n one cb)).length =
      pc + ce.length + 1 + cs.length + 1 + (rangeLoop n one cb).length := by
    simp only [length_append, length_cons]
    omega
  rw [hpc]
  exact hloop.mono fun p st hdone => hdone.after hspares

/-- `for … in list`, on what its body does. -/
theorem follows_forIn (hvm : vm.Cached) {iterable : Expr}
    {ci cb : List OpCode} {zeroIdx : ℕ} (hc : ExprCode vm.script.constants Γ iterable ci)
    (hzero : vm.script.constants[zeroIdx]? = some (.int 0))
    (hone : vm.script.constants[one]? = some (.int 1)) (hf : Fits Γ n)
    (hnames : Clear (forIn x iterable body).names)
    (hp : Placed vm pc (ci ++ .setLocal n :: .loadConst zeroIdx :: .setLocal (n + 1) ::
      listLoop n one cb)) (hle : n + 3 ≤ n') (hn : n' ≤ L.length)
    (hsuf : listScope Γ n depth x <:+ Γ')
    (hb : ∀ {pc b : ℕ} {L : List Value} {lc : List ℕ} {w : World σ}, Placed vm pc cb →
      n' ≤ L.length → (vm.machine lib S).Follows k ⟨pc, stk, L, lc, b, w⟩ (execBlock lib S k body
          (envOf (listScope Γ n depth x) L) w)
        (Done (pc + cb.length) stk lc (listScope Γ n depth x) (n + 3) L Γ')) :
    (vm.machine lib S).Follows k ⟨pc, stk, L, lc, b, w⟩
      ((forIn x iterable body).exec lib S k (envOf Γ L) w)
      (Done (pc + (ci ++ .setLocal n :: .loadConst zeroIdx :: .setLocal (n + 1) ::
        listLoop n one cb).length) stk lc Γ n L Γ) := by
  obtain ⟨hx, hnames'⟩ := clear_cons.1 hnames
  obtain ⟨hiterable, -⟩ := clear_append.1 hnames'
  have hidx : "__idx__" ∈ hiddenNames := mem_of_elem_eq_true rfl
  refine (hc.follows hvm hiterable hp.left).bind ?_
  rintro ⟨u, w⟩ _ ⟨b, rfl⟩
  have hp1 := hp.right
  refine (advances_setLocal hp1.head (by omega)).reaches.follows ?_
  refine (advances_loadConst hp1.tail.head hzero).reaches.follows ?_
  refine (advances_setLocal hp1.tail.tail.head
    (show n + 1 < (L.set n u).length by rw [length_set]; omega)).reaches.follows ?_
  have hp2 := hp1.tail.tail.tail
  refine (advances_loopInit hp2.head).reaches.follows ?_
  have hspares : Spares Γ n L ((L.set n u).set (n + 1) (.int 0)) :=
    (Spares.set le_rfl u).trans (.set (le_succ n) _)
  have hloop : (vm.machine lib S).Follows k ⟨_, _, _, 0 :: lc, _, _⟩ _ _ := follows_forEach hp2
    (fun v => inBlock (execBlock lib S k body) [(x, v)]) hone hf (by omega)
    (fun hL => follows_inBlock (by rw [envOf_cons_of_visible hx, envOf_cons_of_hidden hidx]; rfl)
      (hb hp2.tail.right.tail.left.tail.tail.tail.tail.left (hn.trans hL.ge))
      ((((suffix_cons _ Γ).trans (suffix_cons _ _)).trans (suffix_cons _ _)).trans hsuf))
    (L := (L.set n u).set (n + 1) (.int 0)) (N := L.length) (w := w) (b := b) (i := 0)
    hspares.length ((getD_set_ne (by omega)).trans (getD_set_self (by omega)))
    (getD_set_self (by rw [length_set]; omega)) rfl (zero_le _)
  rw [hf.envOf_set (le_succ n), hf.envOf_set le_rfl] at hloop
  have hpc : pc + (ci ++ .setLocal n :: .loadConst zeroIdx :: .setLocal (n + 1) ::
      listLoop n one cb).length =
      pc + ci.length + 1 + 1 + 1 + (listLoop n one cb).length := by
    simp only [length_append, length_cons]
    omega
  rw [hpc]
  exact hloop.mono fun p st hdone => hdone.after hspares

mutual

/-- **The code of a statement does what the statement does.** -/
theorem StmtCode.follows (hvm : vm.Cached) : ∀ {s : Stmt} {Γ Γ' : List Local} {n n' pc b : ℕ}
    {c : List OpCode} {stk L : List Value} {lc : List ℕ} {w : World σ},
    StmtCode vm.script.constants Γ n s c Γ' n' → Fits Γ n → Clear s.names → Placed vm pc c →
    n' ≤ L.length →
    (vm.machine lib S).Follows k ⟨pc, stk, L, lc, b, w⟩ (s.exec lib S k (envOf Γ L) w)
      (Done (pc + c.length) stk lc Γ n L Γ')
  | .letStmt name m value, _, _, n, _, _, _, _, _, L, _, _, h, hf, hnames, hp, hn => by
    obtain ⟨hname, hval⟩ := clear_cons.1 hnames
    cases h with
    | letStmt hc =>
      rw [length_append]
      refine (hc.follows hvm hval hp.left).bind ?_
      rintro ⟨v, w⟩ _ ⟨b, rfl⟩
      refine (advances_setLocal hp.right.head (by omega)).reaches.follows ?_
      exact follows_value
        ⟨b, L.set n v, rfl, envOf_declare hname hf (by omega), .set le_rfl v⟩
  | .assign name value, _, _, _, _, _, _, _, _, L, _, _, h, hf, hnames, hp, hn => by
    obtain ⟨hname, hval⟩ := clear_cons.1 hnames
    cases h with
    | assign hl hm hc =>
      rename_i l c
      have hslot : l.slot < L.length := (hf.slot_lt (mem_of_find?_eq_some hl)).trans_le hn
      rw [length_append]
      refine (hc.follows hvm hval hp.left).bind ?_
      rintro ⟨v, w⟩ _ ⟨b, rfl⟩
      refine (advances_setLocal hp.right.head hslot).reaches.follows ?_
      exact follows_value
        ⟨b, L.set l.slot v, rfl, envOf_assign hname hl hf hslot, .assign hl hm hname v⟩
  | .ifStmt branches elseBody, _, _, _, _, _, _, _, _, _, _, _, h, hf, hnames, hp, hn => by
    obtain ⟨hbranches, helse⟩ := clear_append.1 hnames
    cases h with
    | ifStmt hb he =>
      refine hb.follows hvm hf le_rfl hbranches hp (he.slots_le.trans hn) fun hpe => ?_
      exact (he.follows hvm (hf.mono hb.slots_le) helse hpe hn).mono fun p st hdone =>
        hdone.narrow hb.slots_le fun l hl => .inl hl
  | .forRange x start stop body, _, _, _, _, _, _, _, _, _, _, _, h, hf, hnames, hp, hn => by
    cases h with
    | forRange he hs hone hb =>
      rename_i depth _ _ _ _
      have hbody := (clear_append.1 (clear_append.1 (clear_cons.1 hnames).2).2).2
      exact follows_forRange hvm he hs hone hf hnames hp hb.scope.le hn hb.scope.suffix
        (hb.follows hvm ((hf.declare _ false depth).declare x false depth) hbody)
  | .forIn x iterable body, _, _, _, _, _, _, _, _, _, _, _, h, hf, hnames, hp, hn => by
    cases h with
    | forIn hc hzero hone hb =>
      rename_i depth _ _ _ _
      have hbody := (clear_append.1 (clear_cons.1 hnames).2).2
      exact follows_forIn hvm hc hzero hone hf hnames hp hb.scope.le hn hb.scope.suffix
        (hb.follows hvm (((hf.declare _ false depth).declare _ true depth).declare x false depth)
          hbody)
  | .whileStmt condition body, _, _, _, _, _, _, _, _, L, _, _, h, hf, hnames, hp, hn => by
    obtain ⟨hcond, hbody⟩ := clear_append.1 hnames
    cases h with
    | whileStmt hc hb =>
      refine (advances_loopInit hp.head).reaches.follows ?_
      refine follows_whileLoop hp (hc.follows hvm hcond hp.tail.left) (fun hL => ?_) le_rfl
        (rfl : L.length = L.length)
      exact follows_inBlock rfl (hb.follows hvm hf hbody hp.tail.right.tail.left (by omega))
        hb.scope.suffix
  | .returnDeny status body, _, _, _, _, _, _, _, _, _, _, _, h, hf, hnames, hp, hn => by
    obtain ⟨hstat, hbody⟩ := clear_append.1 hnames
    cases h with
    | returnDeny hs hb =>
      refine (hs.follows hvm hstat hp.left).bind ?_
      rintro ⟨u, w⟩ _ ⟨b, rfl⟩
      refine (hb.follows hvm hbody hp.right.left).bind ?_
      rintro ⟨v, w⟩ _ ⟨b, rfl⟩
      exact follows_of_op hp.right.right.head ⟨_, _, rfl, .inr rfl⟩
  | .returnNext, _, _, _, _, _, _, _, _, _, _, _, h, hf, hnames, hp, hn => by
    cases h
    exact follows_of_op hp.head ⟨_, _, rfl, .inr rfl⟩
  | .exprStmt expr, Γ, _, n, _, _, _, _, _, L, _, _, h, hf, hnames, hp, hn => by
    cases h with
    | exprStmt hc =>
      rw [length_append]
      refine (hc.follows hvm hnames hp.left).bind ?_
      rintro ⟨v, w⟩ _ ⟨b, rfl⟩
      refine (advances_of_op hp.right.head (.inl rfl)).reaches.follows ?_
      exact follows_value ⟨b, L, rfl, rfl, .refl Γ n L⟩
termination_by structural s => s

theorem BlockCode.follows (hvm : vm.Cached) : ∀ {stmts : List Stmt} {Γ Γ' : List Local}
    {n n' pc b : ℕ} {c : List OpCode} {stk L : List Value} {lc : List ℕ} {w : World σ},
    BlockCode vm.script.constants Γ n stmts c Γ' n' → Fits Γ n → Clear (blockNames stmts) →
    Placed vm pc c → n' ≤ L.length →
    (vm.machine lib S).Follows k ⟨pc, stk, L, lc, b, w⟩ (execBlock lib S k stmts (envOf Γ L) w)
      (Done (pc + c.length) stk lc Γ n L Γ')
  | [], Γ, _, n, _, _, b, _, _, L, _, _, h, hf, hnames, hp, hn => by
    cases h
    exact follows_value ⟨b, L, rfl, rfl, .refl Γ n L⟩
  | stmt :: stmts, Γ, _, n, _, _, _, _, _, _, _, _, h, hf, hnames, hp, hn => by
    obtain ⟨hfst, hrest⟩ := clear_append.1 hnames
    cases h with
    | cons hs hss =>
      rw [length_append, ← add_assoc]
      refine (hs.follows hvm hf hfst hp.left (hss.scope.le.trans hn)).bind ?_
      rintro ⟨env, w⟩ _ ⟨b, L', rfl, rfl, hspares⟩
      refine (hss.follows hvm (hs.scope.fits hf) hrest hp.right
        (hn.trans hspares.length.ge)).mono fun p st hdone => ?_
      exact (hdone.narrow hs.scope.le hs.added).after hspares
termination_by structural stmts => stmts

theorem BranchesCode.follows (hvm : vm.Cached) : ∀ {branches : List (Expr × List Stmt)}
    {hasElse : Bool} {Γ : List Local} {m n n' pc b : ℕ} {ce c : List OpCode} {stk L : List Value}
    {lc : List ℕ} {w : World σ} {otherwise : Action σ},
    BranchesCode vm.script.constants Γ n branches hasElse ce c n' → Fits Γ n → m ≤ n →
    Clear (branchesNames branches) → Placed vm pc c → n' ≤ L.length →
    (∀ {pc b : ℕ} {w : World σ}, Placed vm pc ce →
      (vm.machine lib S).Follows k ⟨pc, stk, L, lc, b, w⟩ (otherwise (envOf Γ L) w)
        (Done (pc + ce.length) stk lc Γ m L Γ)) →
    (vm.machine lib S).Follows k ⟨pc, stk, L, lc, b, w⟩
      (execBranches lib S k branches otherwise (envOf Γ L) w)
      (Done (pc + c.length) stk lc Γ m L Γ)
  | [], _, _, _, _, _, _, _, _, _, _, _, _, _, _, h, hf, hm, hnames, hp, hn, helse => by
    cases h
    exact helse hp
  | (condition, body) :: rest, _, Γ, m, n, _, pc, _, _, _, _, _, _, _, _, h, hf, hm, hnames, hp,
      hn, helse => by
    obtain ⟨hcond, hnames'⟩ := clear_append.1 hnames
    obtain ⟨hbody, hrest⟩ := clear_append.1 hnames'
    have hle := hp.le
    cases h with
    | last hc hb =>
      rename_i Γ' cc cb
      rw [execBranches]
      simp only [length_append, length_cons] at hle ⊢
      refine (hc.follows hvm hcond hp.left).bind ?_
      rintro ⟨v, w⟩ _ ⟨b, rfl⟩
      have hpc : pc + (cc.length + (cb.length + 1)) = pc + cc.length + 1 + cb.length := by omega
      rw [hpc]
      split
      · rename_i hv
        refine (advances_jumpIfFalse_of_truthy hp.right.head hv).reaches.follows ?_
        exact (follows_inBlock rfl (hb.follows hvm hf hbody hp.right.tail hn)
          hb.scope.suffix).mono fun p st hdone => hdone.narrow hm fun l hl => .inl hl
      · rename_i hv
        refine (advances_jumpIfFalse_of_not (pc + cc.length + 1 + cb.length) hp.right.head hv
          (by push_cast; ring) (by omega)).reaches.follows ?_
        exact helse ⟨ nil_prefix, by rw [length_nil]; omega⟩
    | branch hc hb hr hmore =>
      rename_i Γ' n1 cc cb cr
      rw [execBranches]
      simp only [length_append, length_cons] at hle ⊢
      refine (hc.follows hvm hcond hp.left).bind ?_
      rintro ⟨v, w⟩ _ ⟨b, rfl⟩
      have hpc : pc + (cc.length + (cb.length + (cr.length + 1) + 1)) =
        pc + cc.length + 1 + cb.length + 1 + cr.length := by omega
      rw [hpc]
      split
      · rename_i hv
        refine (advances_jumpIfFalse_of_truthy hp.right.head hv).reaches.follows ?_
        refine (follows_inBlock rfl (hb.follows hvm hf hbody hp.right.tail.left
          (hr.slots_le.trans hn)) hb.scope.suffix).andReaches ?_
        rintro ⟨env, w⟩ _ ⟨b, L', rfl, henv, hspares⟩
        exact ⟨_, (advances_jump (pc + cc.length + 1 + cb.length + 1 + cr.length)
          hp.right.tail.right.head (by push_cast; ring) (by omega)).reaches, b, L', rfl, henv,
          hspares.narrow hm fun l hl => .inl hl⟩
      · rename_i hv
        refine (advances_jumpIfFalse_of_not (pc + cc.length + 1 + cb.length + 1) hp.right.head hv
          (by push_cast; ring) (by omega)).reaches.follows ?_
        exact hr.follows hvm (hf.mono hb.scope.le) (hm.trans hb.scope.le) hrest
          hp.right.tail.right.tail hn helse
termination_by structural branches => branches

theorem ElseCode.follows (hvm : vm.Cached) : ∀ {elseBody : Option (List Stmt)} {Γ : List Local}
    {n n' pc b : ℕ} {c : List OpCode} {stk L : List Value} {lc : List ℕ} {w : World σ},
    ElseCode vm.script.constants Γ n elseBody c n' → Fits Γ n → Clear (elseNames elseBody) →
    Placed vm pc c → n' ≤ L.length →
    (vm.machine lib S).Follows k ⟨pc, stk, L, lc, b, w⟩ (execElse lib S k elseBody (envOf Γ L) w)
      (Done (pc + c.length) stk lc Γ n L Γ)
  | none, Γ, n, _, _, b, _, _, L, _, _, h, hf, hnames, hp, hn => by
    cases h
    exact follows_value ⟨b, L, rfl, rfl, .refl Γ n L⟩
  | some body, _, _, _, _, _, _, _, _, _, _, h, hf, hnames, hp, hn => by
    cases h with
    | some hb =>
      exact follows_inBlock rfl (hb.follows hvm hf hnames hp hn) hb.scope.suffix
termination_by structural elseBody => elseBody

end

end

/-! ## Programs -/

variable {lib : Lib}

/-- `Vm::new` keeps every pattern where its constant is. -/
theorem buildCache_regex {constants : List Constant} {cache : List (Option String)}
    (h : buildCache lib constants = .ok cache) {i : ℕ} {pattern : String}
    (hi : constants[i]? = some (.regex pattern)) : cache[i]? = some (some pattern) := by
  induction constants generalizing cache i with
  | nil => cases hi
  | cons c cs ih =>
    obtain ⟨entry, hentry, h⟩ := bind_eq_ok.1 h
    obtain ⟨rest, hrest, h⟩ := bind_eq_ok.1 h
    cases h
    cases i with
    | zero =>
      obtain rfl : c = .regex pattern := by simpa using hi
      rw [regexEntry] at hentry
      split at hentry
      · cases hentry
      · cases hentry
        rfl
    | succ i => exact ih hrest hi

/-- Behind the code of its statements a script ends with `good_next`. -/
theorem ends_behind {σ : Type} {S : Session σ} {vm : Vm} {seg tail : List OpCode}
    (hcode : vm.script.code = seg ++ tail) (htail : tail = [] ∨ tail = [.returnNext])
    (stk L : List Value) (lc : List ℕ) (b : ℕ) (w : World σ) :
    (vm.machine lib S).Ends ⟨seg.length, stk, L, lc, b, w⟩ (.ok .goodNext, w) := by
  have hget : vm.script.code[seg.length]? = tail.head? := by
    rw [hcode, getElem?_append_right le_rfl, Nat.sub_self, head?_eq_getElem?]
  have hstep : vm.step lib S ⟨seg.length, stk, L, lc, b, w⟩ = .halt (.ok .goodNext) w := by
    rw [Vm.step, hget]
    rcases htail with rfl | rfl
    · rfl
    · rfl
  intro n
  cases n with
  | zero => exact .inl rfl
  | succ n =>
    right
    show vm.run lib S (n + 1) _ = _
    rw [Vm.run, hstep]

/-- **A compiled script does what its program means.** Unless a limit cuts it short, it ends with the
result of the program, with the session in the same state after the same calls in the same order. -/
theorem execute_eq_eval (lib : Lib) (p : Program) (script : CompiledScript) (hp : p.size < 2 ^ 31)
    (hnames : Clear p.names) (h : Compiler.compile lib p = .ok script) (limits : VmLimits) (vm : Vm)
    (hvm : Vm.new lib script limits = .ok vm) (σ : Type) (S : Session σ) (w : World σ)
    (hlimits : ∀ e, (vm.execute lib S w).1 = .error e → e.isLimit = false) (rounds : ℕ)
    (hrounds : limits.maxSteps.toNat ≤ rounds) :
    p.eval lib S rounds w = some (vm.execute lib S w) := by
  obtain ⟨seg, tail, Γ', hcode, htail, hblock, -⟩ := Compiler.compile_spec hp h
  obtain ⟨cache, hcache, hok⟩ := bind_eq_ok.1 hvm
  cases hok
  -- the run was not cut short
  have hcut : ¬ ((⟨script, cache, limits⟩ : Vm).execute lib S w).1.isCut = true := by
    intro hcut
    cases houtcome : ((⟨script, cache, limits⟩ : Vm).execute lib S w).1 with
    | ok r =>
      rw [houtcome] at hcut
      cases hcut
    | error e =>
      rw [houtcome] at hcut
      exact absurd hcut (by rw [Outcome.isCut, hlimits e houtcome]; decide)
    | panic =>
      refine run_ne_panic (fun c hc => absurd hc not_mem_nil) (k := 0) ?_ houtcome
      rw [zero_add]
      exact limits.maxSteps.toNat_lt
  have hplaced : Placed ⟨script, cache, limits⟩ 0 seg := by
    refine ⟨?_, by simp [hcode]⟩
    rw [hcode]
    exact SegAt.mid [] seg tail
  have hfits : Fits [] 0 := pairwise_singleton _ 0
  have hfollows : ((⟨script, cache, limits⟩ : Vm).machine lib S).Follows rounds
      (VmState.new script.localCount limits w) (execBlock lib S rounds p.stmts [] w)
      (Done (0 + seg.length) [] [] [] 0 (List.replicate script.localCount .nil) Γ') :=
    hblock.follows (fun i pattern hi => buildCache_regex hcache hi) hfits
      hnames hplaced (by rw [length_replicate])
  rw [Program.eval]
  cases hexec : execBlock lib S rounds p.stmts [] w with
  | value q =>
    rw [hexec] at hfollows
    obtain ⟨_, hreaches, b, L', rfl, -, -⟩ := hfollows
    rw [zero_add] at hreaches
    have hends := hreaches.ends (ends_behind hcode htail _ _ _ _ _)
    exact congrArg some ((hends limits.maxSteps.toNat).resolve_left hcut).symm
  | ended r =>
    rw [hexec] at hfollows
    exact congrArg some ((hfollows limits.maxSteps.toNat).resolve_left hcut).symm
  | unfinished =>
    rw [hexec] at hfollows
    exact absurd (hfollows limits.maxSteps.toNat hrounds) hcut

/-- Counts in a loop, tells the session, and denies the request. -/
def countingProgram : Program :=
  ⟨[.letStmt "n" true (.intLit 0),
    .forRange "i" (.intLit 0) (.intLit 3)
      [.assign "n" (.binaryOp .add (.ident "n") (.ident "i")),
       .exprStmt (.methodCall (.ident "ctx") "set" [.stringLit "n", .ident "n"])],
    .ifStmt [(.binaryOp .and (.binaryOp .eq (.ident "n") (.intLit 3)) (.boolLit true),
      [.returnDeny (.intLit 403) (.ident "n")])] none]⟩

/-- The script of `countingProgram` does what the program means. -/
theorem execute_eq_eval_countingProgram :
    ∃ script vm, Compiler.compile .idle countingProgram = .ok script ∧
      Vm.new .idle script .default = .ok vm ∧
      (vm.execute .idle .idle ⟨(), []⟩).1 = .ok (.errResponse 403 (some "3")) ∧
      countingProgram.eval .idle .idle 10000 ⟨(), []⟩ = some (vm.execute .idle .idle ⟨(), []⟩) := by
  have hrun : (do
      let script ← (Compiler.compile .idle countingProgram).toOption
      let vm ← (Vm.new .idle script .default).toOption
      return (vm.execute .idle .idle ⟨(), []⟩).1) = some (.ok (.errResponse 403 (some "3"))) := by
    decide +kernel
  obtain ⟨script, hscript, hrun⟩ := bind_eq_some_iff.1 hrun
  obtain ⟨vm, hvm, hrun⟩ := bind_eq_some_iff.1 hrun
  rw [toOption_eq_some] at hscript hvm
  have houtcome : (vm.execute .idle .idle ⟨(), []⟩).1 = .ok (.errResponse 403 (some "3")) :=
    some.inj hrun
  refine ⟨script, vm, hscript, hvm, houtcome, ?_⟩
  refine execute_eq_eval .idle countingProgram script (by decide +kernel) (by decide +kernel)
    hscript .default vm hvm Unit .idle ⟨(), []⟩ (fun e he => ?_) 10000 (by decide)
  rw [houtcome] at he
  cases he

end Edgion.Dsl
