import Edgion.RadixTree.Insert
import Edgion.RadixTree.Search

/-!
# What a tree holds, and where

The entries of a tree are its values with the tokens that lead to them, in the order a search comes
to them; an insertion adds one entry, whatever is in the tree. Of the entries that match a path the
search meets the shorter first, a parameter before a literal, and values at one place in the order
they were inserted.
-/

namespace Edgion.RadixTree

open List Function Nat

variable {e : List Tok × ℕ} {ts : List Tok} {router : RadixRouter}

/-! ## Entries -/

/-- The tokens a node of the given type and prefix stands for. -/
def ownTokens (t : NodeType) (p : Bytes) : List Tok :=
  match t with
  | .static => p.map .lit
  | .param => [.any]

/-- An entry below a node, seen from above it. -/
def below (ts : List Tok) (e : List Tok × ℕ) : List Tok × ℕ := (ts ++ e.1, e.2)

mutual

/-- **The values of a tree with the tokens that lead to them**, in the order of a search. -/
def BuildNode.entries : BuildNode → List (List Tok × ℕ)
  | .mk p cs pc vs t =>
    vs.map (ownTokens t p, ·) ++ (pc.entries ++ cs.entries).map (below (ownTokens t p))

def Children.entries : Children → List (List Tok × ℕ)
  | .nil => []
  | .cons _ child rest => rest.entries ++ child.entries

def ParamChild.entries : ParamChild → List (List Tok × ℕ)
  | .none => []
  | .some child => child.entries

end

/-- The tokens of the node itself. -/
def BuildNode.own : BuildNode → List Tok
  | .mk p _ _ _ t => ownTokens t p

/-- What stands before a literal that goes down from the node: nothing before a static node, whose
prefix the literal begins with, and the parameter itself after a parameter. -/
def BuildNode.start : BuildNode → List Tok
  | .mk _ _ _ _ .static => []
  | .mk _ _ _ _ .param => [.any]

@[simp] theorem below_mk (ts ts' : List Tok) (v : ℕ) : below ts (ts', v) = (ts ++ ts', v) := rfl

variable {pc : ParamChild} {t : NodeType}

open BuildNode

/-- One more entry under a node. -/
theorem BuildNode.entries_perm {p : Bytes} {cs cs' : Children} {pc' : ParamChild} {vs : List ℕ}
    (h : (pc'.entries ++ cs'.entries).Perm (e :: (pc.entries ++ cs.entries))) :
    (mk p cs' pc' vs t).entries.Perm
      (below (ownTokens t p) e :: (mk p cs pc vs t).entries) := by
  rw [entries, entries]
  exact ((h.map _).append_left _).trans (by simp)

/-- A split node holds what it held. -/
theorem BuildNode.entries_split (common p' : Bytes) (b : UInt8) (cs : Children) (pc : ParamChild)
    (vs : List ℕ) :
    (mk common (.cons b (.mk p' cs pc vs .static) .nil) .none [] .static).entries =
      (mk (common ++ p') cs pc vs .static).entries := by
  have hbelow : below (common.map .lit) ∘ below (p'.map .lit) =
      below ((common ++ p').map .lit) := by
    funext e
    simp [below]
  simp [entries, Children.entries, ParamChild.entries, ownTokens, hbelow]

variable {node : BuildNode}

theorem BuildNode.start_of_static (h : node.nodeType = .static) : node.start = [] := by
  match node with
  | .mk _ _ _ _ .static => rfl
  | .mk _ _ _ _ .param => cases h

theorem BuildNode.own_of_param (h : node.nodeType = .param) : node.own = [.any] := by
  match node with
  | .mk _ _ _ _ .static => cases h
  | .mk _ _ _ _ .param => rfl

namespace Children

theorem entries_set_perm {cs : Children} {c c' : BuildNode}
    (hget : cs.get? b = some c) (h : c'.entries.Perm (e :: c.entries)) :
    (cs.set b c').entries.Perm (e :: cs.entries) := by
  match cs with
  | .nil => cases hget
  | .cons d n rest =>
    rw [get?] at hget
    rw [set]
    split at hget
    · rename_i hdb
      cases hget
      rw [if_pos hdb, entries, entries]
      exact (h.append_left _).trans perm_middle
    · rename_i hdb
      rw [if_neg hdb, entries, entries]
      exact (entries_set_perm hget h).append_right _

theorem entries_insert_perm {cs : Children} (hb : b ∉ cs.keys) (c : BuildNode) :
    (cs.insert b c).entries.Perm (c.entries ++ cs.entries) := by
  match cs with
  | .nil => simp [insert, entries]
  | .cons d n rest =>
    rw [keys, mem_cons, not_or] at hb
    rw [insert]
    split
    · simp only [entries]
      exact perm_append_comm
    · rw [if_neg hb.1, entries, entries, ← append_assoc]
      exact (entries_insert_perm hb.2 c).append_right _

end Children

/-- The new children hold one entry more. -/
def Children.Gains (cs cs' : Children) (e : List Tok × ℕ) : Prop :=
  cs'.Wf ∧ cs'.entries.Perm (e :: cs.entries)

/-- `k` adds one entry after a node of type `t`, which it leaves in its place. -/
def Adds (k : BuildNode → BuildNode × Outcome) (ts : List Tok) (value : ℕ) (t : NodeType) : Prop :=
  ∀ ⦃node node' : BuildNode⦄, node.Wf → node.nodeType = t → k node = (node', .ok ()) →
    node'.Wf ∧ node'.nodeType = t ∧ node'.pre.head? = node.pre.head? ∧
      node'.entries.Perm ((node.own ++ ts, value) :: node.entries)

theorem head?_eq_headD {l : Bytes} (h : l ≠ []) : l.head? = some (l.headD 0) := by
  obtain ⟨b, l, rfl⟩ := exists_cons_of_ne_nil h
  rfl

section Descends

variable {k : BuildNode → BuildNode × Outcome} {value : ℕ} {cs : Children} {l' : Bytes}

/-- A new child holds the rest of the literal and what follows it. -/
theorem Adds.gains_insert (hk : Adds k ts value .static) (hcs : cs.Wf) (hl : l' ≠ [])
    (hkey : l'.headD 0 ∉ cs.keys) {c : BuildNode} (hc : k (.withPrefix l') = (c, .ok ())) :
    cs.Gains (cs.insert (l'.headD 0) c) (l'.map .lit ++ ts, value) := by
  have hleaf : (withPrefix l').Wf := ⟨trivial, trivial⟩
  obtain ⟨hwf, ht, hpre, hperm⟩ := hk hleaf rfl hc
  refine ⟨Children.wf_insert hcs ht (hpre.trans (head?_eq_headD hl)) hwf, ?_⟩
  have hone : c.entries.Perm [(l'.map .lit ++ ts, value)] := by
    simpa [withPrefix, entries, own, ownTokens, Children.entries, ParamChild.entries] using hperm
  exact (Children.entries_insert_perm hkey c).trans (hone.append_right _)

/-- The node with the children that gained an entry. -/
theorem BuildNode.gains {cs' : Children} (h : cs.Gains cs' e) (p : Bytes) (pc : ParamChild)
    (hpc : pc.Wf) (vs : List ℕ) (t : NodeType) :
    (mk p cs' pc vs t).Wf ∧ (mk p cs' pc vs t).entries.Perm
      (below (ownTokens t p) e :: (mk p cs pc vs t).entries) :=
  ⟨⟨h.1, hpc⟩, entries_perm ((h.2.append_left _).trans perm_middle)⟩

/-- **A literal adds one entry**, under the literal and what follows it. The node is the root, with
an empty prefix, or one whose prefix begins as the literal does, or a parameter. -/
theorem Descends.entries (hk : Adds k ts value .static) {node node' : BuildNode} {literal : Bytes}
    (h : Descends k node literal node') (hwf : node.Wf) (hlit : literal ≠ [])
    (hhead : node.nodeType = .static → node.pre ≠ [] → node.pre.head? = literal.head?) :
    node'.Wf ∧ node'.nodeType = node.nodeType ∧ node'.pre.head? = node.pre.head? ∧
      node'.entries.Perm ((node.start ++ literal.map .lit ++ ts, value) :: node.entries) := by
  have hmoved : ∀ {p p' : Bytes} {cs : Children} {pc : ParamChild} {vs : List ℕ}, p' ≠ [] →
      (mk p cs pc vs .static).Wf →
      (Children.cons (p'.headD 0) (.mk p' cs pc vs .static) .nil).Wf :=
    fun hp' hwf => ⟨⟨rfl, head?_eq_headD hp'⟩, hwf, trivial⟩
  -- the child found under the first byte of the rest of the literal
  have hset : ∀ {l' : Bytes} {cs : Children} {c c' : BuildNode}, cs.Wf → l' ≠ [] →
      cs.get? (l'.headD 0) = some c →
      (c.Wf → l' ≠ [] → (c.nodeType = .static → c.pre ≠ [] → c.pre.head? = l'.head?) →
        c'.Wf ∧ c'.nodeType = c.nodeType ∧ c'.pre.head? = c.pre.head? ∧
          c'.entries.Perm ((c.start ++ l'.map .lit ++ ts, value) :: c.entries)) →
      cs.Gains (cs.set (l'.headD 0) c') (l'.map .lit ++ ts, value) := by
    intro l' cs c c' hcs hl hget ih
    obtain ⟨hc, ht, hp⟩ := hcs.get? hget
    obtain ⟨hc', ht', hp', hperm⟩ := ih hc hl fun _ _ => by rw [hp, head?_eq_headD hl]
    rw [start_of_static ht] at hperm
    exact ⟨hcs.set hc' (ht'.trans ht) (hp'.trans hp), Children.entries_set_perm hget hperm⟩
  induction h with
  | here hk' => exact hk hwf rfl hk'
  | @split common p' cs pc vs node' hp' hk' =>
    have hsplit : (mk common (.cons (p'.headD 0) (.mk p' cs pc vs .static) .nil) .none []
        .static).Wf := ⟨hmoved hp' hwf, trivial⟩
    obtain ⟨hwf', ht, hpre, hperm⟩ := hk hsplit rfl hk'
    rw [entries_split] at hperm
    exact ⟨hwf', ht, hpre.trans (head?_append_of_ne_nil _ hlit).symm, hperm⟩
  | @branch common p' l' cs pc vs c hp' hl' hpart hk' =>
    have hkey : l'.headD 0 ∉ (Children.cons (p'.headD 0) (.mk p' cs pc vs .static) .nil).keys := by
      simpa [Children.keys] using Ne.symm hpart
    obtain ⟨hwf', hperm⟩ := gains (hk.gains_insert (hmoved hp' hwf) hl' hkey hk') common
      .none trivial [] .static
    rw [entries_split] at hperm
    have hcommon : common ≠ [] := by
      rintro rfl
      have hsame := hhead rfl hp'
      rw [pre, nil_append, nil_append, head?_eq_headD hp', head?_eq_headD hl'] at hsame
      exact hpart (Option.some.inj hsame)
    exact ⟨hwf', rfl, (head?_append_of_ne_nil _ hcommon).symm, by simpa [start, ownTokens] using hperm⟩
  | @child p l' cs pc vs c c' hl' hget h' ih =>
    obtain ⟨hwf', hperm⟩ := gains (hset hwf.1 hl' hget ih) p pc hwf.2 vs .static
    exact ⟨hwf', rfl, rfl, by simpa [start, ownTokens] using hperm⟩
  | @newChild p l' cs pc vs c hl' hkey hk' =>
    obtain ⟨hwf', hperm⟩ := gains (hk.gains_insert hwf.1 hl' hkey hk') p pc hwf.2 vs .static
    exact ⟨hwf', rfl, rfl, by simpa [start, ownTokens] using hperm⟩
  | @paramChild p l' cs pc vs c c' hget h' ih =>
    obtain ⟨hwf', hperm⟩ := gains (hset hwf.1 hlit hget ih) p pc hwf.2 vs .param
    exact ⟨hwf', rfl, rfl, hperm⟩
  | @paramNewChild p l' cs pc vs c hkey hk' =>
    obtain ⟨hwf', hperm⟩ := gains (hk.gains_insert hwf.1 hlit hkey hk') p pc hwf.2 vs .param
    exact ⟨hwf', rfl, rfl, hperm⟩

end Descends

/-- The parameter child that is there, or the new one: a parameter that holds the same. -/
theorem ParamChild.getOrInsert_spec (h : pc.Wf) :
    pc.getOrInsert.Wf ∧ pc.getOrInsert.nodeType = .param ∧ pc.getOrInsert.entries = pc.entries := by
  match pc with
  | .none => exact ⟨⟨trivial, trivial⟩, rfl, rfl⟩
  | .some child => exact ⟨h.2, h.1, rfl⟩

/-- **`insert_segments` adds one entry**, under the tokens of the segments. -/
theorem insertSegments_adds (value : ℕ) (path : Bytes) {segs : List PathSegment}
    (halt : Alternates t segs) : Adds (insertSegments value path segs) (tokens segs) value t := by
  induction segs generalizing t with
  | nil =>
    rintro ⟨p, cs, pc, vs, t⟩ node' hwf rfl h
    rw [insertSegments] at h
    split at h
    · cases h
    · cases h
      refine ⟨hwf, rfl, rfl, ?_⟩
      simp [entries, own, tokens]
  | cons seg rest ih =>
    rintro ⟨p, cs, pc, vs, t⟩ node' hwf rfl h
    rcases seg with literal | _ <;> rcases t with _ | _
    · exact halt.elim
    · rw [insertSegments] at h
      obtain ⟨hwf', ht, hpre, hperm⟩ :=
        (descends _ _ _ h).entries (ih halt.2) hwf halt.1 fun ht => by cases ht
      exact ⟨hwf', ht, hpre, by simpa [start, own, ownTokens, tokens] using hperm⟩
    · rw [insertSegments] at h
      rcases hins : insertSegments value path rest pc.getOrInsert with ⟨child, r⟩
      rw [hins] at h
      cases h
      obtain ⟨hcwf, hct, hsame⟩ := ParamChild.getOrInsert_spec hwf.2
      obtain ⟨hwf', ht', -, hperm⟩ := ih halt hcwf hct hins
      rw [own_of_param hct, hsame] at hperm
      have hbelow : ((ParamChild.some child).entries ++ cs.entries).Perm
          ((.any :: tokens rest, value) :: (pc.entries ++ cs.entries)) :=
        hperm.append_right cs.entries
      exact ⟨⟨hwf.1, ht', hwf'⟩, rfl, rfl, entries_perm hbelow⟩
    · exact halt.elim

/-! ## The order of the entries that match -/

/-- A node consumes what its tokens match. -/
theorem consumeAs_eq (t : NodeType) (p path : Bytes) :
    consumeAs t p path = (matchTokens (ownTokens t p) path).map fun after =>
      (after, (ownTokens t p).getLast? == some (.lit slash)) := by
  rcases t with _ | _
  · have hlast : ((p.map Tok.lit).getLast? == some (Tok.lit slash)) = (p.getLast? == some slash) := by
      rw [getLast?_map]
      rcases p.getLast? with _ | b
      · rfl
      · simp [Option.map_some]
    simp only [consumeAs, ownTokens, consumeStatic, matchTokens_map_lit, hlast]
    split
    · rfl
    · rfl
  · simp only [consumeAs, ownTokens, consumeParam_eq, matchTokens]
    split
    · rfl
    · rfl

/-- An entry reports its value where its tokens match. -/
def report (path : Bytes) (e : List Tok × ℕ) : Option (ℕ × MatchKind) :=
  (tokensKind e.1 path).map (e.2, ·)

theorem report_below (h : e.1 ≠ []) (path : Bytes) :
    report path (below ts e) = (matchTokens ts path).bind fun after => report after e := by
  have hlast : (ts ++ e.1).getLast? = e.1.getLast? := getLast?_append_of_ne_nil _ h
  simp only [report, below, tokensKind, matchTokens_append, hlast]
  rcases matchTokens ts path with _ | after
  · rfl
  · rfl

/-- The entries of a node begin with its own tokens. -/
theorem BuildNode.own_isPrefix (he : e ∈ node.entries) : node.own <+: e.1 := by
  match node with
  | .mk p cs pc vs t =>
    rw [entries, mem_append, mem_map, mem_map] at he
    rcases he with ⟨v, -, rfl⟩ | ⟨e, -, rfl⟩
    · exact prefix_rfl
    · exact prefix_append _ _

theorem Children.Wf.head_entries {cs : Children} (h : cs.Wf)
    (he : e ∈ cs.entries) : ∃ b ∈ cs.keys, ∃ ts, e.1 = .lit b :: ts := by
  match cs with
  | .nil => cases he
  | .cons b (.mk p _ _ _ t) rest =>
    obtain ⟨⟨ht, hp⟩, -, hrest⟩ := h
    rw [Children.entries, mem_append] at he
    rcases he with he | he
    · obtain ⟨c, hc, ts, hts⟩ := Children.Wf.head_entries hrest he
      exact ⟨c, by simp [Children.keys, hc], ts, hts⟩
    · obtain ⟨ts, hts⟩ := own_isPrefix he
      obtain rfl : t = .static := ht
      obtain ⟨p, rfl⟩ := head?_eq_some_iff.1 hp
      refine ⟨b, by simp [Children.keys], p.map .lit ++ ts, ?_⟩
      rw [← hts]
      rfl

theorem ParamChild.Wf.head_entries (h : pc.Wf) (he : e ∈ pc.entries) : ∃ ts, e.1 = .any :: ts := by
  match pc with
  | .none => cases he
  | .some child =>
    obtain ⟨ts, hts⟩ := own_isPrefix he
    rw [own_of_param h.1] at hts
    exact ⟨ts, hts.symm⟩

/-- The entries below a node have tokens of their own. -/
theorem entries_ne_nil {cs : Children} (hcs : cs.Wf) (hpc : pc.Wf)
    (he : e ∈ pc.entries ++ cs.entries) : e.1 ≠ [] := by
  rcases mem_append.1 he with he | he
  · obtain ⟨ts, hts⟩ := hpc.head_entries he
    simp [hts]
  · obtain ⟨b, -, ts, hts⟩ := hcs.head_entries he
    simp [hts]

section Children

variable {child : BuildNode} {rest : Children} {after : Bytes}

/-- Nothing under a child matches a path that goes on with another byte. -/
theorem Children.Wf.no_match_child (h : (Children.cons b child rest).Wf)
    (hb : after.head? ≠ some b) (he : e ∈ child.entries) : matchTokens e.1 after = none := by
  have hone : (Children.cons b child .nil).Wf := ⟨h.1, h.2.1, trivial⟩
  obtain ⟨c, hc, ts, hts⟩ := hone.head_entries (e := e) (by simpa [Children.entries] using he)
  obtain rfl : c = b := by simpa [Children.keys] using hc
  rw [hts]
  exact matchTokens_head_ne hb

/-- The keys differ, so a path that goes on under a child matches nothing under the others. -/
theorem Children.Wf.no_match_rest {P : ParamChild → List ℕ → Prop}
    (h : (Children.cons b child rest).Wf) (hall : (Children.cons b child rest).All P)
    (hb : after.head? = some b) (he : e ∈ rest.entries) : matchTokens e.1 after = none := by
  obtain ⟨c, hc, ts, hts⟩ := h.2.2.head_entries he
  rw [hts]
  refine matchTokens_head_ne fun hc' => ?_
  rw [hb, Option.some.injEq] at hc'
  exact Children.All.not_mem hall (hc' ▸ hc)

end Children

mutual

/-- **A search finds the entries that match, in their order.** -/
theorem BuildNode.hits_eq : ∀ (node : BuildNode) (path : Bytes), node.Wf →
    node.hits path = node.entries.filterMap (report path)
  | .mk p cs pc vs t, path, hwf => by
    have hbelow : ((pc.entries ++ cs.entries).map (below (ownTokens t p))).filterMap (report path) =
        (pc.entries ++ cs.entries).filterMap fun e =>
          (matchTokens (ownTokens t p) path).bind fun after => report after e := by
      rw [filterMap_map]
      refine filterMap_congr fun e he => ?_
      exact report_below (entries_ne_nil hwf.1 hwf.2 he) path
    rw [hits, entries, filterMap_append, hbelow, consumeAs_eq, filterMap_map]
    rcases hm : matchTokens (ownTokens t p) path with _ | after
    · simp [report, tokensKind, hm, comp_def]
    · rw [Option.map_some, Option.elim_some]
      congr 1
      · simp [report, tokensKind, hm, comp_def]
      · split
        · rename_i hnil
          obtain rfl : after = [] := hnil
          symm
          rw [filterMap_eq_nil_iff]
          intro e he
          simp [report, tokensKind, matchTokens_nil_path (entries_ne_nil hwf.1 hwf.2 he)]
        · rw [ParamChild.hits_eq pc after hwf.2, Children.hits_eq cs after hwf.1,
            ← filterMap_append]
          rfl

theorem Children.hits_eq : ∀ (cs : Children) (after : Bytes), cs.Wf →
    cs.hits after = cs.entries.filterMap (report after)
  | .nil, _, _ => rfl
  | .cons b child rest, after, hwf => by
    rw [Children.hits, Children.entries, filterMap_append, Children.hits_eq rest after hwf.2.2]
    congr 1
    split
    · exact BuildNode.hits_eq child after hwf.2.1
    · rename_i hb
      symm
      rw [filterMap_eq_nil_iff]
      intro e he
      simp [report, tokensKind, hwf.no_match_child hb he]

theorem ParamChild.hits_eq : ∀ (pc : ParamChild) (after : Bytes), pc.Wf →
    pc.hits after = pc.entries.filterMap (report after)
  | .none, _, _ => rfl
  | .some child, after, hwf => BuildNode.hits_eq child after hwf.2

end

/-- **The order of a search**: what is shorter comes first, and a parameter before a literal. Only
tokens that match one path are ever compared. -/
def Before : List Tok → List Tok → Prop
  | [], [] => False
  | [], _ :: _ => True
  | _ :: _, [] => False
  | .any :: ts, .any :: ts' => Before ts ts'
  | .any :: _, .lit _ :: _ => True
  | .lit _ :: _, .any :: _ => False
  | .lit b :: ts, .lit c :: ts' => b = c ∧ Before ts ts'

theorem Before.append_left (h : Before ts ts') (c : List Tok) : Before (c ++ ts) (c ++ ts') := by
  induction c with
  | nil => exact h
  | cons tok c ih =>
    rcases tok with _ | b
    · exact ih
    · exact ⟨rfl, ih⟩

theorem Before.self_append (ts : List Tok) (h : ts' ≠ []) : Before ts (ts ++ ts') := by
  obtain ⟨tok, ts', rfl⟩ := exists_cons_of_ne_nil h
  have hnil : Before [] (tok :: ts') := by
    rcases tok with _ | b <;> trivial
  simpa using hnil.append_left ts

/-- The order is strict. -/
theorem Before.asymm (h : Before ts ts') : ¬ Before ts' ts := by
  induction ts generalizing ts' with
  | nil =>
    rcases ts' with _ | ⟨tok, ts'⟩
    · exact h.elim
    · exact id
  | cons tok ts ih =>
    rcases ts' with _ | ⟨tok', ts'⟩
    · exact h.elim
    · rcases tok with _ | b
      · rcases tok' with _ | c
        · exact ih h
        · exact id
      · rcases tok' with _ | c
        · exact h.elim
        · exact fun h' => ih h.2 h'.2

theorem Before.ne (h : Before ts ts') : ts ≠ ts' := by
  rintro rfl
  exact h.asymm h

/-- An entry comes before another: by its tokens, or at one place by its value. -/
def Ahead (e e' : List Tok × ℕ) : Prop := Before e.1 e'.1 ∨ e.1 = e'.1 ∧ e.2 < e'.2

theorem Ahead.below {e' : List Tok × ℕ} (h : Ahead e e') (ts : List Tok) :
    Ahead (below ts e) (below ts e') := by
  rcases h with h | ⟨h, hv⟩
  · exact .inl (h.append_left ts)
  · exact .inr ⟨congrArg (ts ++ ·) h, hv⟩

/-- The values of a node grow, and are all below a bound. -/
def Increasing (n : ℕ) (_ : ParamChild) (vs : List ℕ) : Prop :=
  vs.Pairwise (· < ·) ∧ ∀ v ∈ vs, v < n

/-- The entries that match a path. -/
def matching (path : Bytes) (l : List (List Tok × ℕ)) : List (List Tok × ℕ) :=
  l.filter fun e => (matchTokens e.1 path).isSome

theorem matching_append (path : Bytes) (l l' : List (List Tok × ℕ)) :
    matching path (l ++ l') = matching path l ++ matching path l' := filter_append ..

variable {path : Bytes}

theorem matching_below (l : List (List Tok × ℕ)) : matching path (l.map (below ts)) =
      (matchTokens ts path).elim [] fun after => (matching after l).map (below ts) := by
  rw [matching, filter_map]
  rcases hm : matchTokens ts path with _ | after
  · simp [below, matchTokens_append, hm, comp_def]
  · simp [below, matchTokens_append, hm, comp_def, matching]

theorem matching_eq_nil {l : List (List Tok × ℕ)}
    (h : ∀ e ∈ l, matchTokens e.1 path = none) : matching path l = [] := by
  rw [matching, filter_eq_nil_iff]
  intro e he
  simp [h e he]

mutual

/-- **The entries that match a path are in the order of the search.** -/
theorem BuildNode.matching_pairwise {n : ℕ} : ∀ (node : BuildNode) (path : Bytes), node.Wf →
    node.All (Increasing n) → (matching path node.entries).Pairwise Ahead
  | .mk p cs pc vs t, path, hwf, ⟨hvs, hcs, hpc⟩ => by
    rw [entries, matching_append, matching_below, pairwise_append]
    refine ⟨?_, ?_, ?_⟩
    · refine List.Pairwise.filter _ (pairwise_map.2 (hvs.1.imp fun hlt => ?_))
      exact .inr ⟨rfl, hlt⟩
    · rcases matchTokens (ownTokens t p) path with _ | after
      · exact List.Pairwise.nil
      · rw [Option.elim_some, pairwise_map, matching_append, pairwise_append]
        refine ⟨(ParamChild.matching_pairwise pc after hwf.2 hpc).imp (·.below _),
          (Children.matching_pairwise cs after hwf.1 hcs).imp (·.below _), ?_⟩
        intro e he e' he'
        obtain ⟨ts, hts⟩ := hwf.2.head_entries (mem_of_mem_filter he)
        obtain ⟨b, -, ts', hts'⟩ := hwf.1.head_entries (mem_of_mem_filter he')
        have hahead : Ahead e e' := .inl (by rw [hts, hts']; trivial)
        exact hahead.below _
    · intro e he e' he'
      obtain ⟨v, -, rfl⟩ := mem_map.1 (mem_of_mem_filter he)
      rcases hm : matchTokens (ownTokens t p) path with _ | after
      · rw [hm] at he'
        cases he'
      · rw [hm] at he'
        obtain ⟨e', hmem, rfl⟩ := mem_map.1 he'
        have hne := entries_ne_nil hwf.1 hwf.2 (mem_of_mem_filter hmem)
        exact .inl (Before.self_append _ hne)

theorem Children.matching_pairwise {n : ℕ} : ∀ (cs : Children) (after : Bytes), cs.Wf →
    cs.All (Increasing n) → (matching after cs.entries).Pairwise Ahead
  | .nil, _, _, _ => List.Pairwise.nil
  | .cons b child rest, after, hwf, hall => by
    rw [Children.entries, matching_append]
    by_cases hb : after.head? = some b
    · have hrest := matching_eq_nil fun e => hwf.no_match_rest hall hb (e := e)
      rw [hrest, nil_append]
      exact BuildNode.matching_pairwise child after hwf.2.1 hall.1
    · have hchild := matching_eq_nil fun e => hwf.no_match_child hb (e := e)
      rw [hchild, append_nil]
      exact Children.matching_pairwise rest after hwf.2.2 hall.2.2

theorem ParamChild.matching_pairwise {n : ℕ} : ∀ (pc : ParamChild) (after : Bytes), pc.Wf →
    pc.All (Increasing n) → (matching after pc.entries).Pairwise Ahead
  | .none, _, _, _ => List.Pairwise.nil
  | .some child, after, hwf, hall => BuildNode.matching_pairwise child after hwf.2 hall

end

/-! ## Routers -/

namespace RadixRouter

/-- The entry a route is meant to be. -/
def entryOf (route : String × ℕ) : List Tok × ℕ := (readPattern .text (asBytes route.1), route.2)

variable {pattern : String} {router' : RadixRouter} {value : ℕ}

/-- **One insertion adds one entry.** -/
theorem insert_entries (hwf : router.Wf) (hgood : EscapeLast (asBytes pattern))
    (h : router.insert pattern value = (router', .ok ())) :
    router'.Wf ∧ router'.root.entries.Perm (entryOf (pattern, value) :: router.root.entries) := by
  obtain ⟨hroot, ht, hpre⟩ := hwf
  obtain ⟨hpat, hins⟩ := insert_eq_ok h
  obtain ⟨literal, rest, hsegs, hlit, halt⟩ := hgood.parsePath_alternates hpat
  rw [hsegs, insertSegments] at hins
  obtain ⟨hwf', ht', hpre', hperm⟩ := (descends _ _ _ hins).entries
    (insertSegments_adds value (asBytes pattern) halt) hroot hlit fun _ hne => absurd hpre hne
  rw [hpre] at hpre'
  refine ⟨⟨hwf', ht'.trans ht, head?_eq_none_iff.1 hpre'⟩, ?_⟩
  rw [start_of_static ht, nil_append] at hperm
  rwa [entryOf, ← tokens_parsePath, hsegs]

variable {routes : List (String × ℕ)}

/-- **The entries of a sequence of insertions** are the routes as they are meant. -/
theorem insertAll_entries (hwf : router.Wf) (hgood : ∀ route ∈ routes, EscapeLast (asBytes route.1))
    (h : router.insertAll routes = .ok router') :
    router'.Wf ∧ router'.root.entries.Perm (routes.map entryOf ++ router.root.entries) := by
  induction routes generalizing router with
  | nil =>
    cases h
    exact ⟨hwf, List.Perm.refl _⟩
  | cons route routes ih =>
    obtain ⟨router1, hins, h⟩ := insertAll_cons_eq_ok h
    obtain ⟨hwf1, hperm1⟩ := insert_entries hwf (hgood route (by simp)) hins
    obtain ⟨hwf', hperm⟩ := ih hwf1 (fun r hr => hgood r (by simp [hr])) h
    exact ⟨hwf', hperm.trans ((hperm1.append_left _).trans perm_middle)⟩

/-- A value larger than all before goes to the end of what stands at its place. -/
theorem insert_increasing (hall : router.root.All (Increasing value))
    (h : router.insert pattern value = (router', .ok ())) :
    router'.root.All (Increasing (value + 1)) := by
  refine insertSegments_keeps (fun _ vs h => ⟨?_, ?_⟩)
    (fun _ _ h => ⟨h.1, fun v hv => lt_succ_of_lt (h.2 v hv)⟩) ⟨.nil, by simp⟩
    (fun _ _ _ h => ⟨h.1, fun v hv => lt_succ_of_lt (h.2 v hv)⟩) _ hall (insert_eq_ok h).2
  · rw [pairwise_append]
    exact ⟨h.1, by simp, fun a ha b hb => by simpa [mem_singleton.1 hb] using h.2 a ha⟩
  · intro v hv
    rcases mem_append.1 hv with hv | hv
    · exact lt_succ_of_lt (h.2 v hv)
    · rw [mem_singleton.1 hv]
      exact lt_succ_self value

theorem insertAll_increasing {n : ℕ}
    (hall : router.root.All (Increasing n)) (hle : ∀ route ∈ routes, n ≤ route.2)
    (hvalues : (routes.map Prod.snd).Pairwise (· < ·))
    (h : router.insertAll routes = .ok router') : ∃ n', router'.root.All (Increasing n') := by
  induction routes generalizing router n with
  | nil =>
    cases h
    exact ⟨n, hall⟩
  | cons route routes ih =>
    obtain ⟨router1, hins, h⟩ := insertAll_cons_eq_ok h
    rw [map_cons, pairwise_cons] at hvalues
    have hall' : router.root.All (Increasing route.2) :=
      hall.mono fun _ _ hvs => ⟨hvs.1, fun v hv => (hvs.2 v hv).trans_le (hle route (by simp))⟩
    exact ih (insert_increasing hall' hins) (fun r hr => hvalues.1 r.2 (mem_map_of_mem hr))
      hvalues.2 h

end RadixRouter

open RadixRouter

/-- **What `match_all_ext` returns, in order**: the routes that match the path as they are meant,
the shorter first, a parameter before a literal, and at one place the earlier value first. -/
theorem matchAllExt_entries {routes : List (String × ℕ)}
    {t : FrozenRadixTree} (hgood : ∀ route ∈ routes, EscapeLast (asBytes route.1))
    (hvalues : (routes.map Prod.snd).Pairwise (· < ·))
    (hins : new.insertAll routes = .ok router) (hfreeze : router.freeze = .ok t)
    (path : String) :
    ∃ found : List (List Tok × ℕ),
      found.Perm (matching (asBytes path) (routes.map entryOf)) ∧
      found.Pairwise Ahead ∧
      t.matchAllExt path = some ((found.filterMap (report (asBytes path))).map narrow) := by
  have hnew : new.root.All (Increasing 0) := ⟨⟨.nil, by simp⟩, trivial, trivial⟩
  obtain ⟨hwf, hperm⟩ := insertAll_entries new_wf hgood hins
  obtain ⟨n, hall⟩ := insertAll_increasing hnew (fun _ _ => zero_le _) hvalues hins
  have hempty : new.root.entries = [] := rfl
  rw [hempty, append_nil] at hperm
  refine ⟨matching (asBytes path) router.root.entries, hperm.filter _,
    BuildNode.matching_pairwise _ _ hwf.1 hall, ?_⟩
  rw [matchAllExt_hits hfreeze, BuildNode.hits_eq _ _ hwf.1, matching, filterMap_filter]
  refine congrArg (fun l => some (l.map narrow)) (filterMap_congr fun e _ => ?_)
  rcases hm : matchTokens e.1 (asBytes path) with _ | after
  · simp [report, tokensKind, hm]
  · simp

end Edgion.RadixTree
