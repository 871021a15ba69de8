import Edgion.IpRadix.Model
import Edgion.Common.Segment
import Edgion.Common.Tables

/-!
# IP radix matcher — longest-prefix lookup

A build tree is a table from bit strings to values (`entry`): inserting a
rule writes the entry of its network's bits and no other, so after a run
of inserts an entry holds the last value written there. `flattenNode`
lays the tree out as `encode` says, and the walk over that layout is the
longest-prefix match of the table. Together they give `match_ip` its
meaning on the rules as they were written.
-/

namespace Edgion.IpRadix

open Common List FlatNode Nat

/-! ## Bits of an address -/

/-- The bits of an address from position `start` on, `len` of them. -/
def bitsFrom {w : ℕ} (ip : BitVec w) (start len : ℕ) : List Bool :=
  (range' start len).map ip.getMsbD

variable {w n : ℕ} (ip : BitVec w) (start len : ℕ)

theorem bitsFrom_succ :
    bitsFrom ip start (len + 1) = ip.getMsbD start :: bitsFrom ip (start + 1) len := by
  simp [bitsFrom, range'_succ]

@[simp] theorem bitsFrom_zero (start : ℕ) : bitsFrom ip start 0 = [] :=
  rfl

@[simp] theorem length_bitsFrom : (bitsFrom ip start len).length = len := by
  simp [bitsFrom]

open BitVec

/-- The bit the walk tests is the bit at that position. -/
theorem bitAt_eq_zero_iff {i : ℕ} (hi : i < w) : bitAt ip i = 0 ↔ ip.getMsbD i = false := by
  have hbit : ip.getMsbD i = (ip >>> (w - 1 - i)).getLsbD 0 := by
    simp [getMsbD_eq_getLsbD, hi]
  rw [hbit, bitAt]
  constructor
  · intro h
    have h0 := congrArg (fun x => x.getLsbD 0) h
    simpa [show 0 < w by omega] using h0
  · intro h
    refine eq_of_getLsbD_eq fun j hj => ?_
    rcases Nat.eq_zero_or_pos j with rfl | hpos
    · simp [getLsbD_and, h]
    · simp only [ofNat_eq_ofNat, getLsbD_and, getLsbD_one, getLsbD_zero, Bool.and_eq_false_imp]
      intro _
      simp [ne_of_gt hpos]

variable (a b : BitVec w)

/-- Two addresses agree above the last `w - n` bits exactly when their
first `n` bits agree. -/
theorem ushiftRight_eq_iff (hn : n ≤ w) :
    a >>> (w - n) = b >>> (w - n) ↔ ∀ i < n, a.getMsbD i = b.getMsbD i := by
  constructor
  · intro h i hi
    have hbit := congrArg (fun x => x.getMsbD (i + (w - n))) h
    simpa [getMsbD_ushiftRight, show i + (w - n) < w by omega,
      show ¬ i + (w - n) < w - n by omega] using hbit
  · intro h
    refine eq_of_getMsbD_eq fun i hi => ?_
    simp only [getMsbD_ushiftRight]
    rcases lt_or_ge i (w - n) with hlt | hge
    · simp [hlt]
    · rw [h (i - (w - n)) (by omega)]

/-- Normalising keeps the bits of the prefix. -/
theorem getMsbD_normalize {i : ℕ} (a : BitVec w) (hi : i < n) :
    (normalize a n).getMsbD i = a.getMsbD i := by
  unfold normalize
  rw [if_neg (by omega)]
  split
  · rfl
  · simp only [getMsbD_and, getMsbD_shiftLeft, getMsbD_allOnes]
    simp [show i + (w - n) < w by omega]

/-- The first `n` bits of an address are a prefix of another's bits
exactly when the two share a network of length `n`. -/
theorem bitsFrom_prefix_iff (hn : n ≤ w) :
    bitsFrom a 0 n <+: bitsFrom b 0 w ↔ a >>> (w - n) = b >>> (w - n) := by
  have hsplit : bitsFrom b 0 w = bitsFrom b 0 n ++ bitsFrom b n (w - n) := by
    rw [bitsFrom, bitsFrom, bitsFrom, ← map_append]
    have hrange := range'_append_1 (s := 0) (m := n) (n := w - n)
    rw [zero_add] at hrange
    rw [hrange, show n + (w - n) = w by omega]
  rw [ushiftRight_eq_iff a b hn, prefix_iff_eq_take, length_bitsFrom, hsplit,
    take_left' (length_bitsFrom b 0 n), bitsFrom, bitsFrom, map_inj_left]
  simp

/-! ## The build tree as a table -/

/-- The value a tree holds at a bit string. -/
def BuildNode.entry : BuildNode → List Bool → Option Bool
  | .absent, _ => none
  | .node _ _ v _, [] => v
  | .node l r _ _, b :: bs => if b then r.entry bs else l.entry bs

open BuildNode

@[simp] theorem entry_new (p : List Bool) : new.entry p = none := by
  cases p with
  | nil => rfl
  | cons b bs => simp [new, entry]

variable (t : BuildNode)

@[simp] theorem entry_getOrNew (p : List Bool) : t.getOrNew.entry p = t.entry p := by
  cases t with
  | absent => simp [getOrNew, entry]
  | node l r v n => rfl

theorem getOrNew_ne_absent : t.getOrNew ≠ .absent := by
  cases t <;> simp [getOrNew, new]

theorem insertHelper_ne_absent (n : ℕ) (allow : Bool) (left : ℕ)
    {t : BuildNode} (ht : t ≠ .absent) : insertHelper ip n allow left t ≠ .absent := by
  cases t with
  | absent => exact absurd rfl ht
  | node l r v p =>
    cases left with
    | zero => simp [insertHelper]
    | succ left => rw [insertHelper]; split <;> simp

/-- **A rule writes the entry of its own bits.** -/
theorem entry_insertHelper (allow : Bool) (hn : n ≤ w) :
    ∀ (left : ℕ) (t : BuildNode), left ≤ n → t ≠ .absent → ∀ p,
      (insertHelper ip n allow left t).entry p =
        if p = bitsFrom ip (n - left) left then some allow else t.entry p := by
  intro left
  induction left with
  | zero =>
    intro t _ ht p
    cases t with
    | absent => exact absurd rfl ht
    | node l r v q => cases p <;> simp [insertHelper, entry]
  | succ left ih =>
    intro t hle ht p
    cases t with
    | absent => exact absurd rfl ht
    | node l r v q =>
      have hpos : n - (left + 1) + 1 = n - left := by omega
      rw [bitsFrom_succ, hpos, insertHelper]
      by_cases hbit : bitAt ip (n - (left + 1)) = 0
      · rw [if_pos hbit, (bitAt_eq_zero_iff ip (by omega)).1 hbit]
        cases p with
        | nil => simp [entry]
        | cons b bs =>
          cases b <;> simp [entry, ih _ (by omega) (getOrNew_ne_absent _)]
      · rw [if_neg hbit]
        have hone : ip.getMsbD (n - (left + 1)) = true := by
          rw [← Bool.not_eq_false, ← bitAt_eq_zero_iff ip (by omega)]
          exact hbit
        rw [hone]
        cases p with
        | nil => simp [entry]
        | cons b bs =>
          cases b <;> simp [entry, ih _ (by omega) (getOrNew_ne_absent _)]

/-! ## The layout -/

/-- The index a tree is found at when it is laid out from `base`: an
absent tree is nowhere, which the array writes as `0`. -/
def indexAt : BuildNode → ℕ → ℕ
  | .absent, _ => 0
  | .node _ _ _ _, base => base

/-- **The layout of a tree from `base`**: the node, its left subtree, its
right subtree. -/
def encode : BuildNode → ℕ → List FlatNode
  | .absent, _ => []
  | .node l r v p, base =>
    ⟨indexAt l (base + 1), indexAt r (base + 1 + countNodes l), p, encodeFlags v⟩ ::
      (encode l (base + 1) ++ encode r (base + 1 + countNodes l))

@[simp] theorem length_encode (base : ℕ) : (encode t base).length = countNodes t := by
  induction t generalizing base with
  | absent => rfl
  | node l r v p ihl ihr => simp [encode, countNodes, ihl, ihr]; omega

/-- **Flattening appends the layout.** -/
theorem flattenNode_eq :
    ∀ {nodes nodes' : List FlatNode} {idx : ℕ}, flattenNode t nodes = .ok (nodes', idx) →
      nodes' = nodes ++ encode t nodes.length ∧ idx = indexAt t nodes.length := by
  induction t with
  | absent =>
    intro nodes nodes' idx h
    obtain ⟨rfl, rfl⟩ := h
    simp [encode, indexAt]
  | node l r v p ihl ihr =>
    intro nodes nodes' idx h
    rw [flattenNode] at h
    split at h
    · cases h
    rename_i hroom
    simp only at h
    split at h
    · cases h
    rename_i nodesL leftIdx hL
    split at h
    · cases h
    rename_i nodesR rightIdx hR
    obtain ⟨rfl, rfl⟩ := ihl hL
    obtain ⟨rfl, rfl⟩ := ihr hR
    simp only [Except.ok.injEq, Prod.mk.injEq] at h
    obtain ⟨rfl, rfl⟩ := h
    have hidx : nodes.length % 2 ^ 32 = nodes.length := by
      refine mod_eq_of_lt ?_
      simp only [u32Max] at hroom
      omega
    refine ⟨?_, by rw [hidx]; rfl⟩
    simp [encode, add_assoc, add_comm 1]

/-! ## The walk -/

variable (l r p : ℕ)

@[simp] theorem hasValue_encodeFlags (v : Option Bool) :
    (mk l r p (encodeFlags v)).hasValue = v.isSome := by
  rcases v with _ | _ | _ <;> simp [hasValue, encodeFlags]

/-- What the walk remembers after a node is the node's value, or what it
remembered before. -/
theorem remember_eq (v last : Option Bool) :
    (if (mk l r p (encodeFlags v)).hasValue then
      some (mk l r p (encodeFlags v)).getValue else last) = v.or last := by
  rw [hasValue_encodeFlags]
  cases v with
  | none => rfl
  | some b => cases b <;> simp [getValue, encodeFlags]

/-- An index other than `0` is that of a tree that is there. -/
theorem indexAt_eq_zero_iff {t : BuildNode} {base : ℕ} (hb : 0 < base) :
    indexAt t base = 0 ↔ t = .absent := by
  cases t with
  | absent => simp [indexAt]
  | node l r v p => simp [indexAt]; omega

/-- **The walk over a layout is the longest-prefix match of the tree.** -/
theorem matchLoop_encode {nodes : List FlatNode} :
    ∀ (left : ℕ) (t : BuildNode) (idx : ℕ) (last : Option Bool), left ≤ w → t ≠ .absent →
      SegAt nodes idx (encode t idx) →
      matchLoop nodes ip left idx last =
        some ((longestMatch t.entry (bitsFrom ip (w - left) left)).or last) := by
  intro left
  induction left with
  | zero =>
    intro t idx last _ ht hseg
    cases t with
    | absent => exact absurd rfl ht
    | node l r v p =>
      rw [matchLoop, hseg.head]
      simp only [remember_eq]
      rfl
  | succ left ih =>
    intro t idx last hle ht hseg
    cases t with
    | absent => exact absurd rfl ht
    | node l r v p =>
      have hpos : w - (left + 1) + 1 = w - left := by omega
      have hl : SegAt nodes (idx + 1) (encode l (idx + 1)) := hseg.tail.left
      have hr : SegAt nodes (idx + 1 + countNodes l) (encode r (idx + 1 + countNodes l)) := by
        simpa using hseg.tail.right
      -- the walk goes on in the child the next bit names, if it is there
      have hchild : ∀ (c : BuildNode) (i : ℕ), 0 < i → SegAt nodes i (encode c i) →
          (if indexAt c i = 0 then some (v.or last)
            else matchLoop nodes ip left (indexAt c i) (v.or last)) =
          some (((longestMatch c.entry (bitsFrom ip (w - left) left)).or v).or last) := by
        intro c i hi hc
        by_cases hab : c = .absent
        · subst hab
          have hnone : longestMatch absent.entry (bitsFrom ip (w - left) left) = none :=
            longestMatch_eq_none_iff.2 fun p _ => by simp [entry]
          rw [hnone]
          simp [indexAt]
        · rw [if_neg (by rwa [indexAt_eq_zero_iff hi])]
          have hidx : indexAt c i = i := by
            cases c with
            | absent => exact absurd rfl hab
            | node _ _ _ _ => rfl
          rw [hidx, ih c i _ (by omega) hab hc, Option.or_assoc]
      rw [matchLoop, hseg.head, bitsFrom_succ, hpos, longestMatch]
      simp only [remember_eq]
      by_cases hbit : bitAt ip (w - (left + 1)) = 0
      · rw [if_pos hbit, hchild l (idx + 1) (by omega) hl, (bitAt_eq_zero_iff ip (by omega)).1 hbit]
        simp [entry]
      · have hone : ip.getMsbD (w - (left + 1)) = true := by
          rw [← Bool.not_eq_false, ← bitAt_eq_zero_iff ip (by omega)]
          exact hbit
        rw [if_neg hbit, hchild r (idx + 1 + countNodes l) (by omega) hr, hone]
        simp [entry]

/-- **A frozen tree answers with the longest prefix of its builder's.** -/
theorem matchIp_freeze {b : RadixBuilder} {t : FrozenTree}
    (hroot : b.root ≠ .absent) (h : b.freeze = .ok t) :
    t.matchIp ip = some (longestMatch b.root.entry (bitsFrom ip 0 w)) := by
  rw [RadixBuilder.freeze] at h
  split at h
  · cases h
  rw [FrozenTree.fromBuilder] at h
  split at h
  · cases h
  split at h
  · cases h
  rename_i nodes idx hflat
  cases h
  obtain ⟨rfl, -⟩ := flattenNode_eq b.root hflat
  have hne : encode b.root 0 ≠ [] := by
    cases hb : b.root with
    | absent => exact absurd hb hroot
    | node l r v p => simp [encode]
  have hwalk := matchLoop_encode ip w b.root 0 none le_rfl hroot
    (SegAt.of_append [] (encode b.root 0))
  rw [FrozenTree.matchIp]
  simpa [hne] using hwalk

end Edgion.IpRadix
