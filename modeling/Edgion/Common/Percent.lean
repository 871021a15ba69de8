import Mathlib.Data.List.Basic

/-!
# Percent-encoding

The bytes of a text, and what it is for another text to encode them: each byte stands for itself,
where it may, or is written as `%` and two hexadecimal digits of either case.
-/

namespace Edgion.Common

open List Char

/-- The characters that may stand for themselves. -/
def Unreserved (c : Char) : Prop := c.isAlphanum = true ∨ c ∈ ['-', '_', '.', '~']

/-- The hexadecimal digits with their values. -/
def hexDigits : List (Char × ℕ) :=
  "0123456789abcdef".toList.zipIdx ++ "ABCDEF".toList.zipIdx 10

/-- **The text percent-encodes the bytes.** -/
inductive PercentEncodes : List UInt8 → List Char → Prop
  | nil : PercentEncodes [] []
  | plain {c : Char} {bs : List UInt8} {cs : List Char} (hc : Unreserved c)
      (h : PercentEncodes bs cs) : PercentEncodes (UInt8.ofNat c.toNat :: bs) (c :: cs)
  | percent {hi lo : Char} {m n : ℕ} {bs : List UInt8} {cs : List Char}
      (hhi : (hi, m) ∈ hexDigits) (hlo : (lo, n) ∈ hexDigits) (h : PercentEncodes bs cs) :
      PercentEncodes (UInt8.ofNat (m * 16 + n) :: bs) ('%' :: hi :: lo :: cs)

variable {bs bs' : List UInt8} {c : Char} {cs cs' : List Char}

theorem Unreserved.bounds (h : Unreserved c) : c.toNat ≤ 127 ∧ c ≠ '%' ∧ c ≠ '+' := by
  rcases h with h | h
  · have hbounds : 48 ≤ c.toNat ∧ c.toNat ≤ 122 := by
      delta isAlphanum isAlpha isUpper isLower isDigit at h
      simp [UInt32.le_iff_toNat_le] at h
      have hval : c.toNat = c.val.toNat := rfl
      omega
    refine ⟨by omega, ?_, ?_⟩ <;> rintro rfl <;> exact absurd hbounds.1 (by decide)
  · have hall : ∀ c ∈ ['-', '_', '.', '~'], c.toNat ≤ 127 ∧ c ≠ '%' ∧ c ≠ '+' := by simp
    exact hall c h

theorem PercentEncodes.append (h : PercentEncodes bs cs) (h' : PercentEncodes bs' cs') :
    PercentEncodes (bs ++ bs') (cs ++ cs') := by
  induction h with
  | nil => exact h'
  | plain hc _ ih => exact .plain hc ih
  | percent hhi hlo _ ih => exact .percent hhi hlo ih

/-- An encoding is no shorter than what it encodes. -/
theorem PercentEncodes.length_le (h : PercentEncodes bs cs) : bs.length ≤ cs.length := by
  induction h with
  | nil => exact Nat.le_refl _
  | plain _ _ ih => exact Nat.succ_le_succ ih
  | percent _ _ _ ih =>
    simp only [length_cons]
    omega

/-- An encoding is of characters of one byte. -/
theorem PercentEncodes.le (h : PercentEncodes bs cs) : ∀ c ∈ cs, c.toNat ≤ 127 := by
  have hdigit : ∀ x ∈ hexDigits, x.1.toNat ≤ 127 := by decide
  induction h with
  | nil => simp
  | plain hc _ ih => exact forall_mem_cons.2 ⟨hc.bounds.1, ih⟩
  | percent hhi hlo _ ih =>
    exact forall_mem_cons.2 ⟨by decide, forall_mem_cons.2
      ⟨hdigit _ hhi, forall_mem_cons.2 ⟨hdigit _ hlo, ih⟩⟩⟩

/-! ## The bytes of a text -/

theorem toByteArray_toList (s : String) :
    s.toByteArray.data.toList = s.toList.flatMap String.utf8EncodeChar := by
  rw [← String.utf8Encode_toList, List.utf8Encode, toList_data_toByteArray]

theorem utf8EncodeChar_of_le (h : c.toNat ≤ 127) :
    String.utf8EncodeChar c = [UInt8.ofNat c.toNat] := if_pos h

/-- The bytes of a text of characters of one byte. -/
theorem flatMap_utf8EncodeChar (h : ∀ c ∈ cs, c.toNat ≤ 127) :
    cs.flatMap String.utf8EncodeChar = cs.map fun c => UInt8.ofNat c.toNat := by
  rw [map_eq_flatMap]
  exact flatMap_congr fun c hc => utf8EncodeChar_of_le (h c hc)

/-- A text with as many bytes as characters. -/
theorem le_of_length_flatMap (h : (cs.flatMap String.utf8EncodeChar).length = cs.length) :
    ∀ c ∈ cs, c.toNat ≤ 127 := by
  have hle : ∀ cs : List Char, cs.length ≤ (cs.flatMap String.utf8EncodeChar).length := by
    intro cs
    induction cs with
    | nil => exact Nat.le_refl _
    | cons c cs ih =>
      rw [flatMap_cons, length_append, length_cons, String.length_utf8EncodeChar]
      have := c.utf8Size_pos
      omega
  induction cs with
  | nil => simp
  | cons c cs ih =>
    rw [flatMap_cons, length_append, length_cons, String.length_utf8EncodeChar] at h
    have hpos := c.utf8Size_pos
    have hrest := hle cs
    exact forall_mem_cons.2 ⟨utf8Size_eq_one_iff.1 (by omega), ih (by omega)⟩

end Edgion.Common
