import Mathlib.Data.List.Infix

/-!
# Texts — the string operations the source uses

The standard library's tests on string slices, read on the characters of
a text. Lengths are in bytes, as `len` counts them; a slice is only ever
taken past characters of one byte each.
-/

namespace Edgion.Text

open List Char

variable (s : String)

/-- The standard library's `str::len`: the bytes of a text. -/
def len : ℕ := s.utf8ByteSize

/-- The standard library's `str::starts_with`. -/
def startsWith (s pat : String) : Bool := pat.toList.isPrefixOf s.toList

/-- The standard library's `str::ends_with`. -/
def endsWith (s pat : String) : Bool := pat.toList.isSuffixOf s.toList

/-- The slice `s[n..]`, for a text whose first `n` characters are of one
byte each. -/
def sliceFrom (n : ℕ) : String := String.ofList (s.toList.drop n)

/-- The standard library's `str::strip_prefix`, for a pattern whose
characters are of one byte each. -/
def stripPrefix (s pat : String) : Option String :=
  if startsWith s pat then some (sliceFrom s pat.toList.length) else none

/-- The standard library's `str::split_once`, at a character. -/
def splitOnce (c : Char) : Option (String × String) :=
  if c ∈ s.toList then
    some (String.ofList (s.toList.take (s.toList.idxOf c)),
      String.ofList (s.toList.drop (s.toList.idxOf c + 1)))
  else none

/-- The standard library's `str::eq_ignore_ascii_case`. -/
def eqIgnoreAsciiCase (s t : String) : Bool :=
  s.toList.map toLower == t.toList.map toLower

/-- The standard library's `str::to_ascii_lowercase`. -/
def toAsciiLowercase : String := String.ofList (s.toList.map toLower)

variable (c : Char)

/-- The standard library's `char::is_whitespace`: the property `White_Space`. -/
def isWhitespace : Bool :=
  (9 ≤ c.toNat && c.toNat ≤ 13) || c.toNat = 0x20 || c.toNat = 0x85 || c.toNat = 0xA0 ||
    c.toNat = 0x1680 || (0x2000 ≤ c.toNat && c.toNat ≤ 0x200A) || c.toNat = 0x2028 ||
    c.toNat = 0x2029 || c.toNat = 0x202F || c.toNat = 0x205F || c.toNat = 0x3000

variable (cs : List Char)

/-- The standard library's `str::trim`, on characters. -/
def trim : List Char :=
  ((cs.dropWhile isWhitespace).reverse.dropWhile isWhitespace).reverse

/-- The bytes of a header's value, each as the character of its number. -/
abbrev HeaderValue := List Char

/-- A character of a header's value that `HeaderValue::to_str` accepts. -/
def isVisibleAscii : Bool := (32 ≤ c.toNat && c.toNat < 127) || c == '\t'

/-- The `http` crate's `HeaderValue::to_str`, on characters. -/
def HeaderValue.toStr (value : HeaderValue) : Option (List Char) :=
  if value.all isVisibleAscii then some value else none

/-- A text without upper-case ASCII letters. -/
def LowerCase : Prop := ∀ c ∈ s.toList, c.toLower = c

instance (s : String) : Decidable (LowerCase s) := decidableBAll _ s.toList

variable {s t pat : String}

@[simp] theorem startsWith_iff : startsWith s pat ↔ pat.toList <+: s.toList := by
  simp [startsWith]

@[simp] theorem endsWith_iff : endsWith s pat ↔ pat.toList <:+ s.toList := by
  simp [endsWith]

@[simp] theorem toList_sliceFrom (n : ℕ) : (sliceFrom s n).toList = s.toList.drop n := by
  simp [sliceFrom]

@[simp] theorem eqIgnoreAsciiCase_iff :
    eqIgnoreAsciiCase s t ↔ s.toList.map toLower = t.toList.map toLower := by
  simp [eqIgnoreAsciiCase]

/-- What a text is split into makes up the text. -/
theorem eq_of_splitOnce {c : Char} {p : String × String} (h : splitOnce s c = some p) :
    s = p.1 ++ String.singleton c ++ p.2 := by
  rw [splitOnce] at h
  split at h
  · next hc =>
    cases h
    have hlt : s.toList.idxOf c < s.toList.length := idxOf_lt_length_of_mem hc
    have hcons : c :: s.toList.drop (s.toList.idxOf c + 1) = s.toList.drop (s.toList.idxOf c) := by
      rw [← getElem_cons_drop hlt, getElem_idxOf hlt]
    refine String.toList_injective ?_
    simp [hcons]
  · cases h

theorem LowerCase.map_toLower (hs : LowerCase s) : s.toList.map toLower = s.toList := by
  rw [map_congr_left (g := id) hs, map_id]

/-- A character is its own lower case, or it is a letter between `A` and `Z`. -/
theorem toLower_cases :
    c.toLower = c ∨ (65 ≤ c.toNat ∧ c.toNat ≤ 90 ∧ c.toLower.toNat = c.toNat + 32) := by
  by_cases h : c.val ≥ 'A'.val ∧ c.val ≤ 'Z'.val
  · right
    have hlower : c.toLower.val = c.val + ('a'.val - 'A'.val) := by
      delta toLower
      rw [dif_pos h]
    obtain ⟨hlow, hhigh⟩ := h
    have hlow : 65 ≤ c.val.toNat := hlow
    have hhigh : c.val.toNat ≤ 90 := hhigh
    have hval : c.toLower.val.toNat = c.val.toNat + 32 := by
      have hdiff : ('a'.val - 'A'.val).toNat = 32 := by decide
      rw [hlower, UInt32.toNat_add, hdiff]
      omega
    exact ⟨hlow, hhigh, hval⟩
  · left
    delta toLower
    exact dif_neg h

theorem toLower_toLower : c.toLower.toLower = c.toLower := by
  rcases toLower_cases c with h | ⟨hlow, -, h⟩
  · rw [h, h]
  · rcases toLower_cases c.toLower with h' | ⟨-, hhigh, -⟩
    · exact h'
    · omega

/-- What is no letter is only the lower case of itself. -/
theorem toLower_eq_iff {c d : Char} (hd : d.toNat < 65 ∨ 90 < d.toNat ∧ d.toNat < 97) :
    c.toLower = d ↔ c = d := by
  rcases toLower_cases c with h | ⟨hlow, hhigh, h⟩
  · rw [h]
  · constructor
    · rintro rfl
      omega
    · rintro rfl
      omega

theorem isWhitespace_toLower : isWhitespace c.toLower = isWhitespace c := by
  rcases toLower_cases c with h | ⟨hlow, hhigh, h⟩
  · rw [h]
  · rw [Bool.eq_iff_iff]
    simp only [isWhitespace, h, Bool.or_eq_true, Bool.and_eq_true, decide_eq_true_eq]
    omega

theorem isDigit_toLower : c.toLower.isDigit = c.isDigit := by
  rcases toLower_cases c with h | ⟨hlow, hhigh, h⟩
  · rw [h]
  · have hlow : 65 ≤ c.val.toNat := hlow
    have h : c.toLower.val.toNat = c.val.toNat + 32 := h
    rw [Bool.eq_iff_iff]
    delta isDigit
    simp only [ge_iff_le, Bool.and_eq_true, decide_eq_true_eq, UInt32.le_iff_toNat_le, h]
    have hnine : ('9'.val).toNat = 57 := by decide
    omega

theorem trim_map_toLower : trim (cs.map toLower) = (trim cs).map toLower := by
  have hcomp : isWhitespace ∘ toLower = isWhitespace := funext isWhitespace_toLower
  unfold trim
  rw [dropWhile_map, hcomp, ← map_reverse, dropWhile_map, hcomp, map_reverse]

/-- Texts of the same characters have the same length. -/
theorem len_of_perm (h : s.toList.Perm t.toList) : len s = len t := by
  have hsum : ∀ cs : List Char, len (String.ofList cs) = (cs.map utf8Size).sum := by
    intro cs
    induction cs with
    | nil => rfl
    | cons c cs ih => simpa [len] using ih
  rw [← String.ofList_toList (s := s), ← String.ofList_toList (s := t), hsum, hsum]
  exact (h.map _).sum_nat

variable {p : List Char}

/-- The bytes of a text are those of any two parts it splits into. -/
theorem len_of_append (h : s.toList = p ++ t.toList) :
    len s = len (String.ofList p) + len t := by
  have hs : s = String.ofList p ++ t := String.toList_injective (by simpa using h)
  rw [hs, len, String.utf8ByteSize_append]
  rfl

theorem len_ofList_pos_iff : 0 < len (String.ofList p) ↔ p ≠ [] := by
  rw [Nat.pos_iff_ne_zero, Ne, len, String.utf8ByteSize_eq_zero_iff]
  simp

/-- **An end of a text is shorter in bytes exactly when it is not the whole
text.** -/
theorem len_lt_iff_of_suffix (h : t.toList <:+ s.toList) :
    len t < len s ↔ t.toList.length < s.toList.length := by
  obtain ⟨p, hp⟩ := h
  have hlen : len s = len (String.ofList p) + len t := len_of_append hp.symm
  have hpos := @len_ofList_pos_iff p
  rw [← hp, length_append]
  have hnil : p ≠ [] ↔ 0 < p.length := length_pos_iff.symm
  rw [hnil] at hpos
  omega

/-- A text of characters of one byte each is as long in bytes as in
characters. -/
theorem len_eq_length {s : String} (hs : ∀ c ∈ s.toList, c.utf8Size = 1) :
    len s = s.toList.length := by
  obtain ⟨cs, rfl⟩ : ∃ cs, s = String.ofList cs := ⟨s.toList, String.ofList_toList.symm⟩
  rw [String.toList_ofList] at hs ⊢
  induction cs with
  | nil => rfl
  | cons c cs ih =>
    have hsplit : (String.ofList (c :: cs)).toList = [c] ++ (String.ofList cs).toList := by simp
    have hone : len (String.ofList [c]) = 1 := by
      rw [len, ← String.singleton_eq_ofList, String.utf8ByteSize_singleton]
      exact hs c mem_cons_self
    rw [len_of_append hsplit, hone, ih fun d hd => hs d (mem_cons_of_mem _ hd), length_cons]
    omega

end Edgion.Text
