import SimpleBinary.Text.Utf8

/-! Reading back what was written: the bytes of a text read as that text, and
bytes, well formed or not, read as a text that is empty only if they are. -/
namespace SimpleBinary.Text

namespace Utf8

private theorem toNat_small {m : Nat} (hm : m < 256) : (UInt8.ofNat m).toNat = m := by
  rw [UInt8.toNat_ofNat']
  omega

private theorem within {low high m : Nat} (hlow : low ≤ m) (hhigh : m ≤ high)
    (hbyte : high < 256) :
    UInt8.ofNat low ≤ UInt8.ofNat m ∧ UInt8.ofNat m ≤ UInt8.ofNat high := by
  rw [UInt8.le_iff_toNat_le, UInt8.le_iff_toNat_le, toNat_small (m := low) (by omega),
    toNat_small (m := m) (by omega), toNat_small hbyte]
  exact ⟨hlow, hhigh⟩

/-- The last byte that is owed completes the pending character. -/
private theorem decode_last {bits low high m : Nat} (rest : List UInt8)
    (hlow : low ≤ m) (hhigh : m ≤ high) (hbyte : high < 256) :
    decode (some ⟨bits, 1, UInt8.ofNat low, UInt8.ofNat high⟩) (UInt8.ofNat m :: rest) =
      Char.ofNat (bits * 64 + (m - 0x80)) :: decode none rest := by
  simp [decode, within hlow hhigh hbyte, toNat_small (show m < 256 by omega)]

private theorem decode_more {bits owed low high m : Nat} (rest : List UInt8)
    (hlow : low ≤ m) (hhigh : m ≤ high) (hbyte : high < 256) :
    decode (some ⟨bits, owed + 2, UInt8.ofNat low, UInt8.ofNat high⟩) (UInt8.ofNat m :: rest) =
      decode (some ⟨bits * 64 + (m - 0x80), owed + 1, UInt8.ofNat 0x80, UInt8.ofNat 0xBF⟩)
        rest := by
  rw [decode]
  simp only [within hlow hhigh hbyte, toNat_small (show m < 256 by omega), and_self, if_true]
  rfl

private theorem decode_begun {pending : Pending} {byte : UInt8} (rest : List UInt8)
    (h : lead byte = .begun pending) :
    decode none (byte :: rest) = decode (some pending) rest := by
  simp [decode, h]

private theorem lead_one {m : Nat} (hm : m < 0x80) :
    lead (UInt8.ofNat m) = .whole (Char.ofNat m) := by
  unfold lead
  rw [toNat_small (by omega)]
  simp [hm]

private theorem lead_two {m : Nat} (hlow : 0xC2 ≤ m) (hhigh : m ≤ 0xDF) :
    lead (UInt8.ofNat m) = .begun ⟨m - 0xC0, 1, UInt8.ofNat 0x80, UInt8.ofNat 0xBF⟩ := by
  unfold lead
  rw [toNat_small (by omega)]
  simp only [show ¬ m < 0x80 by omega, hlow, hhigh, and_self, if_true, if_false]
  rfl

/-- The first of three bytes narrows the range of the second: no overlong
form behind `E0`, no surrogate behind `ED`. -/
private theorem lead_three {k : Nat} (hk : k < 16) :
    lead (UInt8.ofNat (k + 0xE0)) = .begun ⟨k, 2,
      UInt8.ofNat (if k = 0 then 0xA0 else 0x80), UInt8.ofNat (if k = 13 then 0x9F else 0xBF)⟩ := by
  unfold lead
  rw [toNat_small (by omega)]
  simp only [show ¬ k + 0xE0 < 0x80 by omega, show ¬ (0xC2 ≤ k + 0xE0 ∧ k + 0xE0 ≤ 0xDF) by omega,
    show (0xE1 ≤ k + 0xE0 ∧ k + 0xE0 ≤ 0xEF) ↔ ¬ k = 0 by omega,
    show k + 0xE0 = 0xE0 ↔ k = 0 by omega, show k + 0xE0 = 0xED ↔ k = 13 by omega, if_false]
  by_cases hzero : k = 0
  · subst hzero
    rfl
  · by_cases hsurrogate : k = 13
    · subst hsurrogate
      rfl
    · simp only [hzero, hsurrogate, if_false, not_false_eq_true, if_true, Nat.add_sub_cancel]
      rfl

private theorem lead_four {k : Nat} (hk : k < 5) :
    lead (UInt8.ofNat (k + 0xF0)) = .begun ⟨k, 3,
      UInt8.ofNat (if k = 0 then 0x90 else 0x80), UInt8.ofNat (if k = 4 then 0x8F else 0xBF)⟩ := by
  match k, hk with
  | 0, _ | 1, _ | 2, _ | 3, _ | 4, _ => rfl

theorem decode_encodeChar (c : Char) (rest : List UInt8) :
    decode none (String.utf8EncodeChar c ++ rest) = c :: decode none rest := by
  have hback : Char.ofNat c.val.toNat = c := Char.ofNat_toNat c
  have hvalid : c.val.toNat < 0xD800 ∨ 0xDFFF < c.val.toNat ∧ c.val.toNat < 0x110000 := c.valid
  unfold String.utf8EncodeChar
  generalize c.val.toNat = v at hback hvalid
  dsimp only
  split
  · simp [decode, lead_one (show v < 0x80 by omega), hback]
  split
  · rw [List.cons_append, decode_begun _ (lead_two (by omega) (by omega)), List.cons_append,
      decode_last _ (by omega) (by omega) (by decide)]
    rw [show (v / 64 % 32 + 0xC0 - 0xC0) * 64 + (v % 64 + 0x80 - 0x80) = v by omega, hback]
    rfl
  split
  · rw [List.cons_append, decode_begun _ (lead_three (by omega)), List.cons_append,
      decode_more _ (by split <;> omega) (by split <;> omega) (by split <;> omega),
      List.cons_append, decode_last _ (by omega) (by omega) (by decide)]
    rw [show (v / 4096 % 16 * 64 + (v / 64 % 64 + 0x80 - 0x80)) * 64 + (v % 64 + 0x80 - 0x80) = v
      by omega, hback]
    rfl
  · rw [List.cons_append, decode_begun _ (lead_four (by omega)), List.cons_append,
      decode_more _ (by split <;> omega) (by split <;> omega) (by split <;> omega),
      List.cons_append, decode_more _ (by omega) (by omega) (by decide),
      List.cons_append, decode_last _ (by omega) (by omega) (by decide)]
    rw [show ((v / 262144 % 8 * 64 + (v / 4096 % 64 + 0x80 - 0x80)) * 64 +
      (v / 64 % 64 + 0x80 - 0x80)) * 64 + (v % 64 + 0x80 - 0x80) = v by omega, hback]
    rfl

theorem decode_encode (chars : List Char) :
    decode none (chars.flatMap String.utf8EncodeChar) = chars := by
  induction chars with
  | nil => rfl
  | cons c rest ih => rw [List.flatMap_cons, decode_encodeChar, ih]

theorem toNat_of_encodeChar {c : Char} {byte : UInt8} (h : String.utf8EncodeChar c = [byte]) :
    byte.toNat = c.toNat := by
  unfold String.utf8EncodeChar at h
  dsimp only at h
  split at h
  · next hsmall =>
    cases h
    exact toNat_small (by omega)
  · split at h
    · cases h
    · split at h <;> cases h

/-- Every byte counts for something, be it a replacement character. -/
theorem decode_eq_nil_iff (pending : Option Pending) (bytes : List UInt8) :
    decode pending bytes = [] ↔ pending = none ∧ bytes = [] := by
  fun_induction decode pending bytes <;> simp_all

end Utf8

theorem ofUtf8Lossy_utf8 (text : String) : ofUtf8Lossy (utf8 text) = text := by
  rw [ofUtf8Lossy, utf8, Utf8.decode_encode, String.ofList_toList]

theorem ofUtf8Lossy_eq_empty_iff (bytes : List UInt8) : ofUtf8Lossy bytes = "" ↔ bytes = [] := by
  rw [ofUtf8Lossy, String.ofList_eq_empty_iff, Utf8.decode_eq_nil_iff]
  simp

theorem length_le_length_utf8 (text : String) : text.toList.length ≤ (utf8 text).length := by
  unfold utf8
  induction text.toList with
  | nil => exact Nat.zero_le _
  | cons c rest ih =>
    have hpos := Char.utf8Size_pos c
    rw [List.flatMap_cons, List.length_append, String.length_utf8EncodeChar, List.length_cons]
    omega

theorem exists_of_utf8 {text : String} {byte : UInt8} (h : utf8 text = [byte]) :
    ∃ c, text.toList = [c] ∧ byte.toNat = c.toNat := by
  have hlength := length_le_length_utf8 text
  rw [h] at hlength
  unfold utf8 at h
  cases hchars : text.toList with
  | nil =>
    rw [hchars] at h
    cases h
  | cons c rest =>
    rw [hchars, List.length_cons, List.length_singleton] at hlength
    have hrest : rest = [] := List.eq_nil_of_length_eq_zero (by omega)
    rw [hchars, hrest, List.flatMap_singleton] at h
    exact ⟨c, by rw [hrest], Utf8.toNat_of_encodeChar h⟩

theorem utf8_eq_nil_iff (text : String) : utf8 text = [] ↔ text = "" := by
  rw [← ofUtf8Lossy_eq_empty_iff, ofUtf8Lossy_utf8]

end SimpleBinary.Text
