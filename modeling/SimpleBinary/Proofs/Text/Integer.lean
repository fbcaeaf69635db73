import Mathlib.Data.Nat.Digits.Defs
import SimpleBinary.Text.Blank
import SimpleBinary.Text.Integer

/-! Integers in decimal: how they are spelled and what number they stand for.
Reading takes the blanks off both ends and accepts exactly what is spelled so,
however many digits there are. -/
namespace SimpleBinary.Text

def whiteSpace : List Nat :=
  [0x09, 0x0A, 0x0B, 0x0C, 0x0D, 0x20, 0x85, 0xA0, 0x1680,
    0x2000, 0x2001, 0x2002, 0x2003, 0x2004, 0x2005, 0x2006, 0x2007, 0x2008, 0x2009, 0x200A,
    0x2028, 0x2029, 0x202F, 0x205F, 0x3000]

theorem isBlank_iff {c : Char} : isBlank c = true ↔ c.toNat ∈ whiteSpace := by
  simp only [isBlank, whiteSpace, Bool.or_eq_true, Bool.and_eq_true, decide_eq_true_eq,
    List.mem_cons, List.not_mem_nil, or_false]
  omega

section Trimming
variable {before body after : List Char}

theorem dropWhile_of_clear (rest : List Char) (hbody : body ≠ [])
    (hclear : ∀ c ∈ body, isBlank c = false) :
    (body ++ rest).dropWhile isBlank = body ++ rest := by
  cases body with
  | nil => exact absurd rfl hbody
  | cons c others =>
    have hfirst : ¬ isBlank c = true := by simp [hclear c List.mem_cons_self]
    rw [List.cons_append, List.dropWhile_cons_of_neg hfirst]

/-- Blanks are taken off as far as the first character that is not one. -/
theorem trimChars_between (hbody : body ≠ []) (hclear : ∀ c ∈ body, isBlank c = false)
    (hblank : ∀ c ∈ before ++ after, isBlank c = true) :
    trimChars (before ++ (body ++ after)) = body := by
  have hfront : (before ++ (body ++ after)).dropWhile isBlank = body ++ after := by
    rw [List.dropWhile_append_of_pos fun c hc => hblank c (List.mem_append_left _ hc)]
    exact dropWhile_of_clear after hbody hclear
  have hback : (body ++ after).reverse.dropWhile isBlank = body.reverse := by
    rw [List.reverse_append, List.dropWhile_append_of_pos fun c hc =>
      hblank c (List.mem_append_right _ (List.mem_reverse.mp hc))]
    have hreverse : body.reverse ≠ [] := by simpa using hbody
    simpa using dropWhile_of_clear [] hreverse fun c hc => hclear c (List.mem_reverse.mp hc)
  rw [trimChars, hfront, hback, List.reverse_reverse]

theorem exists_trimChars (chars : List Char) :
    ∃ before after, chars = before ++ (trimChars chars ++ after) ∧
      ∀ c ∈ before ++ after, isBlank c = true := by
  have hkept : trimChars chars ++ ((chars.dropWhile isBlank).reverse.takeWhile isBlank).reverse =
      chars.dropWhile isBlank := by
    rw [trimChars, ← List.reverse_append, List.takeWhile_append_dropWhile, List.reverse_reverse]
  refine ⟨chars.takeWhile isBlank,
    ((chars.dropWhile isBlank).reverse.takeWhile isBlank).reverse, ?_, ?_⟩
  · rw [hkept, List.takeWhile_append_dropWhile]
  · intro c hc
    rcases List.mem_append.mp hc with hc | hc
    · exact List.all_eq_true.mp List.all_takeWhile c hc
    · exact List.all_eq_true.mp List.all_takeWhile c (List.mem_reverse.mp hc)

end Trimming

def IsNumeral (digits : List Char) : Prop :=
  digits ≠ [] ∧ ∀ c ∈ digits, '0' ≤ c ∧ c ≤ '9'

/-- The number that digits stand for in base ten; the last of them counts ones. -/
def numeral (digits : List Char) : Nat :=
  Nat.ofDigits 10 (digits.reverse.map digitValue)

/-- An integer in decimal, with a sign in front or none. A minus sign may be
forbidden. -/
inductive Spells (minus : Bool) : List Char → Int → Prop where
  | bare {digits : List Char} : IsNumeral digits → Spells minus digits (numeral digits)
  | plus {digits : List Char} : IsNumeral digits → Spells minus ('+' :: digits) (numeral digits)
  | minus {digits : List Char} :
      minus = true → IsNumeral digits → Spells minus ('-' :: digits) (-(numeral digits : Int))

/-- A text that is such an integer once white space around it is removed. -/
def Spelled (minus : Bool) (text : String) (n : Int) : Prop :=
  ∃ before body after, text.toList = before ++ (body ++ after) ∧
    (∀ c ∈ before ++ after, c.toNat ∈ whiteSpace) ∧ Spells minus body n

theorem decimalValue_eq_numeral (digits : List Char) : decimalValue digits = numeral digits := by
  rw [decimalValue, numeral, Nat.ofDigits_eq_foldr, List.foldr_map, List.foldr_reverse]
  simp only [Nat.cast_id, Nat.add_comm]

theorem digits?_eq_some_iff {chars : List Char} {n : Nat} :
    digits? chars = some n ↔ IsNumeral chars ∧ numeral chars = n := by
  have hdigit : ∀ c : Char, c.isDigit = true ↔ '0' ≤ c ∧ c ≤ '9' := by
    intro c
    change (decide ('0' ≤ c) && decide (c ≤ '9')) = true ↔ _
    simp only [Bool.and_eq_true, decide_eq_true_eq]
  unfold digits? IsNumeral
  rw [decimalValue_eq_numeral]
  simp [List.all_eq_true, hdigit]

theorem digit_not_blank {c : Char} (h : '0' ≤ c ∧ c ≤ '9') : isBlank c = false := by
  have hlow : 48 ≤ c.toNat := h.1
  have hhigh : c.toNat ≤ 57 := h.2
  rw [← Bool.not_eq_true, isBlank_iff]
  simp only [whiteSpace, List.mem_cons, List.not_mem_nil, or_false]
  omega

theorem IsNumeral.clear {digits : List Char} (h : IsNumeral digits) :
    ∀ c ∈ digits, isBlank c = false :=
  fun c hc => digit_not_blank (h.2 c hc)

theorem Spells.clear {minus : Bool} {body : List Char} {n : Int} (h : Spells minus body n) :
    body ≠ [] ∧ ∀ c ∈ body, isBlank c = false := by
  cases h with
  | bare hdigits => exact ⟨hdigits.1, hdigits.clear⟩
  | plus hdigits =>
    exact ⟨List.cons_ne_nil _ _, List.forall_mem_cons.mpr ⟨by decide, hdigits.clear⟩⟩
  | minus _ hdigits =>
    exact ⟨List.cons_ne_nil _ _, List.forall_mem_cons.mpr ⟨by decide, hdigits.clear⟩⟩

theorem spelled_iff {minus : Bool} {text : String} {n : Int} :
    Spelled minus text n ↔ Spells minus (trimChars text.toList) n := by
  constructor
  · rintro ⟨before, body, after, htext, hblank, hspells⟩
    obtain ⟨hbody, hclear⟩ := hspells.clear
    rw [htext, trimChars_between hbody hclear fun c hc => isBlank_iff.mpr (hblank c hc)]
    exact hspells
  · intro hspells
    obtain ⟨before, after, htext, hblank⟩ := exists_trimChars text.toList
    exact ⟨before, _, after, htext, fun c hc => isBlank_iff.mp (hblank c hc), hspells⟩

/-- A digit is not a sign, so that digits are read as they stand. -/
theorem IsNumeral.ne_sign {digits : List Char} (h : IsNumeral digits) (rest : List Char) :
    digits ≠ '+' :: rest ∧ digits ≠ '-' :: rest := by
  constructor
  · rintro rfl
    exact absurd (h.2 '+' List.mem_cons_self) (by decide)
  · rintro rfl
    exact absurd (h.2 '-' List.mem_cons_self) (by decide)

theorem numeral_of_digits? {digits : List Char} {n : Int}
    (h : (digits? digits >>= fun m => pure (m : Int)) = some n) :
    IsNumeral digits ∧ (numeral digits : Int) = n := by
  obtain ⟨m, hm, hcast⟩ := Option.bind_eq_some_iff.mp h
  obtain ⟨hdigits, rfl⟩ := digits?_eq_some_iff.mp hm
  exact ⟨hdigits, Option.some.inj hcast⟩

theorem digits?_of_numeral {digits : List Char} (h : IsNumeral digits) :
    digits? digits = some (numeral digits) :=
  digits?_eq_some_iff.mpr ⟨h, rfl⟩

theorem integer?_eq_some_iff {chars : List Char} {n : Int} :
    integer? chars = some n ↔ Spells true chars n := by
  constructor
  · intro h
    unfold integer? at h
    split at h
    · obtain ⟨m, hm, rfl⟩ := Option.map_eq_some_iff.mp h
      obtain ⟨hdigits, rfl⟩ := numeral_of_digits? hm
      exact .minus rfl hdigits
    · obtain ⟨m, hm, rfl⟩ := Option.map_eq_some_iff.mp h
      obtain ⟨hdigits, rfl⟩ := numeral_of_digits? hm
      exact .plus hdigits
    · obtain ⟨m, hm, rfl⟩ := Option.map_eq_some_iff.mp h
      obtain ⟨hdigits, rfl⟩ := numeral_of_digits? hm
      exact .bare hdigits
  · intro h
    cases h with
    | bare hdigits =>
      unfold integer?
      split
      · exact absurd rfl (hdigits.ne_sign _).2
      · exact absurd rfl (hdigits.ne_sign _).1
      · rw [digits?_of_numeral hdigits]
        rfl
    | plus hdigits =>
      rw [integer?, digits?_of_numeral hdigits]
      rfl
    | minus _ hdigits =>
      rw [integer?, digits?_of_numeral hdigits]
      rfl

theorem natural?_eq_some_iff {chars : List Char} {n : Int} :
    ((natural? chars).map fun m => (m : Int)) = some n ↔ Spells false chars n := by
  constructor
  · intro h
    obtain ⟨m, hm, rfl⟩ := Option.map_eq_some_iff.mp h
    unfold natural? at hm
    split at hm
    · obtain ⟨hdigits, rfl⟩ := numeral_of_digits? hm
      exact .plus hdigits
    · obtain ⟨hdigits, rfl⟩ := numeral_of_digits? hm
      exact .bare hdigits
  · intro h
    cases h with
    | bare hdigits =>
      unfold natural?
      split
      · exact absurd rfl (hdigits.ne_sign _).1
      · rw [digits?_of_numeral hdigits]
        rfl
    | plus hdigits =>
      rw [natural?, digits?_of_numeral hdigits]
      rfl
    | minus hminus _ => cases hminus

end SimpleBinary.Text
