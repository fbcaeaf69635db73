import SimpleBinary.Proofs.Record.Token
import SimpleBinary.Value.Literal

/-! The text of a character array. Padding it with zeros keeps it, since no
character but the zero has a zero byte; and as the constant of a token it comes
back from a record, since an array is not read as a number. -/
namespace SimpleBinary

namespace Text

theorem zero_not_mem_encodeChar {c : Char} (h : c ≠ '\x00') :
    (0 : UInt8) ∉ String.utf8EncodeChar c := by
  have hpositive : c.val.toNat ≠ 0 := by
    intro hzero
    apply h
    rw [← Char.ofNat_toNat c, show c.toNat = 0 from hzero]
  have hvalid : c.val.toNat < 0x110000 := by
    rcases c.valid with hlow | ⟨-, hhigh⟩
    · exact Nat.lt_trans hlow (by decide)
    · exact hhigh
  -- Every byte of a character is a number from one to 255.
  have hbyte : ∀ m : Nat, 0 < m → m < 256 → (0 : UInt8) ≠ UInt8.ofNat m := by
    intro m hm hlt heq
    have hnat := congrArg UInt8.toNat heq
    rw [UInt8.toNat_ofNat', Nat.mod_eq_of_lt hlt] at hnat
    exact absurd hnat.symm (Nat.ne_of_gt hm)
  unfold String.utf8EncodeChar
  generalize c.val.toNat = v at hpositive hvalid
  dsimp only
  split
  · simp only [List.mem_cons, List.not_mem_nil, or_false]
    exact hbyte _ (by omega) (by omega)
  split
  · simp only [List.mem_cons, List.not_mem_nil, or_false, not_or]
    exact ⟨hbyte _ (by omega) (by omega), hbyte _ (by omega) (by omega)⟩
  split
  · simp only [List.mem_cons, List.not_mem_nil, or_false, not_or]
    exact ⟨hbyte _ (by omega) (by omega), hbyte _ (by omega) (by omega),
      hbyte _ (by omega) (by omega)⟩
  · simp only [List.mem_cons, List.not_mem_nil, or_false, not_or]
    exact ⟨hbyte _ (by omega) (by omega), hbyte _ (by omega) (by omega),
      hbyte _ (by omega) (by omega), hbyte _ (by omega) (by omega)⟩

theorem zero_not_mem_utf8 {text : String} (h : '\x00' ∉ text.toList) :
    (0 : UInt8) ∉ utf8 text := by
  intro hmem
  obtain ⟨c, hc, hzero⟩ := List.mem_flatMap.mp hmem
  refine zero_not_mem_encodeChar ?_ hzero
  rintro rfl
  exact h hc

end Text

namespace Value

def padded (text : String) (length : Nat) : List UInt8 :=
  Text.utf8 text ++ List.replicate (length - (Text.utf8 text).length) 0

theorem length_padded {text : String} {length : Nat} (h : (Text.utf8 text).length ≤ length) :
    (padded text length).length = length := by
  rw [padded, List.length_append, List.length_replicate]
  omega

theorem display_padded {text : String} (length : Nat) (characterEncoding : String)
    (h : '\x00' ∉ text.toList) :
    (Value.bytes (padded text length) characterEncoding).display = text := by
  have hkept : (padded text length).takeWhile (fun byte => decide (byte ≠ 0)) = Text.utf8 text := by
    rw [padded, List.takeWhile_append_of_pos]
    · simp
    · intro byte hbyte
      apply decide_eq_true
      rintro rfl
      exact Text.zero_not_mem_utf8 h hbyte
  rw [display, hkept, Text.ofUtf8Lossy_utf8]

theorem ofArrayLiteral_eq (text characterEncoding : String) {length : Nat} (h : length ≠ 1) :
    ofArrayLiteral text length characterEncoding =
      if length < (Text.utf8 text).length then .error (.tooLong text length)
      else .ok (.bytes (padded text length) characterEncoding) := by
  unfold ofArrayLiteral
  rw [if_neg h]
  rfl

end Value

namespace Record

/-- The first block that is too long is the one reported. -/
theorem encodeParts_eq_error_iff {parts : List (RecordPart × List UInt8)} {error : Error} :
    encodeParts parts = .error error ↔
      ∃ entry, parts.find? (fun entry => Bytes.maxBlock < entry.2.length) = some entry ∧
        error = .encode entry.1 := by
  induction parts with
  | nil => simp [encodeParts]
  | cons entry rest ih =>
    rw [encodeParts, Bytes.block?_eq]
    by_cases hfit : entry.2.length ≤ Bytes.maxBlock
    · rw [if_pos hfit, List.find?_cons_of_neg (by simpa using hfit), ← ih]
      cases encodeParts rest <;> simp [part, bind, Except.bind, pure, Except.pure]
    · rw [if_neg hfit, List.find?_cons_of_pos (by simpa using hfit)]
      simp [part, bind, Except.bind, eq_comm]

theorem encodeToken_eq_error_iff {token : Token} {error : Error} :
    encodeToken token = .error error ↔
      ∃ entry, (parts token).find? (fun entry => Bytes.maxBlock < entry.2.length) = some entry ∧
        error = .encode entry.1 := by
  rw [encodeToken_eq, ← encodeParts_eq_error_iff]
  cases encodeParts (parts token) <;> simp [Functor.map, Except.map]

theorem fit_of_encodeToken {token : Token} {data : List UInt8} (h : encodeToken token = .ok data) :
    Fit (parts token) := by
  by_cases hfit : Fit (parts token)
  · exact hfit
  · obtain ⟨which, herror⟩ := encodeToken_of_not_fit hfit
    rw [herror] at h
    cases h

def withConstant (token : Token) (constant : Option Value) : Token :=
  { token with encoding := { token.encoding with constValue := constant } }

/-- A constant that fits its block does not keep a token from being written. -/
theorem error_withConstant_iff {token : Token} {constant : Value} {error : Error}
    (hfit : (valueBlock token.encoding.primitive (some constant)).length ≤ Bytes.maxBlock) :
    encodeToken (withConstant token (some constant)) = .error error ↔
      encodeToken (withConstant token none) = .error error := by
  have hfits : ¬ Bytes.maxBlock < (valueBlock token.encoding.primitive (some constant)).length := by
    omega
  have hempty : ¬ Bytes.maxBlock < (valueBlock token.encoding.primitive none).length := by
    simp [valueBlock]
  rw [encodeToken_eq_error_iff, encodeToken_eq_error_iff]
  simp only [parts, withConstant, List.find?_cons, decide_eq_false hfits, decide_eq_false hempty]

/-- A constant of characters comes through the record of a token. The token is
written whenever it can be written without a constant, and what is read back
has a constant of the same bytes and the same text, whatever comes behind. -/
structure ComesThrough (token : Token) (content : List UInt8) (characterEncoding text : String) :
    Prop where
  writes : ∀ error,
    encodeToken (withConstant token (some (.bytes content characterEncoding))) = .error error ↔
      encodeToken (withConstant token none) = .error error
  reads : ∀ data,
    encodeToken (withConstant token (some (.bytes content characterEncoding))) = .ok data →
    ∀ index rest, ∃ back next, decodeToken.run ⟨index, data ++ rest⟩ = .ok (back, ⟨next, rest⟩) ∧
      ∃ other, back.encoding.constValue = some (.bytes content other) ∧
        (Value.bytes content other).display = text

theorem wideValues_of_char {token : Token} (h : token.encoding.primitive = some .char) :
    WideValues token :=
  have hwide : ∀ bytes, Wide token.encoding.primitive bytes := fun _ => .inr (.inr (.inl h))
  ⟨hwide _, hwide _, hwide _, hwide _⟩

theorem constValue_reread {token : Token} {content : List UInt8} (characterEncoding : String)
    (hchar : token.encoding.primitive = some .char) (hcontent : 2 ≤ content.length) :
    ∃ other, (reread (withConstant token
      (some (.bytes content characterEncoding)))).encoding.constValue =
        some (.bytes content other) := by
  have hvalue : valueOf .constValue (some .char) content =
      .ok (some (.bytes content Value.defaultCharacterEncoding)) := by
    apply valueOf_bytes
    · rintro rfl
      simp at hcontent
    · exact .inr ⟨rfl, by omega⟩
  have hblock : valueBlock (some .char) (some (.bytes content characterEncoding)) = content := rfl
  simp only [reread, withConstant, hchar, hblock, blockValue, hvalue, Option.map_some]
  cases keptText token.encoding.characterEncoding with
  | none => exact ⟨_, rfl⟩
  | some name => exact ⟨name, rfl⟩

theorem comesThrough_of_display {token : Token} {content : List UInt8}
    {characterEncoding text : String} (hchar : token.encoding.primitive = some .char)
    (hseveral : 2 ≤ content.length) (hfit : content.length ≤ Bytes.maxBlock)
    (hdisplay : ∀ other, (Value.bytes content other).display = text) :
    ComesThrough token content characterEncoding text where
  writes error := by
    apply error_withConstant_iff
    rw [hchar]
    exact hfit
  reads data hdata index rest := by
    have hparts := fit_of_encodeToken hdata
    rw [encodeToken_of_fit hparts] at hdata
    cases hdata
    obtain ⟨next, hread⟩ := (exact_decodeToken hparts (wideValues_of_char hchar)).reads index rest
    obtain ⟨other, hconstant⟩ := constValue_reread characterEncoding hchar hseveral
    exact ⟨_, next, hread, other, hconstant, hdisplay other⟩

/-- A text without zeros fills an array of characters unless it has more bytes
than the array, which is then reported. The array shows the text, and goes on
to do so when it was the constant of a token of characters and came back from
a record. -/
theorem array_text_survives {text : String} (characterEncoding : String) {length : Nat}
    (hzero : '\x00' ∉ text.toList) (hlength : length ≠ 1) :
    (∀ error, Value.ofArrayLiteral text length characterEncoding = .error error ↔
      error = .tooLong text length ∧ length < (Text.utf8 text).length) ∧
    ((Text.utf8 text).length ≤ length →
      ∃ content, Value.ofArrayLiteral text length characterEncoding =
          .ok (.bytes content characterEncoding) ∧
        content.length = length ∧ (Value.bytes content characterEncoding).display = text ∧
        (2 ≤ length → length ≤ 65535 → ∀ token : Token,
          token.encoding.primitive = some .char →
          ComesThrough token content characterEncoding text)) := by
  rw [Value.ofArrayLiteral_eq text characterEncoding hlength]
  constructor
  · intro error
    split
    · next hlong => simp [hlong, eq_comm]
    · next hfits => simp [hfits]
  · intro hfits
    rw [if_neg (by omega)]
    refine ⟨_, rfl, Value.length_padded hfits, Value.display_padded length _ hzero, ?_⟩
    intro hseveral hblock token hchar
    apply comesThrough_of_display hchar
    · rw [Value.length_padded hfits]
      exact hseveral
    · rw [Value.length_padded hfits]
      exact hblock
    · intro other
      exact Value.display_padded length other hzero

/-- Characters of one, two and three bytes, with a zero behind them. -/
theorem array_text_survives_mixed :
    '\x00' ∉ "naïve €".toList ∧ 11 ≠ 1 ∧ (Text.utf8 "naïve €").length ≤ 11 ∧
      ∃ content, Value.ofArrayLiteral "naïve €" 11 "UTF-8" = .ok (.bytes content "UTF-8") ∧
        content.length = 11 ∧ (Value.bytes content "UTF-8").display = "naïve €" ∧
        ComesThrough { signal := .encoding, name := "t", encoding := { primitive := some .char } }
          content "UTF-8" "naïve €" := by
  have hzero : '\x00' ∉ "naïve €".toList := by decide
  have hfits : (Text.utf8 "naïve €").length ≤ 11 := by decide
  obtain ⟨content, hread, hcount, hdisplay, hrecord⟩ :=
    (array_text_survives "UTF-8" hzero (show 11 ≠ 1 by decide)).2 hfits
  exact ⟨hzero, by decide, hfits, content, hread, hcount, hdisplay,
    hrecord (by decide) (by decide) _ rfl⟩

end Record
end SimpleBinary
