import Mathlib.Data.Int.ModEq
import SimpleBinary.Proofs.Text.Integer
import SimpleBinary.Value.Literal

/-! Integer literals are read exactly: which texts are literals of a primitive is
said by their spelling and by the range of its bits alone, and the value is the
number that they spell. -/
namespace SimpleBinary.Value

/-- The integers that the bits of a primitive can tell apart. -/
def InRange (primitive : Primitive) (n : Int) : Prop :=
  if primitive.isUnsigned then 0 ≤ n ∧ n ≤ 2 ^ (8 * primitive.size) - 1
  else -(2 ^ (8 * primitive.size - 1)) ≤ n ∧ n ≤ 2 ^ (8 * primitive.size - 1) - 1

/-- A word is the integer itself, except that an unsigned one of 64 bits is held
by its bit pattern. -/
def StandsFor (primitive : Primitive) (word : Int64) (n : Int) : Prop :=
  if primitive = .uint64 then word.toInt ≡ n [ZMOD 2 ^ 64] else word.toInt = n

theorem inRange_iff {primitive : Primitive} {n : Int} :
    InRange primitive n ↔ (range primitive).1 ≤ n ∧ n ≤ (range primitive).2 := by
  cases primitive <;> simp [InRange, range, Primitive.isUnsigned, Primitive.size]

theorem toInt_ofInt_of_inRange {primitive : Primitive} {n : Int} (hwide : primitive ≠ .uint64)
    (h : InRange primitive n) : (Int64.ofInt n).toInt = n := by
  have hbounds : -9223372036854775808 ≤ (range primitive).1 ∧
      (range primitive).2 ≤ 9223372036854775807 := by
    cases primitive with
    | uint64 => exact absurd rfl hwide
    | _ => decide
  obtain ⟨hlow, hhigh⟩ := inRange_iff.mp h
  exact Int64.toInt_ofInt_of_le (by omega) (by omega)

/-- Of the words that could stand for an integer in range there is one. -/
theorem standsFor_iff {primitive : Primitive} {word : Int64} {n : Int} (h : InRange primitive n) :
    StandsFor primitive word n ↔ word = Int64.ofInt n := by
  unfold StandsFor
  split
  · rw [← Int64.toInt_inj, Int64.toInt_ofInt]
    constructor
    · intro hmod
      calc word.toInt = word.toInt.bmod Int64.size := (Int64.toInt_bmod_size word).symm
        _ = (word.toInt % (Int64.size : Int)).bmod Int64.size := (Int.emod_bmod _ _).symm
        _ = (n % (Int64.size : Int)).bmod Int64.size := congrArg (Int.bmod · Int64.size) hmod
        _ = n.bmod Int64.size := Int.emod_bmod _ _
    · intro hsame
      rw [hsame]
      exact Int.bmod_emod
  · next hwide =>
    rw [← Int64.toInt_inj, toInt_ofInt_of_inRange hwide h]

theorem integerLiteral?_eq_some_iff {chars : List Char} {primitive : Primitive} {n : Int} :
    integerLiteral? chars primitive = some n ↔ Text.Spells (primitive ≠ .uint64) chars n := by
  cases primitive with
  | uint64 => exact Text.natural?_eq_some_iff
  | _ => exact Text.integer?_eq_some_iff

def integerValue? (text : String) (primitive : Primitive) : Option Value := do
  let n ← integerLiteral? (Text.trimChars text.toList) primitive
  if (range primitive).1 ≤ n ∧ n ≤ (range primitive).2 then
    some (.long (Int64.ofInt n) primitive.size)
  else none

theorem integerValue?_eq_some_iff {text : String} {primitive : Primitive} {value : Value} :
    integerValue? text primitive = some value ↔
      ∃ n word, Text.Spelled (primitive ≠ .uint64) text n ∧ InRange primitive n ∧
        StandsFor primitive word n ∧ value = .long word primitive.size := by
  constructor
  · intro h
    obtain ⟨n, hn, hvalue⟩ := Option.bind_eq_some_iff.mp h
    split at hvalue
    · next hrange =>
      have hin := inRange_iff.mpr hrange
      exact ⟨n, Int64.ofInt n, Text.spelled_iff.mpr (integerLiteral?_eq_some_iff.mp hn), hin,
        (standsFor_iff hin).mpr rfl, (Option.some.inj hvalue).symm⟩
    · cases hvalue
  · rintro ⟨n, word, hspelled, hin, hword, rfl⟩
    have hn := integerLiteral?_eq_some_iff.mpr (Text.spelled_iff.mp hspelled)
    apply Option.bind_eq_some_iff.mpr
    exact ⟨n, hn, by rw [if_pos (inRange_iff.mp hin), (standsFor_iff hin).mp hword]⟩

theorem integerValue?_eq_none_iff {text : String} {primitive : Primitive} :
    integerValue? text primitive = none ↔
      ¬ ∃ n, Text.Spelled (primitive ≠ .uint64) text n ∧ InRange primitive n := by
  constructor
  · rintro hnone ⟨n, hspelled, hin⟩
    have hsome := integerValue?_eq_some_iff.mpr
      ⟨n, Int64.ofInt n, hspelled, hin, (standsFor_iff hin).mpr rfl, rfl⟩
    rw [hnone] at hsome
    cases hsome
  · intro hnone
    apply Option.eq_none_iff_forall_ne_some.mpr
    intro value hvalue
    obtain ⟨n, _, hspelled, hin, -⟩ := integerValue?_eq_some_iff.mp hvalue
    exact hnone ⟨n, hspelled, hin⟩

theorem ofLiteral_of_integer (text : String) {primitive : Primitive} (hchar : primitive ≠ .char)
    (hinteger : primitive.isFloating = false) :
    ofLiteral text primitive =
      (integerValue? text primitive).elim (.error (.invalid text primitive)) .ok := by
  cases primitive with
  | char => exact absurd rfl hchar
  | float | double => cases hinteger
  | _ =>
    unfold ofLiteral
    dsimp only
    split
    · next value hvalue =>
      rw [show integerValue? text _ = some value from hvalue]
      rfl
    · next hnone =>
      rw [show integerValue? text _ = none from hnone]
      rfl

/-- A literal of an integer type other than a character is accepted if and only
if it is an integer in decimal, with blanks around it or none, that the bits of
the type can tell apart. The value is that integer, at the width of the type;
any other text is reported as it stands. -/
theorem ofLiteral_exact (text : String) {primitive : Primitive} (hchar : primitive ≠ .char)
    (hinteger : primitive.isFloating = false) :
    (∀ value, ofLiteral text primitive = .ok value ↔
      ∃ n word, Text.Spelled (primitive ≠ .uint64) text n ∧ InRange primitive n ∧
        StandsFor primitive word n ∧ value = .long word primitive.size) ∧
    ∀ error, ofLiteral text primitive = .error error ↔
      error = .invalid text primitive ∧
        ¬ ∃ n, Text.Spelled (primitive ≠ .uint64) text n ∧ InRange primitive n := by
  rw [ofLiteral_of_integer text hchar hinteger]
  constructor
  · intro value
    rw [← integerValue?_eq_some_iff]
    cases integerValue? text primitive <;> simp
  · intro error
    rw [← integerValue?_eq_none_iff]
    cases integerValue? text primitive <;> simp [eq_comm]

/-- The least integer of 64 bits, with zeros in front of it and white space of
two kinds around it, and the one below it, which is out of range. -/
theorem ofLiteral_exact_least :
    Primitive.int64 ≠ .char ∧ Primitive.int64.isFloating = false ∧
      ofLiteral "\t-0009223372036854775808\u3000" .int64 =
        .ok (.long (-9223372036854775808) 8) ∧
      ofLiteral "-9223372036854775809" .int64 =
        .error (.invalid "-9223372036854775809" .int64) := by
  have hchar : Primitive.int64 ≠ .char := by decide
  have hinteger : Primitive.int64.isFloating = false := rfl
  have hread : Text.digits? "0009223372036854775808".toList = some 9223372036854775808 := by decide
  obtain ⟨hnumeral, hvalue⟩ := Text.digits?_eq_some_iff.mp hread
  have hspelled : Text.Spelled true "\t-0009223372036854775808\u3000" (-9223372036854775808) := by
    refine ⟨['\t'], "-0009223372036854775808".toList, ['\u3000'], by decide,
      by simp [Text.whiteSpace], ?_⟩
    have hspells : Text.Spells true _ _ := .minus rfl hnumeral
    rwa [hvalue] at hspells
  have hrange : InRange .int64 (-9223372036854775808) := inRange_iff.mpr (by decide)
  refine ⟨hchar, hinteger, ?_, ?_⟩
  · apply ((ofLiteral_exact _ hchar hinteger).1 _).mpr
    exact ⟨_, _, hspelled, hrange, (standsFor_iff hrange).mpr rfl, rfl⟩
  · apply ((ofLiteral_exact _ hchar hinteger).2 _).mpr
    exact ⟨rfl, integerValue?_eq_none_iff.mp (by decide)⟩

end SimpleBinary.Value
