import SimpleBinary.Ir.Record
import SimpleBinary.Proofs.Bytes.Reading
import SimpleBinary.Proofs.Value.Element

/-! One token of a binary record. It is written exactly when every text and
every value fits in its block, and is then read back, with whatever follows
it left over: as itself, up to the width and character encoding of its values,
if its values are of the kind that its primitive holds. A token that is cut
short is refused, wherever the cut is. -/
namespace SimpleBinary.Record

def valueBlock (primitive : Option Primitive) (value : Option Value) : List UInt8 :=
  (value.map fun value => (sizedFor primitive value).toBytes .little).getD []

def textBlock (text : Option String) : List UInt8 := Text.utf8 (text.getD "")

def parts (token : Token) : List (RecordPart × List UInt8) :=
  let encoding := token.encoding
  [(.tokenName, textBlock token.name),
    (.constValue, valueBlock encoding.primitive encoding.constValue),
    (.minValue, valueBlock encoding.primitive encoding.minValue),
    (.maxValue, valueBlock encoding.primitive encoding.maxValue),
    (.nullValue, valueBlock encoding.primitive encoding.nullValue),
    (.characterEncoding, textBlock encoding.characterEncoding),
    (.epoch, textBlock encoding.epoch),
    (.timeUnit, textBlock encoding.timeUnit),
    (.semanticType, textBlock encoding.semanticType),
    (.description, textBlock token.description)]

/-- Blocks one behind the other; the first that is too long is reported. -/
def encodeParts : List (RecordPart × List UInt8) → Except Error (List UInt8)
  | [] => .ok []
  | (which, bytes) :: rest => do
    let block ← part which (Bytes.block? bytes)
    return block ++ (← encodeParts rest)

def Fit (parts : List (RecordPart × List UInt8)) : Prop :=
  ∀ entry ∈ parts, entry.2.length ≤ Bytes.maxBlock

instance (parts : List (RecordPart × List UInt8)) : Decidable (Fit parts) :=
  inferInstanceAs (Decidable (∀ entry ∈ parts, _))

def partBytes (parts : List (RecordPart × List UInt8)) : List UInt8 :=
  parts.flatMap fun entry => Bytes.prefixed entry.2

theorem encodeParts_of_fit {parts : List (RecordPart × List UInt8)} (h : Fit parts) :
    encodeParts parts = .ok (partBytes parts) := by
  induction parts with
  | nil => rfl
  | cons entry rest ih =>
    have hentry : entry.2.length ≤ Bytes.maxBlock := h entry List.mem_cons_self
    have hrest := ih fun other hother => h other (List.mem_cons_of_mem _ hother)
    rw [encodeParts, Bytes.block?_eq, if_pos hentry, hrest]
    rfl

theorem encodeParts_of_not_fit {parts : List (RecordPart × List UInt8)} (h : ¬ Fit parts) :
    ∃ which, encodeParts parts = .error (.encode which) := by
  induction parts with
  | nil => exact absurd (fun _ hmem => nomatch hmem) h
  | cons entry rest ih =>
    rw [encodeParts, Bytes.block?_eq]
    by_cases hentry : entry.2.length ≤ Bytes.maxBlock
    · have hrest : ¬ Fit rest := fun hfit => h fun other hother => by
        rcases List.mem_cons.mp hother with rfl | hother
        · exact hentry
        · exact hfit other hother
      obtain ⟨which, hwhich⟩ := ih hrest
      exact ⟨which, by rw [if_pos hentry, hwhich]; rfl⟩
    · exact ⟨entry.1, by rw [if_neg hentry]; rfl⟩

theorem encodeToken_eq (token : Token) :
    encodeToken token = (encodeFixed token ++ ·) <$> encodeParts (parts token) := by
  have hnil : (.ok [] : Except Error (List UInt8)) = pure [] := rfl
  simp only [encodeToken, parts, encodeParts, encodeText, encodeValue, Bytes.text?, valueBlock,
    textBlock, hnil, map_eq_pure_bind, bind_assoc, pure_bind, List.append_assoc, List.append_nil]

theorem encodeToken_of_fit {token : Token} (h : Fit (parts token)) :
    encodeToken token = .ok (encodeFixed token ++ partBytes (parts token)) := by
  rw [encodeToken_eq, encodeParts_of_fit h]
  rfl

theorem encodeToken_of_not_fit {token : Token} (h : ¬ Fit (parts token)) :
    ∃ which, encodeToken token = .error (.encode which) := by
  obtain ⟨which, hwhich⟩ := encodeParts_of_not_fit h
  exact ⟨which, by rw [encodeToken_eq, hwhich]; rfl⟩

theorem run_bind {α β : Type} {first : Decode α} {next : α → Decode β} {cursor after : Cursor}
    {value : α} (h : first.run cursor = .ok (value, after)) :
    (first >>= next).run cursor = (next value).run after := by
  rw [StateT.run_bind, h]
  rfl

theorem run_bind_eq_ok {α β : Type} {first : Decode α} {next : α → Decode β}
    {cursor last : Cursor} {result : β} (h : (first >>= next).run cursor = .ok (result, last)) :
    ∃ value after, first.run cursor = .ok (value, after) ∧
      (next value).run after = .ok (result, last) := by
  rw [StateT.run_bind] at h
  cases hfirst : first.run cursor with
  | error error =>
    rw [hfirst] at h
    cases h
  | ok pair =>
    rw [hfirst] at h
    exact ⟨pair.1, pair.2, rfl, h⟩

theorem run_bind_error {α β : Type} {first : Decode α} {next : α → Decode β} {cursor : Cursor}
    {error : Error} (h : first.run cursor = .error error) :
    (first >>= next).run cursor = .error error := by
  rw [StateT.run_bind, h]
  rfl

/-- A reading of exactly these bytes. It gives the value whatever stands behind
them, and refuses anything less than the whole of them. -/
structure Exact {α : Type} (reading : Decode α) (bytes : List UInt8) (value : α) : Prop where
  reads : ∀ index rest, ∃ next, reading.run ⟨index, bytes ++ rest⟩ = .ok (value, ⟨next, rest⟩)
  refuses : ∀ index count, count < bytes.length →
    ∃ fault, reading.run ⟨index, bytes.take count⟩ = .error (.decode fault)

namespace Exact
variable {α β : Type}

theorem pure (value : α) : Exact (Pure.pure value) [] value where
  reads index _ := ⟨index, rfl⟩
  refuses _ _ h := absurd h (Nat.not_lt_zero _)

theorem lift {result : Except Error α} {value : α} (h : result = .ok value) :
    Exact (liftM result) [] value := by
  subst h
  exact pure value

theorem bind {first : Decode α} {next : α → Decode β} {a b : List UInt8} {value : α} {result : β}
    (hfirst : Exact first a value) (hnext : Exact (next value) b result) :
    Exact (first >>= next) (a ++ b) result where
  reads index rest := by
    obtain ⟨between, hvalue⟩ := hfirst.reads index (b ++ rest)
    obtain ⟨last, hresult⟩ := hnext.reads between rest
    exact ⟨last, by rw [List.append_assoc, run_bind hvalue, hresult]⟩
  refuses index count hcount := by
    rw [List.length_append] at hcount
    by_cases hcut : count < a.length
    · obtain ⟨fault, hfault⟩ := hfirst.refuses index count hcut
      rw [List.take_append_of_le_length (Nat.le_of_lt hcut)]
      exact ⟨fault, run_bind_error hfault⟩
    · obtain ⟨between, hvalue⟩ := hfirst.reads index (b.take (count - a.length))
      obtain ⟨fault, hfault⟩ := hnext.refuses between (count - a.length) (by omega)
      rw [List.take_append, List.take_of_length_le (by omega)]
      exact ⟨fault, by rw [run_bind hvalue, hfault]⟩

/-- What takes no bytes comes behind the last that does. -/
theorem bindLast {first : Decode α} {next : α → Decode β} {a : List UInt8} {value : α} {result : β}
    (hfirst : Exact first a value) (hnext : Exact (next value) [] result) :
    Exact (first >>= next) a result :=
  List.append_nil a ▸ hfirst.bind hnext

theorem take (which : RecordPart) {read : Cursor → Option α × Cursor} {bytes : List UInt8}
    {value : α}
    (hreads : ∀ index rest, ∃ next, read ⟨index, bytes ++ rest⟩ = (some value, ⟨next, rest⟩))
    (hshort : ∀ index count, count < bytes.length → (read ⟨index, bytes.take count⟩).1 = none) :
    Exact (Record.take which read) bytes value where
  reads index rest := by
    obtain ⟨next, hnext⟩ := hreads index rest
    exact ⟨next, by simp [StateT.run, Record.take, hnext]⟩
  refuses index count hcount := by
    have hnone := hshort index count hcount
    rcases hread : read ⟨index, bytes.take count⟩ with ⟨found, next⟩
    rw [hread] at hnone
    cases hnone
    exact ⟨.truncated which, by simp only [StateT.run, Record.take, hread]⟩

theorem word32 (which : RecordPart) (n : Int32) :
    Exact (Record.take which Cursor.word32) (Bytes.ofWord32 n) n :=
  take which (fun index rest => ⟨_, Cursor.word32_append index n rest⟩)
    fun index _ => Cursor.word32_short index

theorem ordinal (which : Nat) (n : UInt8) : Exact (decodeOrdinal which) [n] n := by
  refine take _ (fun index rest => ⟨_, rfl⟩) fun index count hcount => ?_
  obtain rfl : count = 0 := Nat.lt_one_iff.mp hcount
  rfl

theorem block (which : RecordPart) {bytes : List UInt8} (h : bytes.length ≤ Bytes.maxBlock) :
    Exact (Record.take which Cursor.block) (Bytes.prefixed bytes) bytes :=
  take which (fun index rest => ⟨_, Cursor.block_append index rest h⟩)
    fun index _ => Cursor.block_short index h

end Exact

def keptText (text : Option String) : Option String :=
  if text = some "" then none else text

theorem keptText_getD (text : String) : (keptText (some text)).getD "" = text := by
  unfold keptText
  split
  · next hempty => exact (Option.some.inj hempty).symm
  · rfl

theorem exact_decodeText (which : RecordPart) {text : Option String}
    (h : (textBlock text).length ≤ Bytes.maxBlock) :
    Exact (decodeText which) (Bytes.prefixed (textBlock text)) (keptText text) := by
  unfold textBlock at h ⊢
  have hread : Exact (take which Cursor.text) (Bytes.prefixed (Text.utf8 (text.getD "")))
      (text.getD "") :=
    .take which (fun index rest => ⟨_, Cursor.text_append index rest h⟩)
      fun index _ => Cursor.text_short index h
  have hkept : keptText text =
      if (text.getD "").isEmpty then none else some (text.getD "") := by
    cases text with
    | none => rfl
    | some text => simp [keptText]
  rw [hkept]
  exact hread.bindLast (.pure _)

theorem valueOf_nil (which : RecordPart) (primitive : Option Primitive) :
    valueOf which primitive [] = .ok none := rfl

theorem valueOf_bytes (which : RecordPart) {primitive : Option Primitive} {bytes : List UInt8}
    (hbytes : bytes ≠ []) (h : primitive = none ∨ primitive = some .char ∧ bytes.length ≠ 1) :
    valueOf which primitive bytes = .ok (some (.bytes bytes Value.defaultCharacterEncoding)) := by
  unfold valueOf
  rcases h with rfl | ⟨rfl, hlength⟩ <;> simp_all

theorem valueOf_element (which : RecordPart) {p : Primitive} {bytes : List UInt8} {value : Value}
    (hbytes : bytes ≠ []) (hchar : p = .char → bytes.length = 1)
    (hread : Value.read? bytes 0 p .little = some value) :
    valueOf which (some p) bytes = .ok (some value) := by
  unfold valueOf
  have hguard : ¬ (p = .char ∧ bytes.length ≠ 1) := fun h => h.2 (hchar h.1)
  simp [hbytes, hguard, hread]

/-- The value that a block stands for, none if it is too short to be one. -/
def blockValue (primitive : Option Primitive) (bytes : List UInt8) : Option Value :=
  match valueOf .constValue primitive bytes with
  | .ok value => value
  | .error _ => none

/-- Whether a block is wide enough for an element of a primitive. Characters
other than a single one are taken as they are. -/
def Wide (primitive : Option Primitive) (bytes : List UInt8) : Prop :=
  bytes = [] ∨ primitive = none ∨ primitive = some .char ∨
    ∃ p, primitive = some p ∧ p.size ≤ bytes.length

/-- Only the report of a narrow block depends on where it stands. -/
theorem valueOf_of_wide (which : RecordPart) {primitive : Option Primitive} {bytes : List UInt8}
    (h : Wide primitive bytes) :
    valueOf which primitive bytes = .ok (blockValue primitive bytes) := by
  unfold blockValue
  by_cases hempty : bytes = []
  · rw [hempty]
    rfl
  by_cases htext : primitive = none ∨ primitive = some .char ∧ bytes.length ≠ 1
  · rw [valueOf_bytes which hempty htext, valueOf_bytes .constValue hempty htext]
  cases primitive with
  | none => exact absurd (.inl rfl) htext
  | some p =>
    have hchar : p = .char → bytes.length = 1 := by
      intro hp
      by_cases hone : bytes.length = 1
      · exact hone
      · exact absurd (.inr ⟨congrArg some hp, hone⟩) htext
    have hsize : 0 + p.size ≤ bytes.length := by
      rcases h with h | h | h | ⟨_, h, hsize⟩
      · exact absurd h hempty
      · cases h
      · cases h
        rw [hchar rfl]
        exact Nat.le_refl _
      · cases h
        omega
    obtain ⟨value, hread⟩ : ∃ value, Value.read? bytes 0 p .little = some value :=
      ⟨_, if_pos hsize⟩
    rw [valueOf_element which hempty hchar hread, valueOf_element .constValue hempty hchar hread]

theorem exact_decodeValue (which : RecordPart) {primitive : Option Primitive} {bytes : List UInt8}
    (hfit : bytes.length ≤ Bytes.maxBlock) (hwide : Wide primitive bytes) :
    Exact (decodeValue which primitive) (Bytes.prefixed bytes) (blockValue primitive bytes) :=
  (Exact.block which hfit).bindLast (.lift (valueOf_of_wide which hwide))

def reread (token : Token) : Token :=
  let encoding := token.encoding
  let back (value : Option Value) :=
    blockValue encoding.primitive (valueBlock encoding.primitive value)
  { token with
    description := keptText token.description
    encoding :=
      { encoding with
        minValue := back encoding.minValue
        maxValue := back encoding.maxValue
        nullValue := back encoding.nullValue
        constValue := (back encoding.constValue).map
          (withCharacterEncoding (keptText encoding.characterEncoding))
        characterEncoding := keptText encoding.characterEncoding
        epoch := keptText encoding.epoch
        timeUnit := keptText encoding.timeUnit
        semanticType := keptText encoding.semanticType } }

structure WideValues (token : Token) : Prop where
  const : Wide token.encoding.primitive
    (valueBlock token.encoding.primitive token.encoding.constValue)
  min : Wide token.encoding.primitive
    (valueBlock token.encoding.primitive token.encoding.minValue)
  max : Wide token.encoding.primitive
    (valueBlock token.encoding.primitive token.encoding.maxValue)
  null : Wide token.encoding.primitive
    (valueBlock token.encoding.primitive token.encoding.nullValue)

theorem exact_decodeToken {token : Token} (hfit : Fit (parts token)) (hwide : WideValues token) :
    Exact decodeToken (encodeFixed token ++ partBytes (parts token)) (reread token) := by
  have hprimitive : Primitive.ofOrdinal?
      ((token.encoding.primitive.map Primitive.ordinal).getD 0) = token.encoding.primitive := by
    cases token.encoding.primitive with
    | none => decide
    | some p => exact Primitive.ofOrdinal?_ordinal p
  simp only [Fit, parts, List.forall_mem_cons, List.not_mem_nil, false_implies, implies_true,
    and_true] at hfit
  obtain ⟨hname, hconst, hmin, hmax, hnull, hcharacters, hepoch, hunit, hsemantic, hdescription⟩ :=
    hfit
  unfold decodeToken
  simp only [encodeFixed, parts, partBytes, List.flatMap_cons, List.flatMap_nil, List.append_nil,
    List.append_assoc]
  refine .bind (.word32 _ token.offset) (.bind (.word32 _ token.size) (.bind (.word32 _ token.id)
    (.bind (.word32 _ token.refId) (.bind (.word32 _ token.version)
    (.bind (.word32 _ token.deprecated) (.bind (.word32 _ token.count) ?_))))))
  change Exact _ ([_] ++ ([_] ++ ([_] ++ ([_] ++ _)))) _
  refine .bind (.ordinal 0 _) (.bind (.ordinal 1 _) (.bind (.ordinal 2 _)
    (.bind (.ordinal 3 _) ?_)))
  simp only [hprimitive]
  refine .bind (exact_decodeText .tokenName hname) ?_
  refine .bind (exact_decodeValue .constValue hconst hwide.const) ?_
  refine .bind (exact_decodeValue .minValue hmin hwide.min) ?_
  refine .bind (exact_decodeValue .maxValue hmax hwide.max) ?_
  refine .bind (exact_decodeValue .nullValue hnull hwide.null) ?_
  refine .bind (exact_decodeText .characterEncoding hcharacters) ?_
  refine .bind (exact_decodeText .epoch hepoch) (.bind (exact_decodeText .timeUnit hunit) ?_)
  refine .bind (exact_decodeText .semanticType hsemantic) ?_
  refine .bindLast (exact_decodeText .description hdescription) ?_
  simp only [keptText_getD, Signal.ofOrdinal_ordinal, ByteOrder.ofOrdinal_ordinal,
    Presence.ofOrdinal_ordinal]
  exact .pure _

end SimpleBinary.Record
