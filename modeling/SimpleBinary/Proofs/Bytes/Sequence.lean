import SimpleBinary.Proofs.Bytes.Reading

/-! Sequences of writes and of reads. A read takes a stretch of bytes that spells
what it gives, and a write adds such a stretch: so the reads that match some
writes give back what was written, and no read goes beyond the data. -/
namespace SimpleBinary

namespace Bytes

section
variable {bytes : List UInt8}

private theorem toNat_lt_of_length {width : Nat} (h : bytes.length = width) :
    toNat bytes < Nat.pow 256 width :=
  h ▸ toNat_lt bytes

theorem ofWord16_toWord16 (h : bytes.length = 2) : ofWord16 (toWord16 bytes) = bytes := by
  rw [ofWord16, toWord16, UInt16.toNat_ofNat_of_lt' (toNat_lt_of_length h), ← h, ofNat_toNat]

theorem ofWord32_toWord32 (h : bytes.length = 4) : ofWord32 (toWord32 bytes) = bytes := by
  rw [ofWord32, toWord32, UInt32.toUInt32_toInt32,
    UInt32.toNat_ofNat_of_lt' (toNat_lt_of_length h), ← h, ofNat_toNat]

theorem ofWord64_toWord64 (h : bytes.length = 8) : ofWord64 (toWord64 bytes) = bytes := by
  rw [ofWord64, toWord64, UInt64.toUInt64_toInt64,
    UInt64.toNat_ofNat_of_lt' (toNat_lt_of_length h), ← h, ofNat_toNat]

end

theorem length_prefixed (bytes : List UInt8) : (prefixed bytes).length = 2 + bytes.length := by
  rw [prefixed, List.length_append, length_ofWord16]

end Bytes

namespace Cursor

/-- The bytes that a read takes when it succeeds, and what it gives for them. -/
inductive Spells : Step → List UInt8 → Item → Prop where
  | byte (n : UInt8) : Spells .byte [n] (.number n.toNat)
  | bytes (data : List UInt8) : Spells (.bytes data.length) data (.bytes data)
  | word16 (n : UInt16) : Spells .word16 (Bytes.ofWord16 n) (.number n.toNat)
  | word32 (n : Int32) : Spells .word32 (Bytes.ofWord32 n) (.number n.toInt)
  | word64 (n : Int64) : Spells .word64 (Bytes.ofWord64 n) (.number n.toInt)
  | block {data : List UInt8} :
      data.length ≤ Bytes.maxBlock → Spells .block (Bytes.prefixed data) (.bytes data)
  | text {data : List UInt8} : data.length ≤ Bytes.maxBlock →
      Spells .text (Bytes.prefixed data) (.text (Text.ofUtf8Lossy data))

/-- Without so many bytes a read does not even begin. -/
def Step.least : Step → Nat
  | .byte => 1
  | .bytes count => count
  | .word16 | .block | .text => 2
  | .word32 => 4
  | .word64 => 8

/-- What a read does to a cursor. It takes what it gives, or finds too little and
leaves the cursor alone; only a block that is cut behind its length has had that
length taken. -/
inductive Stepped (before : Cursor) (step : Step) : Option Item → Cursor → Prop where
  | took {taken rest : List UInt8} {item : Item} :
      Spells step taken item → before.rest = taken ++ rest →
      Stepped before step (some item) ⟨before.index + taken.length, rest⟩
  | short : before.remaining < step.least → Stepped before step none before
  | cut {length : UInt16} {rest : List UInt8} :
      step = .block ∨ step = .text → before.rest = Bytes.ofWord16 length ++ rest →
      rest.length < length.toNat → Stepped before step none ⟨before.index + 2, rest⟩

theorem step_of_spells {step : Step} {taken : List UInt8} {item : Item}
    (h : Spells step taken item) (index : Nat) (rest : List UInt8) :
    (⟨index, taken ++ rest⟩ : Cursor).step step = (some item, ⟨index + taken.length, rest⟩) := by
  cases h with
  | byte n => rfl
  | bytes data => simp [Cursor.step, bytes_append]
  | word16 n => simp [Cursor.step, word16_append]
  | word32 n => simp [Cursor.step, word32_append]
  | word64 n => simp [Cursor.step, word64_append]
  | block hfit =>
    simp [Cursor.step, block_append index rest hfit, Bytes.length_prefixed, Nat.add_assoc]
  | text hfit =>
    simp [Cursor.step, Cursor.text, block_append index rest hfit, Bytes.length_prefixed,
      Nat.add_assoc]

theorem step_of_short {cursor : Cursor} {step : Step} (h : cursor.remaining < step.least) :
    cursor.step step = (none, cursor) := by
  have hshort : ∀ count, cursor.remaining < count → cursor.bytes count = (none, cursor) :=
    fun count hcount => bytes_short hcount
  cases step with
  | byte =>
    have hempty : cursor.rest = [] := List.eq_nil_of_length_eq_zero (Nat.lt_one_iff.mp h)
    simp [Cursor.step, Cursor.byte, hempty]
  | bytes count => simp [Cursor.step, hshort count h]
  | word16 => simp [Cursor.step, word16, hshort 2 h]
  | word32 => simp [Cursor.step, word32, hshort 4 h]
  | word64 => simp [Cursor.step, word64, hshort 8 h]
  | block => simp [Cursor.step, block, word16, hshort 2 h]
  | text => simp [Cursor.step, Cursor.text, block, word16, hshort 2 h]

theorem step_of_cut {step : Step} (hstep : step = .block ∨ step = .text) (index : Nat)
    {length : UInt16} {rest : List UInt8} (h : rest.length < length.toNat) :
    (⟨index, Bytes.ofWord16 length ++ rest⟩ : Cursor).step step = (none, ⟨index + 2, rest⟩) := by
  rcases hstep with rfl | rfl
  · simp [Cursor.step, block, word16_append, bytes_short h]
  · simp [Cursor.step, Cursor.text, block, word16_append, bytes_short h]

theorem exists_spells {step : Step} {taken : List UInt8} (hblock : step ≠ .block)
    (htext : step ≠ .text) (h : taken.length = step.least) : ∃ item, Spells step taken item := by
  cases step with
  | byte =>
    obtain ⟨n, rfl⟩ := List.length_eq_one_iff.mp h
    exact ⟨_, .byte n⟩
  | bytes count =>
    subst h
    exact ⟨_, .bytes taken⟩
  | word16 =>
    rw [← Bytes.ofWord16_toWord16 h]
    exact ⟨_, .word16 _⟩
  | word32 =>
    rw [← Bytes.ofWord32_toWord32 h]
    exact ⟨_, .word32 _⟩
  | word64 =>
    rw [← Bytes.ofWord64_toWord64 h]
    exact ⟨_, .word64 _⟩
  | block => exact absurd rfl hblock
  | text => exact absurd rfl htext

theorem exists_spells_block {step : Step} (hstep : step = .block ∨ step = .text) {length : UInt16}
    {data : List UInt8} (h : data.length = length.toNat) :
    ∃ item, Spells step (Bytes.ofWord16 length ++ data) item := by
  have hfit : data.length ≤ Bytes.maxBlock := by
    have hlt := length.toNat_lt
    unfold Bytes.maxBlock
    omega
  have hprefixed : Bytes.ofWord16 length ++ data = Bytes.prefixed data := by
    rw [Bytes.prefixed, h, UInt16.ofNat_toNat]
  rw [hprefixed]
  rcases hstep with rfl | rfl
  · exact ⟨_, .block hfit⟩
  · exact ⟨_, .text hfit⟩

theorem stepped_of_spells {step : Step} {taken : List UInt8} {item : Item}
    (h : Spells step taken item) (index : Nat) (rest : List UInt8) :
    Stepped ⟨index, taken ++ rest⟩ step ((⟨index, taken ++ rest⟩ : Cursor).step step).1
      ((⟨index, taken ++ rest⟩ : Cursor).step step).2 := by
  rw [step_of_spells h]
  exact .took h rfl

theorem stepped_block {step : Step} (hstep : step = .block ∨ step = .text) (index : Nat)
    (length : UInt16) (rest : List UInt8) :
    Stepped ⟨index, Bytes.ofWord16 length ++ rest⟩ step
      ((⟨index, Bytes.ofWord16 length ++ rest⟩ : Cursor).step step).1
      ((⟨index, Bytes.ofWord16 length ++ rest⟩ : Cursor).step step).2 := by
  by_cases hcut : rest.length < length.toNat
  · rw [step_of_cut hstep index hcut]
    exact .cut hstep rfl hcut
  · have hdata : (rest.take length.toNat).length = length.toNat := by
      rw [List.length_take]
      exact Nat.min_eq_left (Nat.not_lt.mp hcut)
    obtain ⟨item, hspells⟩ := exists_spells_block hstep hdata
    have hwhole := stepped_of_spells hspells index (rest.drop length.toNat)
    rwa [List.append_assoc, List.take_append_drop] at hwhole

theorem stepped (cursor : Cursor) (step : Step) :
    Stepped cursor step (cursor.step step).1 (cursor.step step).2 := by
  by_cases hshort : cursor.remaining < step.least
  · rw [step_of_short hshort]
    exact .short hshort
  · obtain ⟨index, rest⟩ := cursor
    obtain ⟨taken, tail, rfl, hlength⟩ : ∃ taken tail, rest = taken ++ tail ∧
        taken.length = step.least :=
      ⟨rest.take step.least, rest.drop step.least, (List.take_append_drop _ rest).symm,
        List.length_take_of_le (Nat.not_lt.mp hshort)⟩
    by_cases hstep : step = .block ∨ step = .text
    · have hleast : step.least = 2 := by
        rcases hstep with rfl | rfl <;> rfl
      rw [← Bytes.ofWord16_toWord16 (hlength.trans hleast)]
      exact stepped_block hstep index _ tail
    · rw [not_or] at hstep
      obtain ⟨item, hspells⟩ := exists_spells hstep.1 hstep.2 hlength
      exact stepped_of_spells hspells index tail

structure In (data : List UInt8) (cursor : Cursor) : Prop where
  index_le : cursor.index ≤ data.length
  rest_eq : cursor.rest = data.drop cursor.index

theorem in_ofBytes (data : List UInt8) : In data (ofBytes data) :=
  ⟨Nat.zero_le _, rfl⟩

theorem In.take {data : List UInt8} {cursor : Cursor} (h : In data cursor)
    {taken rest : List UInt8} (hrest : cursor.rest = taken ++ rest) :
    In data ⟨cursor.index + taken.length, rest⟩ := by
  rw [h.rest_eq] at hrest
  constructor
  · have hlength := congrArg List.length hrest
    have hindex := h.index_le
    rw [List.length_drop, List.length_append] at hlength
    dsimp only
    omega
  · rw [← List.drop_drop, hrest, List.drop_left]

variable {before after : Cursor} {step : Step} {outcome : Option Item}

theorem Stepped.index_le (h : Stepped before step outcome after) : before.index ≤ after.index := by
  cases h with
  | took => exact Nat.le_add_right _ _
  | short => exact Nat.le_refl _
  | cut => exact Nat.le_add_right _ _

theorem Stepped.in_data {data : List UInt8} (h : Stepped before step outcome after)
    (hin : In data before) : In data after := by
  cases h with
  | took _ hrest => exact hin.take hrest
  | short => exact hin
  | @cut length _ _ hrest => exact Bytes.length_ofWord16 length ▸ hin.take hrest

def run (cursor : Cursor) : List Step → List (Option Item) × Cursor
  | [] => ([], cursor)
  | step :: steps =>
    ((cursor.step step).1 :: (run (cursor.step step).2 steps).1,
      (run (cursor.step step).2 steps).2)

theorem run_append (cursor : Cursor) (first second : List Step) :
    cursor.run (first ++ second) =
      ((cursor.run first).1 ++ ((cursor.run first).2.run second).1,
        ((cursor.run first).2.run second).2) := by
  induction first generalizing cursor with
  | nil => rfl
  | cons step steps ih => simp [run, ih]

theorem in_run {data : List UInt8} {cursor : Cursor} (h : In data cursor) (steps : List Step) :
    In data (cursor.run steps).2 := by
  induction steps generalizing cursor with
  | nil => exact h
  | cons step steps ih => exact ih ((stepped cursor step).in_data h)

theorem index_le_run (cursor : Cursor) (steps : List Step) :
    cursor.index ≤ (cursor.run steps).2.index := by
  induction steps generalizing cursor with
  | nil => exact Nat.le_refl _
  | cons step steps ih => exact Nat.le_trans (stepped cursor step).index_le (ih _)

theorem run_at {cursor : Cursor} {steps : List Step} {i : Nat} {step : Step}
    (h : steps[i]? = some step) :
    (cursor.run steps).1[i]? = some ((cursor.run (steps.take i)).2.step step).1 ∧
      (cursor.run (steps.take (i + 1))).2 = ((cursor.run (steps.take i)).2.step step).2 := by
  induction steps generalizing cursor i with
  | nil => cases h
  | cons first steps ih =>
    cases i with
    | zero =>
      cases h
      exact ⟨rfl, rfl⟩
    | succ i => exact ih h

def place (data : List UInt8) (steps : List Step) (count : Nat) : Cursor :=
  ((ofBytes data).run (steps.take count)).2

theorem place_le {data : List UInt8} {steps : List Step} {i j : Nat} (h : i ≤ j) :
    (place data steps i).index ≤ (place data steps j).index := by
  obtain ⟨k, rfl⟩ := Nat.exists_eq_add_of_le h
  rw [place, place, List.take_add, run_append]
  exact index_le_run _ _

/-- Any reads of some data: the cursor stays in the data and never goes back, and
every read that is asked for does what a read can do. -/
structure Reads (data : List UInt8) (steps : List Step) : Prop where
  inside : ∀ count, In data (place data steps count)
  onward : ∀ i j, i ≤ j → (place data steps i).index ≤ (place data steps j).index
  steps : ∀ i step, steps[i]? = some step →
    ∃ outcome, ((ofBytes data).run steps).1[i]? = some outcome ∧
      Stepped (place data steps i) step outcome (place data steps (i + 1))

theorem reads (data : List UInt8) (steps : List Step) : Reads data steps where
  inside count := in_run (in_ofBytes data) _
  onward _ _ h := place_le h
  steps i step h := by
    obtain ⟨houtcome, hplace⟩ := run_at h
    refine ⟨_, houtcome, ?_⟩
    unfold place
    rw [hplace]
    exact stepped _ step

/-- Behind the length of a block that is cut, its bytes are read one by one. -/
example : ((ofBytes [4, 0, 104, 105]).run [.word64, .text, .byte, .byte, .byte]).1 =
    [none, none, some (.number 104), some (.number 105), none] := by
  decide

end Cursor

namespace Bytes.Write

def payload? : Write → Option (List UInt8)
  | .block data => some data
  | .text content => some (Text.utf8 content)
  | _ => none

def Overlong (write : Write) : Prop :=
  ∃ payload, write.payload? = some payload ∧ 65535 < payload.length

def reading : Write → Cursor.Step
  | .byte _ => .byte
  | .bytes data => .bytes data.length
  | .word16 _ => .word16
  | .word32 _ => .word32
  | .word64 _ => .word64
  | .block _ => .block
  | .text _ => .text
  | .value content order => .bytes (content.toBytes order).length

def item : Write → Cursor.Item
  | .byte n => .number n.toNat
  | .bytes data => .bytes data
  | .word16 n => .number n.toNat
  | .word32 n => .number n.toInt
  | .word64 n => .number n.toInt
  | .block data => .bytes data
  | .text content => .text content
  | .value content order => .bytes (content.toBytes order)

theorem block?_eq_none_iff {data : List UInt8} : block? data = none ↔ 65535 < data.length := by
  rw [block?_eq, ite_eq_right_iff]
  simp [maxBlock]

theorem bytes?_eq_none_iff {write : Write} : write.bytes? = none ↔ write.Overlong := by
  cases write <;> simp [bytes?, Overlong, payload?, text?, block?_eq_none_iff]

/-- A write adds what the matching read takes. -/
theorem spells_of_bytes? {write : Write} {added : List UInt8} (h : write.bytes? = some added) :
    Cursor.Spells write.reading added write.item := by
  have hblock : ∀ {data}, block? data = some added →
      data.length ≤ maxBlock ∧ added = prefixed data := by
    intro data h
    rw [block?_eq] at h
    split at h
    · next hfit => exact ⟨hfit, (Option.some.inj h).symm⟩
    · cases h
  cases write with
  | byte n =>
    cases h
    exact .byte n
  | bytes data =>
    cases h
    exact .bytes _
  | word16 n =>
    cases h
    exact .word16 n
  | word32 n =>
    cases h
    exact .word32 n
  | word64 n =>
    cases h
    exact .word64 n
  | block data =>
    obtain ⟨hfit, rfl⟩ := hblock h
    exact .block hfit
  | text content =>
    obtain ⟨hfit, rfl⟩ := hblock h
    have hspells := Cursor.Spells.text hfit
    rwa [Text.ofUtf8Lossy_utf8] at hspells
  | value content order =>
    cases h
    exact .bytes _

def run (data : List UInt8) : List Write → List Bool × List UInt8
  | [] => ([], data)
  | write :: writes =>
    ((write.apply data).1 :: (run (write.apply data).2 writes).1,
      (run (write.apply data).2 writes).2)

def performed (writes : List Write) : List Write :=
  ((writes.zip (run [] writes).1).filter (·.2)).map (·.1)

theorem apply_eq (data : List UInt8) (write : Write) :
    write.apply data = (write.bytes?.isSome, data ++ write.bytes?.getD []) := by
  unfold apply
  cases write.bytes? <;> simp

theorem run_eq (data : List UInt8) (writes : List Write) :
    run data writes =
      (writes.map (·.bytes?.isSome), data ++ writes.flatMap (·.bytes?.getD [])) := by
  induction writes generalizing data with
  | nil => simp [run]
  | cons write writes ih => simp [run, apply_eq, ih]

theorem performed_eq (writes : List Write) :
    performed writes = writes.filter (·.bytes?.isSome) := by
  rw [performed, run_eq]
  induction writes with
  | nil => rfl
  | cons write writes ih =>
    cases hdone : write.bytes?.isSome with
    | true => simp only [List.map_cons, List.zip_cons_cons, List.filter_cons, hdone, if_true, ih]
    | false => simp only [List.map_cons, List.zip_cons_cons, List.filter_cons, hdone,
        Bool.false_eq_true, if_false, ih]

/-- The writes that can be done are read back one after the other, whatever
comes behind them. -/
theorem run_reading (index : Nat) (writes : List Write) (rest : List UInt8) :
    (⟨index, writes.flatMap (·.bytes?.getD []) ++ rest⟩ : Cursor).run
        ((writes.filter (·.bytes?.isSome)).map reading) =
      ((writes.filter (·.bytes?.isSome)).map (fun write => some write.item),
        ⟨index + (writes.flatMap (·.bytes?.getD [])).length, rest⟩) := by
  induction writes generalizing index with
  | nil => rfl
  | cons write writes ih =>
    cases hbytes : write.bytes? with
    | none => simp [hbytes, ih]
    | some added =>
      have hstep := Cursor.step_of_spells (spells_of_bytes? hbytes) index
        (writes.flatMap (·.bytes?.getD []) ++ rest)
      simp [hbytes, Cursor.run, hstep, ih, Nat.add_assoc]

/-- Any writes to no data: only what is too long for its length is refused, which
leaves the data as they were, and the rest is read back to the last byte. -/
structure ReadBack (writes : List Write) : Prop where
  refused : ∀ i write, writes[i]? = some write →
    ∃ done, (run [] writes).1[i]? = some done ∧ (done = false ↔ write.Overlong) ∧
      (done = false → (run [] (writes.take (i + 1))).2 = (run [] (writes.take i)).2)
  back : ∃ last, last.remaining = 0 ∧
    (Cursor.ofBytes (run [] writes).2).run ((performed writes).map reading) =
      ((performed writes).map (fun write => some write.item), last)

theorem readBack (writes : List Write) : ReadBack writes where
  refused i write h := by
    refine ⟨write.bytes?.isSome, ?_, ?_, ?_⟩
    · simp [run_eq, h]
    · rw [Option.isSome_eq_false_iff, Option.isNone_iff_eq_none, bytes?_eq_none_iff]
    · intro hrefused
      rw [Option.isSome_eq_false_iff, Option.isNone_iff_eq_none] at hrefused
      simp [run_eq, List.take_add_one, h, hrefused]
  back := by
    have hback := run_reading 0 writes []
    rw [List.append_nil] at hback
    rw [performed_eq, run_eq, List.nil_append]
    exact ⟨_, rfl, hback⟩

end Bytes.Write

/-- Writer and reader agree. Whatever is written is read back in order, save for
blocks too long for their length, which are not written at all. Whatever is read
from whatever bytes, the cursor moves over what a read takes and stays in the
data. -/
theorem Cursor.agrees_with_writes (writes : List Bytes.Write) (data : List UInt8)
    (steps : List Step) : Bytes.Write.ReadBack writes ∧ Reads data steps :=
  ⟨Bytes.Write.readBack writes, reads data steps⟩

end SimpleBinary
