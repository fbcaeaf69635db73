import SimpleBinary.Proofs.Walk.Simple
import SimpleBinary.Walk.Notice

/-! What a message carries: a block, groups whose entries carry as much again,
and data. `wire` lays it out in bytes, and `heard` is what a listener is told
of it, by names, places and contents. -/
namespace SimpleBinary.Walk

inductive Heard where
  | beginMessage (name : String) (id : Int32)
  | endMessage (name : String) (id : Int32)
  | encoding (field : String) (index : Nat) (type : String)
  | enum (field : String) (index : Nat) (type : String)
  | set (field : String) (index : Nat) (type : String)
  | beginComposite (field type : String)
  | endComposite (field type : String)
  | groupHeader (group : String) (entries : Nat)
  | beginGroup (group : String) (entry entries : Nat)
  | endGroup (group : String) (entry entries : Nat)
  | varData (field : String) (index : Nat) (content : List UInt8) (type : String)
  deriving DecidableEq

def runName (run : List Token) : String := (run.head?.map (·.name)).getD ""

def Heard.of (buffer : List UInt8) : Notice → Heard
  | .beginMessage token => .beginMessage token.name token.id
  | .endMessage token => .endMessage token.name token.id
  | .encoding field index type => .encoding field.name index type.name
  | .enum field index run => .enum field.name index (runName run)
  | .set field index run => .set field.name index (runName run)
  | .beginComposite field run => .beginComposite field.name (runName run)
  | .endComposite field run => .endComposite field.name (runName run)
  | .groupHeader group entries => .groupHeader group.name entries
  | .beginGroup group entry entries => .beginGroup group.name entry entries
  | .endGroup group entry entries => .endGroup group.name entry entries
  | .varData field index length type =>
    .varData field.name index ((buffer.drop index).take length) type.name

mutual

def typeHeard (field : String) (place : Nat) : DataType → List Heard
  | .encoded info _ => [.encoding field place info.name]
  | .enum info _ => [.enum field place info.name]
  | .set info _ => [.set field place info.name]
  | .composite info members =>
    .beginComposite field info.name ::
      (membersHeard place 0 members ++ [.endComposite field info.name])

def membersHeard (place : Nat) (offset : Int) : List DataType → List Heard
  | [] => []
  | member :: rest =>
    typeHeard member.name (place + (member.start offset).toNat) member ++
      membersHeard place (member.start offset + member.encodedLength) rest

end

def blockHeard (place : Nat) : List Field → List Heard
  | [] => []
  | .plain info type :: rest =>
    typeHeard info.name (place + info.computedOffset.toNat) type ++ blockHeard place rest
  | _ :: rest => blockHeard place rest

theorem blockHeard_filter (place : Nat) (fields : List Field) :
    blockHeard place (fields.filter Field.isPlain) = blockHeard place fields := by
  induction fields with
  | nil => rfl
  | cons field rest ih =>
    cases field with
    | plain info type =>
      rw [List.filter_cons_of_pos rfl, blockHeard, blockHeard, ih]
    | group => exact ih
    | data => exact ih

def number (order : ByteOrder) (primitive : Primitive) (n : Nat) : List UInt8 :=
  Bytes.arrange order (Bytes.ofNat primitive.size n)

def hasRoom (primitive : Primitive) (n : Nat) : Bool := n < Nat.pow 256 primitive.size

/-- Whether a length is below the numbers that would read as negative. -/
def isLength (n : Nat) : Bool := n < 9223372036854775808

mutual

inductive Content where
  | mk (block : List UInt8) (groups : List GroupContent) (data : List (List UInt8))

inductive GroupContent where
  | mk (dimension : List UInt8) (blockLength : Nat) (entries : List Content)

end

def Content.block : Content → List UInt8
  | .mk block _ _ => block

def dataWire (order : ByteOrder) : List Field → List (List UInt8) → List UInt8
  | .data _ (.composite _ (.encoded _ length :: _)) :: fields, content :: rest =>
    number order length.primitive content.length ++ content ++ dataWire order fields rest
  | _, _ => []

def dataFits : List Field → List (List UInt8) → Bool
  | [], [] => true
  | .data _ (.composite _ (.encoded _ length :: _)) :: fields, content :: rest =>
    hasRoom length.primitive content.length && isLength content.length && dataFits fields rest
  | _, _ => false

def dataHeard (place : Nat) : List Field → List (List UInt8) → List Heard
  | .data info (.composite _ (.encoded _ length :: _)) :: fields, content :: rest =>
    let start := place + length.primitive.size
    .varData info.name start content "varData" ::
      dataHeard (start + content.length) fields rest
  | _, _ => []

theorem dataFits_nil {contents : List (List UInt8)} (h : dataFits [] contents = true) :
    contents = [] := by
  cases contents with
  | nil => rfl
  | cons => cases h

theorem dataFits_cons {field : Field} {fields : List Field} {contents : List (List UInt8)}
    (h : dataFits (field :: fields) contents = true) :
    ∃ info name lengthInfo length members content rest,
      field = .data info (.composite name (.encoded lengthInfo length :: members)) ∧
      contents = content :: rest ∧ hasRoom length.primitive content.length = true ∧
      isLength content.length = true ∧ dataFits fields rest = true := by
  unfold dataFits at h
  split at h
  · contradiction
  · next heq =>
    cases heq
    simp only [Bool.and_eq_true] at h
    exact ⟨_, _, _, _, _, _, _, rfl, rfl, h.1.1, h.1.2, h.2⟩
  · cases h

mutual

def Content.wire (order : ByteOrder) (fields : List Field) : Content → List UInt8
  | .mk block groups data =>
    block ++ (groupsWire order (fields.filter Field.isGroup) groups ++
      dataWire order (fields.filter Field.isData) data)

def groupsWire (order : ByteOrder) : List Field → List GroupContent → List UInt8
  | .group _ _ _ inner :: fields, .mk dimension _ entries :: rest =>
    dimension ++ (entriesWire order inner entries ++ groupsWire order fields rest)
  | _, _ => []

def entriesWire (order : ByteOrder) (fields : List Field) : List Content → List UInt8
  | [] => []
  | entry :: rest => entry.wire order fields ++ entriesWire order fields rest

end

def Content.between (order : ByteOrder) (fields : List Field) (front behind : List UInt8)
    (content : Content) : List UInt8 :=
  front ++ (content.wire order fields ++ behind)

/-- Whether the bytes of a dimension have a number at the member of a name. -/
def states (order : ByteOrder) (members : List DataType) (dimension : List UInt8) (name : String)
    (n : Nat) : Bool :=
  match DataType.memberAt? name 0 members with
  | some (place, .encoded _ type) =>
    hasRoom type.primitive n &&
      (dimension.drop place.toNat).take type.primitive.size = number order type.primitive n
  | _ => false

mutual

/-- Whether there are as many groups and data elements as fields for them, and
every dimension and length says what follows it. -/
def Content.fits (order : ByteOrder) (fields : List Field) : Content → Bool
  | .mk _ groups data =>
    groupsFit order (fields.filter Field.isGroup) groups &&
      dataFits (fields.filter Field.isData) data

def groupsFit (order : ByteOrder) : List Field → List GroupContent → Bool
  | [], [] => true
  | .group _ (.composite info members) _ inner :: fields,
      .mk dimension blockLength entries :: rest =>
    (dimension.length : Int) = (DataType.composite info members).encodedLength &&
      states order members dimension "blockLength" blockLength && isLength blockLength &&
      states order members dimension "numInGroup" entries.length &&
      entriesFit order inner blockLength entries && groupsFit order fields rest
  | _, _ => false

def entriesFit (order : ByteOrder) (fields : List Field) (blockLength : Nat) :
    List Content → Bool
  | [] => true
  | entry :: rest =>
    entry.block.length = blockLength && entry.fits order fields &&
      entriesFit order fields blockLength rest

end

theorem groupsFit_nil {order : ByteOrder} {groups : List GroupContent}
    (h : groupsFit order [] groups = true) : groups = [] := by
  cases groups with
  | nil => rfl
  | cons => cases h

theorem groupsFit_cons {order : ByteOrder} {field : Field} {fields : List Field}
    {groups : List GroupContent} (h : groupsFit order (field :: fields) groups = true) :
    ∃ info name members declared inner dimension blockLength entries rest,
      field = .group info (.composite name members) declared inner ∧
      groups = .mk dimension blockLength entries :: rest ∧
      (dimension.length : Int) = (DataType.composite name members).encodedLength ∧
      states order members dimension "blockLength" blockLength = true ∧
      isLength blockLength = true ∧
      states order members dimension "numInGroup" entries.length = true ∧
      entriesFit order inner blockLength entries = true ∧ groupsFit order fields rest = true := by
  unfold groupsFit at h
  split at h
  · contradiction
  · next heq =>
    cases heq
    simp only [Bool.and_eq_true, decide_eq_true_eq] at h
    obtain ⟨⟨⟨⟨⟨hlength, hblock⟩, hfit⟩, hcount⟩, hentries⟩, hrest⟩ := h
    exact ⟨_, _, _, _, _, _, _, _, _, rfl, rfl, hlength, hblock, hfit, hcount, hentries, hrest⟩
  · cases h

theorem length_block_le (order : ByteOrder) (fields : List Field) (content : Content) :
    content.block.length ≤ (content.wire order fields).length := by
  cases content with
  | mk block groups data =>
    rw [Content.wire, List.length_append]
    exact Nat.le_add_right _ _

theorem length_entriesWire {order : ByteOrder} {fields : List Field} {blockLength : Nat}
    {entries : List Content} (h : entriesFit order fields blockLength entries = true) :
    entries.length * blockLength ≤ (entriesWire order fields entries).length := by
  induction entries with
  | nil => simp
  | cons entry rest ih =>
    rw [entriesFit, Bool.and_eq_true, Bool.and_eq_true, decide_eq_true_eq] at h
    have hblock := length_block_le order fields entry
    have hrest := ih h.2
    rw [entriesWire, List.length_append, List.length_cons, Nat.succ_mul]
    omega

mutual

def Content.heard (order : ByteOrder) (fields : List Field) (place : Nat) : Content → List Heard
  | .mk block groups data =>
    let groupFields := fields.filter Field.isGroup
    let behindBlock := place + block.length
    blockHeard place fields ++ (groupsHeard order behindBlock groupFields groups ++
      dataHeard (behindBlock + (groupsWire order groupFields groups).length)
        (fields.filter Field.isData) data)

def groupsHeard (order : ByteOrder) (place : Nat) : List Field → List GroupContent → List Heard
  | .group info _ _ inner :: fields, .mk dimension _ entries :: rest =>
    let start := place + dimension.length
    .groupHeader info.name entries.length ::
      (entriesHeard order info.name inner entries.length 0 start entries ++
        groupsHeard order (start + (entriesWire order inner entries).length) fields rest)
  | _, _ => []

def entriesHeard (order : ByteOrder) (group : String) (fields : List Field) (total index : Nat)
    (place : Nat) : List Content → List Heard
  | [] => []
  | entry :: rest =>
    .beginGroup group index total :: (entry.heard order fields place ++
      .endGroup group index total :: entriesHeard order group fields total (index + 1)
        (place + (entry.wire order fields).length) rest)

end

end SimpleBinary.Walk
