import SimpleBinary.Walk.Message

/-! The walk by index. A component is a stretch of the one run, from an index
up to another, and an index is a word of 64 bits. Every index, every slice,
every difference and every quotient is checked where it is taken, and so is
every sum, so that a walk that would leave its run, its buffer or its word is
told from one that ends with an error. -/
namespace SimpleBinary.Walk.Indexed

inductive Halt where
  | error (error : Error)
  /-- An index, or an end of a slice, that is not in its list. -/
  | outside
  /-- A difference below zero. -/
  | below
  | zeroDivisor
  /-- A sum that no word holds. -/
  | overflow

abbrev Guarded (σ : Type) := ExceptT Halt (StateM σ)

variable {σ α : Type}

/-- A walk that is not itself checked: it stops with its error only. -/
def attempt (walk : Walking σ α) : Guarded σ α :=
  ExceptT.mk fun state =>
    let answer := walk.run.run state
    (answer.1.mapError .error, answer.2)

def fail (fault : WalkFault) : Guarded σ α := throw (.error (.walk fault))

def require (fault : WalkFault) (option : Option α) : Guarded σ α := option.elim (fail fault) pure

def window (items : List α) (first last : Nat) : List α := (items.take last).drop first

def sum (a b : Nat) : Guarded σ { n : Nat // n = a + b } :=
  if a + b < UInt64.size then pure ⟨a + b, rfl⟩ else throw .overflow

def difference (a b : Nat) : Guarded σ { n : Nat // n = a - b } :=
  if b ≤ a then pure ⟨a - b, rfl⟩ else throw .below

def quotient (a b : Int) : Guarded σ Int := if b = 0 then throw .zeroDivisor else pure (a / b)

def item (items : List α) (i : Nat) : Guarded σ α :=
  if h : i < items.length then pure (items.get ⟨i, h⟩) else throw .outside

def slice (items : List α) (first last : Nat) :
    Guarded σ { part : List α // part = window items first last } :=
  if first ≤ last ∧ last ≤ items.length then pure ⟨window items first last, rfl⟩
  else throw .outside

theorem length_window (items : List α) (first last : Nat) :
    (window items first last).length = min last items.length - first := by
  rw [window, List.length_drop, List.length_take]

/-- One element at an offset. Here a sum that no word holds lies behind the
data, and the bytes have to fit into the eight of a word. -/
def read? (data : List UInt8) (offset : Nat) (primitive : Primitive) (order : ByteOrder) :
    Guarded σ (Option Value) :=
  if offset + primitive.size < UInt64.size ∧ offset + primitive.size ≤ data.length then do
    let bytes ← slice data offset (offset + primitive.size)
    if bytes.val.length ≤ 8 then
      pure (some (.ofBits primitive (Bytes.toNat (Bytes.arrange order bytes.val))))
    else throw .outside
  else pure none

def readInteger (buffer : List UInt8) (index : Nat) (primitive : Primitive) (order : ByteOrder) :
    Guarded σ Int64 :=
  if primitive.isFloating then fail (.notInteger primitive)
  else do
    let value ← read? buffer index primitive order
    require (.shortForPrimitive primitive index buffer.length) (value.bind Value.asLong?)

def arrayLength (token : Token) : Guarded σ Int :=
  token.encoding.primitive.elim (pure 1) fun primitive =>
    if 0 < token.size.toInt then quotient token.size.toInt primitive.size else pure 1

def arrayEnd (wraps : Bool) (index size : Nat) : Guarded σ Nat :=
  if index + size < UInt64.size then pure (index + size)
  else if wraps then pure (index + size - UInt64.size)
  else throw .overflow

/-- The value that a token describes at an index. The size of an array is cast
to a word, sign and all. -/
def readValue (wraps : Bool) (buffer : List UInt8) (index : Nat) (token : Token)
    (actingVersion : Int32) : Guarded σ Value :=
  if actingVersion < token.version then require (.noNull token.name) token.encoding.applicableNull
  else if token.encoding.presence = .constant then
    require (.noConstant token.name) token.encoding.constValue
  else do
    let primitive ← require (.noPrimitive token.name) token.encoding.primitive
    let length ← arrayLength token
    if 1 < length then do
      let last ← arrayEnd wraps index (token.size.toInt % UInt64.size).toNat
      if index ≤ last ∧ last ≤ buffer.length then do
        let bytes ← slice buffer index last
        pure (.bytes bytes.val
          (token.encoding.characterEncoding.getD Value.defaultCharacterEncoding))
      else fail (.shortForArray token.name index)
    else do
      let value ← read? buffer index primitive token.encoding.byteOrder
      require (.unreadable token.name index) value

def componentEnd (run : List Token) (i limit : Nat) :
    Guarded σ { next : Nat // i < next ∧ next ≤ limit } := do
  let token ← item run i
  if hcount : 0 < token.count.toInt.toNat then do
    let next ← sum i token.count.toInt.toNat
    if hnext : next.val ≤ limit then pure ⟨next.val, by have := next.property; omega, hnext⟩
    else fail (.badCount token.count token.name)
  else fail (.badCount token.count token.name)

/-- A step at the component at `i`, if that starts within `limit` and opens with
a signal. -/
def leading (signal : Signal) (run : List Token) (i limit : Nat) (stop : α)
    (step : Token → { next : Nat // i < next ∧ next ≤ limit } → Guarded σ α) : Guarded σ α :=
  if i < limit then do
    let token ← item run i
    if token.signal = signal then do
      let next ← componentEnd run i limit
      step token next
    else pure stop
  else pure stop

variable (listen : Listener σ) (buffer : List UInt8)

mutual

def composite (field : Token) (index : Nat) (run : List Token) : Guarded σ Unit := do
  attempt (listen (.beginComposite field run))
  members index run 1
  attempt (listen (.endComposite field run))
termination_by 2 * run.length + 1

def members (index : Nat) (run : List Token) (i : Nat) : Guarded σ Unit :=
  if i < run.length - 1 then do
    let token ← item run i
    let offset ← attempt (certain (toIndex token.offset token.name))
    let place ← sum index offset
    if token.signal.opensType then do
      let last ← componentEnd run i run.length
      let part ← slice run i last.val
      if token.signal = .beginComposite then composite token place.val part.val
      else if token.signal = .beginEnum then attempt (listen (.enum token place.val part.val))
      else attempt (listen (.set token place.val part.val))
      members index run last.val
    else do
      if token.signal = .encoding then attempt (listen (.encoding token place.val token))
      let next ← sum i 1
      members index run next.val
  else pure ()
termination_by 2 * (run.length + 1 - i)
decreasing_by
  · have := last.property
    omega
  · have := last.property
    rw [part.property, length_window]
    omega
  · have := next.property
    omega

end

def type (field : Token) (index : Nat) (run : List Token) : Guarded σ Unit := do
  let first ← item run 0
  let offset ← attempt (certain (toIndex first.offset first.name))
  let place ← sum index offset
  if first.signal = .beginComposite then composite listen field place.val run
  else if first.signal = .beginEnum then attempt (listen (.enum field place.val run))
  else if first.signal = .beginSet then attempt (listen (.set field place.val run))
  else if first.signal = .encoding then attempt (listen (.encoding field place.val first))
  else pure ()

def fields (index : Nat) (run : List Token) (i limit : Nat) :
    Guarded σ { next : Nat // i ≤ next } :=
  leading .beginField run i limit ⟨i, Nat.le_refl i⟩ fun token next => do
    let least ← sum i 3
    if next.val < least.val then fail (.noType token.name)
    else do
      let first ← sum i 1
      let last ← difference next.val 1
      let part ← slice run first.val last.val
      type listen token index part.val
      let behind ← fields index run next.val limit
      pure ⟨behind.val, by have := next.property; have := behind.property; omega⟩
termination_by limit - i
decreasing_by
  have := next.property
  omega

def readMember (index : Nat) (token : Token) : Guarded σ Int64 := do
  let primitive ← require (.noPrimitive token.name) token.encoding.primitive
  let offset ← attempt (certain (toIndex token.offset token.name))
  let place ← sum index offset
  readInteger buffer place.val primitive token.encoding.byteOrder

/-- The place behind a stretch of the buffer; a sum that no word holds is past
its end. -/
def advance (index length : Nat) (owner : Token) : Guarded σ Nat :=
  if index + length < UInt64.size ∧ index + length ≤ buffer.length then pure (index + length)
  else fail (.pastEnd owner.name buffer.length)

/-- What the dimension of a group says. A product that no word holds overruns
the buffer. -/
def dimension (index : Nat) (group : Token) (run : List Token) : Guarded σ Dimension := do
  let member ← attempt (certain (Walk.member run "blockLength" group))
  let blockLength ← readMember buffer index member
  let blockLength ← attempt (certain (toLength blockLength "blockLength"))
  let member ← attempt (certain (Walk.member run "numInGroup" group))
  let entries ← readMember buffer index member
  let first ← item run 0
  let size ← attempt (certain (toIndex first.size first.name))
  let start ← advance buffer index size group
  let left ← difference buffer.length start
  if entries.toUInt64.toNat * blockLength < UInt64.size ∧
      entries.toUInt64.toNat * blockLength ≤ left.val then
    pure ⟨blockLength, entries.toUInt64.toNat, start⟩
  else fail (.groupOverrun group.name entries.toUInt64.toNat blockLength buffer.length)

def data (index : Nat) (run : List Token) (i limit : Nat) : Guarded σ (Nat × Nat) :=
  leading .beginVarData run i limit (index, i) fun token next => do
    let first ← sum i 1
    let part ← slice run first.val next.val
    let member ← attempt (certain (Walk.member part.val "length" token))
    let length ← readMember buffer index member
    let length ← attempt (certain (toLength length "length"))
    let content ← attempt (certain (Walk.member part.val "varData" token))
    let offset ← attempt (certain (toIndex content.offset content.name))
    let place ← sum index offset
    let behind ← sum place.val length
    if buffer.length < behind.val then fail (.dataOverrun token.name length buffer.length)
    else do
      attempt (listen (.varData token place.val length content))
      data behind.val run next.val limit
termination_by limit - i
decreasing_by
  have := next.property
  omega

mutual

def groups (index : Nat) (run : List Token) (i limit : Nat) : Guarded σ (Nat × Nat) :=
  leading .beginGroup run i limit (index, i) fun token next => do
    let last ← difference next.val 1
    let first ← sum i 1
    if first.val < last.val then do
      let opening ← item run first.val
      if opening.signal = .beginComposite then do
        let start ← componentEnd run first.val last.val
        let part ← slice run first.val start.val
        let size ← dimension buffer index token part.val
        attempt (listen (.groupHeader token size.entries))
        let behind ← entries token run start.val last.val size.blockLength size.entries
          size.entries size.start
        let after ← sum last.val 1
        groups behind run after.val limit
      else fail (.noDimension token.name)
    else fail (.noDimension token.name)
termination_by (2 * (limit - i), 0)
decreasing_by
  · have := next.property
    have := last.property
    have := first.property
    have := start.property
    exact Prod.Lex.left _ _ (by omega)
  · have := next.property
    have := last.property
    have := after.property
    exact Prod.Lex.left _ _ (by omega)

def entries (group : Token) (run : List Token) (first last blockLength total left index : Nat) :
    Guarded σ Nat :=
  if 0 < left then do
    attempt (listen (.beginGroup group (total - left) total))
    let afterFields ← fields listen index run first last
    let next ← advance buffer index blockLength group
    let afterGroups ← groups next run afterFields.val last
    let behind ← data listen buffer afterGroups.1 run afterGroups.2 last
    attempt (listen (.endGroup group (total - left) total))
    entries group run first last blockLength total (left - 1) behind.1
  else pure index
termination_by (2 * (last - first) + 1, left)
decreasing_by
  · have := afterFields.property
    exact Prod.Lex.left _ _ (by omega)
  · exact Prod.Lex.right _ (by omega)

end

def message (offset blockLength : Nat) (run : List Token) : Guarded σ Nat :=
  run.head?.elim (fail .notMessage) fun token =>
    if token.signal = .beginMessage then do
      attempt (listen (.beginMessage token))
      let afterFields ← fields listen offset run 1 run.length
      let start ← sum offset blockLength
      let afterGroups ← groups listen buffer start.val run afterFields.val run.length
      let behind ← data listen buffer afterGroups.1 run afterGroups.2 run.length
      attempt (listen (.endMessage (run[behind.2]?.getD token)))
      pure behind.1
    else fail .notMessage

end SimpleBinary.Walk.Indexed
