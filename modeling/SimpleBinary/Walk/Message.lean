import SimpleBinary.Token.Component
import SimpleBinary.Walk.Notice
import SimpleBinary.Walk.Value

/-! The walk of a message run over a buffer: the fields of the block, then the
groups, entry by entry, then the data elements. -/
namespace SimpleBinary.Walk

def component (run : List Token) : Except WalkFault (List Token × List Token) :=
  match Token.component? run, run with
  | some parts, _ => .ok parts
  | none, token :: _ => .error (.badCount token.count token.name)
  | none, [] => .error .notMessage

theorem component?_of_component {run : List Token} {parts : List Token × List Token}
    (h : component run = .ok parts) : Token.component? run = some parts := by
  unfold component at h
  split at h <;> simp_all

variable {σ : Type} (listen : Listener σ) (buffer : List UInt8)

mutual

def composite (field : Token) (index : Nat) (run : List Token) : Walking σ Unit :=
  match run with
  | [] => do
    listen (.beginComposite field [])
    listen (.endComposite field [])
  | first :: rest => do
    listen (.beginComposite field (first :: rest))
    members index rest
    listen (.endComposite field (first :: rest))
termination_by 2 * run.length
decreasing_by
  simp only [List.length_cons]
  omega

/-- The members of a composite; the last token of the run is its end. -/
def members (index : Nat) (run : List Token) : Walking σ Unit :=
  match run with
  | [] => pure ()
  | [_] => pure ()
  | token :: next :: rest => do
    let offset ← certain (toIndex token.offset token.name)
    let place := index + offset
    if token.signal.opensType then
      match _h : component (token :: next :: rest) with
      | .error fault => throw (.walk fault)
      | .ok (first, after) => do
        if token.signal = .beginComposite then composite token place first
        else if token.signal = .beginEnum then listen (.enum token place first)
        else listen (.set token place first)
        members index after
    else do
      if token.signal = .encoding then listen (.encoding token place token)
      members index (next :: rest)
termination_by 2 * run.length + 1
decreasing_by
  · have := Token.length_of_component? (component?_of_component _h)
    have := Token.length_pos_of_component? (component?_of_component _h)
    omega
  · have := Token.length_of_component? (component?_of_component _h)
    omega
  · simp only [List.length_cons]
    omega

end

def field (index : Nat) (token : Token) (component : List Token) : Walking σ Unit :=
  match Token.inner component with
  | [] => throw (.walk (.noType token.name))
  | type :: rest => do
    let offset ← certain (toIndex type.offset type.name)
    let place := index + offset
    match type.signal with
    | .beginComposite => composite listen token place (type :: rest)
    | .beginEnum => listen (.enum token place (type :: rest))
    | .beginSet => listen (.set token place (type :: rest))
    | .encoding => listen (.encoding token place type)
    | _ => pure ()

def fields (index : Nat) (run : List Token) : Walking σ Unit :=
  match run with
  | [] => pure ()
  | token :: rest =>
    if token.signal = .beginField then
      match _h : component (token :: rest) with
      | .error fault => throw (.walk fault)
      | .ok (first, after) => do
        field listen index token first
        fields index after
    else pure ()
termination_by run.length
decreasing_by
  have := Token.length_of_component? (component?_of_component _h)
  have := Token.length_pos_of_component? (component?_of_component _h)
  omega

def member (run : List Token) (name : String) (owner : Token) : Except WalkFault Token :=
  match run.find? fun token => token.signal = .encoding && token.name = name with
  | some token => .ok token
  | none => .error (.noMember owner.name name)

def readMember (index : Nat) (token : Token) : Except WalkFault Int64 :=
  match token.encoding.primitive with
  | none => .error (.noPrimitive token.name)
  | some primitive => do
    let offset ← toIndex token.offset token.name
    readInteger buffer (index + offset) primitive token.encoding.byteOrder

def advance (index length : Nat) (owner : Token) : Except WalkFault Nat :=
  if index + length ≤ buffer.length then .ok (index + length)
  else .error (.pastEnd owner.name buffer.length)

structure Dimension where
  blockLength : Nat
  entries : Nat
  start : Nat

/-- All blocks of a group must be within the buffer. -/
def dimension (index : Nat) (group : Token) (component : List Token) :
    Except WalkFault Dimension := do
  match Token.inner component with
  | [] => throw (.noDimension group.name)
  | first :: rest =>
    if first.signal ≠ .beginComposite then throw (.noDimension group.name)
    let (run, _) ← Walk.component (first :: rest)
    let blockLength ← readMember buffer index (← member run "blockLength" group)
    let blockLength ← toLength blockLength "blockLength"
    let entries ← readMember buffer index (← member run "numInGroup" group)
    let entries := entries.toUInt64.toNat
    let start ← advance buffer index (← toIndex first.size first.name) group
    if buffer.length - start < entries * blockLength then
      throw (.groupOverrun group.name entries blockLength buffer.length)
    return { blockLength, entries, start }

def data (index : Nat) (run : List Token) : Walking σ Nat :=
  match run with
  | [] => pure index
  | token :: rest =>
    if token.signal = .beginVarData then
      match _h : component (token :: rest) with
      | .error fault => throw (.walk fault)
      | .ok (first, after) => do
        let type := first.drop 1
        let length ← certain (do readMember buffer index (← member type "length" token))
        let length ← certain (toLength length "length")
        let content ← certain (member type "varData" token)
        let offset ← certain (toIndex content.offset content.name)
        let place := index + offset
        if buffer.length < place + length then
          throw (.walk (.dataOverrun token.name length buffer.length))
        listen (.varData token place length content)
        data (place + length) after
    else pure index
termination_by run.length
decreasing_by
  have := Token.length_of_component? (component?_of_component _h)
  have := Token.length_pos_of_component? (component?_of_component _h)
  omega

mutual

def groups (index : Nat) (run : List Token) : Walking σ Nat :=
  match run with
  | [] => pure index
  | token :: rest =>
    if token.signal = .beginGroup then
      match _h : component (token :: rest) with
      | .error fault => throw (.walk fault)
      | .ok (first, after) => do
        let size ← certain (dimension buffer index token first)
        listen (.groupHeader token size.entries)
        let next ← entries token (Token.groupBody first) size.blockLength size.entries
          size.entries size.start
        groups next after
    else pure index
termination_by (2 * run.length, 0)
decreasing_by
  · have := Token.length_of_component? (component?_of_component _h)
    have := Token.length_groupBody_lt
      (Token.length_pos_of_component? (component?_of_component _h))
    exact Prod.Lex.left _ _ (by omega)
  · have := Token.length_of_component? (component?_of_component _h)
    have := Token.length_pos_of_component? (component?_of_component _h)
    exact Prod.Lex.left _ _ (by omega)

def entries (group : Token) (body : List Token) (blockLength total : Nat) (left index : Nat) :
    Walking σ Nat :=
  match left with
  | 0 => pure index
  | left + 1 => do
    let entry := total - (left + 1)
    listen (.beginGroup group entry total)
    fields listen index body
    let next ← certain (advance buffer index blockLength group)
    let afterFields := Token.skip .beginField body
    let next ← groups next afterFields
    let next ← data listen buffer next (Token.skip .beginGroup afterFields)
    listen (.endGroup group entry total)
    entries group body blockLength total left next
termination_by (2 * body.length + 1, left)
decreasing_by
  · have := Token.length_skip_le .beginField body
    exact Prod.Lex.left _ _ (by omega)
  · exact Prod.Lex.right _ (by omega)

end

/-- The whole of a message whose block starts at `offset`, and the place behind
it. The message ends with the token behind its last element. -/
def message (offset blockLength : Nat) (run : List Token) : Walking σ Nat :=
  match run with
  | [] => throw (.walk .notMessage)
  | token :: rest => do
    if token.signal ≠ .beginMessage then throw (.walk .notMessage)
    listen (.beginMessage token)
    fields listen offset rest
    let afterFields := Token.skip .beginField rest
    let next ← groups listen buffer (offset + blockLength) afterFields
    let afterGroups := Token.skip .beginGroup afterFields
    let next ← data listen buffer next afterGroups
    let afterData := Token.skip .beginVarData afterGroups
    listen (.endMessage (afterData.head?.getD token))
    return next

end SimpleBinary.Walk
