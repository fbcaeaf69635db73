import SimpleBinary.Proofs.Walk.Reports

/-! Numbers that steer a walk. What was written at the place of a member, in
its width and byte order, is read back through the token of that member. So a
data element is heard with its content, and a dimension says what follows it. -/
namespace SimpleBinary.Walk
open Generate
open Token (Whole maxCount recount)

theorem length_number (order : ByteOrder) (primitive : Primitive) (n : Nat) :
    (number order primitive n).length = primitive.size := by
  simp [number]

section
variable {buffer : List UInt8} {index n : Nat} {primitive : Primitive} {order : ByteOrder}

theorem readInteger_number (hunsigned : primitive.isUnsigned = true)
    (hroom : hasRoom primitive n = true)
    (hbytes : (buffer.drop index).take primitive.size = number order primitive n) :
    readInteger buffer index primitive order = .ok (Int64.ofNat n) := by
  have hinside : index + primitive.size ≤ buffer.length := by
    have hlength := congrArg List.length hbytes
    have hsize := primitive.size_pos
    rw [length_number, List.length_take, List.length_drop] at hlength
    omega
  have hnumber : Bytes.toNat (Bytes.arrange order (number order primitive n)) = n := by
    rw [number, Bytes.arrange_arrange, Bytes.toNat_ofNat]
    exact Nat.mod_eq_of_lt (of_decide_eq_true hroom)
  have hvalue : Value.ofBits primitive n = .long (Int64.ofNat n) primitive.size := by
    cases primitive <;> first | rfl | cases hunsigned
  have hinteger : primitive.isFloating = false := by
    cases primitive <;> first | rfl | cases hunsigned
  unfold readInteger Value.read?
  rw [if_neg (by simp [hinteger]), if_pos hinside]
  dsimp only
  rw [hbytes, hnumber, hvalue]
  rfl

theorem toLength_ofNat (h : isLength n = true) (owner : String) :
    toLength (Int64.ofNat n) owner = .ok n := by
  have hsame : (Int64.ofNat n).toInt = n := Int64.toInt_ofNat_of_lt (of_decide_eq_true h)
  rw [toLength, hsame, if_neg (by omega), Int.toNat_natCast]

theorem toNat_toUInt64_ofNat (hroom : hasRoom primitive n = true) :
    (Int64.ofNat n).toUInt64.toNat = n := by
  have hlt : n < Nat.pow 256 primitive.size := of_decide_eq_true hroom
  have hle : Nat.pow 256 primitive.size ≤ 18446744073709551616 := by
    cases primitive <;> decide
  rw [Int64.toUInt64_ofNat', UInt64.toNat_ofNat', Nat.mod_eq_of_lt (Nat.lt_of_lt_of_le hlt hle)]

end

theorem find?_memberTokens (order : ByteOrder) {members : List DataType} {name : String}
    {offset place : Int} {info : TypeInfo} {type : EncodedType}
    (hencoded : ∀ member ∈ members, member.encoded?.isSome = true)
    (h : DataType.memberAt? name offset members = some (place, .encoded info type)) :
    ∃ size, (memberTokens order offset members).find?
        (fun token => token.signal = .encoding && token.name = name) =
      some (encodedToken order info type size place none) := by
  induction members generalizing offset with
  | nil => cases h
  | cons first rest ih =>
    cases first with
    | composite => cases hencoded _ List.mem_cons_self
    | enum => cases hencoded _ List.mem_cons_self
    | set => cases hencoded _ List.mem_cons_self
    | encoded firstInfo firstType =>
      rw [memberTokens, typeTokens]
      rw [DataType.memberAt?] at h
      split at h
      · next hname =>
        cases h
        exact ⟨_, List.find?_cons_of_pos (decide_eq_true hname)⟩
      · next hname =>
        obtain ⟨size, hsize⟩ :=
          ih (fun other hother => hencoded other (List.mem_cons_of_mem _ hother)) h
        refine ⟨size, ?_⟩
        rw [← hsize]
        exact List.find?_cons_of_neg (Bool.eq_false_iff.mp (decide_eq_false hname))

theorem exists_member (order : ByteOrder) {members : List DataType} {name : String} {place : Int}
    {info : TypeInfo} {type : EncodedType}
    (hencoded : ∀ member ∈ members, member.encoded?.isSome = true)
    (h : DataType.memberAt? name 0 members = some (place, .encoded info type)) (offset : Int)
    (field : Option FieldInfo) (composite : TypeInfo) (tail : List Token) (owner : Token) :
    ∃ token, member (recount (typeTokens order offset field (.composite composite members)) ++ tail)
        name owner = .ok token ∧
      token.name = name ∧ token.offset = Int32.ofInt place ∧
      token.encoding.primitive = some type.primitive ∧ token.encoding.byteOrder = order := by
  obtain ⟨size, hfind⟩ := find?_memberTokens order hencoded h
  have hnested := nested_typeTokens order (.composite composite members) offset field
  have hinside : (typeTokens order offset field (.composite composite members)).find?
      (fun token => token.signal = .encoding && token.name = name) =
        some (encodedToken order info type size place none) := by
    rw [typeTokens, bracketed, List.cons_append, List.find?_cons_of_neg (by simp [typeToken]),
      List.find?_append, hfind]
    rfl
  have hcounted := Token.find?_recount (p := fun token => token.signal = .encoding &&
    token.name = name) (fun _ => rfl) hnested
  rw [hinside, Option.map_some] at hcounted
  obtain ⟨token, htoken, hsame⟩ := Option.map_eq_some_iff.mp hcounted
  refine ⟨token, ?_, ?_, ?_, ?_, ?_⟩
  · rw [member, List.find?_append, htoken]
    rfl
  · have hname := List.find?_some htoken
    simp only [Bool.and_eq_true, decide_eq_true_eq] at hname
    exact hname.2
  · exact congrArg Token.offset hsame
  · exact congrArg (·.encoding.primitive) hsame
  · exact congrArg (·.encoding.byteOrder) hsame

theorem readMember_number {buffer : List UInt8} {index n : Nat} {token : Token}
    {primitive : Primitive} {order : ByteOrder} {place : Int}
    (hprimitive : token.encoding.primitive = some primitive)
    (horder : token.encoding.byteOrder = order) (hoffset : token.offset = Int32.ofInt place)
    (hplace : IsPlace place) (hunsigned : primitive.isUnsigned = true)
    (hroom : hasRoom primitive n = true)
    (hbytes : (buffer.drop (index + place.toNat)).take primitive.size =
      number order primitive n) :
    readMember buffer index token = .ok (Int64.ofNat n) := by
  rw [readMember, hprimitive]
  dsimp only
  rw [hoffset, toIndex_ofInt hplace, horder]
  exact readInteger_number hunsigned hroom hbytes

theorem exists_stated {order : ByteOrder} {members : List DataType} {dimension : List UInt8}
    {name : String} {n : Nat} {composite : TypeInfo}
    (hvalid : (DataType.composite composite members).Valid)
    (hmembers : ∀ member ∈ members, member.isSingle = true ∧ member.isVariable = false)
    (hmeasures : DataType.Measures members name)
    (hstates : states order members dimension name n = true) (field : Option FieldInfo)
    (owner : Token) :
    ∃ token primitive, hasRoom primitive n = true ∧
      member (recount (typeTokens order 0 field (.composite composite members))) name owner =
        .ok token ∧
      ∀ front behind, readMember (front ++ (dimension ++ behind)) front.length token =
        .ok (Int64.ofNat n) := by
  unfold states at hstates
  split at hstates
  · next place info type hat =>
    rw [Bool.and_eq_true, decide_eq_true_eq] at hstates
    obtain ⟨hroom, hbytes⟩ := hstates
    have hencoded : ∀ member ∈ members, member.encoded?.isSome = true := by
      intro member hmember
      have hsingle := (hmembers member hmember).1
      cases member with
      | encoded => rfl
      | composite => cases hsingle
      | enum => cases hsingle
      | set => cases hsingle
    have hplace : IsPlace place := by
      cases hvalid with
      | composite _ hall _ hspaced =>
        exact DataType.isPlace_of_memberAt? hall (fun member hmember => (hmembers member hmember).2)
          hspaced (by decide) hat
    obtain ⟨token, htoken, -, hoffset, hprimitive, horder⟩ :=
      exists_member order hencoded hat 0 field composite [] owner
    rw [List.append_nil] at htoken
    refine ⟨token, type.primitive, hroom, htoken, fun front behind => ?_⟩
    refine readMember_number hprimitive horder hoffset hplace (hmeasures.isUnsigned hat) hroom ?_
    have hinside : type.primitive.size ≤ (dimension.drop place.toNat).length := by
      have hlength := congrArg List.length hbytes
      rw [length_number, List.length_take] at hlength
      omega
    rw [← hbytes, ← List.drop_drop, List.drop_left, List.drop_append_of_le_length]
    · exact List.take_append_of_le_length hinside
    · rw [List.length_drop] at hinside
      have hsize := type.primitive.size_pos
      omega
  · cases hstates

section
variable {σ : Type} (listen : Listener σ) (buffer : List UInt8)

theorem data_cons (index : Nat) {token : Token} (hsignal : token.signal = .beginVarData)
    (rest : List Token) :
    data listen buffer index (token :: rest) = (do
      let parts ← certain (component (token :: rest))
      let length ← certain (do readMember buffer index (← member (parts.1.drop 1) "length" token))
      let length ← certain (toLength length "length")
      let content ← certain (member (parts.1.drop 1) "varData" token)
      let offset ← certain (toIndex content.offset content.name)
      if buffer.length < index + offset + length then
        throw (.walk (.dataOverrun token.name length buffer.length))
      listen (.varData token (index + offset) length content)
      data listen buffer (index + offset + length) parts.2) := by
  rw [data, if_pos hsignal]
  split
  · next h =>
    rw [h]
    rfl
  · next h =>
    rw [h]
    rfl

theorem data_append (index : Nat) {token : Token} {rest : List Token}
    (hwhole : Whole (token :: rest)) (hsignal : token.signal = .beginVarData) (tail : List Token) :
    data listen buffer index (token :: rest ++ tail) = (do
      let length ← certain (do readMember buffer index (← member rest "length" token))
      let length ← certain (toLength length "length")
      let content ← certain (member rest "varData" token)
      let offset ← certain (toIndex content.offset content.name)
      if buffer.length < index + offset + length then
        throw (.walk (.dataOverrun token.name length buffer.length))
      listen (.varData token (index + offset) length content)
      data listen buffer (index + offset + length) tail) := by
  rw [List.cons_append, data_cons listen buffer index hsignal, ← List.cons_append,
    component_append hwhole, certain_ok, pure_bind]
  rfl

theorem data_of_lead?_ne (index : Nat) {run : List Token}
    (h : Token.lead? run ≠ some .beginVarData) : data listen buffer index run = pure index := by
  cases run with
  | nil => rw [data]
  | cons token rest =>
    rw [data, if_neg]
    exact fun heq => h (congrArg some heq)

/-- The length of a data element is read, and its content is looked for behind
it. -/
theorem exists_dataStep {order : ByteOrder} {starts : List Nat} {base : Nat} {info : FieldInfo}
    {name lengthInfo contentInfo : TypeInfo} {length contentType : EncodedType}
    {fields : List Field}
    (hframes : DataType.Frames lengthInfo length contentInfo)
    (hlength : (wrapped order starts base (.data info (.composite name
      [.encoded lengthInfo length, .encoded contentInfo contentType]) :: fields)).length ≤ maxCount)
    {content front rest : List UInt8} (hroom : hasRoom length.primitive content.length = true)
    (hfit : isLength content.length = true)
    (hbuffer : buffer = front ++ (number order length.primitive content.length ++ rest))
    (tail : List Token) :
    ∃ token contentToken next, token.name = info.name ∧ contentToken.name = "varData" ∧
      contentToken.offset = Int32.ofInt (DataType.encoded lengthInfo length).encodedLength ∧
      (wrapped order starts next fields).length ≤ maxCount ∧
      data listen buffer front.length (recount (wrapped order starts base (.data info
        (.composite name [.encoded lengthInfo length, .encoded contentInfo contentType]) :: fields))
          ++ tail) = (do
        let offset ← certain (toIndex contentToken.offset contentToken.name)
        if buffer.length < front.length + offset + content.length then
          throw (.walk (.dataOverrun token.name content.length buffer.length))
        listen (.varData token (front.length + offset) content.length contentToken)
        data listen buffer (front.length + offset + content.length)
          (recount (wrapped order starts next fields) ++ tail)) := by
  obtain ⟨token, last, next, hrun, hwhole, hsignal, hname, -, hrest⟩ :=
    exists_fieldRun order starts base _ fields hlength
  rw [body] at hrun hwhole
  have hencoded : ∀ member ∈ [DataType.encoded lengthInfo length, .encoded contentInfo contentType],
      member.encoded?.isSome = true := by
    simp [DataType.encoded?]
  obtain ⟨lengthToken, hlengthToken, -, hoffset, hprimitive, horder⟩ := exists_member order hencoded
    (hframes.memberAt?_length _) info.computedOffset info name [last] token
  obtain ⟨contentToken, hcontentToken, hcontent, hplace, -⟩ := exists_member order hencoded
    (hframes.memberAt?_content contentType []) info.computedOffset info name [last] token
  have hread : readMember buffer front.length lengthToken = .ok (Int64.ofNat content.length) := by
    refine readMember_number hprimitive horder hoffset (by decide) hframes.unsigned hroom ?_
    rw [hbuffer]
    simp [length_number]
  refine ⟨token, contentToken, next, hname, hcontent, hplace, hrest, ?_⟩
  rw [hrun, List.append_assoc, data_append listen buffer _ hwhole hsignal, hlengthToken]
  change (certain (readMember buffer front.length lengthToken) >>= _) = _
  rw [hread, certain_ok, pure_bind, toLength_ofNat hfit, certain_ok, pure_bind, hcontentToken,
    certain_ok, pure_bind]

variable {types : Table String DataType} {version : Int32}

theorem reports_data (order : ByteOrder) (starts : List Nat) {tail : List Token}
    (htail : Token.lead? tail ≠ some .beginVarData) {fields : List Field}
    {contents : List (List UInt8)} (hready : ∀ field ∈ fields, Field.Ready types version field)
    (hfits : dataFits fields contents = true) {base : Nat}
    (hlength : (wrapped order starts base fields).length ≤ maxCount) {front behind : List UInt8}
    (hbuffer : buffer = front ++ (dataWire order fields contents ++ behind)) :
    Reports listen buffer
      (data listen buffer front.length (recount (wrapped order starts base fields) ++ tail))
      (front.length + (dataWire order fields contents).length)
      (dataHeard front.length fields contents) := by
  induction fields generalizing contents base front with
  | nil =>
    obtain rfl := dataFits_nil hfits
    rw [wrapped_nil]
    change Reports listen buffer (data listen buffer front.length tail) front.length []
    rw [data_of_lead?_ne listen buffer front.length htail]
    exact .pure _
  | cons field fields ih =>
    obtain ⟨info, name, lengthInfo, length, members, content, contents, rfl, rfl, hroom, hfit,
      hfitsRest⟩ := dataFits_cons hfits
    obtain ⟨_, _, _, contentInfo, contentType, heq, hframes, hfixed⟩ :=
      (hready _ List.mem_cons_self).data
    cases heq
    have hwire : buffer = front ++ (number order length.primitive content.length ++
        (content ++ (dataWire order fields contents ++ behind))) := by
      rw [hbuffer, dataWire]
      simp only [List.append_assoc]
    have hrestWire : buffer =
        (front ++ (number order length.primitive content.length ++ content)) ++
        (dataWire order fields contents ++ behind) := by
      rw [hwire]
      simp only [List.append_assoc]
    have hsize : (DataType.encoded lengthInfo length).encodedLength = length.primitive.size := by
      rw [hframes.encodedLength, hfixed, if_neg Bool.false_ne_true]
    obtain ⟨token, contentToken, next, hname, hcontent, hplace, hrest, hstep⟩ :=
      exists_dataStep listen buffer hframes hlength hroom hfit hwire tail
    have hindex : toIndex contentToken.offset contentToken.name = .ok length.primitive.size := by
      rw [hplace, hsize, toIndex_ofInt length.primitive.isPlace_size, Int.toNat_natCast]
    have hroomy : ¬ buffer.length < front.length + length.primitive.size + content.length := by
      rw [hwire]
      simp only [List.length_append, length_number]
      omega
    have hthere : (buffer.drop (front.length + length.primitive.size)).take content.length =
        content := by
      rw [hwire, ← List.drop_drop, List.drop_left, List.drop_left' (length_number _ _ _),
        List.take_left]
    have htold : Heard.of buffer
        (.varData token (front.length + length.primitive.size) content.length contentToken) =
          .varData info.name (front.length + length.primitive.size) content "varData" := by
      rw [Heard.of, hthere, hname, hcontent]
    have hothers := ih (fun other hother => hready other (List.mem_cons_of_mem _ hother)) hfitsRest
      hrest hrestWire
    simp only [List.length_append, length_number, ← Nat.add_assoc] at hothers
    rw [hstep, hindex, certain_ok, pure_bind, if_neg hroomy, dataHeard, dataWire, ← htold]
    simp only [List.length_append, length_number, ← Nat.add_assoc]
    exact .tellThen hothers

/-- A dimension says how many entries follow it and how long their blocks are. -/
theorem dimension_bracketed {order : ByteOrder} {name : TypeInfo} {members : List DataType}
    {field : Option FieldInfo} {bytes front behind : List UInt8} {blockLength entries : Nat}
    (hvalid : (DataType.composite name members).Valid)
    (hmembers : ∀ member ∈ members, member.isSingle = true ∧ member.isVariable = false)
    (hlengths : DataType.Measures members "blockLength")
    (hcounts : DataType.Measures members "numInGroup")
    (hsize : (bytes.length : Int) = (DataType.composite name members).encodedLength)
    (hblock : states order members bytes "blockLength" blockLength = true)
    (hfit : isLength blockLength = true)
    (hcount : states order members bytes "numInGroup" entries = true)
    (hlength : (typeTokens order 0 field (.composite name members)).length ≤ maxCount)
    (hroomy : entries * blockLength ≤ behind.length) (group opening last : Token)
    (body : List Token) :
    dimension (front ++ (bytes ++ behind)) front.length group
        (opening :: (recount (typeTokens order 0 field (.composite name members)) ++ body ++
          [last])) =
      .ok { blockLength, entries, start := front.length + bytes.length } := by
  obtain ⟨lengthToken, _, -, hlengthToken, hlengthRead⟩ :=
    exists_stated hvalid hmembers hlengths hblock field group
  obtain ⟨countToken, _, hcountRoom, hcountToken, hcountRead⟩ :=
    exists_stated hvalid hmembers hcounts hcount field group
  have hfixed : (DataType.composite name members).isVariable = false := by
    rw [DataType.isVariable, DataType.anyVariable_eq_any]
    simpa using fun member hmember => (hmembers member hmember).2
  have hplace := hvalid.isPlace_encodedLength hfixed
  obtain ⟨first, rest, hrun, hwhole, -, -, hfirst, hsignal, -⟩ :=
    exists_typeRun order _ 0 field hlength
  have hstart : toIndex first.size first.name = .ok bytes.length := by
    rw [hfirst, toIndex_ofInt hplace, ← hsize, Int.toNat_natCast]
  have hadvance : advance (front ++ (bytes ++ behind)) front.length bytes.length group =
      .ok (front.length + bytes.length) := by
    rw [advance, if_pos]
    simp only [List.length_append]
    omega
  have henough : ¬ (front ++ (bytes ++ behind)).length - (front.length + bytes.length) <
      entries * blockLength := by
    simp only [List.length_append]
    omega
  have hinside := component_append hwhole body
  rw [hrun] at hlengthToken hcountToken ⊢
  unfold dimension
  rw [Token.inner_bracketed]
  rw [List.cons_append] at hinside ⊢
  dsimp only
  rw [if_neg (by simp [hsignal, typeSignal])]
  simp only [hinside, hlengthToken, hcountToken, hlengthRead, hcountRead, bind, Except.bind,
    toLength_ofNat hfit, toNat_toUInt64_ofNat hcountRoom, hstart, hadvance, if_neg henough]
  rfl

end
end SimpleBinary.Walk
