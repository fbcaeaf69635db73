import SimpleBinary.Proofs.Ir.Build
import SimpleBinary.Proofs.Walk.InRange
import SimpleBinary.Proofs.Walk.Told

/-! The place behind a message. A walk only goes forward, and what it reads
keeps it inside the buffer, but the block of a message is passed unread: where
no group or data element comes behind it, nothing says that it was there. -/
namespace SimpleBinary.Walk
open Generate (messageTokens)

section
variable {σ α β : Type}

def Returns (walk : Walking σ α) (post : α → Prop) : Prop :=
  ∀ ⦃state value after⦄, walk.run.run state = (.ok value, after) → post value

namespace Returns
variable {walk : Walking σ α} {next : α → Walking σ β} {mid : α → Prop} {post : β → Prop}

theorem any : Returns walk fun _ => True := fun _ _ _ _ => trivial

theorem pure {value : β} (h : post value) : Returns (Pure.pure value : Walking σ β) post := by
  intro state result after hrun
  cases hrun
  exact h

theorem throw {error : Error} : Returns (MonadExcept.throw error : Walking σ β) post := by
  intro state result after hrun
  cases hrun

theorem bind (h : Returns walk mid) (hnext : ∀ value, mid value → Returns (next value) post) :
    Returns (walk >>= next) post := by
  intro state result after hrun
  rw [ExceptT.run_bind, StateT.run_bind] at hrun
  rcases hwalk : walk.run.run state with ⟨failed | value, between⟩
  all_goals rw [hwalk] at hrun
  · cases hrun
  · exact hnext value (h hwalk) hrun

theorem mono {post : α → Prop} (h : Returns walk mid) (himp : ∀ value, mid value → post value) :
    Returns walk post :=
  fun _ value _ hrun => himp value (h hrun)

theorem passing {next : α → Walking σ β} (hnext : ∀ value, Returns (next value) post) :
    Returns (walk >>= next) post :=
  any.bind fun value _ => hnext value

theorem certain {result : Except WalkFault α}
    (h : ∀ value, result = .ok value → Returns (next value) post) :
    Returns (Walk.certain result >>= next) post := by
  cases result with
  | error fault => exact throw
  | ok value => exact h value rfl

end Returns
end

/-- The place that a walk comes to from an index is not in front of it, and is
inside the buffer unless the walk has met nothing on its way. -/
structure Onward (buffer : List UInt8) (index : Nat) (met : Prop) (stop : Nat) : Prop where
  forward : index ≤ stop
  inside : stop ≤ buffer.length ∨ stop = index ∧ ¬ met

theorem advance_ok {buffer : List UInt8} {index length next : Nat} {owner : Token}
    (h : advance buffer index length owner = .ok next) :
    next = index + length ∧ next ≤ buffer.length := by
  unfold advance at h
  split at h
  · next hroom =>
    cases h
    exact ⟨rfl, hroom⟩
  · cases h

theorem start_of_measured {buffer : List UInt8} {index : Nat} {group first : Token}
    {run : List Token} {size : Dimension} (h : measured buffer index group first run = .ok size) :
    index ≤ size.start ∧ size.start ≤ buffer.length := by
  unfold measured at h
  obtain ⟨_, -, h⟩ := bind_eq_ok.mp h
  obtain ⟨_, -, h⟩ := bind_eq_ok.mp h
  obtain ⟨_, -, h⟩ := bind_eq_ok.mp h
  obtain ⟨_, -, h⟩ := bind_eq_ok.mp h
  obtain ⟨_, -, h⟩ := bind_eq_ok.mp h
  obtain ⟨_, -, h⟩ := bind_eq_ok.mp h
  obtain ⟨start, hstart, h⟩ := bind_eq_ok.mp h
  obtain ⟨rfl, hroom⟩ := advance_ok hstart
  split at h
  · cases h
  · cases h
    exact ⟨Nat.le_add_right _ _, hroom⟩

theorem start_of_dimension {buffer : List UInt8} {index : Nat} {group : Token}
    {stretch : List Token} {size : Dimension}
    (h : dimension buffer index group stretch = .ok size) :
    index ≤ size.start ∧ size.start ≤ buffer.length := by
  cases hinner : Token.inner stretch with
  | nil =>
    rw [dimension, hinner] at h
    cases h
  | cons first rest =>
    by_cases hsignal : first.signal = .beginComposite
    · rw [dimension_cons buffer index group hinner hsignal] at h
      obtain ⟨parts, -, h⟩ := bind_eq_ok.mp h
      exact start_of_measured h
    · rw [dimension, hinner] at h
      dsimp only at h
      rw [if_pos hsignal] at h
      cases h

section
variable {σ : Type} (listen : Listener σ) (buffer : List UInt8)

/-- Each data element is held against the end of the buffer. -/
theorem returns_data (index : Nat) (run : List Token) :
    Returns (data listen buffer index run)
      (Onward buffer index (Token.lead? run = some .beginVarData)) := by
  by_cases hlead : Token.lead? run = some .beginVarData
  · cases run with
    | nil => cases hlead
    | cons token rest =>
      rw [data_cons listen buffer index (Option.some.inj hlead)]
      refine .certain fun parts hparts => ?_
      refine .certain fun _ _ => .certain fun length _ => ?_
      refine .certain fun content _ => .certain fun offset _ => ?_
      split
      · exact .throw
      · next hroom =>
        have hsmaller := Token.length_of_component? (component?_of_component hparts)
        have hpos := Token.length_pos_of_component? (component?_of_component hparts)
        have hrest := returns_data (index + offset + length) parts.2
        refine .passing fun _ => hrest.mono fun stop hstop => ?_
        have hforward := hstop.forward
        have hinside := hstop.inside
        exact ⟨by omega, .inl (by omega)⟩
  · rw [data_of_lead?_ne listen buffer index hlead]
    exact .pure ⟨Nat.le_refl _, .inr ⟨rfl, hlead⟩⟩
termination_by run.length
decreasing_by omega

mutual

theorem returns_groups (index : Nat) (run : List Token) :
    Returns (groups listen buffer index run)
      (Onward buffer index (Token.lead? run = some .beginGroup)) := by
  by_cases hlead : Token.lead? run = some .beginGroup
  · cases run with
    | nil => cases hlead
    | cons token rest =>
      rw [groups_cons listen buffer index (Option.some.inj hlead)]
      refine .certain fun parts hparts => .certain fun size hsize => ?_
      have hsmaller := Token.length_of_component? (component?_of_component hparts)
      have hpos := Token.length_pos_of_component? (component?_of_component hparts)
      have hbody := Token.length_groupBody_lt hpos
      obtain ⟨hstart, hroom⟩ := start_of_dimension hsize
      have hentries := returns_entries token (Token.groupBody parts.1) size.blockLength
        size.entries size.entries size.start hroom
      refine .passing fun _ => hentries.bind ?_
      rintro next ⟨hnext, hinside⟩
      refine (returns_groups next parts.2).mono fun stop hstop => ?_
      have hforward := hstop.forward
      have hlast := hstop.inside
      exact ⟨by omega, .inl (by omega)⟩
  · rw [groups_of_lead?_ne listen buffer index hlead]
    exact .pure ⟨Nat.le_refl _, .inr ⟨rfl, hlead⟩⟩
termination_by (2 * run.length, 0)
decreasing_by
  · exact Prod.Lex.left _ _ (by omega)
  · exact Prod.Lex.left _ _ (by omega)

/-- The block of every entry is held against the end of the buffer. -/
theorem returns_entries (group : Token) (body : List Token) (blockLength total left index : Nat)
    (hindex : index ≤ buffer.length) :
    Returns (entries listen buffer group body blockLength total left index)
      fun stop => index ≤ stop ∧ stop ≤ buffer.length := by
  cases left with
  | zero =>
    rw [entries]
    exact .pure ⟨Nat.le_refl _, hindex⟩
  | succ left =>
    have hskip := Token.length_skip_le .beginField body
    rw [entries]
    refine .passing fun _ => .passing fun _ => ?_
    refine .certain fun next hnext => ?_
    obtain ⟨rfl, hroom⟩ := advance_ok hnext
    refine (returns_groups (index + blockLength) (Token.skip .beginField body)).bind ?_
    rintro behind ⟨hbehind, hgroups⟩
    refine (returns_data listen buffer behind _).bind ?_
    rintro place ⟨hplace, hdata⟩
    have hothers := returns_entries group body blockLength total left place (by omega)
    refine .passing fun _ => hothers.mono fun stop hstop => ?_
    exact ⟨by omega, hstop.2⟩
termination_by (2 * body.length + 1, left)
decreasing_by
  · exact Prod.Lex.left _ _ (by omega)
  · exact Prod.Lex.right _ (by omega)

end

/-- Only what comes behind the fields of a block leads on inside the buffer. -/
theorem returns_contents (index next : Nat) (run : List Token) :
    Returns (contents listen buffer index next run)
      (Onward buffer next (Token.lead? (Token.skip .beginField run) = some .beginGroup ∨
        Token.lead? (Token.skip .beginField run) = some .beginVarData)) := by
  refine .passing fun _ => ?_
  refine (returns_groups listen buffer next _).bind ?_
  rintro behind ⟨hbehind, hgroups⟩
  refine (returns_data listen buffer behind _).mono ?_
  rintro stop ⟨hstop, hdata⟩
  refine ⟨by omega, ?_⟩
  rcases hdata with hdata | ⟨rfl, hnodata⟩
  · exact .inl hdata
  · rcases hgroups with hgroups | ⟨rfl, hnogroup⟩
    · exact .inl hgroups
    · rw [Token.skip_of_lead?_ne hnogroup] at hnodata
      exact .inr ⟨rfl, not_or.mpr ⟨hnogroup, hnodata⟩⟩

theorem returns_message (offset blockLength : Nat) (run : List Token) :
    Returns (message listen buffer offset blockLength run)
      (Onward buffer (offset + blockLength)
        (Token.lead? (Token.skip .beginField run.tail) = some .beginGroup ∨
          Token.lead? (Token.skip .beginField run.tail) = some .beginVarData)) := by
  cases run with
  | nil =>
    rw [message]
    exact .throw
  | cons token rest =>
    by_cases hsignal : token.signal = .beginMessage
    · rw [message_cons listen buffer offset blockLength hsignal]
      refine .passing fun _ => ?_
      refine (returns_contents listen buffer offset (offset + blockLength) rest).bind ?_
      exact fun stop hstop => .passing fun _ => .pure hstop
    · rw [message, if_pos hsignal]
      exact .throw

end

/-- A walk over a message that ends well ends behind its block, and inside the
buffer if the block does. If it ends outside, then right behind the block: no
group and no data element comes there. Every failure is a fault of the walk or
one that the listener has answered with, unless a sum on the way is no word. -/
theorem message_end {buffer : List UInt8} (hbuffer : buffer.length < UInt64.size)
    (run : List Token) (offset blockLength : Nat) {σ : Type} (listen : Listener σ) (state : σ) :
    (∀ stop after,
      (Indexed.message listen buffer offset blockLength run).run.run state = (.ok stop, after) →
      offset + blockLength ≤ stop ∧
      (offset + blockLength ≤ buffer.length → stop ≤ buffer.length) ∧
      (buffer.length < stop → stop = offset + blockLength ∧
        Token.lead? (Token.skip .beginField run.tail) ≠ some .beginGroup ∧
        Token.lead? (Token.skip .beginField run.tail) ≠ some .beginVarData)) ∧
    (∀ halt after,
      (Indexed.message listen buffer offset blockLength run).run.run state = (.error halt, after) →
      (∃ error, halt = .error error ∧ Indexed.Accounted listen error) ∨
      (halt = .overflow ∧
        ¬ (Indexed.Roomy run (offset + blockLength) ∧ Indexed.Roomy run buffer.length))) := by
  have hmatched : Indexed.Matched listen
      (Indexed.Roomy run (offset + blockLength) ∧ Indexed.Roomy run buffer.length) (· = ·)
      ((Indexed.message listen buffer offset blockLength run).run.run state)
      ((message listen buffer offset blockLength run).run.run state) :=
    Indexed.agrees_message hbuffer offset blockLength And.left And.right state
  constructor
  · intro stop after hrun
    rw [hrun] at hmatched
    generalize hwalk : (message listen buffer offset blockLength run).run.run state = answer
      at hmatched
    cases hmatched with
    | ok hsame =>
      cases hsame
      obtain ⟨hforward, hinside⟩ := returns_message listen buffer offset blockLength run hwalk
      refine ⟨hforward, fun hblock => by omega, fun houtside => ?_⟩
      rcases hinside with hinside | ⟨hstop, hnothing⟩
      · omega
      · exact ⟨hstop, not_or.mp hnothing⟩
  · intro halt after hrun
    rw [hrun] at hmatched
    generalize (message listen buffer offset blockLength run).run.run state = answer at hmatched
    cases hmatched with
    | error haccounted => exact .inl ⟨_, rfl, haccounted⟩
    | overflow hroomy => exact .inr ⟨rfl, hroomy⟩

def distant : List Token :=
  [{ signal := .beginMessage, name := "M", id := 1, count := 6 },
    { signal := .beginVarData, name := "d", id := 2, count := 4 },
    { signal := .encoding, name := "length", offset := 16, size := 1,
      encoding := { primitive := some .uint8 } },
    { signal := .encoding, name := "varData", encoding := { primitive := some .uint8 } },
    { signal := .endVarData, name := "d", id := 2, count := 4 },
    { signal := .endMessage, name := "M", id := 1, count := 6 }]

theorem message_distant :
    (Indexed.message silent [5] 0 18446744073709551606 distant).run.run () =
      (.error .overflow, ()) := by
  have hfields : Indexed.fields silent 0 distant 1 distant.length = pure ⟨1, Nat.le_refl 1⟩ := by
    rw [Indexed.fields]
    rfl
  have hgroups : Indexed.groups silent [5] 18446744073709551606 distant 1 distant.length =
      pure (18446744073709551606, 1) := by
    rw [Indexed.groups]
    rfl
  have hdata : Indexed.data silent [5] 18446744073709551606 distant 1 distant.length =
      throw .overflow := by
    rw [Indexed.data]
    rfl
  have hsum : (Indexed.sum 0 18446744073709551606 : Indexed.Guarded Unit _) =
      pure ⟨18446744073709551606, rfl⟩ := rfl
  change (Indexed.attempt (silent _) >>= fun _ => _).run.run () = _
  simp only [hfields, hsum, pure_bind, hgroups, hdata]
  rfl

/-- Two entries, with entries and data of their own, and data behind them; a
group with a false count; and a length that no word is the place of. -/
theorem message_end_orders :
    (∃ schema message, Schema.parse orders {} = .ok schema ∧ message ∈ schema.messages.values ∧
      (Indexed.message silent ordersBuffer 2 3
        (messageTokens schema.byteOrder message)).run.run () = (.ok 32, ()) ∧
      2 + 3 ≤ 32 ∧ 2 + 3 ≤ ordersBuffer.length ∧ 32 ≤ ordersBuffer.length) ∧
    (∃ error, (Indexed.message silent [255] 0 0 overlong).run.run () =
        (.error (.error error), ()) ∧ Indexed.Accounted silent error) ∧
    (Indexed.message silent [5] 0 18446744073709551606 distant).run.run () =
        (.error .overflow, ()) ∧
      ¬ (Indexed.Roomy distant 18446744073709551606 ∧ Indexed.Roomy distant 1) := by
  refine ⟨?_, ?_, message_distant, ?_⟩
  · obtain ⟨schema, message, hparse, hmessage, hcarries⟩ := exists_of_onlyMessage? carries_orders
    simp only [carries, Bool.and_eq_true, decide_eq_true_eq] at hcarries
    obtain ⟨⟨⟨⟨⟨hsimple, hfixed⟩, hlength⟩, hfits⟩, hbuffer⟩, -⟩ := hcarries
    obtain ⟨hready, hsiblings⟩ := (Schema.valid_of_parse hparse).ready hmessage hsimple hfixed
    have hend : ([170, 187] : List UInt8).length +
        (ordersContent.wire schema.byteOrder message.fields).length = 32 := by
      have hlengths := congrArg List.length hbuffer
      rw [Content.between, List.length_append, List.length_append] at hlengths
      exact Nat.succ.inj hlengths
    have hreports := reports_message silent _ hready hsiblings hlength hfits hbuffer.symm
    rw [hend] at hreports
    have hwalk : (Walk.message silent ordersBuffer 2 3
        (messageTokens schema.byteOrder message)).run.run () = (.ok 32, ()) :=
      Prod.ext (hreports.returns willing_silent ()) rfl
    have hroomy : ∀ index ≤ 33, Indexed.Roomy (messageTokens schema.byteOrder message) index := by
      intro index hindex
      unfold Token.maxCount at hlength
      unfold Indexed.Roomy
      omega
    have hrun : (Indexed.message silent ordersBuffer 2 3
        (messageTokens schema.byteOrder message)).run.run () = (.ok 32, ()) := by
      rw [Indexed.run_message (by decide) (hroomy _ (by decide)) (hroomy _ (by decide))]
      change (((Walk.message silent ordersBuffer 2 3 _).run.run ()).1.mapError _, _) = _
      rw [hwalk]
      rfl
    obtain ⟨hforward, hinside, -⟩ := (message_end (by decide) _ 2 3 silent ()).1 32 () hrun
    exact ⟨schema, message, hparse, hmessage, hrun, hforward, by decide, hinside (by decide)⟩
  · have hrun : (Indexed.message silent [255] 0 0 overlong).run.run () =
        (.error (.error (.walk (.badCount 2147483647 "size"))), ()) := by
      rw [Indexed.run_message (by decide) (by unfold Indexed.Roomy; decide)
        (by unfold Indexed.Roomy; decide), message_overlong]
      rfl
    obtain ⟨error, hsame, haccounted⟩ | ⟨hoverflow, -⟩ :=
      (message_end (by decide) overlong 0 0 silent ()).2 _ () hrun
    · cases hsame
      exact ⟨_, hrun, haccounted⟩
    · cases hoverflow
  · obtain ⟨error, hsame, -⟩ | ⟨-, hroomy⟩ :=
      (message_end (by decide) distant 0 18446744073709551606 silent ()).2 _ () message_distant
    · cases hsame
    · exact hroomy

def lonely : List Token :=
  [{ signal := .beginMessage, name := "M", id := 1, size := 1, count := 5 },
    { signal := .beginField, name := "x", id := 2, count := 3 },
    { signal := .encoding, name := "uint8", size := 1, encoding := { primitive := some .uint8 } },
    { signal := .endField, name := "x", id := 2, count := 3 },
    { signal := .endMessage, name := "M", id := 1, size := 1, count := 5 }]

/-- Where only fields are read, the end of the block goes unchecked. -/
theorem message_end_outside :
    (Indexed.message silent [5] 0 20 lonely).run.run () = (.ok 20, ()) ∧
      0 ≤ [(5 : UInt8)].length ∧ 0 + 20 < UInt64.size ∧ [(5 : UInt8)].length < 20 := by
  have hfields : Indexed.fields silent 0 lonely 1 lonely.length = pure ⟨4, by decide⟩ := by
    have hrest : Indexed.fields silent 0 lonely 4 lonely.length = pure ⟨4, Nat.le_refl 4⟩ := by
      rw [Indexed.fields]
      rfl
    have hfirst : Indexed.fields silent 0 lonely 1 lonely.length =
        (Indexed.fields silent 0 lonely 4 lonely.length >>= fun behind =>
          pure ⟨behind.val, Nat.le_trans (by decide) behind.property⟩) := by
      rw [Indexed.fields]
      rfl
    rw [hfirst, hrest]
    rfl
  have hgroups : Indexed.groups silent [5] 20 lonely 4 lonely.length = pure (20, 4) := by
    rw [Indexed.groups]
    rfl
  have hdata : Indexed.data silent [5] 20 lonely 4 lonely.length = pure (20, 4) := by
    rw [Indexed.data]
    rfl
  have hsum : (Indexed.sum 0 20 : Indexed.Guarded Unit _) = pure ⟨20, rfl⟩ := rfl
  refine ⟨?_, by decide⟩
  change (Indexed.attempt (silent _) >>= fun _ => _).run.run () = _
  simp only [hfields, hsum, pure_bind, hgroups, hdata]
  rfl

end SimpleBinary.Walk
