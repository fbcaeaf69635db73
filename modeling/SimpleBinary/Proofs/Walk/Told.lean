import SimpleBinary.Proofs.Walk.Story
import SimpleBinary.Proofs.Walk.Wire

/-! What a listener is told of the messages of an accepted schema. It is the
story of the message, in full if the walk succeeds and else as far as the walk
gets. -/
namespace SimpleBinary.Walk
open Generate
open Token (maxCount)

/-- Whoever listens to whatever buffer is told the story of the message. -/
theorem message_story {document : String} {policy : Policy} {schema : Schema} {message : Message}
    (hparse : Schema.parse document policy = .ok schema)
    (hmessage : message ∈ schema.messages.values)
    (hlength : (messageTokens schema.byteOrder message).length ≤ maxCount) {σ : Type}
    (listen : Listener σ) (state : σ) (buffer : List UInt8) (offset blockLength : Nat) :
    ∃ told rest, MessageStory schema.byteOrder message offset (told ++ rest) ∧
      (Walk.message (recording listen) buffer offset blockLength
        (messageTokens schema.byteOrder message)).run.run (state, []) =
          (((Walk.message listen buffer offset blockLength
              (messageTokens schema.byteOrder message)).run.run state).1,
            ((Walk.message listen buffer offset blockLength
              (messageTokens schema.byteOrder message)).run.run state).2, told) ∧
      ∀ place, ((Walk.message listen buffer offset blockLength
        (messageTokens schema.byteOrder message)).run.run state).1 = .ok place → rest = [] :=
  (obeys_message ((Schema.valid_of_parse hparse).message hmessage).row hlength buffer offset
    blockLength).run listen state

def silent : Listener Unit := fun _ => pure ()

theorem willing_silent : Willing silent := fun _ _ => rfl

/-- Two groups inside each other and what is behind them are told in full. -/
theorem message_story_orders :
    ∃ schema message told, Schema.parse orders {} = .ok schema ∧ message ∈ schema.messages.values ∧
      (messageTokens schema.byteOrder message).length ≤ maxCount ∧
      MessageStory schema.byteOrder message 2 told ∧
      (Walk.message (recording silent) ordersBuffer 2 3
        (messageTokens schema.byteOrder message)).run.run ((), []) = (.ok 32, (), told) := by
  obtain ⟨schema, message, hparse, hmessage, hcarries⟩ := exists_of_onlyMessage? carries_orders
  simp only [carries, Bool.and_eq_true, decide_eq_true_eq] at hcarries
  obtain ⟨⟨⟨⟨⟨hsimple, hfixed⟩, hlength⟩, hfits⟩, hbuffer⟩, -⟩ := hcarries
  obtain ⟨hready, hsiblings⟩ := (Schema.valid_of_parse hparse).ready hmessage hsimple hfixed
  have hbytes : ordersBuffer =
      [170, 187] ++ (ordersContent.wire schema.byteOrder message.fields ++ [204]) := hbuffer.symm
  have hend : 2 + (ordersContent.wire schema.byteOrder message.fields).length = 32 := by
    have hlengths := congrArg List.length hbytes
    rw [List.length_append, List.length_append] at hlengths
    exact Nat.succ.inj hlengths.symm
  have hreturns := (reports_message silent ordersBuffer hready hsiblings hlength hfits
    hbytes).returns willing_silent ()
  change ((Walk.message silent ordersBuffer 2 3
    (messageTokens schema.byteOrder message)).run.run ()).1 = .ok (2 + _) at hreturns
  rw [hend] at hreturns
  obtain ⟨told, rest, hstory, hrun, hrest⟩ :=
    message_story hparse hmessage hlength silent () ordersBuffer 2 3
  rw [hreturns] at hrun
  rw [hrest 32 hreturns, List.append_nil] at hstory
  exact ⟨schema, message, told, hparse, hmessage, hlength, hstory, hrun⟩

end SimpleBinary.Walk
