import SimpleBinary.Proofs.Token.Component
import SimpleBinary.Proofs.Value.Element
import SimpleBinary.Walk.Indexed

/-! What it means for a walk by index to be the walk over lists. The two are
compared step by step: every index and every slice is in range, so that only a
sum may part them. -/
namespace SimpleBinary.Walk.Indexed
variable {σ α β γ δ : Type}

/-- An error is one of the walk or one that the listener has answered with. -/
def Accounted (listen : Listener σ) (error : Error) : Prop :=
  (∃ fault, error = .walk fault) ∨ ∃ notice state, ((listen notice).run.run state).1 = .error error

/-- Two ends that are the same, with values that are related, or a sum that has
overflown for want of room. -/
inductive Matched (listen : Listener σ) (roomy : Prop) (related : α → β → Prop) :
    Except Halt α × σ → Except Error β × σ → Prop where
  | ok {value : α} {other : β} {state : σ} (h : related value other) :
    Matched listen roomy related (.ok value, state) (.ok other, state)
  | error {error : Error} {state : σ} (h : Accounted listen error) :
    Matched listen roomy related (.error (.error error), state) (.error error, state)
  | overflow {state : σ} {answer : Except Error β × σ} (h : ¬ roomy) :
    Matched listen roomy related (.error .overflow, state) answer

def Agrees (listen : Listener σ) (roomy : Prop) (related : α → β → Prop)
    (guarded : Guarded σ α) (walk : Walking σ β) : Prop :=
  ∀ state, Matched listen roomy related (guarded.run.run state) (walk.run.run state)

theorem Matched.mono {listen : Listener σ} {roomy : Prop} {first related : γ → δ → Prop}
    {answer : Except Halt γ × σ} {other : Except Error δ × σ}
    (h : Matched listen roomy first answer other)
    (himp : ∀ value other, first value other → related value other) :
    Matched listen roomy related answer other := by
  cases h with
  | ok hvalue => exact .ok (himp _ _ hvalue)
  | error herror => exact .error herror
  | overflow hroomy => exact .overflow hroomy

namespace Agrees
variable {listen : Listener σ} {roomy : Prop} {related : γ → δ → Prop}

theorem mono {first : γ → δ → Prop} {guarded : Guarded σ γ} {walk : Walking σ δ}
    (h : Agrees listen roomy first guarded walk)
    (himp : ∀ value other, first value other → related value other) :
    Agrees listen roomy related guarded walk :=
  fun state => (h state).mono himp

theorem pure {value : γ} {other : δ} (h : related value other) :
    Agrees listen roomy related (pure value) (pure other) :=
  fun _ => .ok h

theorem fail (fault : WalkFault) :
    Agrees listen roomy related (Indexed.fail fault) (throw (.walk fault)) :=
  fun _ => .error (.inl ⟨fault, rfl⟩)

theorem bind {first : α → β → Prop} {guarded : Guarded σ α} {walk : Walking σ β}
    {f : α → Guarded σ γ} {g : β → Walking σ δ} (h : Agrees listen roomy first guarded walk)
    (hnext : ∀ value other, first value other → Agrees listen roomy related (f value) (g other)) :
    Agrees listen roomy related (guarded >>= f) (walk >>= g) := by
  intro state
  have hfirst := h state
  rw [ExceptT.run_bind, ExceptT.run_bind, StateT.run_bind, StateT.run_bind]
  cases hguarded : guarded.run.run state with
  | mk answer later =>
    cases hwalk : walk.run.run state with
    | mk other after =>
      rw [hguarded, hwalk] at hfirst
      cases hfirst with
      | ok hvalue => exact hnext _ _ hvalue _
      | error herror => exact .error herror
      | overflow hroomy => exact .overflow hroomy

theorem sum {a b : Nat} {f : { n : Nat // n = a + b } → Guarded σ γ} {walk : Walking σ δ}
    (hroomy : roomy → a + b < UInt64.size)
    (h : Agrees listen roomy related (f ⟨a + b, rfl⟩) walk) :
    Agrees listen roomy related (Indexed.sum a b >>= f) walk := by
  unfold Indexed.sum
  split
  · rw [pure_bind]
    exact h
  · next hsum => exact fun _ => .overflow fun hroom => hsum (hroomy hroom)

theorem certain (result : Except WalkFault α) :
    Agrees listen roomy (fun value other => value = other ∧ result = .ok value)
      (attempt (Walk.certain result)) (Walk.certain result) := by
  cases result with
  | ok value => exact fun _ => .ok ⟨rfl, rfl⟩
  | error fault => exact fun _ => .error (.inl ⟨fault, rfl⟩)

theorem require {fault : WalkFault} {option : Option α} {result : Except WalkFault α}
    (hsome : ∀ value, option = some value → result = .ok value)
    (hnone : option = none → result = .error fault) :
    Agrees listen roomy (· = ·) (Indexed.require fault option) (Walk.certain result) := by
  cases option with
  | none =>
    rw [hnone rfl]
    exact fail fault
  | some value =>
    rw [hsome value rfl]
    exact pure rfl

theorem tell (notice : Notice) :
    Agrees listen roomy (fun _ _ => True) (attempt (listen notice)) (listen notice) := by
  intro state
  change Matched listen roomy _ (((listen notice).run.run state).1.mapError _, _) _
  cases hanswer : (listen notice).run.run state with
  | mk answer later =>
    cases answer with
    | ok value => exact .ok trivial
    | error error => exact .error (.inr ⟨notice, state, congrArg Prod.fst hanswer⟩)

end Agrees

/-- A walk by index that keeps in range: it is the walk over lists, with all
errors accounted for, unless a sum has overflown for want of room. -/
def InRange (listen : Listener σ) (roomy : Prop) (guarded : Guarded σ α) (walk : Walking σ α) :
    Prop :=
  ∀ state,
    (guarded.run.run state = (attempt walk).run.run state ∧
      ∀ error, (walk.run.run state).1 = .error error → Accounted listen error) ∨
    ((∃ later, guarded.run.run state = (.error .overflow, later)) ∧ ¬ roomy)

theorem Agrees.inRange {listen : Listener σ} {roomy : Prop} {guarded : Guarded σ α}
    {walk : Walking σ α} (h : Agrees listen roomy (· = ·) guarded walk) :
    InRange listen roomy guarded walk := by
  intro state
  have hmatched := h state
  change (_ = ((walk.run.run state).1.mapError Halt.error, (walk.run.run state).2) ∧ _) ∨ _
  cases hguarded : guarded.run.run state with
  | mk answer later =>
    cases hwalk : walk.run.run state with
    | mk other after =>
      rw [hguarded, hwalk] at hmatched
      cases hmatched with
      | ok hvalue =>
        cases hvalue
        exact .inl ⟨rfl, nofun⟩
      | error herror =>
        refine .inl ⟨rfl, ?_⟩
        rintro _ ⟨⟩
        exact herror
      | overflow hroomy => exact .inr ⟨⟨_, rfl⟩, hroomy⟩

theorem InRange.run_eq {listen : Listener σ} {roomy : Prop} {guarded : Guarded σ α}
    {walk : Walking σ α} (h : InRange listen roomy guarded walk) (hroomy : roomy) (state : σ) :
    guarded.run.run state = (attempt walk).run.run state := by
  rcases h state with ⟨hsame, -⟩ | ⟨-, hshort⟩
  · exact hsame
  · exact absurd hroomy hshort

section
variable {items : List α} {i first last : Nat}

theorem item_of_lt (h : i < items.length) :
    (item items i : Guarded σ α) = pure (items.get ⟨i, h⟩) :=
  dif_pos h

theorem slice_of_le (hfirst : first ≤ last) (hlast : last ≤ items.length) :
    (slice items first last : Guarded σ _) = pure ⟨window items first last, rfl⟩ :=
  if_pos ⟨hfirst, hlast⟩

theorem difference_of_le {a b : Nat} (h : b ≤ a) :
    (difference a b : Guarded σ _) = pure ⟨a - b, rfl⟩ :=
  if_pos h

theorem window_of_lt (hfirst : first < last) (hlast : last ≤ items.length) :
    window items first last =
      items.get ⟨first, Nat.lt_of_lt_of_le hfirst hlast⟩ :: window items (first + 1) last := by
  have hlength : first < (items.take last).length := by
    rw [List.length_take]
    omega
  rw [window, List.drop_eq_getElem_cons hlength, List.getElem_take]
  rfl

theorem window_eq_nil (h : last ≤ first) : window items first last = [] := by
  rw [window, List.drop_eq_nil_iff, List.length_take]
  omega

theorem take_window (items : List α) {n : Nat} (h : first + n ≤ last) :
    (window items first last).take n = window items first (first + n) := by
  rw [window, List.take_drop, List.take_take, Nat.min_eq_left h, window]

theorem drop_window (items : List α) (first last n : Nat) :
    (window items first last).drop n = window items (first + n) last :=
  List.drop_drop

theorem dropLast_window (hlast : last ≤ items.length) :
    (window items first last).dropLast = window items first (last - 1) := by
  rw [List.dropLast_eq_take, length_window, Nat.min_eq_left hlast]
  by_cases h : first < last
  · rw [take_window items (by omega)]
    congr 1
    omega
  · rw [window_eq_nil (by omega), window_eq_nil (by omega), List.take_nil]

end

section
variable {listen : Listener σ} {roomy : Prop} {run : List Token} {i limit next last : Nat}
  {signal : Signal}

theorem count_lt (token : Token) : token.count.toInt.toNat < 2147483648 := by
  have := token.count.toInt_lt
  omega

theorem component_window (hi : i < limit) (hlimit : limit ≤ run.length) {token : Token}
    (htoken : run.get ⟨i, Nat.lt_of_lt_of_le hi hlimit⟩ = token) :
    component (window run i limit) =
      if 0 < token.count.toInt.toNat ∧ i + token.count.toInt.toNat ≤ limit then
        .ok (window run i (i + token.count.toInt.toNat),
          window run (i + token.count.toInt.toNat) limit)
      else .error (.badCount token.count token.name) := by
  have hrest : (window run (i + 1) limit).length + 1 = limit - i := by
    rw [length_window]
    omega
  have hwindow := window_of_lt hi hlimit
  rw [htoken] at hwindow
  unfold component
  rw [hwindow, Token.component?, hrest, ← hwindow]
  by_cases hcount : 0 < token.count.toInt.toNat ∧ i + token.count.toInt.toNat ≤ limit
  · rw [if_pos hcount, if_pos (by omega), take_window run hcount.2, drop_window]
  · rw [if_neg hcount, if_neg (by omega), hwindow]

theorem agrees_componentEnd (hi : i < limit)
    (hlimit : limit ≤ run.length) (hroomy : roomy → run.length + 2147483648 ≤ UInt64.size) :
    Agrees listen roomy
      (fun next parts => parts = (window run i next.val, window run next.val limit) ∧
        component (window run i limit) = .ok parts)
      (componentEnd run i limit) (certain (component (window run i limit))) := by
  have hcomponent := component_window hi hlimit rfl
  generalize htoken : run.get ⟨i, Nat.lt_of_lt_of_le hi hlimit⟩ = token at hcomponent
  rw [componentEnd, item_of_lt (Nat.lt_of_lt_of_le hi hlimit), pure_bind, htoken]
  split
  · next hcount =>
    refine .sum ?_ ?_
    · intro hroom
      have := hroomy hroom
      have := count_lt token
      omega
    · split
      · next hnext =>
        rw [if_pos ⟨hcount, hnext⟩] at hcomponent
        rw [hcomponent]
        exact .pure ⟨rfl, rfl⟩
      · next hnext =>
        rw [if_neg fun h => hnext h.2] at hcomponent
        rw [hcomponent]
        exact .fail _
  · next hcount =>
    rw [if_neg fun h => hcount h.1] at hcomponent
    rw [hcomponent]
    exact .fail _

/-- The index behind the leading components of a window that open with a
signal. -/
structure Behind (run : List Token) (limit : Nat) (signal : Signal) (i next : Nat) : Prop where
  le_limit : next ≤ limit
  window_eq : window run next limit = Token.skip signal (window run i limit)

theorem behind_limit (hi : i = limit) : Behind run limit signal i i := by
  refine ⟨Nat.le_of_eq hi, ?_⟩
  rw [window_eq_nil (Nat.le_of_eq hi.symm), Token.skip]

theorem behind_of_ne (hi : i < limit) (hlimit : limit ≤ run.length)
    (hsignal : (run.get ⟨i, Nat.lt_of_lt_of_le hi hlimit⟩).signal ≠ signal) :
    Behind run limit signal i i := by
  refine ⟨Nat.le_of_lt hi, ?_⟩
  rw [window_of_lt hi hlimit, Token.skip, if_neg hsignal]

theorem Behind.step (hi : i < limit) (hlimit : limit ≤ run.length)
    (hsignal : (run.get ⟨i, Nat.lt_of_lt_of_le hi hlimit⟩).signal = signal)
    {parts : List Token × List Token} (hparts : component (window run i limit) = .ok parts)
    (hafter : parts.2 = window run next limit) (h : Behind run limit signal next last) :
    Behind run limit signal i last := by
  refine ⟨h.le_limit, ?_⟩
  have hcomponent := component?_of_component hparts
  rw [window_of_lt hi hlimit] at hcomponent ⊢
  rw [Token.skip_of_component? hsignal hcomponent, hafter, h.window_eq]

theorem agrees_leading {related : α → β → Prop} {stop : α} {other : β}
    {step : Token → { next : Nat // i < next ∧ next ≤ limit } → Guarded σ α}
    (walk : List Token → Walking σ β)
    {walkStep : Token → List Token × List Token → Walking σ β}
    (hlimit : limit ≤ run.length) (hi : i ≤ limit)
    (hroomy : roomy → run.length + 2147483648 ≤ UInt64.size)
    (hwalk : ∀ run, Token.lead? run ≠ some signal → walk run = pure other)
    (hwalkStep : ∀ token rest, token.signal = signal →
      walk (token :: rest) = certain (component (token :: rest)) >>= walkStep token)
    (hstop : Behind run limit signal i i → related stop other)
    (hstep : ∀ token next,
      (∀ last, Behind run limit signal next.val last → Behind run limit signal i last) →
      Agrees listen roomy related (step token next)
        (walkStep token (window run i next.val, window run next.val limit))) :
    Agrees listen roomy related (leading signal run i limit stop step)
      (walk (window run i limit)) := by
  unfold leading
  split
  · next hlt =>
    have hwindow := window_of_lt hlt hlimit
    rw [item_of_lt (Nat.lt_of_lt_of_le hlt hlimit), pure_bind]
    split
    · next hsignal =>
      rw [hwindow, hwalkStep _ _ hsignal, ← hwindow]
      refine (agrees_componentEnd hlt hlimit hroomy).bind ?_
      rintro next _ ⟨rfl, hparts⟩
      exact hstep _ next fun last => .step hlt hlimit hsignal hparts rfl
    · next hsignal =>
      have hlead : Token.lead? (window run i limit) ≠ some signal := by
        rw [hwindow]
        exact fun h => hsignal (Option.some.inj h)
      rw [hwalk _ hlead]
      exact .pure (hstop (behind_of_ne hlt hlimit hsignal))
  · next hge =>
    rw [window_eq_nil (by omega), hwalk [] (by simp [Token.lead?])]
    exact .pure (hstop (behind_limit (by omega)))

end

section
variable {buffer : List UInt8} {listen : Listener σ} {roomy : Prop}

theorem read?_eq (hbuffer : buffer.length < UInt64.size) (offset : Nat) (primitive : Primitive)
    (order : ByteOrder) :
    (read? buffer offset primitive order : Guarded σ _) =
      pure (Value.read? buffer offset primitive order) := by
  unfold read? Value.read?
  by_cases hend : offset + primitive.size ≤ buffer.length
  · have hword : primitive.size ≤ 8 := by cases primitive <;> decide
    have hwindow : window buffer offset (offset + primitive.size) =
        (buffer.drop offset).take primitive.size :=
      List.take_drop.symm
    have hlength : (window buffer offset (offset + primitive.size)).length ≤ 8 := by
      rw [length_window]
      omega
    rw [if_pos ⟨by omega, hend⟩, if_pos hend, slice_of_le (by omega) hend, pure_bind,
      if_pos hlength]
    dsimp only
    rw [hwindow]
  · rw [if_neg fun h => hend h.2, if_neg hend]

theorem agrees_readInteger (hbuffer : buffer.length < UInt64.size) (index : Nat)
    (primitive : Primitive) (order : ByteOrder) :
    Agrees listen roomy (· = ·) (readInteger buffer index primitive order)
      (certain (Walk.readInteger buffer index primitive order)) := by
  unfold readInteger Walk.readInteger
  split
  · exact .fail _
  · rw [read?_eq hbuffer, pure_bind]
    refine .require ?_ ?_
    · intro value hvalue
      rw [hvalue]
    · intro hnone
      rw [hnone]

theorem arrayLength_eq (token : Token) :
    (arrayLength token : Guarded σ Int) = pure token.arrayLength := by
  unfold arrayLength Token.arrayLength
  cases token.encoding.primitive with
  | none => rfl
  | some primitive =>
    have := primitive.size_pos
    dsimp only [Option.elim]
    split
    · exact if_neg (by omega)
    · rfl

theorem size_pos_of_arrayLength {token : Token} (h : 1 < token.arrayLength) :
    0 < token.size.toInt := by
  unfold Token.arrayLength at h
  split at h
  · split at h
    · next hsize => exact hsize
    · omega
  · omega

/-- The bytes of an array are sliced within the buffer. An end that wraps around
is in front of its index. -/
theorem agrees_array (hbuffer : buffer.length < UInt64.size) (wraps : Bool) (index : Nat)
    {size : Nat} (hsize : size < UInt64.size) (encoding : String) (fault : WalkFault) :
    Agrees listen (wraps = true ∨ index + size < UInt64.size) (· = ·)
      (do
        let last ← arrayEnd wraps index size
        if index ≤ last ∧ last ≤ buffer.length then do
          let bytes ← slice buffer index last
          pure (Value.bytes bytes.val encoding)
        else fail fault)
      (certain (if index + size ≤ buffer.length then
          .ok (.bytes ((buffer.drop index).take size) encoding)
        else .error fault)) := by
  unfold arrayEnd
  by_cases hword : index + size < UInt64.size
  · rw [if_pos hword, pure_bind]
    by_cases hend : index + size ≤ buffer.length
    · rw [if_pos ⟨Nat.le_add_right .., hend⟩, if_pos hend, slice_of_le (Nat.le_add_right ..) hend,
        pure_bind]
      refine .pure (congrArg (Value.bytes · _) ?_)
      exact List.take_drop.symm
    · rw [if_neg fun h => hend h.2, if_neg hend]
      exact .fail _
  · rw [if_neg hword, if_neg (by omega : ¬ index + size ≤ buffer.length)]
    cases wraps with
    | false => exact fun _ => .overflow fun hroom => hroom.elim Bool.noConfusion hword
    | true =>
      rw [if_pos rfl, pure_bind, if_neg (by omega)]
      exact .fail _

/-- A value is read by index as it is read from the list, unless the end of an
array is checked and no word holds it. -/
theorem agrees_readValue (hbuffer : buffer.length < UInt64.size) (wraps : Bool) (index : Nat)
    (token : Token) (actingVersion : Int32) :
    Agrees listen (wraps = true ∨ index + token.size.toInt.toNat < UInt64.size) (· = ·)
      (readValue wraps buffer index token actingVersion)
      (certain (Walk.readValue buffer index token actingVersion)) := by
  unfold readValue Walk.readValue
  dsimp only
  split
  · refine .require ?_ ?_
    · intro value hvalue
      rw [hvalue]
    · intro hnone
      rw [hnone]
  split
  · refine .require ?_ ?_
    · intro value hvalue
      rw [hvalue]
    · intro hnone
      rw [hnone]
  cases hprimitive : token.encoding.primitive with
  | none => exact .fail _
  | some primitive =>
    rw [arrayLength_eq]
    dsimp only [require, Option.elim]
    rw [pure_bind, pure_bind]
    split
    · next hlength =>
      have hpositive := size_pos_of_arrayLength hlength
      have hsize : token.size.toInt < UInt64.size :=
        Int.lt_trans token.size.toInt_lt (by decide)
      rw [Int.emod_eq_of_lt (by omega) hsize]
      exact agrees_array hbuffer wraps index (by omega) _ _
    · rw [read?_eq hbuffer, pure_bind]
      refine .require ?_ ?_
      · intro value hvalue
        rw [hvalue]
      · intro hnone
        rw [hnone]

end

end SimpleBinary.Walk.Indexed
