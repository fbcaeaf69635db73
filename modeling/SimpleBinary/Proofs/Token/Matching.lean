import SimpleBinary.Proofs.Token.Mirrored

/-! The end of a bracket, found in three ways: by the counts on a counted run, by
the search for it, and as the first place where begins and ends of one kind are
level. On runs that a stack of open brackets accepts they all agree. -/
namespace SimpleBinary.Token

/-- Goes through a run with the signals of the brackets that are open, the last
one first. Every end has to close the last one, and none may stay open. -/
def closesAll (opened : List Signal) : List Token → Bool
  | [] => opened.isEmpty
  | token :: rest =>
    if token.signal.isBegin then closesAll (token.signal :: opened) rest
    else if token.signal.isEnd then
      decide (opened.head?.bind Signal.closing? = some token.signal) && closesAll opened.tail rest
    else closesAll opened rest

section
variable {token : Token} (opened : List Signal) (rest : List Token)

theorem closesAll_begin (h : token.signal.isBegin = true) :
    closesAll opened (token :: rest) = closesAll (token.signal :: opened) rest := by
  rw [closesAll, if_pos h]

theorem closesAll_end (hbegin : token.signal.isBegin = false) (hend : token.signal.isEnd = true) :
    closesAll opened (token :: rest) =
      (decide (opened.head?.bind Signal.closing? = some token.signal) &&
        closesAll opened.tail rest) := by
  rw [closesAll, if_neg (by simp [hbegin]), if_pos hend]

theorem closesAll_leaf (hbegin : token.signal.isBegin = false)
    (hend : token.signal.isEnd = false) :
    closesAll opened (token :: rest) = closesAll opened rest := by
  rw [closesAll, if_neg (by simp [hbegin]), if_neg (by simp [hend])]

end

theorem closesAll_nested {inner : List Token} (h : Nested inner) (opened : List Signal)
    (rest : List Token) : closesAll opened (inner ++ rest) = closesAll opened rest := by
  induction h generalizing opened rest with
  | nil => rfl
  | leaf hbegin hend _ ih => rw [List.cons_append, closesAll_leaf _ _ hbegin hend, ih]
  | @bracket first last inside tail hmatch _ _ ihInside ihTail =>
    have hfirst : first.signal.isBegin = true := Signal.isBegin_of_closing? hmatch
    have hlast := Signal.isEnd_of_closing? hmatch
    rw [List.append_assoc, List.cons_append, List.cons_append, closesAll_begin _ _ hfirst,
      ihInside, closesAll_end _ _ hlast.2 hlast.1, ihTail]
    simp [hmatch]

/-- What is left of a run behind its first nested stretch, with some brackets
open: nothing, or the end of the last one and the rest. -/
def Awaits (opened : List Signal) (tail : List Token) : Prop :=
  (opened = [] ∧ tail = []) ∨
    ∃ opening outer closing rest, opened = opening :: outer ∧ tail = closing :: rest ∧
      opening.closing? = some closing.signal ∧ closesAll outer rest = true

/-- A run that the stack accepts begins with a nested stretch, behind which comes
what the open brackets await. -/
theorem exists_nested {opened : List Signal} {tokens : List Token}
    (h : closesAll opened tokens = true) :
    ∃ inner tail, tokens = inner ++ tail ∧ Nested inner ∧ Awaits opened tail := by
  -- on the length, since behind a bracket the run goes on further than its next token
  induction hlength : tokens.length using Nat.strongRecOn generalizing opened tokens with
  | ind length ih =>
    subst hlength
    cases tokens with
    | nil =>
      have hopened : opened = [] := List.isEmpty_iff.mp h
      exact ⟨[], [], rfl, .nil, .inl ⟨hopened, rfl⟩⟩
    | cons token rest =>
      cases hbegin : token.signal.isBegin with
      | true =>
        -- the bracket that opens here, and then what follows behind its end
        rw [closesAll_begin _ _ hbegin] at h
        obtain ⟨inner, tail, rfl, hinner, hawaits⟩ := ih rest.length (Nat.lt_succ_self _) h rfl
        obtain ⟨hnil, -⟩ | ⟨opening, outer, closing, after, hopened, rfl, hmatch, hafter⟩ := hawaits
        · cases hnil
        cases hopened
        have hshorter : after.length < (token :: (inner ++ closing :: after)).length := by
          simp only [List.length_cons, List.length_append]
          omega
        obtain ⟨next, tail, rfl, hnext, hawaits⟩ := ih after.length hshorter hafter rfl
        refine ⟨token :: inner ++ closing :: next, tail, ?_, .bracket hmatch hinner hnext, hawaits⟩
        simp
      | false =>
        cases hend : token.signal.isEnd with
        | true =>
          rw [closesAll_end _ _ hbegin hend, Bool.and_eq_true, decide_eq_true_eq] at h
          obtain ⟨hmatch, hrest⟩ := h
          cases opened with
          | nil => cases hmatch
          | cons opening outer =>
            exact ⟨[], token :: rest, rfl, .nil,
              .inr ⟨opening, outer, token, rest, rfl, rfl, hmatch, hrest⟩⟩
        | false =>
          rw [closesAll_leaf _ _ hbegin hend] at h
          obtain ⟨inner, tail, rfl, hinner, hawaits⟩ := ih rest.length (Nat.lt_succ_self _) h rfl
          exact ⟨token :: inner, tail, rfl, .leaf hbegin hend hinner, hawaits⟩

/-- The stack accepts the nested runs and no others. -/
theorem closesAll_iff_nested {run : List Token} : closesAll [] run = true ↔ Nested run := by
  constructor
  · intro h
    obtain ⟨inner, tail, rfl, hinner, hawaits⟩ := exists_nested h
    obtain ⟨-, rfl⟩ | ⟨_, _, _, _, hopened, _⟩ := hawaits
    · rwa [List.append_nil]
    · cases hopened
  · intro h
    have hwhole := closesAll_nested h [] []
    rwa [List.append_nil] at hwhole

def tally (signal : Signal) (stretch : List Token) : Nat :=
  stretch.countP fun token => token.signal = signal

theorem tally_cons (signal : Signal) (token : Token) (stretch : List Token) :
    tally signal (token :: stretch) = tally signal [token] + tally signal stretch := by
  simp [tally, List.countP_cons, Nat.add_comm]

theorem tally_self (token : Token) : tally token.signal [token] = 1 := by
  simp [tally]

theorem tally_of_ne {signal : Signal} {token : Token} (h : token.signal ≠ signal) :
    tally signal [token] = 0 := by
  simp [tally, h]

/-- Where the search stops, ends have for the first time caught up with begins. -/
theorem tally_closeAt {opening closing : Signal} (hne : opening ≠ closing) {depth n : Nat}
    {tokens : List Token} (hdepth : 0 < depth) (h : closeAt opening closing depth tokens = some n) :
    depth + tally opening (tokens.take (n + 1)) = tally closing (tokens.take (n + 1)) ∧
      ∀ m, m < n →
        depth + tally opening (tokens.take (m + 1)) ≠ tally closing (tokens.take (m + 1)) := by
  induction tokens generalizing depth n with
  | nil => cases h
  | cons token rest ih =>
    -- a token that leads from one depth to another, both above zero
    have hpass : ∀ {next : Nat}, 0 < next →
        depth + tally opening [token] = next + tally closing [token] →
        (closeAt opening closing next rest).map (· + 1) = some n →
        depth + tally opening ((token :: rest).take (n + 1)) =
            tally closing ((token :: rest).take (n + 1)) ∧
          ∀ m, m < n → depth + tally opening ((token :: rest).take (m + 1)) ≠
            tally closing ((token :: rest).take (m + 1)) := by
      intro next hnext hlevel hclose
      obtain ⟨k, hk, rfl⟩ := Option.map_eq_some_iff.mp hclose
      obtain ⟨hhere, hbefore⟩ := ih hnext hk
      rw [List.take_succ_cons, tally_cons opening, tally_cons closing]
      refine ⟨by omega, ?_⟩
      intro m hm
      rw [List.take_succ_cons, tally_cons opening, tally_cons closing]
      cases m with
      | zero =>
        rw [List.take_zero]
        simp only [tally, List.countP_nil] at hlevel ⊢
        omega
      | succ m =>
        have := hbefore m (Nat.lt_of_succ_lt_succ hm)
        omega
    unfold closeAt at h
    split at h
    · next hopening =>
      subst hopening
      refine hpass (Nat.succ_pos depth) ?_ h
      rw [tally_self, tally_of_ne hne]
    · next hopening =>
      split at h
      · next hclosing =>
        subst hclosing
        split at h
        · next hlast =>
          cases h
          refine ⟨?_, fun m hm => absurd hm (Nat.not_lt_zero m)⟩
          rw [List.take_succ_cons, List.take_zero, tally_of_ne hopening, tally_self]
          omega
        · next hlast =>
          refine hpass (by omega) ?_ h
          rw [tally_of_ne hopening, tally_self]
          omega
      · next hclosing =>
        refine hpass hdepth ?_ h
        rw [tally_of_ne hopening, tally_of_ne hclosing]

/-- The first place behind another where, counted from that one on, there are as
many begins of a kind as ends. -/
structure FirstLevel (opening closing : Signal) (run : List Token) (start last : Nat) : Prop where
  behind : start < last
  level : tally opening ((run.drop start).take (last + 1 - start)) =
    tally closing ((run.drop start).take (last + 1 - start))
  before : ∀ i, start < i → i < last → tally opening ((run.drop start).take (i + 1 - start)) ≠
    tally closing ((run.drop start).take (i + 1 - start))

/-- On any run, nested or not, the search finds that place. -/
theorem firstLevel_of_findEnd {run : List Token} {start last : Nat} {opening : Token}
    {closing : Signal} (hopening : run[start]? = some opening)
    (hclosing : opening.signal.closing? = some closing) (h : findEnd run start = some last) :
    FirstLevel opening.signal closing run start last := by
  have hne := Signal.ne_of_closing? hclosing
  obtain ⟨hlt, rfl⟩ := List.getElem?_eq_some_iff.mp hopening
  have hdrop := List.drop_eq_getElem_cons hlt
  rw [findEnd, hdrop] at h
  simp only [hclosing] at h
  obtain ⟨n, hclose, rfl⟩ := Option.map_eq_some_iff.mp h
  obtain ⟨hlevel, hbefore⟩ := tally_closeAt hne Nat.one_pos hclose
  -- the begin itself is the one that the search starts from
  have hslice : ∀ (signal : Signal) (m : Nat),
      tally signal ((run.drop start).take (start + 1 + m + 1 - start)) =
        tally signal [run[start]] + tally signal ((run.drop (start + 1)).take (m + 1)) := by
    intro signal m
    rw [hdrop, show start + 1 + m + 1 - start = m + 1 + 1 by omega, List.take_succ_cons, tally_cons]
  have hbegin := tally_self run[start]
  have hother := tally_of_ne hne
  refine ⟨by omega, ?_, ?_⟩
  · rw [hslice, hslice]
    omega
  · intro i hi hlast
    obtain ⟨m, rfl⟩ := Nat.exists_eq_add_of_le (Nat.succ_le_of_lt hi)
    have hm := hbefore m (by omega)
    rw [hslice, hslice]
    omega

variable {run : List Token}

theorem recount_recount (h : Nested run) : recount (recount run) = recount run := by
  induction h with
  | nil => rfl
  | @leaf token rest hbegin hend hrest ih =>
    have hagain : recount (token.withCount 1 :: recount rest) =
        token.withCount 1 :: recount (recount rest) :=
      recount_leaf hbegin hend (nested_recount hrest)
    rw [recount_leaf hbegin hend hrest, hagain, ih]
  | @bracket opening closing inner rest hclosing hinner hrest ihInner ihRest =>
    rw [recount_bracket hclosing hinner hrest]
    generalize hcount : (recount inner).length + 2 = count
    have hends : (opening.withCount count).signal.closing? =
        some (closing.withCount count).signal := hclosing
    rw [recount_bracket hends (nested_recount hinner) (nested_recount hrest), ihInner, ihRest,
      hcount]
    rfl

/-- Where the bracket that opens at a place ends. The counts on both of its ends
say so, as far as a word can. -/
structure EndsAt (run : List Token) (start last : Nat) (opening : Token) (closing : Signal) :
    Prop where
  found : findEnd run start = some last
  counted : opening.count = Int32.ofNat (last + 1 - start)
  sized : last + 1 - start ≤ maxCount → (last : Int) = start + opening.count.toInt - 1
  repeated : ∃ token, run[last]? = some token ∧ token.signal = closing ∧
    token.count = opening.count
  first : FirstLevel opening.signal closing run start last

theorem endsAt_of_ruled {start : Nat} {opening : Token} {closing : Signal} (h : Ruled Counted run)
    (hopening : run[start]? = some opening) (hclosing : opening.signal.closing? = some closing) :
    ∃ last, EndsAt run start last opening closing := by
  have hbegin : opening.signal.isBegin = true := Signal.isBegin_of_closing? hclosing
  obtain ⟨token, inner, rest, hmatch, ⟨hcount, hsame⟩, hinner, hdrop⟩ := h.drop hopening hbegin
  have hfound := findEnd_bracket hmatch hinner.nested hdrop
  have hlength : start + inner.length + 1 + 1 - start = inner.length + 2 := by omega
  refine ⟨start + inner.length + 1, hfound, ?_, ?_, ?_, ?_⟩
  · rw [hlength, hcount]
  · intro hfits
    have hint : opening.count.toInt = (inner.length + 2 : Nat) := by
      rw [hcount]
      exact opening.toInt_withCount (by omega)
    omega
  · refine ⟨token, ?_, ?_, hsame⟩
    · rw [Nat.add_assoc, ← List.getElem?_drop, hdrop]
      simp
    · rw [hclosing] at hmatch
      exact (Option.some.inj hmatch).symm
  · exact firstLevel_of_findEnd hopening hclosing hfound

structure Agreeing (run counted : List Token) : Prop where
  ends : ∀ start opening closing, counted[start]? = some opening →
    opening.signal.closing? = some closing → ∃ last, EndsAt counted start last opening closing
  single : ∀ token ∈ counted, token.signal.isBegin = false → token.signal.isEnd = false →
    token.count = 1
  unchanged : counted.map uncounted = run.map uncounted
  settled : recount counted = counted

/-- Counting a run whose brackets all close writes on each of them where the
search finds its end and where its kind is level again. It writes nothing else,
and nothing new the second time. -/
theorem agreeing_recount (h : closesAll [] run = true) : Agreeing run (recount run) := by
  have hnested := closesAll_iff_nested.mp h
  refine ⟨?_, ?_, uncounted_recount hnested, recount_recount hnested⟩
  · intro start opening closing hopening hclosing
    exact endsAt_of_ruled (counted_recount hnested) hopening hclosing
  · intro token htoken
    exact count_recount hnested htoken

/-- Composites within a composite, an enum in a field in a group, and counts that
are all wrong. -/
def interleaved : List Token :=
  [.beginMessage, .beginField, .beginComposite, .encoding, .beginComposite, .encoding,
    .endComposite, .endComposite, .endField, .beginGroup, .beginComposite, .endComposite,
    .beginField, .beginEnum, .validValue, .endEnum, .endField, .endGroup, .endMessage].map
    fun signal => { signal, name := "t", count := 7 }

theorem agreeing_interleaved :
    closesAll [] interleaved = true ∧
      (recount interleaved).map (·.count) =
        [19, 8, 6, 1, 3, 1, 3, 6, 8, 9, 2, 2, 5, 3, 1, 3, 5, 9, 19] ∧
      Agreeing interleaved (recount interleaved) :=
  ⟨by decide, by decide, agreeing_recount (by decide)⟩

end SimpleBinary.Token
