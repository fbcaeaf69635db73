import SimpleBinary.Proofs.Token.Closing

/-! Properly nested runs. Each begin is closed by the end that matches it, and
counting them anew goes through the brackets from the inside out: the counts
of a stretch do not depend on what stands around it. -/
namespace SimpleBinary

theorem Signal.isEnd_of_closing? {opening closing : Signal} (h : opening.closing? = some closing) :
    closing.isEnd = true ∧ closing.isBegin = false := by
  cases opening <;> cases h <;> decide

theorem Signal.isBegin_of_closing? {opening closing : Signal}
    (h : opening.closing? = some closing) : opening.isBegin = true := by
  rw [isBegin, h]
  rfl

theorem Signal.ne_of_closing? {opening closing : Signal} (h : opening.closing? = some closing) :
    opening ≠ closing := by
  rintro rfl
  have hend := (isEnd_of_closing? h).2
  rw [isBegin_of_closing? h] at hend
  cases hend

theorem Signal.closing?_inj {a b closing : Signal} (ha : a.closing? = some closing)
    (hb : b.closing? = some closing) : a = b := by
  cases a <;> cases ha <;> cases b <;> cases hb <;> rfl

namespace Token

namespace Nested

theorem append {a b : List Token} (ha : Nested a) (hb : Nested b) : Nested (a ++ b) := by
  induction ha with
  | nil => exact hb
  | leaf hbegin hend _ ih => exact .leaf hbegin hend ih
  | bracket hclosing hinner _ _ ih =>
    rw [List.append_assoc, List.cons_append]
    exact .bracket hclosing hinner ih

theorem bracketed {opening closing : Token} {inner : List Token}
    (hclosing : opening.signal.closing? = some closing.signal) (hinner : Nested inner) :
    Nested (opening :: inner ++ [closing]) :=
  .bracket hclosing hinner .nil

end Nested

/-- A place in a run with a bracket in front is one of its ends, inside it or
behind it. -/
theorem getElem?_bracket {opening closing token : Token} {inner rest : List Token} {i : Nat}
    (h : (opening :: inner ++ closing :: rest)[i]? = some token) :
    (i = 0 ∧ token = opening) ∨ (∃ j, i = j + 1 ∧ inner[j]? = some token) ∨
      (i = inner.length + 1 ∧ token = closing) ∨
      ∃ j, i = inner.length + 2 + j ∧ rest[j]? = some token := by
  cases i with
  | zero => exact .inl ⟨rfl, by simpa using h.symm⟩
  | succ i =>
    rw [List.cons_append, List.getElem?_cons_succ] at h
    by_cases hinner : i < inner.length
    · rw [List.getElem?_append_left hinner] at h
      exact .inr (.inl ⟨i, rfl, h⟩)
    rw [List.getElem?_append_right (by omega)] at h
    by_cases hclosing : i = inner.length
    · refine .inr (.inr (.inl ⟨by omega, ?_⟩))
      simpa [hclosing] using h.symm
    · refine .inr (.inr (.inr ⟨i - inner.length - 1, by omega, ?_⟩))
      have hindex : i - inner.length = i - inner.length - 1 + 1 := by omega
      rwa [hindex, List.getElem?_cons_succ] at h

/-- Nested, and every bracket follows a rule on its ends and what is between
them. -/
inductive Ruled (rule : Token → List Token → Token → Prop) : List Token → Prop where
  | nil : Ruled rule []
  | leaf {token : Token} {rest : List Token} :
      token.signal.isBegin = false → token.signal.isEnd = false → Ruled rule rest →
      Ruled rule (token :: rest)
  | bracket {opening closing : Token} {inner rest : List Token} :
      opening.signal.closing? = some closing.signal → rule opening inner closing →
      Ruled rule inner → Ruled rule rest → Ruled rule (opening :: inner ++ closing :: rest)

namespace Ruled
variable {rule : Token → List Token → Token → Prop} {run : List Token}

theorem nested (h : Ruled rule run) : Nested run := by
  induction h with
  | nil => exact .nil
  | leaf hbegin hend _ ih => exact .leaf hbegin hend ih
  | bracket hclosing _ _ _ ihInner ihRest => exact .bracket hclosing ihInner ihRest

theorem drop (h : Ruled rule run) {i : Nat} {token : Token} (hi : run[i]? = some token)
    (hbegin : token.signal.isBegin = true) :
    ∃ closing inner rest, token.signal.closing? = some closing.signal ∧ rule token inner closing ∧
      Ruled rule inner ∧ run.drop i = token :: inner ++ closing :: rest := by
  induction h generalizing i with
  | nil => cases hi
  | leaf hleaf hother hrest ih =>
    cases i with
    | zero =>
      cases hi
      rw [hleaf] at hbegin
      cases hbegin
    | succ i => exact ih hi
  | @bracket opening last inside tail hclosing hrule hinner hrest ihInner ihRest =>
    rcases getElem?_bracket hi with ⟨rfl, rfl⟩ | ⟨j, rfl, hj⟩ | ⟨rfl, rfl⟩ | ⟨j, rfl, hj⟩
    · exact ⟨last, inside, tail, hclosing, hrule, hinner, rfl⟩
    · obtain ⟨closing, inner, rest, hmatch, hkept, hruled, hdrop⟩ := ihInner hj
      have hlt : j ≤ inside.length := Nat.le_of_lt (List.getElem?_eq_some_iff.mp hj).1
      refine ⟨closing, inner, rest ++ last :: tail, hmatch, hkept, hruled, ?_⟩
      rw [List.cons_append, List.drop_succ_cons, List.drop_append_of_le_length hlt, hdrop]
      simp
    · rw [(Signal.isEnd_of_closing? hclosing).2] at hbegin
      cases hbegin
    · obtain ⟨closing, inner, rest, hmatch, hkept, hruled, hdrop⟩ := ihRest hj
      have hindex : inside.length + 2 + j = inside.length + (j + 1) + 1 := by omega
      refine ⟨closing, inner, rest, hmatch, hkept, hruled, ?_⟩
      rw [hindex, List.cons_append, List.drop_succ_cons, List.drop_length_add_append,
        List.drop_succ_cons, hdrop]

end Ruled

theorem closeAt_pass {opening closing : Signal} {token : Token} (hopening : token.signal ≠ opening)
    (hclosing : token.signal ≠ closing) (depth : Nat) (rest : List Token) :
    closeAt opening closing depth (token :: rest) =
      (closeAt opening closing depth rest).map (· + 1) := by
  rw [closeAt, if_neg hopening, if_neg hclosing]

private theorem map_add (n m : Nat) (distance : Option Nat) :
    (distance.map (n + ·)).map (m + ·) = distance.map (m + n + ·) := by
  cases distance <;> simp [Nat.add_assoc]

/-- A nested stretch leaves every depth as it was. -/
theorem closeAt_nested {opening closing : Signal} {inner : List Token}
    (hclosing : opening.closing? = some closing) (hinner : Nested inner) {depth : Nat}
    (hdepth : 0 < depth) (rest : List Token) :
    closeAt opening closing depth (inner ++ rest) =
      (closeAt opening closing depth rest).map (inner.length + ·) := by
  have hend := (Signal.isEnd_of_closing? hclosing).1
  have hbegin : opening.isBegin = true := Signal.isBegin_of_closing? hclosing
  have succ : ∀ distance : Option Nat, distance.map (· + 1) = distance.map (1 + ·) := by
    intro distance
    cases distance <;> simp [Nat.add_comm]
  induction hinner generalizing depth rest with
  | nil => simp
  | @leaf token tail htoken hother _ ih =>
    have hopening : token.signal ≠ opening := by
      rintro rfl
      rw [hbegin] at htoken
      cases htoken
    have hclose : token.signal ≠ closing := by
      rintro rfl
      rw [hend] at hother
      cases hother
    rw [List.cons_append, closeAt_pass hopening hclose, ih hdepth, succ, map_add,
      List.length_cons, Nat.add_comm]
  | @bracket first last inside tail hmatch _ _ ihInside ihTail =>
    have hlast := Signal.isEnd_of_closing? hmatch
    have hlastOpening : last.signal ≠ opening := by
      rintro rfl
      rw [hbegin] at hlast
      cases hlast.2
    have hlength : (first :: inside ++ last :: tail).length =
        1 + (inside.length + (1 + tail.length)) := by
      simp only [List.length_append, List.length_cons]
      omega
    rw [List.append_assoc, List.cons_append, List.cons_append, hlength]
    by_cases hfirst : first.signal = opening
    · -- the bracket is of the kind in question: it opens a depth and closes it again
      have hlastClosing : last.signal = closing := by
        rw [hfirst, hclosing] at hmatch
        exact (Option.some.inj hmatch).symm
      rw [closeAt, if_pos hfirst, ihInside (Nat.succ_pos depth), closeAt, if_neg hlastOpening,
        if_pos hlastClosing, if_neg (by omega), Nat.succ_sub_one, ihTail hdepth, succ, succ,
        map_add, map_add, map_add]
      simp only [Nat.add_assoc]
    · have hfirstClosing : first.signal ≠ closing := by
        rintro h
        rw [h] at hmatch
        have hnone := (Signal.isEnd_of_closing? hclosing).2
        rw [Signal.isBegin, hmatch] at hnone
        cases hnone
      have hlastClosing : last.signal ≠ closing := by
        rintro h
        rw [h] at hmatch
        exact hfirst (Signal.closing?_inj hmatch hclosing)
      rw [closeAt_pass hfirst hfirstClosing, ihInside hdepth,
        closeAt_pass hlastOpening hlastClosing, ihTail hdepth, succ, succ, map_add, map_add,
        map_add]
      simp only [Nat.add_assoc]

/-- The end behind a nested stretch is the one found for the begin before it. -/
theorem findEnd_bracket {run : List Token} {start : Nat} {opening closing : Token}
    {inner rest : List Token} (hclosing : opening.signal.closing? = some closing.signal)
    (hinner : Nested inner) (hrun : run.drop start = opening :: inner ++ closing :: rest) :
    findEnd run start = some (start + inner.length + 1) := by
  have hne : closing.signal ≠ opening.signal := (Signal.ne_of_closing? hclosing).symm
  rw [findEnd, hrun]
  simp only [List.cons_append, hclosing]
  rw [closeAt_nested hclosing hinner Nat.one_pos, closeAt, if_neg hne, if_pos rfl,
    if_pos (Nat.le_refl 1)]
  simp only [Option.map_some, Nat.add_zero, Option.some.injEq]
  omega

theorem bracketed_of_nested {opening closing : Token} {inner : List Token}
    (hclosing : opening.signal.closing? = some closing.signal) (hinner : Nested inner) :
    Bracketed opening.signal (opening :: inner ++ [closing]) := by
  refine ⟨rfl, ?_⟩
  rw [findEnd_bracket hclosing hinner rfl]
  simp

section
variable {token : Token} (done rest : List Token) (stack : List (Token × List Token))

theorem recountFrom_begin (h : token.signal.isBegin = true) :
    recountFrom done stack (token :: rest) = recountFrom [] ((token, done) :: stack) rest := by
  rw [recountFrom.eq_def]
  simp [h]

theorem recountFrom_end (hbegin : token.signal.isBegin = false) (hend : token.signal.isEnd = true)
    (opening : Token) (before : List Token) :
    recountFrom done ((opening, before) :: stack) (token :: rest) =
      recountFrom (before ++ opening.withCount (done.length + 2) ::
        done ++ [token.withCount (done.length + 2)]) stack rest := by
  rw [recountFrom.eq_def]
  simp [hbegin, hend]

theorem recountFrom_leaf (hbegin : token.signal.isBegin = false)
    (hend : token.signal.isEnd = false) :
    recountFrom done stack (token :: rest) =
      recountFrom (done ++ [token.withCount 1]) stack rest := by
  rw [recountFrom.eq_def]
  simp [hbegin, hend]

end

/-- A nested stretch is counted on its own. -/
theorem recountFrom_nested {inner : List Token} (h : Nested inner) (done : List Token)
    (stack : List (Token × List Token)) (rest : List Token) :
    recountFrom done stack (inner ++ rest) = recountFrom (done ++ recount inner) stack rest := by
  suffices hcounted : ∃ counted, ∀ done stack rest,
      recountFrom done stack (inner ++ rest) = recountFrom (done ++ counted) stack rest by
    obtain ⟨counted, hcounted⟩ := hcounted
    have hrecount : recount inner = counted := by
      have hwhole := hcounted [] [] []
      rw [List.append_nil] at hwhole
      exact hwhole
    rw [hrecount, hcounted]
  clear done stack rest
  induction h with
  | nil => exact ⟨[], by simp⟩
  | @leaf token tail hbegin hend _ ih =>
    obtain ⟨counted, hcounted⟩ := ih
    refine ⟨token.withCount 1 :: counted, fun done stack rest => ?_⟩
    rw [List.cons_append, recountFrom_leaf _ _ _ hbegin hend, hcounted, List.append_assoc]
    rfl
  | @bracket first last inside tail hmatch _ _ ihInside ihTail =>
    obtain ⟨inside', hinside⟩ := ihInside
    obtain ⟨tail', htail⟩ := ihTail
    have hlast := Signal.isEnd_of_closing? hmatch
    have hfirst : first.signal.isBegin = true := Signal.isBegin_of_closing? hmatch
    refine ⟨first.withCount (inside'.length + 2) :: inside' ++
      last.withCount (inside'.length + 2) :: tail', fun done stack rest => ?_⟩
    rw [List.append_assoc, List.cons_append, List.cons_append, recountFrom_begin _ _ _ hfirst,
      hinside, List.nil_append, recountFrom_end _ _ _ hlast.2 hlast.1, htail]
    simp

variable {a b inner : List Token}

theorem recount_append (ha : Nested a) (hb : Nested b) :
    recount (a ++ b) = recount a ++ recount b := by
  have hrest := recountFrom_nested hb (recount a) [] []
  rw [List.append_nil] at hrest
  rw [recount, recountFrom_nested ha, List.nil_append, hrest]
  rfl

theorem recount_leaf {token : Token} (hbegin : token.signal.isBegin = false)
    (hend : token.signal.isEnd = false) (hb : Nested b) :
    recount (token :: b) = token.withCount 1 :: recount b := by
  have hrest := recountFrom_nested hb [token.withCount 1] [] []
  rw [List.append_nil] at hrest
  rw [recount, recountFrom_leaf _ _ _ hbegin hend, List.nil_append, hrest]
  rfl

theorem recount_bracketed {opening closing : Token}
    (hclosing : opening.signal.closing? = some closing.signal) (hinner : Nested inner) :
    recount (opening :: inner ++ [closing]) =
      opening.withCount ((recount inner).length + 2) ::
        recount inner ++ [closing.withCount ((recount inner).length + 2)] := by
  have hlast := Signal.isEnd_of_closing? hclosing
  have hfirst : opening.signal.isBegin = true := Signal.isBegin_of_closing? hclosing
  rw [recount, List.cons_append, recountFrom_begin _ _ _ hfirst, recountFrom_nested hinner,
    List.nil_append, recountFrom_end _ _ _ hlast.2 hlast.1]
  rfl

theorem recount_bracket {opening closing : Token}
    (hclosing : opening.signal.closing? = some closing.signal) (hinner : Nested inner)
    (hb : Nested b) :
    recount (opening :: inner ++ closing :: b) =
      opening.withCount ((recount inner).length + 2) ::
        recount inner ++ closing.withCount ((recount inner).length + 2) :: recount b := by
  have hsplit : opening :: inner ++ closing :: b = (opening :: inner ++ [closing]) ++ b := by simp
  rw [hsplit, recount_append (.bracketed hclosing hinner) hb, recount_bracketed hclosing hinner]
  simp

def Counted (opening : Token) (inner : List Token) (closing : Token) : Prop :=
  opening.count = Int32.ofNat (inner.length + 2) ∧ closing.count = opening.count

theorem counted_recount (h : Nested inner) : Ruled Counted (recount inner) := by
  induction h with
  | nil => exact .nil
  | leaf hbegin hend hrest ih =>
    rw [recount_leaf hbegin hend hrest]
    exact .leaf hbegin hend ih
  | bracket hclosing hinner hrest ihInner ihRest =>
    rw [recount_bracket hclosing hinner hrest]
    exact .bracket hclosing ⟨rfl, rfl⟩ ihInner ihRest

theorem nested_recount (h : Nested inner) : Nested (recount inner) :=
  (counted_recount h).nested

theorem count_recount (h : Nested inner) {token : Token} (htoken : token ∈ recount inner)
    (hbegin : token.signal.isBegin = false) (hend : token.signal.isEnd = false) :
    token.count = 1 := by
  induction h with
  | nil => cases htoken
  | leaf hleaf hother htail ih =>
    rw [recount_leaf hleaf hother htail, List.mem_cons] at htoken
    rcases htoken with rfl | htoken
    · rfl
    · exact ih htoken
  | @bracket first last inside tail hmatch hinside htail ihInside ihTail =>
    rw [recount_bracket hmatch hinside htail, List.cons_append, List.mem_cons, List.mem_append,
      List.mem_cons] at htoken
    rcases htoken with rfl | htoken | rfl | htoken
    · have hfirst : first.signal.isBegin = true := Signal.isBegin_of_closing? hmatch
      exact absurd hfirst (by simpa [withCount] using hbegin)
    · exact ihInside htoken
    · exact absurd (Signal.isEnd_of_closing? hmatch).1 (by simpa [withCount] using hend)
    · exact ihTail htoken

def uncounted (token : Token) : Token := { token with count := 0 }

theorem uncounted_recount (h : Nested inner) :
    (recount inner).map uncounted = inner.map uncounted := by
  induction h with
  | nil => rfl
  | @leaf token tail hbegin hend htail ih =>
    rw [recount_leaf hbegin hend htail, List.map_cons, List.map_cons, ih]
    rfl
  | @bracket first last inside tail hmatch hinside htail ihInside ihTail =>
    rw [recount_bracket hmatch hinside htail]
    simp only [List.map_append, List.map_cons, ihInside, ihTail]
    rfl

/-- What does not look at counts holds of a run counted or not. -/
theorem forall_recount {P : Token → Prop} (hP : ∀ token, P (uncounted token) ↔ P token)
    (h : Nested inner) : (∀ token ∈ recount inner, P token) ↔ ∀ token ∈ inner, P token := by
  have huncounted : ∀ tokens : List Token,
      (∀ token ∈ tokens, P token) ↔ ∀ token ∈ tokens.map uncounted, P token := by
    simp [hP]
  rw [huncounted, uncounted_recount h, ← huncounted]

/-- What is looked for without looking at counts is found in a run counted or
not. -/
theorem find?_recount {p : Token → Bool} (hp : ∀ token, p (uncounted token) = p token)
    (h : Nested inner) :
    ((recount inner).find? p).map uncounted = (inner.find? p).map uncounted := by
  have huncounted : ∀ tokens : List Token,
      (tokens.find? p).map uncounted = (tokens.map uncounted).find? p := by
    intro tokens
    have hsame : p ∘ uncounted = p := funext hp
    rw [List.find?_map, hsame]
  rw [huncounted, uncounted_recount h, ← huncounted]

theorem bracketed_recount {opening : Signal} (h : Nested inner) :
    Bracketed opening (recount inner) ↔ Bracketed opening inner := by
  have hsignal : ∀ token, (uncounted token).signal = token.signal := fun _ => rfl
  rw [← Bracketed.map_iff hsignal, uncounted_recount h, Bracketed.map_iff hsignal]

theorem length_recount (h : Nested inner) : (recount inner).length = inner.length := by
  simpa using congrArg List.length (uncounted_recount h)

end Token
end SimpleBinary
