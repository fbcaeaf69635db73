import SimpleBinary.Token.Run

/-! The token that closes a run. It depends on the signals alone, and on
nothing that comes behind it. -/
namespace SimpleBinary.Token
variable {opening closing : Signal} {depth n : Nat} {tokens : List Token}

theorem closeAt_lt (h : closeAt opening closing depth tokens = some n) : n < tokens.length := by
  induction tokens generalizing depth n with
  | nil => cases h
  | cons token rest ih =>
    have step : ∀ {depth : Nat}, (closeAt opening closing depth rest).map (· + 1) = some n →
        n < rest.length + 1 := by
      intro depth h
      obtain ⟨m, hm, rfl⟩ := Option.map_eq_some_iff.mp h
      exact Nat.succ_lt_succ (ih hm)
    unfold closeAt at h
    split at h
    · exact step h
    · split at h
      · split at h
        · cases h
          exact Nat.zero_lt_succ _
        · exact step h
      · exact step h

/-- Only the tokens up to the closing one are looked at. -/
theorem closeAt_congr {others : List Token} (h : closeAt opening closing depth tokens = some n)
    (hsame : others.take (n + 1) = tokens.take (n + 1)) :
    closeAt opening closing depth others = some n := by
  induction tokens generalizing depth n others with
  | nil => cases h
  | cons token rest ih =>
    cases others with
    | nil => cases hsame
    | cons other tail =>
      rw [List.take_succ_cons, List.take_succ_cons, List.cons.injEq] at hsame
      obtain ⟨rfl, hsame⟩ := hsame
      have step : ∀ {depth : Nat}, (closeAt opening closing depth rest).map (· + 1) = some n →
          (closeAt opening closing depth tail).map (· + 1) = some n := by
        intro depth h
        obtain ⟨m, hm, rfl⟩ := Option.map_eq_some_iff.mp h
        rw [ih hm hsame]
        rfl
      unfold closeAt at h ⊢
      split
      · next hopening => exact step (by rwa [if_pos hopening] at h)
      · next hopening =>
        rw [if_neg hopening] at h
        split
        · next hclosing =>
          rw [if_pos hclosing] at h
          split
          · next hdepth => rwa [if_pos hdepth] at h
          · next hdepth => exact step (by rwa [if_neg hdepth] at h)
        · next hclosing => exact step (by rwa [if_neg hclosing] at h)

theorem closeAt_map {f : Token → Token} (hf : ∀ token, (f token).signal = token.signal) :
    closeAt opening closing depth (tokens.map f) = closeAt opening closing depth tokens := by
  induction tokens generalizing depth with
  | nil => rfl
  | cons token rest ih => simp only [List.map_cons, closeAt, hf, ih]

theorem findEnd_zero_eq_some {last : Nat} :
    findEnd tokens 0 = some last ↔ ∃ token rest closing n, tokens = token :: rest ∧
      token.signal.closing? = some closing ∧ closeAt token.signal closing 1 rest = some n ∧
      last = n + 1 := by
  cases tokens with
  | nil => simp [findEnd]
  | cons token rest =>
    simp only [findEnd, List.drop_zero]
    constructor
    · intro h
      split at h
      · cases h
      · next closing hclosing =>
        obtain ⟨n, hclose, rfl⟩ := Option.map_eq_some_iff.mp h
        exact ⟨token, rest, closing, n, rfl, hclosing, hclose, by omega⟩
    · rintro ⟨_, _, closing, n, heq, hclosing, hclose, rfl⟩
      cases heq
      rw [hclosing]
      simp only [hclose, Option.map_some, Nat.zero_add, Nat.add_comm]

theorem findEnd_lt {last : Nat} (h : findEnd tokens 0 = some last) : last < tokens.length := by
  obtain ⟨token, rest, closing, n, rfl, -, hclose, rfl⟩ := findEnd_zero_eq_some.mp h
  exact Nat.succ_lt_succ (closeAt_lt hclose)

theorem findEnd_congr {others : List Token} {last : Nat} (h : findEnd tokens 0 = some last)
    (hsame : others.take (last + 1) = tokens.take (last + 1)) : findEnd others 0 = some last := by
  obtain ⟨token, tail, closing, n, rfl, hclosing, hclose, rfl⟩ := findEnd_zero_eq_some.mp h
  cases others with
  | nil => cases hsame
  | cons other rest =>
    rw [List.take_succ_cons, List.take_succ_cons, List.cons.injEq] at hsame
    obtain ⟨rfl, hsame⟩ := hsame
    exact findEnd_zero_eq_some.mpr
      ⟨other, rest, closing, n, rfl, hclosing, closeAt_congr hclose hsame, rfl⟩

theorem findEnd_append {last : Nat} (rest : List Token) (h : findEnd tokens 0 = some last) :
    findEnd (tokens ++ rest) 0 = some last :=
  findEnd_congr h (List.take_append_of_le_length (findEnd_lt h))

theorem findEnd_take {last : Nat} (h : findEnd tokens 0 = some last) :
    findEnd (tokens.take (last + 1)) 0 = some last :=
  findEnd_congr h (by rw [List.take_take, Nat.min_self])

theorem findEnd_map {f : Token → Token} (hf : ∀ token, (f token).signal = token.signal)
    (start : Nat) : findEnd (tokens.map f) start = findEnd tokens start := by
  unfold findEnd
  rw [← List.map_drop]
  cases tokens.drop start with
  | nil => rfl
  | cons token rest => simp only [List.map_cons, hf, closeAt_map hf]

def Bracketed (opening : Signal) (tokens : List Token) : Prop :=
  tokens.head?.map (·.signal) = some opening ∧ findEnd tokens 0 = some (tokens.length - 1)

instance (opening : Signal) (tokens : List Token) : Decidable (Bracketed opening tokens) :=
  inferInstanceAs (Decidable (_ ∧ _))

namespace Bracketed

theorem pos (h : Bracketed opening tokens) : 0 < tokens.length :=
  Nat.lt_of_le_of_lt (Nat.zero_le _) (findEnd_lt h.2)

theorem map_iff {f : Token → Token} (hf : ∀ token, (f token).signal = token.signal) :
    Bracketed opening (tokens.map f) ↔ Bracketed opening tokens := by
  have hsignal : (fun token : Token => token.signal) ∘ f = fun token => token.signal := by
    funext token
    exact hf token
  unfold Bracketed
  rw [List.head?_map, Option.map_map, hsignal, findEnd_map hf 0, List.length_map]

theorem findEnd_append (h : Bracketed opening tokens) (rest : List Token) :
    findEnd (tokens ++ rest) 0 = some (tokens.length - 1) :=
  Token.findEnd_append rest h.2

theorem findEnd_cut (h : Bracketed opening tokens) {count : Nat} (hcount : count < tokens.length) :
    findEnd (tokens.take count) 0 = none := by
  cases hend : findEnd (tokens.take count) 0 with
  | none => rfl
  | some last =>
    have hlt := findEnd_lt hend
    have hwhole := Token.findEnd_append (tokens.drop count) hend
    rw [List.take_append_drop, h.2] at hwhole
    rw [List.length_take] at hlt
    have hlast := Option.some.inj hwhole
    omega

theorem of_take {last : Nat} (hopening : tokens.head?.map (·.signal) = some opening)
    (h : findEnd tokens 0 = some last) : Bracketed opening (tokens.take (last + 1)) := by
  have hlt := findEnd_lt h
  constructor
  · cases tokens <;> exact hopening
  · rw [findEnd_take h, List.length_take, Nat.min_eq_left hlt]
    rfl

end Bracketed
end SimpleBinary.Token
