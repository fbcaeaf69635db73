import SimpleBinary.Proofs.Token.Nesting
import SimpleBinary.Token.Component

/-! Components of counted runs. A single token and a bracket are one component
each, wherever they stand, as long as a word can say how long they are. -/
namespace SimpleBinary.Token

def maxCount : Nat := 2147483647

/-- A stretch that its first token counts. -/
def Whole (stretch : List Token) : Prop :=
  ∃ token rest, stretch = token :: rest ∧ token.count.toInt = stretch.length

theorem toInt_withCount (token : Token) {count : Nat} (h : count ≤ maxCount) :
    (token.withCount count).count.toInt = count := by
  unfold maxCount at h
  exact Int32.toInt_ofNat_of_lt (by omega)

theorem whole_leaf (token : Token) : Whole [token.withCount 1] :=
  ⟨_, [], rfl, token.toInt_withCount (by decide)⟩

theorem whole_bracketed {opening closing : Token} {inner : List Token}
    (hclosing : opening.signal.closing? = some closing.signal) (hinner : Nested inner)
    (hlength : inner.length + 2 ≤ maxCount) :
    Whole (recount (opening :: inner ++ [closing])) := by
  rw [recount_bracketed hclosing hinner, length_recount hinner]
  refine ⟨_, _, rfl, ?_⟩
  rw [toInt_withCount _ hlength]
  simp only [List.length_append, List.length_cons, List.length_nil, length_recount hinner]

variable {stretch run : List Token} {signal : Signal}

theorem component?_append (h : Whole stretch) (tail : List Token) :
    component? (stretch ++ tail) = some (stretch, tail) := by
  obtain ⟨token, rest, rfl, hcount⟩ := h
  have hnat : token.count.toInt.toNat = (token :: rest).length := by omega
  rw [List.cons_append, component?, hnat, if_pos (by simp), ← List.cons_append,
    List.take_left, List.drop_left]

def lead? (run : List Token) : Option Signal := run.head?.map (·.signal)

theorem skip_of_component? {token : Token} {rest : List Token} {parts : List Token × List Token}
    (hsignal : token.signal = signal) (h : component? (token :: rest) = some parts) :
    skip signal (token :: rest) = skip signal parts.2 := by
  rw [skip, if_pos hsignal]
  split
  · next hparts =>
    rw [h] at hparts
    cases hparts
    rfl
  · next hparts =>
    rw [h] at hparts
    cases hparts

theorem skip_append (h : Whole stretch) (hlead : lead? stretch = some signal) (tail : List Token) :
    skip signal (stretch ++ tail) = skip signal tail := by
  have hcomponent := component?_append h tail
  obtain ⟨token, rest, rfl, -⟩ := h
  exact skip_of_component? (Option.some.inj hlead) hcomponent

theorem skip_of_lead?_ne (h : lead? run ≠ some signal) : skip signal run = run := by
  cases run with
  | nil => rw [skip]
  | cons token rest =>
    rw [skip, if_neg]
    exact fun heq => h (congrArg some heq)

theorem inner_bracketed (opening closing : Token) (body : List Token) :
    inner (opening :: (body ++ [closing])) = body := by
  simp [inner]

theorem groupBody_bracketed (opening closing : Token) {dimension : List Token}
    (h : Whole dimension) (body : List Token) :
    groupBody (opening :: (dimension ++ body ++ [closing])) = body := by
  rw [groupBody, inner_bracketed, component?_append h]

end SimpleBinary.Token
