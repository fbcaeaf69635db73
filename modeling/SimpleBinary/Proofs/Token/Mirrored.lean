import SimpleBinary.Proofs.Token.Component

/-! Runs in which each end repeats its begin. Counting keeps that, and leaves
on every begin how far away its end is: a counted run says by itself what a
search for the end would find. -/
namespace SimpleBinary.Token

/-- Nested, and every end differs from its begin in the signal only. -/
inductive Mirrored : List Token → Prop where
  | nil : Mirrored []
  | leaf {token : Token} {rest : List Token} :
      token.signal.isBegin = false → token.signal.isEnd = false → Mirrored rest →
      Mirrored (token :: rest)
  | bracket {opening : Token} {closing : Signal} {inner rest : List Token} :
      opening.signal.closing? = some closing → Mirrored inner → Mirrored rest →
      Mirrored (opening :: inner ++ { opening with signal := closing } :: rest)

namespace Mirrored
variable {a b run : List Token}

theorem nested (h : Mirrored run) : Nested run := by
  induction h with
  | nil => exact .nil
  | leaf hbegin hend _ ih => exact .leaf hbegin hend ih
  | bracket hclosing _ _ ihInner ihRest => exact .bracket hclosing ihInner ihRest

theorem append (ha : Mirrored a) (hb : Mirrored b) : Mirrored (a ++ b) := by
  induction ha with
  | nil => exact hb
  | leaf hbegin hend _ ih => exact .leaf hbegin hend ih
  | bracket hclosing hinner _ _ ih =>
    rw [List.append_assoc, List.cons_append]
    exact .bracket hclosing hinner ih

theorem singleton {token : Token} (hbegin : token.signal.isBegin = false)
    (hend : token.signal.isEnd = false) : Mirrored [token] :=
  .leaf hbegin hend .nil

end Mirrored

theorem Mirrored.ruled_recount {run : List Token} (h : Mirrored run) :
    Ruled (fun opening inner closing => opening.count = Int32.ofNat (inner.length + 2) ∧
      closing = { opening with signal := closing.signal }) (recount run) := by
  induction h with
  | nil => exact .nil
  | leaf hbegin hend hrest ih =>
    rw [recount_leaf hbegin hend hrest.nested]
    exact .leaf hbegin hend ih
  | bracket hclosing hinner hrest ihInner ihRest =>
    rw [recount_bracket hclosing hinner.nested hrest.nested]
    exact .bracket hclosing ⟨rfl, rfl⟩ ihInner ihRest

/-- Behind every begin of a counted run come as many tokens as it says, up to
the end that repeats it. -/
theorem Mirrored.drop_recount {run : List Token} (h : Mirrored run) {i : Nat} {token : Token}
    (hi : (recount run)[i]? = some token) (hbegin : token.signal.isBegin = true) :
    ∃ closing inner rest, token.signal.closing? = some closing ∧ Nested inner ∧
      token.count = Int32.ofNat (inner.length + 2) ∧
      (recount run).drop i = token :: inner ++ { token with signal := closing } :: rest := by
  obtain ⟨closing, inner, rest, hclosing, ⟨hcount, hrepeats⟩, hinner, hdrop⟩ :=
    h.ruled_recount.drop hi hbegin
  exact ⟨closing.signal, inner, rest, hclosing, hinner.nested, hcount, hrepeats ▸ hdrop⟩

/-- A counted run from one begin to its end, in which every begin says where
its own end is. A count is a word, and says how many tokens there are as long
as it can. -/
structure SelfDescribing (opening closing : Signal) (run : List Token) : Prop where
  nested : Nested run
  spanned : ∃ token inner, token.signal = opening ∧ Nested inner ∧
    run = token :: inner ++ [{ token with signal := closing }]
  closed : ∀ (i : Nat) (token : Token), run[i]? = some token → token.signal.isBegin = true →
    ∃ count closing, 2 ≤ count ∧ token.count = Int32.ofNat count ∧
      (run.length ≤ maxCount → token.count.toInt = count) ∧
      token.signal.closing? = some closing ∧
      run[i + count - 1]? = some { token with signal := closing } ∧
      Nested ((run.drop (i + 1)).take (count - 2)) ∧ findEnd run i = some (i + count - 1)
  single : ∀ token ∈ run, token.signal.isBegin = false → token.signal.isEnd = false →
    token.count = 1

theorem SelfDescribing.of_mirrored {opening : Token} {signal closing : Signal}
    {inner : List Token} (hsignal : opening.signal = signal)
    (hclosing : signal.closing? = some closing) (hinner : Mirrored inner) :
    SelfDescribing signal closing
      (recount (opening :: inner ++ [{ opening with signal := closing }])) := by
  subst hsignal
  have hrun : Mirrored (opening :: inner ++ [{ opening with signal := closing }]) :=
    .bracket hclosing hinner .nil
  refine ⟨nested_recount hrun.nested, ?_, ?_, fun token htoken => count_recount hrun.nested htoken⟩
  · rw [recount_bracketed hclosing hinner.nested]
    exact ⟨opening.withCount _, recount inner, rfl, nested_recount hinner.nested, rfl⟩
  · intro i token hi hbegin
    obtain ⟨closing, stretch, rest, hmatch, hnested, hcount, hdrop⟩ :=
      hrun.drop_recount hi hbegin
    have hlength := congrArg List.length hdrop
    simp only [List.length_drop, List.length_append, List.length_cons] at hlength
    refine ⟨stretch.length + 2, closing, Nat.le_add_left 2 _, hcount, ?_, hmatch, ?_, ?_, ?_⟩
    · intro hmax
      rw [hcount]
      exact token.toInt_withCount (by omega)
    · have hindex : i + (stretch.length + 2) - 1 = i + (stretch.length + 1) := by omega
      rw [hindex, ← List.getElem?_drop, hdrop]
      simp
    · rw [← List.drop_drop, hdrop]
      simpa using hnested
    · rw [findEnd_bracket hmatch hnested hdrop]
      rfl

end SimpleBinary.Token
