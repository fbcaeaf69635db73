import SimpleBinary.Token.Run

/-! A run taken apart by the counts on its tokens. The first token of a run
says how many tokens its component has, itself included. -/
namespace SimpleBinary.Token

/-- The first component and what is behind it, if the count of the first token
is positive and within the run. -/
def component? : List Token → Option (List Token × List Token)
  | [] => none
  | token :: rest =>
    let count := token.count.toInt.toNat
    if 0 < count ∧ count ≤ rest.length + 1 then
      some ((token :: rest).take count, (token :: rest).drop count)
    else none

theorem append_of_component? {run first after : List Token}
    (h : component? run = some (first, after)) : first ++ after = run := by
  cases run with
  | nil => simp [component?] at h
  | cons token rest =>
    simp only [component?] at h
    split at h
    · cases h
      exact List.take_append_drop ..
    · cases h

theorem length_pos_of_component? {run first after : List Token}
    (h : component? run = some (first, after)) : 0 < first.length := by
  cases run with
  | nil => simp [component?] at h
  | cons token rest =>
    simp only [component?] at h
    split at h
    · cases h
      simp only [List.length_take, List.length_cons]
      omega
    · cases h

theorem length_of_component? {run first after : List Token}
    (h : component? run = some (first, after)) : first.length + after.length = run.length := by
  rw [← append_of_component? h, List.length_append]

def skip (signal : Signal) (run : List Token) : List Token :=
  match run with
  | [] => []
  | token :: rest =>
    if token.signal = signal then
      match _h : component? (token :: rest) with
      | some (_, after) => skip signal after
      | none => token :: rest
    else token :: rest
termination_by run.length
decreasing_by
  have := length_of_component? _h
  have := length_pos_of_component? _h
  omega

theorem length_skip_le (signal : Signal) (run : List Token) :
    (skip signal run).length ≤ run.length := by
  fun_induction skip signal run with
  | case1 => simp
  | case2 token rest _ first after h ih =>
    have := length_of_component? h
    omega
  | case3 => simp
  | case4 => simp

def inner (component : List Token) : List Token := (component.drop 1).dropLast

def groupBody (component : List Token) : List Token :=
  match component? (inner component) with
  | some (_, body) => body
  | none => []

theorem length_groupBody_lt {component : List Token} (h : 0 < component.length) :
    (groupBody component).length < component.length := by
  have bound : (inner component).length < component.length := by
    simp only [inner, List.length_dropLast, List.length_drop]
    omega
  unfold groupBody
  split
  · next h => have := length_of_component? h; omega
  · exact h

end SimpleBinary.Token
