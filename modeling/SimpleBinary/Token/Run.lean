import SimpleBinary.Token

/-! Runs of tokens. A begin token is closed by the end token of its kind at
the same depth; `recount` writes the length of each bracketed stretch on both
of its ends. -/
namespace SimpleBinary.Token

/-- The distance to the token that brings the depth of one kind to zero,
starting from a depth above zero. -/
def closeAt (opening closing : Signal) : (depth : Nat) → List Token → Option Nat
  | _, [] => none
  | depth, token :: rest =>
    if token.signal = opening then (closeAt opening closing (depth + 1) rest).map (· + 1)
    else if token.signal = closing then
      if depth ≤ 1 then some 0 else (closeAt opening closing (depth - 1) rest).map (· + 1)
    else (closeAt opening closing depth rest).map (· + 1)

def findEnd (tokens : List Token) (start : Nat) : Option Nat :=
  match tokens.drop start with
  | [] => none
  | token :: rest =>
    match token.signal.closing? with
    | none => none
    | some closing => (closeAt token.signal closing 1 rest).map (start + 1 + ·)

def withCount (token : Token) (count : Nat) : Token :=
  { token with count := Int32.ofNat count }

/-- `done` holds the tokens since the innermost open bracket, `stack` each open
bracket with the tokens before it at its own depth. Brackets left open keep
their counts, as do ends with nothing to close. -/
def recountFrom (done : List Token) (stack : List (Token × List Token)) :
    List Token → List Token
  | [] => stack.foldl (fun inner frame => frame.2 ++ frame.1 :: inner) done
  | token :: rest =>
    if token.signal.isBegin then recountFrom [] ((token, done) :: stack) rest
    else if token.signal.isEnd then
      match stack with
      | [] => recountFrom (done ++ [token]) [] rest
      | (opening, before) :: outer =>
        let count := done.length + 2
        let closed := before ++ opening.withCount count :: done ++ [token.withCount count]
        recountFrom closed outer rest
    else recountFrom (done ++ [token.withCount 1]) stack rest

def recount (tokens : List Token) : List Token := recountFrom [] [] tokens

inductive Nested : List Token → Prop where
  | nil : Nested []
  | leaf {token : Token} {rest : List Token} :
      token.signal.isBegin = false → token.signal.isEnd = false → Nested rest →
      Nested (token :: rest)
  | bracket {opening closing : Token} {inner rest : List Token} :
      opening.signal.closing? = some closing.signal → Nested inner → Nested rest →
      Nested (opening :: inner ++ closing :: rest)

end SimpleBinary.Token
