import Monkey.Token

/-!
# Token sequences

A sequence of tokens that ends with an end marker. It is read from the front and never past the
marker, which stays when everything before it is gone.
-/

namespace Monkey

/-- Tokens followed by an end marker. -/
structure Tokens where
  front : List Token
  last : Token
  last_eof : last.kind = .eof

namespace Tokens

/-- The whole sequence. -/
def toList (tokens : Tokens) : List Token :=
  tokens.front ++ [tokens.last]

/-- A list of tokens as a sequence, if it ends with an end marker. -/
def ofList? : List Token → Option Tokens
  | [] => none
  | [last] => if h : last.kind = .eof then some ⟨[], last, h⟩ else none
  | token :: rest => (ofList? rest).map fun tokens => { tokens with front := token :: tokens.front }

/-- The sequence with one more token in front. -/
def cons (token : Token) (tokens : Tokens) : Tokens :=
  { tokens with front := token :: tokens.front }

/-- The first token of the sequence, the end marker if nothing stands before it. -/
def current (tokens : Tokens) : Token :=
  tokens.front.headD tokens.last

/-- The kind of the first token. -/
def kind (tokens : Tokens) : Token.Kind :=
  tokens.current.kind

/-- The sequence without its first token; the end marker is never dropped. -/
def advance (tokens : Tokens) : Tokens :=
  { tokens with front := tokens.front.tail }

@[simp]
theorem length_front_advance (tokens : Tokens) :
    tokens.advance.front.length = tokens.front.length - 1 := by
  simp [advance]

/-- Only an end marker is left when nothing stands before the last one. -/
theorem kind_of_front_eq_nil {tokens : Tokens} (h : tokens.front = []) : tokens.kind = .eof := by
  simp [kind, current, h, tokens.last_eof]

end Tokens

end Monkey
