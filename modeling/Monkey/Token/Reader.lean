import Monkey.Token.Lexeme
import Monkey.Tokens

/-!
# Reading tokens from a source text

A reader holds the part of the source that is still to be read and the position where it starts. It
can be asked for one token at a time, in two ways, or for all tokens at once.
-/

namespace Monkey.Token

/-- The rest of a source text. `finished` records that iteration has delivered the end marker. -/
structure Reader where
  position : Position
  input : List Char
  finished : Bool
deriving DecidableEq, Repr, Inhabited

namespace Reader

/-- A reader at the start of a source text. -/
def ofSource (source : String) : Reader :=
  ⟨.start, source.toList, false⟩

/-- Moves past the spaces at the front. -/
def skipSpace (r : Reader) : Reader :=
  { r with
    position := r.position.after (r.input.takeWhile isSpace)
    input := r.input.dropWhile isSpace }

/-- The end marker at the reader's position. -/
def eofToken (r : Reader) : Token :=
  ⟨.eof, "", r.position⟩

/-- Moves past a lexeme that starts with the first character of `c :: cs`, the rest of the input. -/
def consume (r : Reader) (x : Lexeme) (cs : List Char) : Reader :=
  { r with position := r.position.after x.text, input := cs.drop (x.text.length - 1) }

/-- The next token. At the end of the source it is an end marker, again and again. -/
def next (r : Reader) : Token × Reader :=
  let r := r.skipSpace
  match r.input with
  | [] => (r.eofToken, r)
  | c :: cs =>
    let x := Lexeme.atFront c cs
    (x.toToken r.position, r.consume x cs)

/-- The next token of an iteration, which ends once it has delivered an end marker. -/
def next? (r : Reader) : Option Token × Reader :=
  if r.finished then (none, r)
  else
    let (token, r) := r.next
    (some token, { r with finished := token.kind == .eof })

/-- Consuming a lexeme leaves less to read. -/
theorem length_input_consume_lt {r : Reader} {c : Char} {cs : List Char}
    (hinput : r.skipSpace.input = c :: cs) (x : Lexeme) :
    (r.skipSpace.consume x cs).input.length < r.input.length := by
  have hlength : (c :: cs).length ≤ r.input.length :=
    hinput ▸ (r.input.dropWhile_suffix isSpace).length_le
  simp only [consume, List.length_drop, List.length_cons] at hlength ⊢
  omega

/-- All tokens from here to the end of the source. -/
def tokens (r : Reader) : Tokens :=
  match hinput : r.skipSpace.input with
  | [] => ⟨[], r.skipSpace.eofToken, rfl⟩
  | c :: cs =>
    let x := Lexeme.atFront c cs
    have := length_input_consume_lt hinput x
    (r.skipSpace.consume x cs).tokens.cons (x.toToken r.skipSpace.position)
termination_by r.input.length

end Reader

/-- The tokens of a source text. -/
def tokenize (source : String) : Tokens :=
  (Reader.ofSource source).tokens

end Monkey.Token
