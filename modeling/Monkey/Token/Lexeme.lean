import Monkey.Text.Numeric
import Monkey.Token

/-!
# Lexemes

The text of the next token at the front of an input, and its kind. Every lexeme is the longest
piece of its class at that place: `==` before `=`, a number with its fraction, a whole word.
-/

namespace Monkey.Token

/-- The characters that separate tokens and mean nothing else. -/
def isSpace (c : Char) : Bool :=
  c = ' ' || c = '\t' || c = '\r' || c = '\n'

/-- The text of one token, quotes included, and its kind. -/
structure Lexeme where
  kind : Kind
  text : List Char
deriving DecidableEq, Repr, Inhabited

namespace Lexeme

/-- The text that the token carries: a string loses its quotes. -/
def literal (x : Lexeme) : String :=
  String.ofList <| match x.kind with
    | .string => x.text.tail.dropLast
    | _ => x.text

/-- The token of a lexeme that starts at the given position. -/
def toToken (x : Lexeme) (position : Position) : Token :=
  ⟨x.kind, x.literal, position⟩

/-- A string runs to the next quote; there are no escapes. Without a second quote the rest of the
input is illegal. -/
def quoted (cs : List Char) : Lexeme :=
  let content := cs.takeWhile (· ≠ '"')
  match cs.dropWhile (· ≠ '"') with
  | [] => ⟨.illegal, '"' :: content⟩
  | _ :: _ => ⟨.string, '"' :: content ++ ['"']⟩

/-- A run of digits, with a fraction if a point and another digit follow. -/
def number (cs : List Char) : Lexeme :=
  let whole := cs.takeWhile Char.isDigit
  let fraction := match cs.dropWhile Char.isDigit with
    | '.' :: more => more.takeWhile Char.isDigit
    | _ => []
  if fraction.isEmpty then ⟨.int, whole⟩ else ⟨.float, whole ++ '.' :: fraction⟩

/-- A word: an identifier or a reserved word. -/
def word (c : Char) (cs : List Char) : Lexeme :=
  let text := c :: cs.takeWhile Text.isAlphanumeric
  ⟨Kind.ofWord (String.ofList text), text⟩

/-- The lexeme at the front of the input `c :: cs`, where `c` is no space. -/
def atFront : Char → List Char → Lexeme
  | '=', '=' :: _ => ⟨.eq, ['=', '=']⟩
  | '=', _ => ⟨.assign, ['=']⟩
  | '!', '=' :: _ => ⟨.notEq, ['!', '=']⟩
  | '!', _ => ⟨.bang, ['!']⟩
  | '&', '&' :: _ => ⟨.and, ['&', '&']⟩
  | '|', '|' :: _ => ⟨.or, ['|', '|']⟩
  | '+', _ => ⟨.plus, ['+']⟩
  | '-', _ => ⟨.minus, ['-']⟩
  | '*', _ => ⟨.asterisk, ['*']⟩
  | '/', _ => ⟨.slash, ['/']⟩
  | '<', _ => ⟨.lt, ['<']⟩
  | '>', _ => ⟨.gt, ['>']⟩
  | ',', _ => ⟨.comma, [',']⟩
  | ';', _ => ⟨.semicolon, [';']⟩
  | '(', _ => ⟨.lparen, ['(']⟩
  | ')', _ => ⟨.rparen, [')']⟩
  | '{', _ => ⟨.lbrace, ['{']⟩
  | '}', _ => ⟨.rbrace, ['}']⟩
  | '[', _ => ⟨.lbracket, ['[']⟩
  | ']', _ => ⟨.rbracket, [']']⟩
  | '"', cs => quoted cs
  | c, cs =>
    if c.isDigit then number (c :: cs)
    else if Text.isAlphabetic c then word c cs
    else ⟨.illegal, [c]⟩

end Lexeme

end Monkey.Token
