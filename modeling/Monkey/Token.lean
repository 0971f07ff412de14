/-!
# Tokens

A token is a piece of source text with its kind and the position of its first character. Kinds have
a display name, used in diagnostics.
-/

namespace Monkey

/-- A place in a source text. Lines and columns count from one; columns count characters. -/
structure Position where
  line : Nat
  column : Nat
deriving DecidableEq, Repr, Inhabited

namespace Position

/-- The first character of a text. -/
def start : Position := ⟨1, 1⟩

/-- The place after one character. Only a line feed starts a new line. -/
def next (position : Position) (c : Char) : Position :=
  if c = '\n' then ⟨position.line + 1, 1⟩ else ⟨position.line, position.column + 1⟩

/-- The place after a run of characters. -/
def after (position : Position) (cs : List Char) : Position :=
  cs.foldl next position

@[simp]
theorem after_nil (position : Position) : position.after [] = position := rfl

@[simp]
theorem after_cons (position : Position) (c : Char) (cs : List Char) :
    position.after (c :: cs) = (position.next c).after cs := rfl

theorem after_append (position : Position) (cs ds : List Char) :
    position.after (cs ++ ds) = (position.after cs).after ds := by
  simp [after]

end Position

/-- What a token is. The last eight are the reserved words. -/
inductive Token.Kind
  | illegal | eof | ident | int | float | string
  | assign | plus | minus | bang | asterisk | slash
  | eq | notEq | and | or | lt | gt
  | comma | semicolon | lparen | rparen | lbrace | rbrace | lbracket | rbracket
  | fnWord | letWord | trueWord | falseWord | ifWord | elseWord | whileWord | returnWord
deriving DecidableEq, Repr, Inhabited

/-- A token: its kind, the text it stands for, and where it starts. The literal of a string token
is the text between its quotes. -/
structure Token where
  kind : Token.Kind
  literal : String
  position : Position
deriving DecidableEq, Repr, Inhabited

namespace Token.Kind

/-- The name of the kind in diagnostics. -/
def name : Kind → String
  | illegal => "ILLEGAL"
  | eof => "EOF"
  | ident => "IDENT"
  | int => "INT"
  | float => "FLOAT"
  | string => "STRING"
  | assign => "="
  | plus => "+"
  | minus => "-"
  | bang => "!"
  | asterisk => "*"
  | slash => "/"
  | eq => "=="
  | notEq => "!="
  | and => "&&"
  | or => "||"
  | lt => "<"
  | gt => ">"
  | comma => ","
  | semicolon => ";"
  | lparen => "("
  | rparen => ")"
  | lbrace => "\x7b"
  | rbrace => "\x7d"
  | lbracket => "["
  | rbracket => "]"
  | fnWord => "fn"
  | letWord => "let"
  | trueWord => "true"
  | falseWord => "false"
  | ifWord => "if"
  | elseWord => "else"
  | whileWord => "while"
  | returnWord => "return"

/-- The reserved words. -/
def reserved : List (String × Kind) :=
  [("fn", fnWord), ("let", letWord), ("true", trueWord), ("false", falseWord), ("if", ifWord),
    ("else", elseWord), ("while", whileWord), ("return", returnWord)]

/-- A word is an identifier unless it is reserved. -/
def ofWord (word : String) : Kind :=
  (reserved.lookup word).getD ident

end Token.Kind

end Monkey
