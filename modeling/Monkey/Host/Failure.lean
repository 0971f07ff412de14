/-!
# Failures of the console and of files
-/

namespace Monkey.Host

/-- Why the console or a file could not be used. -/
inductive Failure
  | notFound | notDirectory | isDirectory | nulInName | notUtf8 | outputClosed
deriving DecidableEq, Repr, Inhabited

namespace Failure

/-- The wording of a failure. -/
def message : Failure → String
  | notFound => "No such file or directory (os error 2)"
  | notDirectory => "Not a directory (os error 20)"
  | isDirectory => "Is a directory (os error 21)"
  | nulInName => "file name contained an unexpected NUL byte"
  | notUtf8 => "stream did not contain valid UTF-8"
  | outputClosed => "output closed"

end Failure

/-- Bytes as text. -/
def decode (bytes : ByteArray) : Except Failure String :=
  match String.fromUTF8? bytes with
  | some text => .ok text
  | none => .error .notUtf8

end Monkey.Host
