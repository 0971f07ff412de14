import Monkey.Host.Failure
import Monkey.Text.Blank

/-!
# The console

Input is read line by line and output is written as text. The output may be closed after a number
of bytes; what still fits of a longer text is kept.
-/

namespace Monkey.Host

/-- Input that has not been read, output so far, and how many bytes of output are accepted in total
if not all. -/
structure Console where
  input : List UInt8
  output : ByteArray
  capacity : Option Nat

namespace Console

/-- A console with the given input whose output is never closed. -/
def ofInput (input : List UInt8) : Console := ⟨input, .empty, none⟩

/-- Reads one line and consumes it together with its line feed. The line is delivered without the
carriage returns at its end; it is lost if it is no text. There is no line at the end of the
input. -/
def readLine (console : Console) : Except Failure (Option String) × Console :=
  if console.input.isEmpty then (.ok none, console)
  else
    let line := console.input.takeWhile (· ≠ 10)
    let rest := (console.input.dropWhile (· ≠ 10)).tail
    let text := (decode line.toByteArray).map fun text =>
      some (String.ofList (Text.dropEndWhile (· = '\r') text.toList))
    (text, { console with input := rest })

/-- How many more bytes of a text of the given size are accepted. -/
def room (console : Console) (size : Nat) : Nat :=
  match console.capacity with
  | none => size
  | some capacity => min size (capacity - console.output.size)

/-- Writes a text, or as much of it as fits. -/
def write (console : Console) (text : String) : Except Failure Unit × Console :=
  let bytes := text.toUTF8
  let room := console.room bytes.size
  (if room < bytes.size then .error .outputClosed else .ok (),
    { console with output := console.output ++ bytes.extract 0 room })

end Console

end Monkey.Host
