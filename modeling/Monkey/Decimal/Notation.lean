import Monkey.Decimal

/-!
# Writing and reading decimal numbers

Numbers are written positionally, without an exponent, and without a point when they are whole.
They are read with an optional point and an optional exponent.
-/

namespace Monkey.Decimal

-- Powers are those of the standard library, whatever else is in scope.
attribute [local instance (high)] instPowNat

/-- The digits of `n` with zeros in front up to the given width. -/
def padded (width n : Nat) : List Char :=
  let digits := Nat.toDigits 10 n
  List.replicate (width - digits.length) '0' ++ digits

/-- Positional notation: whole numbers without a point, others with one digit or more on each side
of it. -/
def positional (d : Decimal) : List Char :=
  match d.exponent with
  | .ofNat e => Nat.toDigits 10 d.digits ++ List.replicate e '0'
  | .negSucc e =>
    let scale := 10 ^ (e + 1)
    Nat.toDigits 10 (d.digits / scale) ++ '.' :: padded (e + 1) (d.digits % scale)

/-- The value of a run of decimal digits. -/
def digitsValue (cs : List Char) : Nat :=
  cs.foldl (fun value c => 10 * value + (c.toNat - 48)) 0

/-- The number written as an optional sign and one decimal digit or more, with nothing after. -/
def readSigned? (cs : List Char) : Option Int :=
  let (negative, digits) := match cs with
    | '-' :: rest => (true, rest)
    | '+' :: rest => (false, rest)
    | _ => (false, cs)
  if digits.isEmpty || !digits.all Char.isDigit then none
  else if negative then some (-(digitsValue digits : Int)) else some (digitsValue digits)

/-- The exponent part at the end of a number: nothing, or a mark followed by a signed number. -/
def readExponent? : List Char → Option Int
  | [] => some 0
  | c :: rest => if c = 'e' || c = 'E' then readSigned? rest else none

/-- The number written as digits, a point, digits and an exponent. The point and the exponent are
optional, and one of the two digit runs may be empty. -/
def read? (cs : List Char) : Option Decimal := do
  let whole := cs.takeWhile Char.isDigit
  let afterWhole := cs.dropWhile Char.isDigit
  let (fraction, rest) := match afterWhole with
    | '.' :: more => (more.takeWhile Char.isDigit, more.dropWhile Char.isDigit)
    | _ => ([], afterWhole)
  if whole.isEmpty && fraction.isEmpty then none
  let exponent ← readExponent? rest
  return ⟨digitsValue (whole ++ fraction), exponent - fraction.length⟩

end Monkey.Decimal
