import Linewise.Bytes
/-!
Decimal numbers: their shortest digits, and the two ways in which the tool reads an integer. A
configuration file holds exactly one integer; an argument or an environment value is read up to the
first byte that is no digit.
-/
namespace Linewise.Decimal

/-- The decimal digits of a number, without leading zeros. -/
def ofNat (n : Nat) : Bytes := (Nat.toDigits 10 n).map fun c => c.toNat.toUInt8

/-- The decimal digits of an integer, after a minus sign if it is negative. -/
def ofInt : Int → Bytes
  | .ofNat n => ofNat n
  | .negSucc n => Byte.minus :: ofNat (n + 1)

def ofWord (w : UInt32) : Bytes := ofNat w.toNat

/-- The word read as a two's complement number. -/
def ofSignedWord (w : UInt32) : Bytes := ofInt w.toInt32.toInt

def value (digits : Bytes) : Nat := digits.foldl (fun n d => 10 * n + Byte.digitValue d) 0

/-- The integers that `bits` bits hold in two's complement. -/
def fits (bits : Nat) (n : Int) : Bool :=
  -Int.pow 2 (bits - 1) ≤ n && n < Int.pow 2 (bits - 1)

/-- Reads the whole text as digits after an optional minus sign. -/
def whole? (bits : Nat) (s : Bytes) : Option Int :=
  let negative := s.head? == some Byte.minus
  let digits := if negative then s.drop 1 else s
  if digits.isEmpty || !digits.all Byte.isDigit then none
  else
    let n : Int := value digits
    let n := if negative then -n else n
    if fits bits n then some n else none

/-- Space, tab, line feed, vertical tab, form feed and carriage return. -/
def isSpace (b : UInt8) : Bool := b == Byte.space || (0x09 ≤ b && b ≤ 0x0D)

/-- Reads the longest integer at the start of the text, after any white space and with an optional
sign. What follows the digits is ignored. -/
def leading? (bits : Nat) (s : Bytes) : Option Int :=
  let s := s.dropWhile isSpace
  let negative := s.head? == some Byte.minus
  let signed := negative || s.head? == some Byte.plus
  let digits := (if signed then s.drop 1 else s).takeWhile Byte.isDigit
  if digits.isEmpty then none
  else
    let n : Int := value digits
    let n := if negative then -n else n
    if fits bits n then some n else none

end Linewise.Decimal
