/-!
Decimal numerals of bounded size: digits, with one plus sign allowed in front.
-/
namespace ZoneSigning.Text

def digitValue (c : Char) : Nat := c.toNat - '0'.toNat

def ofDigits (cs : List Char) : Nat :=
  cs.foldl (fun n c => 10 * n + digitValue c) 0

/-- Read a numeral of at least one digit whose value is at most `limit`. -/
def readNumeral (limit : Nat) (cs : List Char) : Option Nat :=
  let digits := if cs.head? = some '+' then cs.tail else cs
  if digits.isEmpty || !digits.all Char.isDigit then none
  else if ofDigits digits ≤ limit then some (ofDigits digits) else none

def maxByte : Nat := 255

def maxHalf : Nat := 65535

def maxWord : Nat := 4294967295

def maxLong : Nat := 18446744073709551615

end ZoneSigning.Text
