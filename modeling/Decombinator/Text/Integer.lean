/-
Decimal text of 64-bit integers.

Reading accepts one optional sign and then at least one digit, with any number of
leading zeros, as long as the value fits in 64 bits.  Writing gives the shortest
such text, with a sign only for negative numbers.
-/
namespace Decombinator.Text

/-- The value of a non-empty run of decimal digits. -/
def readDigits (cs : List Char) : Option Nat :=
  if cs.isEmpty then none
  else if cs.all Char.isDigit then some (Nat.ofDigitChars 10 cs 0)
  else none

/-- The integer as a 64-bit one, if it is in range. -/
def fit64 (n : Int) : Option Int64 :=
  if Int64.minValue.toInt ≤ n ∧ n ≤ Int64.maxValue.toInt then some (Int64.ofInt n) else none

/-- The 64-bit integer that the characters write, if they write one. -/
def readIntChars : List Char → Option Int64
  | '+' :: ds => (readDigits ds).bind fun n => fit64 n
  | '-' :: ds => (readDigits ds).bind fun n => fit64 (-(n : Int))
  | ds => (readDigits ds).bind fun n => fit64 n

def readInt (text : String) : Option Int64 :=
  readIntChars text.toList

def natText (n : Nat) : String :=
  String.ofList (Nat.toDigits 10 n)

def intText : Int → String
  | .ofNat n => natText n
  | .negSucc n => "-" ++ natText (n + 1)

def int64Text (n : Int64) : String :=
  intText n.toInt

end Decombinator.Text
