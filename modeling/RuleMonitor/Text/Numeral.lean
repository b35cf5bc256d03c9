/-!
# Numerals

Options hold natural numbers and attributes hold integers, both in decimal and both limited to 64
bits. A sign may stand first, and at least one ASCII digit has to follow.

* `decimal?`: the value of a non-empty run of digits.
* `natural?`: an optional `+` and digits, below `wordBound`.
* `integer?`: an optional sign and digits, of 64 bits with the sign.
-/

namespace RuleMonitor.Text

/-- The number written by a run of digits after the digits that make `acc`. -/
def decimalFrom (acc : Nat) : List Char → Option Nat
  | [] => some acc
  | c :: cs => if c.isDigit then decimalFrom (acc * 10 + (c.toNat - '0'.toNat)) cs else none

/-- The number written by a non-empty run of ASCII digits. -/
def decimal? : List Char → Option Nat
  | [] => none
  | cs => decimalFrom 0 cs

/-- The first natural number that needs more than 64 bits. -/
def wordBound : Nat := 18446744073709551616

/-- The integers of 64 bits. -/
def isInt64 (n : Int) : Bool :=
  -9223372036854775808 ≤ n && n < 9223372036854775808

/-- A natural number of 64 bits, with an optional plus sign. -/
def natural? (cs : List Char) : Option Nat :=
  let digits := match cs with
    | '+' :: rest => rest
    | _ => cs
  (decimal? digits).filter (· < wordBound)

/-- An integer of 64 bits, with an optional sign. -/
def integer? (cs : List Char) : Option Int :=
  let value := match cs with
    | '+' :: rest => (decimal? rest).map Int.ofNat
    | '-' :: rest => (decimal? rest).map fun n => -Int.ofNat n
    | _ => (decimal? cs).map Int.ofNat
  value.filter isInt64

end RuleMonitor.Text
