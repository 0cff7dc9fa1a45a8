/-!
# Decimals

A natural number is read from its digits; it may have leading zeros and a plus
sign in front.

A binary64 number is an integer times a power of two, so its decimal expansion
is finite and can be cut at any place exactly.  `Decimal.fixed` cuts it at six
places; a value halfway between two such decimals goes to the even one.
-/

namespace Reparse

namespace Decimal

/-- The number that decimal digits stand for after the digits of `leading`, if
all characters are digits. -/
def natural? (leading : Nat) : List Char → Option Nat
  | [] => some leading
  | digit :: rest =>
      if digit.isDigit then
        natural? (10 * leading + (digit.toNat - '0'.toNat)) rest else none

def read? : List Char → Option Nat
  | [] | ['+'] => none
  | '+' :: digits => natural? 0 digits
  | digits => natural? 0 digits

/-- The integer nearest to `numerator / denominator`, halves going to the even
neighbour. -/
def roundDiv (numerator denominator : Nat) : Nat :=
  let quotient := numerator / denominator
  let remainder := numerator % denominator
  if denominator < 2 * remainder then quotient + 1
  else if 2 * remainder = denominator then quotient + quotient % 2
  else quotient

/-- Six decimal places of `mantissa * 2 ^ exponent / 2 ^ scale`. -/
def sixPlaces (mantissa exponent scale : Nat) : String :=
  let millionths := roundDiv ((mantissa <<< exponent) * 1000000) (1 <<< scale)
  let fraction := toString (millionths % 1000000)
  toString (millionths / 1000000) ++ "." ++
    String.ofList (List.replicate (6 - fraction.length) '0') ++ fraction

/-- A finite number that is not negative, written with six decimal places. -/
def fixed (value : Float) : String :=
  let bits := value.toBits.toNat
  let biased := (bits >>> 52) % (1 <<< 11)
  let fraction := bits % (1 <<< 52)
  if biased = 0 then sixPlaces fraction 0 1074
  else sixPlaces ((1 <<< 52) + fraction) (biased - 1075) (1075 - biased)

end Decimal

end Reparse
