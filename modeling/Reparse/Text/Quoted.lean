import Reparse.Text.Printable

/-!
# Quoted text

Texts and characters are shown between quotes.  The escapes are the short ones
for the null character, tab, line feed, carriage return, the backslash and the
surrounding quote, and the code point in braces for every other character that
would not be visible.
-/

namespace Reparse

namespace Quoted

def hexDigits (number : Nat) : List Char := Nat.toDigits 16 number

def codePointEscape (character : Char) : List Char :=
  ['\\', 'u', '\x7b'] ++ hexDigits character.toNat ++ ['\x7d']

/-- How one character is written between two `quote` characters. -/
def escape (quote character : Char) : List Char :=
  if character = Char.ofNat 0 then ['\\', '0']
  else if character = '\t' then ['\\', 't']
  else if character = '\r' then ['\\', 'r']
  else if character = '\n' then ['\\', 'n']
  else if character = '\\' ∨ character = quote then ['\\', character]
  else if isConcealed character then codePointEscape character
  else [character]

def text (characters : List Char) : String :=
  String.ofList ('"' :: (characters.flatMap (escape '"') ++ ['"']))

def character (shown : Char) : String :=
  String.ofList ('\'' :: (escape '\'' shown ++ ['\'']))

def hexByte (byte : UInt8) : List Char :=
  if byte.toNat < 16 then '0' :: hexDigits byte.toNat else hexDigits byte.toNat

end Quoted

end Reparse
