/-!
# Bytes as text

Byte sequences are read as UTF-8.  A lead byte fixes the ranges its continuation
bytes lie in; the decoder takes the longest run of bytes that fits them, and a
run that stops short becomes one replacement character, after which reading goes
on at the first byte that did not fit.
-/

namespace Reparse

namespace Utf8

/-- Stands in the decoded text for bytes that spell no character. -/
def replacement : Char := Char.ofNat 0xFFFD

/-- The ranges of the continuation bytes that a lead byte asks for; none for a
byte that begins no character. -/
def continuations (lead : Nat) : Option (List (Nat × Nat)) :=
  if lead < 0x80 then some []
  else if lead < 0xC2 then none
  else if lead < 0xE0 then some [(0x80, 0xBF)]
  else if lead = 0xE0 then some [(0xA0, 0xBF), (0x80, 0xBF)]
  else if lead = 0xED then some [(0x80, 0x9F), (0x80, 0xBF)]
  else if lead < 0xF0 then some [(0x80, 0xBF), (0x80, 0xBF)]
  else if lead = 0xF0 then some [(0x90, 0xBF), (0x80, 0xBF), (0x80, 0xBF)]
  else if lead < 0xF4 then some [(0x80, 0xBF), (0x80, 0xBF), (0x80, 0xBF)]
  else if lead = 0xF4 then some [(0x80, 0x8F), (0x80, 0xBF), (0x80, 0xBF)]
  else none

/-- The longest run of leading bytes that lie in the ranges one by one. -/
def fitting : List (Nat × Nat) → List UInt8 → List UInt8
  | (low, high) :: ranges, byte :: rest =>
      if low ≤ byte.toNat ∧ byte.toNat ≤ high then byte :: fitting ranges rest
      else []
  | _, _ => []

def combine (lead : Nat) (tail : List UInt8) : Char :=
  let payload :=
    if tail.length = 0 then lead else lead % (1 <<< (6 - tail.length))
  Char.ofNat (tail.foldl (fun code byte => code * 64 + byte.toNat % 64) payload)

/-- The text of a byte sequence, with the replacement character where it is not
UTF-8. -/
def decode : List UInt8 → List Char
  | [] => []
  | lead :: rest =>
      match continuations lead.toNat with
      | none => replacement :: decode rest
      | some ranges =>
          let tail := fitting ranges rest
          let character :=
            if tail.length = ranges.length then combine lead.toNat tail
            else replacement
          character :: decode (rest.drop tail.length)
termination_by bytes => bytes.length
decreasing_by all_goals simp; try omega

def encode (text : String) : List UInt8 := text.toUTF8.data.toList

end Utf8

end Reparse
