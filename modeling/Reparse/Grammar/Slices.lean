import Reparse.Grammar.Pattern

/-!
# Scans that check their slices

A scan goes through a text by indices: it slices off what was matched so far,
looks for the next byte of interest in the rest, and jumps behind it.  Here
every slice is checked to begin within the bytes it is taken of, and the search
for a closing delimiter jumps for as long as it finds something.  So a slice
that lies outside, like a search that never comes to an end, leaves a scan
without a value.
-/

namespace Reparse

/-- The bytes from an index on, if the index does not lie past their end. -/
def slice? (bytes : List UInt8) (index : Nat) : Option (List UInt8) :=
  if index ≤ bytes.length then some (bytes.drop index) else none

namespace Pattern

/-- `Pattern.scanLiteral` with an index that counts the bytes compared. -/
def literalFrom (rest : List UInt8) (index : Nat) : (text : List UInt8) → Scan
  | [] => .matched index index
  | expected :: text =>
      if rest[index]? = some expected then literalFrom rest (index + 1) text
      else .failed (index + 1)

/-- `Pattern.scanIdentifier` with the slice behind the first byte. -/
def identifierSliced (rest : List UInt8) : Option Scan :=
  match rest.head? with
  | none => some (.failed 1)
  | some first => do
      if Byte.startsName first then
        let behind ← slice? rest 1
        let length := 1 + (behind.takeWhile Byte.continuesName).length
        return .matched length (length + 1)
      else return .failed 1

/-- `Pattern.scanNumber` with the slice behind the point. -/
def numberSliced (rest : List UInt8) : Option Scan := do
  let whole := (rest.takeWhile Byte.isDigit).length
  if whole = 0 then return .failed 1
  else if rest[whole]? ≠ some Byte.point then return .matched whole (whole + 1)
  else
    let fraction ← slice? rest (whole + 1)
    let places := (fraction.takeWhile Byte.isDigit).length
    if places = 0 then return .matched whole (whole + 2)
    else
      let length := whole + 1 + places
      return .matched length (length + 1)

/-- A quotation being scanned: its delimiter, and the bytes from the opening one
on. -/
structure Quotation where
  delimiter : UInt8
  rest : List UInt8

/-- Jumps from one delimiter or backslash to the next, from an index on, until a
delimiter is met that no backslash protects. -/
def Quotation.jump (quotation : Quotation) (index : Nat) : Option Scan := do
  let ahead ← slice? quotation.rest index
  match ahead.findIdx? fun byte => byte == quotation.delimiter ||
      byte == Byte.backslash with
  | none => return .failed (quotation.rest.length + 1)
  | some distance =>
      let place := index + distance
      let byte ← quotation.rest[place]?
      if byte = quotation.delimiter then return .matched (place + 1) (place + 1)
      else if quotation.rest.length < place + 2 then
        return .failed (quotation.rest.length + 1)
      else quotation |>.jump (place + 2)
partial_fixpoint

/-- `Pattern.scanQuoted` by jumps. -/
def quotedSliced (delimiter : UInt8) (rest : List UInt8) : Option Scan :=
  if rest.head? = some delimiter then Quotation.jump ⟨delimiter, rest⟩ 1
  else some (.failed 1)

/-- `Pattern.scanLineComment` with the slice behind the opening bytes. -/
def lineCommentSliced (opening rest : List UInt8) : Option Scan := do
  let start := literalFrom rest 0 opening
  if start.length.isNone then return start
  else
    let body ← slice? rest opening.length
    let line :=
      (body.findIdx? fun byte => byte == Byte.newline).getD body.length
    let length := opening.length + line
    return .matched length (length + 1)

/-- `Pattern.scanAt?` by indices, with every slice checked. -/
def scanSliced (pattern : Pattern) (input : List UInt8) (position : Nat) :
    Option Scan := do
  let rest ← slice? input position
  match pattern with
  | .literal text => return literalFrom rest 0 text
  | .identifier => identifierSliced rest
  | .number => numberSliced rest
  | .quoted delimiter => quotedSliced delimiter rest
  | .whitespace =>
      let length := (rest.takeWhile Byte.isSpace).length
      if length = 0 then return .failed 1
      else return .matched length (length + 1)
  | .lineComment opening => lineCommentSliced opening rest

end Pattern

end Reparse
