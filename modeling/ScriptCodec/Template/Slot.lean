import ScriptCodec.Opcode.Table

/-!
# Slots of templates

The text of a placeholder states what may stand in its place: `20-byte` and any continuation of it
a literal of that size, a word its opcode, two words with a hyphen the opcodes between theirs, and
any other text an arbitrary literal.
-/

namespace ScriptCodec

/-- What may stand in the place of a placeholder. -/
inductive Slot where
  /-- A literal of exactly this size -/
  | sized (size : Nat)
  /-- An opcode in a range, both ends included -/
  | opcodes (first last : UInt8)
  /-- Any literal -/
  | anyLiteral
deriving DecidableEq, Repr

namespace Slot

/-- What follows the digits of a size. -/
def sizeMark : List Char :=
  ['-', 'b', 'y', 't', 'e']

/-- The size that a placeholder starts with. -/
def size? (text : List Char) : Option Nat :=
  if sizeMark.isPrefixOf (text.dropWhile Char.isDigit) then
    Decimal.word64? (text.takeWhile Char.isDigit)
  else none

/-- The opcode of a word, if the table has one. -/
def opcode? (table : Opcode.Table) (word : List Char) : Option UInt8 :=
  (table.codeOfWord (String.ofList word)).toOption

/-- The opcodes of the two words around the first hyphen. -/
def range? (table : Opcode.Table) (text : List Char) : Option (UInt8 × UInt8) :=
  match text.dropWhile fun c => c != '-' with
  | [] => none
  | _ :: upper =>
      match opcode? table (text.takeWhile fun c => c != '-'), opcode? table upper with
      | some first, some last => some (first, last)
      | _, _ => none

/-- The slot that a placeholder text describes. -/
def ofChars (table : Opcode.Table) (text : List Char) : Slot :=
  match size? text with
  | some n => .sized n
  | none =>
      match opcode? table text with
      | some code => .opcodes code code
      | none =>
          match range? table text with
          | some (first, last) => .opcodes first last
          | none => .anyLiteral

/-- The slot that a placeholder describes. -/
def ofText (table : Opcode.Table) (text : String) : Slot :=
  ofChars table text.toList

/-- Whether a token may stand in the slot. -/
def accepts : Slot → Token → Bool
  | .sized n, .literal data => data.length == n
  | .opcodes first last, .opcode code => first ≤ code && code ≤ last
  | .anyLiteral, .literal _ => true
  | _, _ => false

end Slot
end ScriptCodec
