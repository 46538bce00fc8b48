import ScriptCodec.Error
import ScriptCodec.Text.Blank
import ScriptCodec.Text.Decimal

/-!
# Opcode tables

A table ties opcode numbers to words and descriptions.  It is a list of rows; when an opcode or a
word stands in several rows, the last of them counts.  Words are case sensitive.

Within a row with one opcode every word names that opcode; otherwise words and opcodes are paired
by their places.
-/

namespace ScriptCodec
namespace Opcode

/-- One row: words, the opcodes they name, and what these opcodes do. -/
structure Row where
  words : List String
  opcodes : List UInt8
  /-- What the opcodes take from the stack -/
  input : String
  /-- What the opcodes leave on the stack -/
  output : String
  description : String
  /-- Whether scripts with these opcodes are refused -/
  disabled : Bool
deriving DecidableEq, Repr

namespace Row

/-- The opcode that a row gives to one of its words: its only opcode, or the one at the word's own
place. -/
def opcodeOf? (row : Row) (word : String) : Option UInt8 :=
  match row.opcodes with
  | [code] => some code
  | codes => (row.words.findIdx? (· == word)).bind fun i => codes[i]?

/-- The word that a row gives to one of its opcodes: its only word, or the one at the opcode's own
place, or else the first. -/
def wordOf? (row : Row) (code : UInt8) : Option String :=
  match row.words with
  | [] => none
  | [word] => some word
  | first :: others =>
      let place := (row.opcodes.findIdx? (· == code)).getD 0
      some ((first :: others).getD place first)

end Row

/-- Rows in the order in which they are searched: the last row given comes first. -/
structure Table where
  latestFirst : List Row
deriving DecidableEq, Repr

namespace Table

/-- The table of the given rows. -/
def ofRows (rows : List Row) : Table :=
  ⟨rows.reverse⟩

/-- The row of an opcode. -/
def rowOfCode? (table : Table) (code : UInt8) : Option Row :=
  table.latestFirst.find? fun row => row.opcodes.contains code

/-- The row of a word. -/
def rowOfWord? (table : Table) (word : String) : Option Row :=
  table.latestFirst.find? fun row => row.words.contains word

/-- Whether an opcode has a row. -/
def hasCode (table : Table) (code : UInt8) : Bool :=
  (table.rowOfCode? code).isSome

/-- Whether a word has a row. -/
def hasWord (table : Table) (word : String) : Bool :=
  (table.rowOfWord? word).isSome

/-- The row of an opcode that must have one. -/
def rowOfCode (table : Table) (code : UInt8) : Except Error Row :=
  match table.rowOfCode? code with
  | some row => .ok row
  | none => .error (.invalidOpcodeNumber code.toNat)

/-- The opcode that a word names. -/
def codeOfWord (table : Table) (word : String) : Except Error UInt8 :=
  match (table.rowOfWord? word).bind fun row => row.opcodeOf? word with
  | some code => .ok code
  | none => .error (.unknownWord word)

/-- The word of an opcode; the direct pushes have none. -/
def wordOfCode (table : Table) (code : UInt8) : Except Error (Option String) :=
  match table.rowOfCode code with
  | .ok row => .ok (row.wordOf? code)
  | .error e => .error e

/-- How an opcode is named in text. -/
def nameOfCode (table : Table) (code : UInt8) : Except Error String :=
  match table.wordOfCode code with
  | .ok (some word) => .ok word
  | .ok none => .ok ("PUSH_DATA(" ++ toString code.toNat ++ ")")
  | .error e => .error e

/-- What an opcode does.  A direct push is described by its length and not by its row. -/
def descriptionOfCode (table : Table) (code : UInt8) : Except Error String :=
  match table.rowOfCode code with
  | .error e => .error e
  | .ok row =>
      if code = 1 then .ok "The next byte is data to be pushed onto the stack"
      else if 2 ≤ code ∧ code ≤ maxDirectPush then
        .ok s!"The next {code.toNat} bytes is data to be pushed onto the stack"
      else .ok row.description

/-- What an opcode takes from the stack. -/
def inputOfCode (table : Table) (code : UInt8) : Except Error String :=
  (table.rowOfCode code).map Row.input

/-- What an opcode leaves on the stack. -/
def outputOfCode (table : Table) (code : UInt8) : Except Error String :=
  (table.rowOfCode code).map Row.output

/-- Whether an opcode is disabled. -/
def isDisabledCode (table : Table) (code : UInt8) : Except Error Bool :=
  (table.rowOfCode code).map Row.disabled

/-- A question about opcodes, asked of a word. -/
def ofWord {α : Type} (ask : Table → UInt8 → Except Error α) (table : Table) (word : String) :
    Except Error α :=
  match table.codeOfWord word with
  | .ok code => ask table code
  | .error e => .error e

/-- What the opcode of a word does. -/
def descriptionOfWord : Table → String → Except Error String :=
  ofWord descriptionOfCode

/-- What the opcode of a word takes from the stack. -/
def inputOfWord : Table → String → Except Error String :=
  ofWord inputOfCode

/-- What the opcode of a word leaves on the stack. -/
def outputOfWord : Table → String → Except Error String :=
  ofWord outputOfCode

/-- Whether the opcode of a word is disabled. -/
def isDisabledWord : Table → String → Except Error Bool :=
  ofWord isDisabledCode

/-- The opcode that a user means: a decimal number is taken as the opcode itself and any other
text as a word. -/
def resolve (table : Table) (text : String) : Except Error UInt8 :=
  let trimmed := Text.trim text.toList
  match Decimal.int64? trimmed with
  | some n =>
      if 0 ≤ n ∧ n < 256 ∧ table.hasCode (UInt8.ofNat n.toNat) then .ok (UInt8.ofNat n.toNat)
      else .error (.invalidOpcodeNumber n)
  | none => table.codeOfWord (String.ofList trimmed)

end Table
end Opcode
end ScriptCodec
