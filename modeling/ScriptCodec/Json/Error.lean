import ScriptCodec.Text.Quoted

/-!
# Faults of JSON texts

A text can end too early, be malformed, or hold a well-formed value that does not fit.  Only
faults of the last kind carry a text.
-/

namespace ScriptCodec
namespace Json

/-- What a reader wants to find. -/
inductive Expectation where
  | options
  | encoding
  | literalStyle
  | opcodeStyle
  | scriptType
  | rawScript
  | map
  | byte
  | text
  | boolean
deriving DecidableEq, Repr

/-- The words for what is wanted. -/
def Expectation.phrase : Expectation → String
  | .options => "struct Options"
  | .encoding => "null, \"hex\" or \"base64\""
  | .literalStyle => "a literal style"
  | .opcodeStyle => "an opcode style"
  | .scriptType => "a script type name"
  | .rawScript => "a hex encoded raw script"
  | .map => "a map"
  | .byte => "u8"
  | .text => "a string"
  | .boolean => "a boolean"

/-- A value found in place of the wanted one; a fractional number by its shortest text. -/
inductive Found where
  | null
  | boolean (value : Bool)
  | integer (value : Int)
  | fractional (value : String)
  | text (value : String)
  | sequence
  | map
deriving DecidableEq, Repr

/-- The words for what was found. -/
def Found.phrase : Found → String
  | .null => "null"
  | .boolean b => "boolean \x60" ++ (if b then "true" else "false") ++ "\x60"
  | .integer n => "integer \x60" ++ toString n ++ "\x60"
  | .fractional x => "floating point \x60" ++ x ++ "\x60"
  | .text s => "string " ++ Quoted.quote s
  | .sequence => "sequence"
  | .map => "map"

/-- Why a well-formed value does not fit. -/
inductive Misfit where
  /-- A value of another kind -/
  | kind (found : Found) (wanted : Expectation)
  /-- An integer outside the wanted range -/
  | range (value : Int) (wanted : Expectation)
  /-- A field that occurs a second time -/
  | duplicateField (name : String)
  /-- A text that the wanted type does not read, with the reason -/
  | rejected (reason : String)
deriving DecidableEq, Repr

/-- The text of a misfit. -/
def Misfit.message : Misfit → String
  | .kind found wanted => "invalid type: " ++ found.phrase ++ ", expected " ++ wanted.phrase
  | .range n wanted =>
      "invalid value: " ++ (Found.integer n).phrase ++ ", expected " ++ wanted.phrase
  | .duplicateField name => "duplicate field \x60" ++ name ++ "\x60"
  | .rejected reason => reason

/-- Why reading a JSON text fails. -/
inductive Error where
  /-- The text ends inside a value -/
  | endOfText
  /-- The text is no JSON -/
  | malformed
  /-- A value does not fit -/
  | misfit (reason : Misfit)
deriving DecidableEq, Repr

/-- The text of an error; only a misfit has one of its own. -/
def Error.message : Error → String
  | .endOfText => "unexpected end of JSON text"
  | .malformed => "malformed JSON text"
  | .misfit reason => reason.message

/-- A reader takes a value from the front of a text and returns what follows it. -/
abbrev Read (α : Type) : Type := List Char → Except Error (α × List Char)

/-- Drops the white space that may stand around values. -/
def skipSpace (cs : List Char) : List Char :=
  cs.dropWhile fun c => c == ' ' || c == '\n' || c == '\t' || c == '\r'

end Json
end ScriptCodec
