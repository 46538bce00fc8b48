import ScriptCodec.Text.Hex

/-!
# Writing strings of JSON

Between the quotes stand the characters of the text.  The quote, the backslash and the control
characters are escaped, by one letter where there is one and by their code point otherwise.
-/

namespace ScriptCodec
namespace Json

/-- The characters that are escaped by one letter, with that letter. -/
def letters : List (Char × Char) :=
  [('"', '"'), ('\\', '\\'), (Char.ofNat 8, 'b'), (Char.ofNat 12, 'f'), ('\n', 'n'), ('\r', 'r'),
    ('\t', 't')]

/-- How a character is written between the quotes. -/
def escape (c : Char) : List Char :=
  match letters.find? (fun entry => entry.1 == c) with
  | some (_, letter) => ['\\', letter]
  | none =>
      if c < ' ' then '\\' :: 'u' :: '0' :: '0' :: Hex.byteDigits (UInt8.ofNat c.toNat)
      else [c]

/-- The text as a string of JSON, with its quotes. -/
def writeText (text : String) : String :=
  String.ofList ('"' :: text.toList.flatMap escape ++ ['"'])

end Json
end ScriptCodec
