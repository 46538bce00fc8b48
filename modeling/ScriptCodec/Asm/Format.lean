import ScriptCodec.Opcode.Table
import ScriptCodec.Options.Basic

/-!
# Writing the textual form of scripts

Tokens are written by the styles of the options and separated by single spaces.  An overriding
word is written as it is; a word of the table loses its mark in the short style.
-/

namespace ScriptCodec
namespace Asm

/-- Writes a literal. -/
def formatLiteral (style : LiteralStyle) (data : List UInt8) : String :=
  match style with
  | .normal => if data.isEmpty then "0" else Hex.encode data
  | .brackets => "[" ++ Hex.encode data ++ "]"
  | .prefixed => if data.isEmpty then "0" else "0x" ++ Hex.encode data
  | .verbose => "PUSHDATA(" ++ toString data.length ++ ")[" ++ Hex.encode data ++ "]"

/-- Drops the mark in front of a word, if there is one. -/
def dropMark (word : String) : String :=
  let cs := word.toList
  if Term.mark.isPrefixOf cs then String.ofList (cs.drop Term.mark.length) else word

/-- A word of the table in a style. -/
def styledWord (style : OpcodeStyle) (word : String) : String :=
  match style with
  | .normal => word
  | .short => dropMark word

/-- Writes one token. -/
def formatToken (t : Token) (options : Options) (table : Opcode.Table) : Except Error String :=
  match t with
  | .literal data => .ok (formatLiteral options.literalStyle data)
  | .opcode code =>
      match options.opcodeWords.get? code with
      | some word => .ok word
      | none => (table.nameOfCode code).map (styledWord options.opcodeStyle)
  | .placeholder text => .ok ("<" ++ text ++ ">")
  | .repetition => .ok "..."

/-- Writes tokens with the texts of earlier ones already written, latest first. -/
def formatOnto (options : Options) (table : Opcode.Table) (written : List String) :
    List Token → Except Error (List String)
  | [] => .ok written.reverse
  | t :: ts =>
      match formatToken t options table with
      | .ok text => formatOnto options table (text :: written) ts
      | .error e => .error e

/-- Writes a list of tokens. -/
def format (tokens : List Token) (options : Options) (table : Opcode.Table) :
    Except Error String :=
  (formatOnto options table [] tokens).map (String.intercalate " ")

end Asm
end ScriptCodec
