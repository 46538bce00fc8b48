import ScriptCodec.Error

/-!
# Named choices

How raw scripts are carried as text, how literals are written, and how opcodes are written.  Each
choice has a name, and reading a name that is none of them is an error.
-/

namespace ScriptCodec

/-- How a raw script is carried when it is text. -/
inductive Encoding where
  /-- Bytes, no text -/
  | none
  | hex
  | base64
deriving DecidableEq, Repr

namespace Encoding

/-- The name of an encoding. -/
def name : Encoding → String
  | .none => "none"
  | .hex => "hex"
  | .base64 => "base64"

/-- The encoding with a name. -/
def ofName (name : String) : Except Error Encoding :=
  if name = "none" ∨ name = "null" then .ok .none
  else if name = "hex" then .ok .hex
  else if name = "base64" then .ok .base64
  else .error (.invalidEncoding name)

/-- The bytes that a text carries. -/
def decodeText (e : Encoding) (text : String) : Except Error (List UInt8) :=
  match e with
  | .none => .error (.malformedInput .textWithoutEncoding)
  | .hex => (Hex.decode text).mapError .hex
  | .base64 => (Base64.decode text).mapError .base64

/-- The text that carries bytes, if there is to be one. -/
def encodeBytes (e : Encoding) (bytes : List UInt8) : Option String :=
  match e with
  | .none => Option.none
  | .hex => some (Hex.encode bytes)
  | .base64 => some (Base64.encode bytes)

end Encoding

/-- How literals are written. -/
inductive LiteralStyle where
  /-- Hex digits, or `0` when empty -/
  | normal
  /-- Hex digits in brackets -/
  | brackets
  /-- Hex digits behind `0x`, or `0` when empty -/
  | prefixed
  /-- Hex digits in brackets, behind `PUSHDATA` with the size -/
  | verbose
deriving DecidableEq, Repr

namespace LiteralStyle

/-- The name of a literal style. -/
def name : LiteralStyle → String
  | .normal => "normal"
  | .brackets => "brackets"
  | .prefixed => "prefixed"
  | .verbose => "verbose"

/-- The literal style with a name. -/
def ofName (name : String) : Except Error LiteralStyle :=
  if name = "normal" then .ok .normal
  else if name = "brackets" then .ok .brackets
  else if name = "prefixed" then .ok .prefixed
  else if name = "verbose" then .ok .verbose
  else .error (.invalidLiteralStyle name)

end LiteralStyle

/-- How opcodes are written. -/
inductive OpcodeStyle where
  /-- With the mark `OP_` -/
  | normal
  /-- Without the mark -/
  | short
deriving DecidableEq, Repr

namespace OpcodeStyle

/-- The name of an opcode style. -/
def name : OpcodeStyle → String
  | .normal => "normal"
  | .short => "short"

/-- The opcode style with a name. -/
def ofName (name : String) : Except Error OpcodeStyle :=
  if name = "normal" then .ok .normal
  else if name = "short" then .ok .short
  else .error (.invalidOpcodeStyle name)

end OpcodeStyle
end ScriptCodec
