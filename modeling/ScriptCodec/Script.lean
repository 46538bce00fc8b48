import ScriptCodec.Address
import ScriptCodec.Json.Write
import ScriptCodec.Options.FromJson

/-!
# Scripts

A script is a list of tokens.  It is obtained from raw bytes, from text or from an address, and
written in any of these forms.  Everything here goes by the standard opcode table.
-/

namespace ScriptCodec

/-- A raw script as a caller has it. -/
inductive RawInput where
  | bytes (bytes : List UInt8)
  /-- Text in the encoding of the options -/
  | text (text : String)
deriving DecidableEq, Repr

/-- A raw script as a caller gets it. -/
inductive RawOutput where
  | bytes (bytes : List UInt8)
  | text (text : String)
deriving DecidableEq, Repr

namespace RawOutput

/-- The text, if it is text. -/
def text? : RawOutput → Option String
  | .text s => some s
  | .bytes _ => none

/-- The bytes, if it is bytes. -/
def bytes? : RawOutput → Option (List UInt8)
  | .bytes b => some b
  | .text _ => none

/-- The output for display; bytes are shown in hex. -/
def display : RawOutput → String
  | .text s => s
  | .bytes b => Hex.display b

/-- The output as a caller gives it back. -/
def toInput : RawOutput → RawInput
  | .bytes b => .bytes b
  | .text s => .text s

end RawOutput

/-- A script. -/
structure Script where
  tokens : List Token
deriving DecidableEq, Repr

namespace Script

/-- The table of all conversions of this module. -/
abbrev table : Opcode.Table :=
  Opcode.Table.standard

/-! ## Reading -/

/-- The script with the given bytes. -/
def ofBytes (bytes : List UInt8) : Except Error Script :=
  (Raw.decode bytes table).map Script.mk

/-- The script with the given raw form. -/
def ofRaw (input : RawInput) (encoding : Encoding) : Except Error Script :=
  match input with
  | .bytes bytes => ofBytes bytes
  | .text text =>
      match encoding.decodeText text with
      | .ok bytes => ofBytes bytes
      | .error e => .error e

/-- The script with the given bytes in hex. -/
def ofHex (text : String) : Except Error Script :=
  ofRaw (.text text) .hex

/-- The script that a text describes. -/
def ofAsm (text : String) (options : Options) : Except Error Script :=
  (Asm.decode text.toList options table).map Script.mk

/-- The script that an address pays to. -/
def ofAddress (address : String) (options : Options) : Except Error Script :=
  (Address.toTokens address options table).map Script.mk

/-- The script that a JSON string holds in hex. -/
def ofJson (text : String) : Except Json.Error Script :=
  Json.readWhole
    (Json.readParsed .rawScript fun s => (ofHex s).mapError Error.message) text

/-! ## Writing -/

/-- The textual form. -/
def toAsm (s : Script) (options : Options) : Except Error String :=
  Asm.format s.tokens options table

/-- The raw form. -/
def toBytes (s : Script) : Except Error (List UInt8) :=
  Raw.encode s.tokens

/-- The raw form in hex. -/
def toHex (s : Script) : Except Error String :=
  s.toBytes.map Hex.encode

/-- The script as a JSON string that holds its raw form in hex. -/
def toJson (s : Script) : Except Json.Error String :=
  match s.toHex with
  | .ok hex => .ok (Json.writeText hex)
  | .error e => .error (.misfit (.rejected e.message))

/-- The raw form, as text if the encoding is one of text. -/
def toRaw (s : Script) (encoding : Encoding) : Except Error RawOutput :=
  s.toBytes.map fun bytes =>
    match encoding.encodeBytes bytes with
    | some text => .text text
    | none => .bytes bytes

section

variable {s : Script} {bytes : List UInt8}

/-- A script that has bytes has their hexadecimal form. -/
theorem toHex_of_toBytes
    (written : s.toBytes = .ok bytes) :
    s.toHex = .ok (Hex.encode bytes) := by
  rw [toHex, written]
  rfl

/-- A script that has bytes has the JSON string of their hexadecimal form. -/
theorem toJson_of_toBytes
    (written : s.toBytes = .ok bytes) :
    s.toJson = .ok (Json.writeText (Hex.encode bytes)) := by
  simp only [toJson, toHex_of_toBytes written]

/-- A script that has bytes has a raw form in every encoding. -/
theorem toRaw_of_toBytes
    (written : s.toBytes = .ok bytes)
    (encoding : Encoding) :
    s.toRaw encoding = .ok ((encoding.encodeBytes bytes).elim (.bytes bytes) .text) := by
  simp only [toRaw, written, Except.map]
  cases encoding.encodeBytes bytes with
  | none =>
      rfl
  | some text =>
      rfl

end

/-- The address, if the shape of the script has one. -/
def toAddress (s : Script) (options : Options) : Except Error (Option String) :=
  Address.ofTokens s.tokens options table

/-- The standard shape, if the script has one. -/
def shape? (s : Script) : Option Shape :=
  Shape.ofTokens? s.tokens table

/-- Whether the shape of the script has an address. -/
def hasAddress (s : Script) : Bool :=
  (s.shape?.map Shape.hasAddress).getD false

/-- The script for display: its textual form under default options, or the list of its tokens if an
opcode has no word. -/
def display (s : Script) : String :=
  match s.toAsm Options.default with
  | .ok text => text
  | .error _ => "[" ++ String.intercalate ", " (s.tokens.map Token.describe) ++ "]"

/-- The script for messages. -/
def describe (s : Script) : String :=
  "Script(" ++ s.display ++ ")"

/-! ## Redeem scripts -/

/-- The attempt at reading the only literal of a script as a script. -/
def redeemAttempt (s : Script) : Option (Except Error Script) :=
  match s.tokens with
  | [.literal data] => some (ofBytes data)
  | _ => none

/-- The script that the only literal of a script holds. -/
def redeem? (s : Script) : Option Script :=
  s.redeemAttempt.bind Except.toOption

end Script

/-! ## Conversions in one step -/

/-- The textual form of a raw script. -/
def rawToAsm (input : RawInput) (options : Options) : Except Error String :=
  match Script.ofRaw input options.encoding with
  | .ok s => s.toAsm options
  | .error e => .error e

/-- The raw form of a text. -/
def asmToRaw (text : String) (options : Options) : Except Error RawOutput :=
  match Script.ofAsm text options with
  | .ok s => s.toRaw options.encoding
  | .error e => .error e

/-- A text written again by the styles of the options. -/
def formatAsm (text : String) (options : Options) : Except Error String :=
  match Script.ofAsm text options with
  | .ok s => s.toAsm options
  | .error e => .error e

end ScriptCodec
