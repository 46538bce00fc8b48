import ScriptCodec.Asm.Format
import ScriptCodec.Opcode.Standard
import ScriptCodec.Template.Basic

/-!
# Standard script shapes

Six shapes of scripts have names.  Each is described by a template, and a script has the first
shape, in the order of `Shape.all`, whose template it matches.  Four of them have an address.
-/

namespace ScriptCodec

namespace Template

/-- The text of a template under default options, if all its opcodes are in the standard table. -/
def text? (template : Template) : Option String :=
  (Asm.format template.entries Options.default Opcode.Table.standard).toOption

end Template

/-- The standard shapes of scripts. -/
inductive Shape where
  /-- Pay to a public key -/
  | p2pk
  /-- Pay to the hash of a public key -/
  | p2pkh
  /-- Pay to the hash of a script -/
  | p2sh
  /-- Pay to the hash of a public key, with a witness -/
  | p2wpkh
  /-- Pay to the hash of a script, with a witness -/
  | p2wsh
  /-- Several signatures for bare public keys -/
  | multisig
deriving DecidableEq, Repr

namespace Shape

/-- All shapes, in the order in which they are tried. -/
def all : List Shape :=
  [.p2pk, .p2pkh, .p2sh, .p2wpkh, .p2wsh, .multisig]

/-- The name of a shape. -/
def name : Shape → String
  | .p2pk => "p2pk"
  | .p2pkh => "p2pkh"
  | .p2sh => "p2sh"
  | .p2wpkh => "p2wpkh"
  | .p2wsh => "p2wsh"
  | .multisig => "multisig"

/-- The shape with a name. -/
def ofName (name : String) : Except Error Shape :=
  match all.find? fun shape => shape.name = name with
  | some shape => .ok shape
  | none => .error (.malformedInput .unknownScriptType)

/-- The place of a shape in the order. -/
def index : Shape → Nat
  | .p2pk => 0
  | .p2pkh => 1
  | .p2sh => 2
  | .p2wpkh => 3
  | .p2wsh => 4
  | .multisig => 5

/-- The entries that describe a shape. -/
def entries : Shape → List Token
  | .p2pk => [.placeholder "65-byte-pubkey", .opcode Opcode.checkSig]
  | .p2pkh =>
      [.opcode Opcode.dup, .opcode Opcode.hash160, .placeholder "20-byte-pubkey-hash",
       .opcode Opcode.equalVerify, .opcode Opcode.checkSig]
  | .p2sh =>
      [.opcode Opcode.hash160, .placeholder "20-byte-script-hash", .opcode Opcode.equal]
  | .p2wpkh => [.opcode Opcode.zero, .placeholder "20-byte-pubkey-hash"]
  | .p2wsh => [.opcode Opcode.zero, .placeholder "32-byte-hash"]
  | .multisig =>
      [.placeholder "OP_1-OP_16", .placeholder "pubkey", .repetition, .placeholder "OP_1-OP_16",
       .opcode Opcode.checkMultiSig]

/-- The text that describes a shape. -/
def source : Shape → String
  | .p2pk => "<65-byte-pubkey> OP_CHECKSIG"
  | .p2pkh => "OP_DUP OP_HASH160 <20-byte-pubkey-hash> OP_EQUALVERIFY OP_CHECKSIG"
  | .p2sh => "OP_HASH160 <20-byte-script-hash> OP_EQUAL"
  | .p2wpkh => "0 <20-byte-pubkey-hash>"
  | .p2wsh => "0 <32-byte-hash>"
  | .multisig => "<OP_1-OP_16> <pubkey> ... <OP_1-OP_16> OP_CHECKMULTISIG"

/-- The template of a shape. -/
def template (shape : Shape) : Template where
  entries := shape.entries
  wellFormed := by cases shape <;> rfl

/-- Whether scripts of a shape have an address. -/
def hasAddress : Shape → Bool
  | .p2pkh => true
  | .p2sh => true
  | .p2wpkh => true
  | .p2wsh => true
  | .p2pk => false
  | .multisig => false

/-- The shape of a script: the first one whose template it matches. -/
def ofTokens? (tokens : List Token) (table : Opcode.Table) : Option Shape :=
  all.find? fun shape => shape.template.hasShape tokens table

end Shape
end ScriptCodec
