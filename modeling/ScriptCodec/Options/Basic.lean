import ScriptCodec.Options.Styles
import ScriptCodec.Overrides
import ScriptCodec.Term

/-!
# Options

What a caller may set: text encoding, styles, overriding words for reading and for writing, the
parameters of addresses, and whether text may hold template entries.
-/

namespace ScriptCodec

/-- The parameters of a network's addresses. -/
structure AddressParams where
  /-- Version byte of addresses for the hash of a public key -/
  pubKeyHash : UInt8
  /-- Version byte of addresses for the hash of a script -/
  scriptHash : UInt8
  /-- Human-readable part of bech32 addresses -/
  bech32 : String
deriving DecidableEq, Repr

namespace AddressParams

/-- The main network. -/
def bitcoin : AddressParams :=
  ⟨0x00, 0x05, "bc"⟩

/-- The public test networks. -/
def testnet : AddressParams :=
  ⟨0x6f, 0xc4, "tb"⟩

/-- Local test networks. -/
def regtest : AddressParams :=
  ⟨0x6f, 0xc4, "bcrt"⟩

end AddressParams

/-- The options of a conversion. -/
structure Options where
  /-- How raw scripts are carried as text -/
  encoding : Encoding := .hex
  literalStyle : LiteralStyle := .normal
  opcodeStyle : OpcodeStyle := .normal
  /-- Opcodes of overriding terms in normal form, for reading -/
  terms : Overrides String UInt8 := Overrides.empty
  /-- Overriding words of opcodes, for writing -/
  opcodeWords : Overrides UInt8 String := Overrides.empty
  address : AddressParams := AddressParams.bitcoin
  /-- Whether text may hold placeholders and repeat marks -/
  allowPlaceholders : Bool := false
deriving DecidableEq, Repr

namespace Options

/-- The options that hold when nothing is set. -/
def default : Options := {}

/-- Adds an overriding term for reading; it is brought into normal form first. -/
def withTerm (o : Options) (word : String) (code : UInt8) : Options :=
  { o with terms := o.terms.insert (Term.normalize word.toList) code }

/-- Adds an overriding word for writing. -/
def withOpcodeWord (o : Options) (code : UInt8) (word : String) : Options :=
  { o with opcodeWords := o.opcodeWords.insert code word }

/-- The overriding terms that entries stand for, taken in the given order. -/
def termsOfEntries (entries : List (String × UInt8)) : Overrides String UInt8 :=
  Overrides.empty.insertAll
    (entries.map fun entry => (Term.normalize entry.1.toList, entry.2))

end Options
end ScriptCodec
