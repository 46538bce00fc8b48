import ScriptCodec.Raw
import ScriptCodec.Template.Shape

/-!
# Addresses

Scripts that pay to the hash of a public key or of a script have a checked base58 address, a version
byte followed by the hash.  The two witness shapes have a bech32 address whose data are the whole
raw script.

An address is read as bech32 first if what stands before its last separator is the configured
prefix, letter case apart, and as base58 otherwise or when that fails.
-/

namespace ScriptCodec
namespace Address

/-! ## Writing -/

/-- The base58 address of a version byte and a payload. -/
def ofHash (version : UInt8) (payload : List UInt8) : String :=
  Base58.encode (version :: payload)

/-- The bech32 address of data under a human-readable part. -/
def ofData (hrp : String) (data : List UInt8) : Except Error String :=
  match Bech32.encode hrp data with
  | .ok text => .ok text
  | .error (.hrp _) => .error (.invalidBech32Prefix hrp)
  | .error .tooLong => .error (.malformedInput .tooLongForBech32)

/-- The data in a place of a script. -/
def hashAt (tokens : List Token) (place : Nat) : Except Error (List UInt8) :=
  match tokens[place]?.bind Token.data? with
  | some data => .ok data
  | none => .error (.malformedInput .noEmbeddedHash)

/-- The address of a script of the given shape, if the shape has one. -/
def ofShape (shape : Shape) (tokens : List Token) (params : AddressParams) :
    Except Error (Option String) :=
  match shape with
  | .p2pkh => (hashAt tokens 2).map fun h => some (ofHash params.pubKeyHash h)
  | .p2sh => (hashAt tokens 1).map fun h => some (ofHash params.scriptHash h)
  | .p2wpkh | .p2wsh =>
      match Raw.encode tokens with
      | .ok data => (ofData params.bech32 data).map some
      | .error e => .error e
  | .p2pk | .multisig => .ok none

/-- The address of a script, if its shape has one. -/
def ofTokens (tokens : List Token) (options : Options) (table : Opcode.Table) :
    Except Error (Option String) :=
  match Shape.ofTokens? tokens table with
  | some shape => ofShape shape tokens options.address
  | none => .ok none

/-! ## Reading -/

/-- What stands before the last separator of an address, or all of it if there is none. -/
def hrpOf (address : List Char) : List Char :=
  (Bech32.splitLast address).1.getD address

/-- Whether two prefixes agree, the case of ASCII letters apart: their sizes in bytes first, then
character by character as far as both reach. -/
def sameHrp (a b : String) : Bool :=
  a.utf8ByteSize == b.utf8ByteSize
    && (a.toList.zip b.toList).all fun (x, y) => x.toLower == y.toLower

/-- Reads a bech32 address. -/
def readBech32 (address : String) (expected : String) (table : Opcode.Table) :
    Except Error (List Token) :=
  match Bech32.decode address with
  | .error e => .error (.bech32 e)
  | .ok (hrp, data) =>
      if sameHrp hrp expected then Raw.decode data table
      else .error (.invalidBech32Prefix hrp)

/-- Reads a base58 address. -/
def readBase58 (address : String) (params : AddressParams) (table : Opcode.Table) :
    Except Error (List Token) :=
  match Base58.decode address with
  | .error e => .error (.base58 e)
  | .ok [] => .error (.malformedInput .emptyBase58Payload)
  | .ok (version :: payload) =>
      if version = params.pubKeyHash then Shape.p2pkh.template.instantiate [payload] table
      else if version = params.scriptHash then Shape.p2sh.template.instantiate [payload] table
      else .error (.malformedInput .unknownVersion)

/-- How an address was read, with the faults of the attempts that failed.  The bech32 form is not
tried if the prefix is not the configured one. -/
inductive Reading where
  /-- As bech32 -/
  | bech32 (tokens : List Token)
  /-- As base58 -/
  | base58 (bech32Fault : Option Error) (tokens : List Token)
  /-- In no form -/
  | failed (bech32Fault : Option Error) (base58Fault : Error)
deriving DecidableEq, Repr

namespace Reading

/-- The script that was found. -/
def tokens? : Reading → Option (List Token)
  | .bech32 tokens => some tokens
  | .base58 _ tokens => some tokens
  | .failed _ _ => none

/-- Why the address is no bech32 address, if that was tried. -/
def bech32Fault? : Reading → Option Error
  | .bech32 _ => none
  | .base58 fault _ => fault
  | .failed fault _ => fault

/-- Why the address is no base58 address, if that was tried. -/
def base58Fault? : Reading → Option Error
  | .failed _ fault => some fault
  | _ => none

end Reading

/-- Reads an address as base58 after an attempt at bech32. -/
def readAsBase58 (bech32Fault : Option Error) (address : String) (options : Options)
    (table : Opcode.Table) : Reading :=
  match readBase58 address options.address table with
  | .ok tokens => .base58 bech32Fault tokens
  | .error e => .failed bech32Fault e

/-- Reads an address in the one or two ways that apply. -/
def read (address : String) (options : Options) (table : Opcode.Table) : Reading :=
  let hrp := String.ofList (hrpOf address.toList)
  if sameHrp hrp options.address.bech32 then
    match readBech32 address options.address.bech32 table with
    | .ok tokens => .bech32 tokens
    | .error e => readAsBase58 (some e) address options table
  else readAsBase58 none address options table

/-- The script that an address pays to. -/
def toTokens (address : String) (options : Options) (table : Opcode.Table) :
    Except Error (List Token) :=
  match (read address options table).tokens? with
  | some tokens => .ok tokens
  | none => .error (.unrecognizedAddress address)

end Address
end ScriptCodec
