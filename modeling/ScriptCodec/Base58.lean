import ScriptCodec.Hash.Sha256
import ScriptCodec.Text.Radix
import ScriptCodec.Text.Utf8

/-!
# Base58 with a checksum

Bytes are read as one number and written in base 58, with one `1` in front for every leading zero
byte.  The checked form appends the first four bytes of the double SHA-256 of the payload.
-/

namespace ScriptCodec
namespace Base58

/-- Why a text is no checked base58 string. -/
inductive Error where
  /-- A byte of the text outside the alphabet -/
  | invalidCharacter (byte : UInt8)
  /-- Fewer than the four bytes of a checksum -/
  | tooShort (size : Nat)
  /-- The checksum found, and the one computed -/
  | wrongChecksum (found : Nat) (computed : Nat)
deriving DecidableEq, Repr

/-- A number as `0x` and its hex digits. -/
def hexNumber (n : Nat) : String :=
  "0x" ++ String.ofList (Nat.toDigits 16 n)

/-- What went wrong, from the outermost statement to the innermost. -/
def Error.chain : Error → List String
  | .invalidCharacter b =>
      ["decode", s!"invalid base58 character {hexNumber b.toNat}"]
  | .tooShort n =>
      ["too short",
       s!"base58 decoded data was not long enough, must be at least 4 byte: {n}"]
  | .wrongChecksum found computed =>
      ["incorrect checksum",
       s!"base58 checksum {hexNumber found} does not match expected {hexNumber computed}"]

/-- The digits in order of value. -/
def alphabet : List Char :=
  "123456789ABCDEFGHJKLMNPQRSTUVWXYZabcdefghijkmnopqrstuvwxyz".toList

/-- The character of a digit. -/
def symbol (d : Nat) : Char :=
  alphabet.getD d '1'

/-- The value of a byte as a digit. -/
def digit? (b : UInt8) : Option Nat :=
  alphabet.findIdx? fun c => c.toNat == b.toNat

/-- The base58 form of bytes, without a checksum. -/
def encodePlain (bytes : List UInt8) : String :=
  let zeros := (bytes.takeWhile (· == 0)).length
  let n := Radix.ofDigits 256 (bytes.map UInt8.toNat)
  String.ofList (List.replicate zeros '1' ++ (Radix.toDigits 58 (by decide) n).map symbol)

/-- The values of bytes as digits, or the first byte that is no digit. -/
def digitsOnto (read : List Nat) : List UInt8 → Except Error (List Nat)
  | [] => .ok read.reverse
  | b :: rest =>
      match digit? b with
      | some d => digitsOnto (d :: read) rest
      | none => .error (.invalidCharacter b)

/-- The bytes of a base58 text, without looking at a checksum. -/
def decodePlain (text : String) : Except Error (List UInt8) :=
  match digitsOnto [] (utf8Bytes text) with
  | .error e => .error e
  | .ok digits =>
      let zeros := (digits.takeWhile (· == 0)).length
      let n := Radix.ofDigits 58 digits
      .ok (List.replicate zeros 0 ++ (Radix.toDigits 256 (by decide) n).map UInt8.ofNat)

/-- The four check bytes of a payload. -/
def checksum (payload : List UInt8) : List UInt8 :=
  (Sha256.hashTwice payload).take 4

/-- Bytes as a number, least significant first. -/
def littleEndian (bytes : List UInt8) : Nat :=
  Radix.ofDigits 256 (bytes.reverse.map UInt8.toNat)

/-- The checked base58 form of a payload. -/
def encode (payload : List UInt8) : String :=
  encodePlain (payload ++ checksum payload)

/-- Reads a checked base58 text and drops its check bytes. -/
def decode (text : String) : Except Error (List UInt8) :=
  match decodePlain text with
  | .error e => .error e
  | .ok bytes =>
      if bytes.length < 4 then .error (.tooShort bytes.length)
      else
        let payload := bytes.take (bytes.length - 4)
        let found := bytes.drop (bytes.length - 4)
        if found = checksum payload then .ok payload
        else .error (.wrongChecksum (littleEndian found) (littleEndian (checksum payload)))

end Base58
end ScriptCodec
