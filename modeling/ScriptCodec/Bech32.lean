import ScriptCodec.Text.Bits
import ScriptCodec.Text.Utf8

/-!
# Bech32

A human-readable part, the separator `1`, five-bit groups as characters of a fixed alphabet and six
check characters.  Texts are written with the first checksum constant and read under either of
the two constants.  Characters are looked at before the human-readable part, and that before the
checksum.  Bits that the last groups leave over when bytes are put together are dropped.
-/

namespace ScriptCodec
namespace Bech32

/-- Why a text is no valid human-readable part. -/
inductive HrpError where
  | empty
  /-- The size of the part in bytes -/
  | tooLong (size : Nat)
  | nonAscii (c : Char)
  /-- A control character or a space -/
  | unprintable (c : Char)
  | mixedCase
deriving DecidableEq, Repr

/-- Why a text is no bech32 string. -/
inductive Error where
  /-- A character after the separator that is outside the alphabet -/
  | invalidCharacter (c : Char)
  | mixedCase
  | missingSeparator
  | hrp (error : HrpError)
  /-- The size of the whole text in bytes -/
  | tooLong (size : Nat)
  | tooShort
  | wrongChecksum
deriving DecidableEq, Repr

/-- The text of a fault of the human-readable part. -/
def HrpError.message : HrpError → String
  | .empty => "hrp is empty, must have at least 1 character"
  | .tooLong n => s!"hrp is too long, found {n} characters, must be <= 126"
  | .nonAscii c => "found non-ASCII character: " ++ String.singleton c
  | .unprintable c =>
      "byte value is not valid US-ASCII: '" ++ String.ofList (Nat.toDigits 16 c.toNat) ++ "'"
  | .mixedCase => "hrp does not conform to case requirements, mixed-case"

/-- What went wrong, from the outermost statement to the innermost. -/
def Error.chain : Error → List String
  | .invalidCharacter c =>
      ["parsing failed", "character error",
       "invalid character (code=" ++ String.singleton c ++ ")"]
  | .mixedCase => ["parsing failed", "character error", "mixed-case strings not allowed"]
  | .missingSeparator =>
      ["parsing failed", "character error", "missing human-readable separator, \"1\""]
  | .hrp e => ["parsing failed", "invalid human-readable part", e.message]
  | .tooLong n =>
      ["no valid bech32 or bech32m checksum", "string exceeds maximum allowed length",
       s!"encoded length {n} exceeds maximum (code length) 1023"]
  | .tooShort =>
      ["no valid bech32 or bech32m checksum", "the checksummed string is not a valid length"]
  | .wrongChecksum =>
      ["no valid bech32 or bech32m checksum", "the checksum residue is not valid for the data"]

/-- The characters of the five-bit groups in order of value. -/
def alphabet : List Char :=
  "qpzry9x8gf2tvdw0s3jn54khce6mua7l".toList

/-- The character of a five-bit group. -/
def symbol (n : Nat) : Char :=
  alphabet.getD n 'q'

/-- The five-bit group of a character of either case. -/
def symbolValue? (c : Char) : Option Nat :=
  alphabet.findIdx? (· == c.toLower)

/-- Whether letters of both cases occur. -/
def isMixedCase (cs : List Char) : Bool :=
  cs.any Char.isUpper && cs.any Char.isLower

/-- The largest size of a human-readable part. -/
def maxHrpSize : Nat := 83

/-- The largest size of a whole text. -/
def maxSize : Nat := 1023

/-- The first fault of a human-readable part. -/
def hrpFault? (hrp : String) : Option HrpError :=
  if hrp.isEmpty then some .empty
  else if maxHrpSize < hrp.utf8ByteSize then some (.tooLong hrp.utf8ByteSize)
  else
    match hrp.toList.find? (fun c => c.toNat < 33 || 126 < c.toNat) with
    | some c => some (if c.toNat < 128 then .unprintable c else .nonAscii c)
    | none => if isMixedCase hrp.toList then some .mixedCase else none

/-! ## The checksum -/

/-- The remainders that the checksum polynomial adds for each of the five top bits. -/
def generators : List UInt32 :=
  [0x3b6a57b2, 0x26508e6d, 0x1ea119fa, 0x3d4233dd, 0x2a1462b3]

/-- What the top five bits of a residue contribute to the next one. -/
def feedback (top : UInt32) : UInt32 :=
  (generators.zipIdx.map fun (g, i) => if top.toNat.testBit i then g else 0).foldl (· ^^^ ·) 0

/-- Takes one five-bit group into the residue. -/
def stepResidue (residue : UInt32) (group : Nat) : UInt32 :=
  ((residue &&& 0x1ffffff) <<< 5) ^^^ UInt32.ofNat group ^^^ feedback (residue >>> 25)

/-- The residue of groups. -/
def residue (groups : List Nat) : UInt32 :=
  groups.foldl stepResidue 1

/-- The groups that stand for the human-readable part: high bits, a zero, low bits. -/
def hrpGroups (hrp : List Char) : List Nat :=
  let codes := hrp.map fun c => c.toLower.toNat
  codes.map (· / 32) ++ 0 :: codes.map (· % 32)

/-- The residue of a valid text in the form that is written. -/
def plainConstant : UInt32 := 1

/-- The residue of a valid text in the modified form. -/
def modifiedConstant : UInt32 := 0x2bc830a3

/-- The six check groups of a human-readable part and data groups. -/
def checkGroups (hrp : List Char) (groups : List Nat) : List Nat :=
  let r := residue (hrpGroups hrp ++ groups ++ List.replicate 6 0) ^^^ plainConstant
  [5, 4, 3, 2, 1, 0].map fun i => (r.toNat >>> (5 * i)) % 32

/-- Whether human-readable part and groups with their check groups have one of the constants. -/
def isChecked (hrp : List Char) (groups : List Nat) : Bool :=
  let r := residue (hrpGroups hrp ++ groups)
  r == modifiedConstant || r == plainConstant

/-! ## Texts -/

/-- Why bytes have no bech32 form. -/
inductive EncodeError where
  | hrp (error : HrpError)
  | tooLong
deriving DecidableEq, Repr

/-- The bech32 form of bytes. -/
def encode (hrp : String) (bytes : List UInt8) : Except EncodeError String :=
  match hrpFault? hrp with
  | some e => .error (.hrp e)
  | none =>
      let groups := Bits.paddedGroups 5 (Bits.ofBytes bytes)
      if maxSize < hrp.utf8ByteSize + 1 + groups.length + 6 then .error .tooLong
      else
        let all := groups ++ checkGroups hrp.toList groups
        .ok (String.ofList (hrp.toList.map Char.toLower ++ '1' :: all.map symbol))

/-- A text at its last separator: what stands before it, if there is one, and what follows. -/
def splitLast (cs : List Char) : Option (List Char) × List Char :=
  let back := cs.reverse
  let data := (back.takeWhile (· != '1')).reverse
  match back.dropWhile (· != '1') with
  | [] => (none, data)
  | _ :: hrp => (some hrp.reverse, data)

/-- The human-readable part as written, and the bytes of a bech32 text. -/
def decode (text : String) : Except Error (String × List UInt8) :=
  let (hrp?, data) := splitLast text.toList
  match data.reverse.find? (fun c => (symbolValue? c).isNone) with
  | some c => .error (.invalidCharacter c)
  | none =>
    if isMixedCase text.toList then .error .mixedCase
    else
      match hrp? with
      | none => .error .missingSeparator
      | some hrp =>
        match hrpFault? (String.ofList hrp) with
        | some e => .error (.hrp e)
        | none =>
          let groups := data.map fun c => (symbolValue? c).getD 0
          if maxSize < text.utf8ByteSize then .error (.tooLong text.utf8ByteSize)
          else if groups.length < 6 then .error .tooShort
          else if isChecked hrp groups then
            .ok (String.ofList hrp, Bits.toBytes (Bits.join 5 (groups.take (groups.length - 6))))
          else .error .wrongChecksum

end Bech32
end ScriptCodec
