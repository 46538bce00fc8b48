import ScriptCodec.Text.Bits
import ScriptCodec.Text.Utf8

/-!
# Base64 text

The standard alphabet with mandatory padding.  A text is read only in its canonical form: the
padding completes the last group of four symbols and the bits that the last symbol leaves over are
zero.  Faults name the byte of the text and its offset.  The text is looked at in blocks of eight
bytes, and only the last block may hold padding.
-/

namespace ScriptCodec
namespace Base64

/-- Why a text is not the base64 form of bytes. -/
inductive Error where
  /-- A byte that cannot stand at its offset -/
  | invalidByte (offset : Nat) (byte : UInt8)
  /-- The number of symbols leaves six bits over -/
  | invalidLength
  /-- The last symbol has bits that no byte takes up -/
  | invalidLastSymbol (offset : Nat) (byte : UInt8)
  /-- The padding does not complete the last group -/
  | invalidPadding
deriving DecidableEq, Repr

/-- The text of an error. -/
def Error.message : Error → String
  | .invalidByte offset b => s!"Invalid byte {b.toNat}, offset {offset}."
  | .invalidLength => "Encoded text cannot have a 6-bit remainder."
  | .invalidLastSymbol offset b => s!"Invalid last symbol {b.toNat}, offset {offset}."
  | .invalidPadding => "Invalid padding"

/-- The symbol of a six-bit group. -/
def symbol (n : Nat) : Char :=
  if n < 26 then Char.ofNat (65 + n)
  else if n < 52 then Char.ofNat (71 + n)
  else if n < 62 then Char.ofNat (n - 4)
  else if n = 62 then '+'
  else '/'

/-- The six-bit group of a symbol. -/
def symbolValue? (b : UInt8) : Option Nat :=
  let n := b.toNat
  if 65 ≤ n ∧ n ≤ 90 then some (n - 65)
  else if 97 ≤ n ∧ n ≤ 122 then some (n - 71)
  else if 48 ≤ n ∧ n ≤ 57 then some (n + 4)
  else if n = 43 then some 62
  else if n = 47 then some 63
  else none

/-- The padding byte. -/
def pad : UInt8 := 61

/-- The base64 form of `bytes`. -/
def encode (bytes : List UInt8) : String :=
  let symbols := (Bits.paddedGroups 6 (Bits.ofBytes bytes)).map symbol
  String.ofList (symbols ++ List.replicate ((4 - symbols.length % 4) % 4) '=')

/-- The offset and value of the first byte outside the alphabet. -/
def firstForeign? (offset : Nat) : List UInt8 → Option (Nat × UInt8)
  | [] => none
  | b :: rest =>
      if (symbolValue? b).isSome then firstForeign? (offset + 1) rest else some (offset, b)

/-- The last block: its symbols, the offset of its first padding byte and the padding count. -/
structure Tail where
  /-- Symbols seen, latest first -/
  symbols : List UInt8 := []
  /-- Offset in the block of the first padding byte -/
  firstPad : Nat := 0
  /-- Number of padding bytes seen -/
  pads : Nat := 0

/-- Reads the last block, which starts at offset `base`; `i` bytes of it are already in `tail`. -/
def readTail (base : Nat) (i : Nat) (tail : Tail) : List UInt8 → Except Error Tail
  | [] => .ok tail
  | b :: rest =>
      if b = pad then
        let first := if tail.pads = 0 then i else tail.firstPad
        if i % 4 < 2 then .error (.invalidByte (base + first) pad)
        else readTail base (i + 1) ⟨tail.symbols, first, tail.pads + 1⟩ rest
      else if 0 < tail.pads then .error (.invalidByte (base + tail.firstPad) pad)
      else if (symbolValue? b).isSome then
        readTail base (i + 1) ⟨b :: tail.symbols, tail.firstPad, tail.pads⟩ rest
      else .error (.invalidByte (base + i) b)

/-- The bits that symbols stand for. -/
def symbolBits (symbols : List UInt8) : List Bool :=
  Bits.join 6 (symbols.map fun b => (symbolValue? b).getD 0)

/-- Checks the last symbol of the last block and puts all symbols together. -/
def finish (base : Nat) (front : List UInt8) (tail : Tail) : Except Error (List UInt8) :=
  let count := tail.symbols.length
  if (tail.pads + count) % 4 ≠ 0 then .error .invalidPadding
  else
    match tail.symbols with
    | [] => .ok (Bits.toBytes (symbolBits front))
    | last :: _ =>
        let leftOver := count * 6 % 8
        if (symbolValue? last).getD 0 % (1 <<< leftOver) ≠ 0 then
          .error (.invalidLastSymbol (base + count - 1) last)
        else .ok (Bits.toBytes (symbolBits (front ++ tail.symbols.reverse)))

/-- Reads the bytes of a base64 text. -/
def decodeBytes (text : List UInt8) : Except Error (List UInt8) :=
  let n := text.length
  let last := text.getLastD 0
  if n % 4 = 1 then
    if last ≠ pad ∧ (symbolValue? last).isNone then .error (.invalidByte (n - 1) last)
    else .error .invalidLength
  else
    let base := (n - 1) / 8 * 8
    let front := text.take base
    match firstForeign? 0 front with
    | some (offset, b) => .error (.invalidByte offset b)
    | none =>
        match readTail base 0 ⟨[], 0, 0⟩ (text.drop base) with
        | .error e => .error e
        | .ok tail => finish base front tail

/-- Reads a base64 text. -/
def decode (text : String) : Except Error (List UInt8) :=
  decodeBytes (utf8Bytes text)

end Base64
end ScriptCodec
