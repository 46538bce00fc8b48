/-!
# Opcode numbers

An opcode is one byte.  The numbers 1 to 78 start a push of data: 1 to 75 are the length of the
data themselves, and the last three are followed by a length field of one, two or four bytes.
-/

namespace ScriptCodec
namespace Opcode

/-- Pushes the empty value. -/
def zero : UInt8 := 0x00

/-- A push with a length field of one byte. -/
def pushData1 : UInt8 := 0x4c

/-- A push with a length field of two bytes. -/
def pushData2 : UInt8 := 0x4d

/-- A push with a length field of four bytes. -/
def pushData4 : UInt8 := 0x4e

/-- Pushes the number 1. -/
def one : UInt8 := 0x51

/-- Pushes the number 16. -/
def sixteen : UInt8 := 0x60

/-- Duplicates the top item. -/
def dup : UInt8 := 0x76

/-- Compares two items. -/
def equal : UInt8 := 0x87

/-- Compares two items and fails if they differ. -/
def equalVerify : UInt8 := 0x88

/-- Hashes the top item to twenty bytes. -/
def hash160 : UInt8 := 0xa9

/-- Checks one signature. -/
def checkSig : UInt8 := 0xac

/-- Checks several signatures. -/
def checkMultiSig : UInt8 := 0xae

/-- The largest length that is its own push opcode. -/
def maxDirectPush : UInt8 := 75

/-- Whether `code` starts a push and so never stands alone. -/
def isPush (code : UInt8) : Bool :=
  0 < code && code ≤ pushData4

@[simp] theorem isPush_iff
    (code : UInt8) :
    isPush code = true ↔ 1 ≤ code.toNat ∧ code.toNat ≤ 78 := by
  simp only [isPush, pushData4, Bool.and_eq_true, decide_eq_true_eq,
    UInt8.lt_iff_toNat_lt, UInt8.le_iff_toNat_le]
  exact Iff.rfl

end Opcode
end ScriptCodec
