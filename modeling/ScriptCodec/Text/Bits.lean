/-!
# Groups of bits

Numbers as bits, most significant first, and the cutting of a bit string into groups of one width.
Both text forms that carry bytes in groups of five or six bits are built on this.
-/

namespace ScriptCodec
namespace Bits

/-- The lowest `width` bits of a number, most significant first. -/
def ofNat : (width : Nat) → Nat → List Bool
  | 0, _ => []
  | w + 1, n => n.testBit w :: ofNat w n

/-- The number whose binary numeral is the bit string. -/
def toNat (bits : List Bool) : Nat :=
  bits.foldl (fun n b => 2 * n + b.toNat) 0

/-- The bits of numbers of one width, one after the other. -/
def join (width : Nat) (groups : List Nat) : List Bool :=
  groups.flatMap (ofNat width)

/-- Cuts `count` groups from the front, with `cut` already cut, latest first. -/
def cutOnto (width : Nat) (cut : List Nat) : (count : Nat) → List Bool → List Nat
  | 0, _ => cut.reverse
  | k + 1, bits => cutOnto width (toNat (bits.take width) :: cut) k (bits.drop width)

/-- The complete groups of a bit string; bits that are left over are dropped. -/
def wholeGroups (width : Nat) (bits : List Bool) : List Nat :=
  cutOnto width [] (bits.length / width) bits

/-- All groups of a bit string, the last one filled up with zeros. -/
def paddedGroups (width : Nat) (bits : List Bool) : List Nat :=
  let count := (bits.length + width - 1) / width
  cutOnto width [] count (bits ++ List.replicate (count * width - bits.length) false)

/-- The bits of bytes. -/
def ofBytes (bytes : List UInt8) : List Bool :=
  join 8 (bytes.map UInt8.toNat)

/-- The whole bytes at the front of a bit string. -/
def toBytes (bits : List Bool) : List UInt8 :=
  (wholeGroups 8 bits).map UInt8.ofNat

@[simp] theorem length_ofNat
    (width n : Nat) :
    (ofNat width n).length = width := by
  induction width with
  | zero => rfl
  | succ w ih => simp [ofNat, ih]

end Bits
end ScriptCodec
