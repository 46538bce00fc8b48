import ScriptCodec.Text.Utf8

/-!
# Hexadecimal text

Two digits per byte, the high half first.  Bytes are written in lowercase; digits of either case
are read.  `ofDigits?_digits` states that reading gives back what was written, and
`display_eq_encode` that bytes are shown the way they are written.
-/

namespace ScriptCodec
namespace Hex

/-- Why a text is not the hexadecimal form of bytes. -/
inductive Error where
  /-- The text has an odd number of bytes -/
  | oddLength (size : Nat)
  /-- The first byte of the text that is no hex digit -/
  | invalidByte (byte : UInt8)
deriving DecidableEq, Repr

/-- What went wrong, from the outermost statement to the innermost. -/
def Error.chain : Error → List String
  | .oddLength n =>
      ["odd length, failed to create bytes from hex", s!"odd hex string length {n}"]
  | .invalidByte b =>
      ["invalid char, failed to create bytes from hex", s!"invalid hex char {b.toNat}"]

/-- The value of a hex digit of either case. -/
def digit? (c : Char) : Option Nat :=
  let n := c.toNat
  if 48 ≤ n ∧ n ≤ 57 then some (n - 48)
  else if 65 ≤ n ∧ n ≤ 70 then some (n - 55)
  else if 97 ≤ n ∧ n ≤ 102 then some (n - 87)
  else none

/-- Whether `c` is a hex digit of either case. -/
def isDigit (c : Char) : Bool :=
  (digit? c).isSome

/-- The two digits of a byte. -/
def byteDigits (b : UInt8) : List Char :=
  [Nat.digitChar (b.toNat / 16), Nat.digitChar (b.toNat % 16)]

/-- The digits of all bytes. -/
def digits (bytes : List UInt8) : List Char :=
  bytes.flatMap byteDigits

/-- The lowercase hexadecimal form of `bytes`. -/
def encode (bytes : List UInt8) : String :=
  String.ofList (digits bytes)

/-- A byte as a numeral to base sixteen, filled up to two digits with zeros. -/
def numeral (b : UInt8) : List Char :=
  let shortest := Nat.toDigits 16 b.toNat
  List.replicate (2 - shortest.length) '0' ++ shortest

/-- The bytes as they are shown: one numeral after the other is written behind the text. -/
def display (bytes : List UInt8) : String :=
  bytes.foldl (fun text b => text ++ String.ofList (numeral b)) ""

/-- Reads digit pairs with `read` already read, latest first. -/
def ofDigitsOnto (read : List UInt8) : List Char → Option (List UInt8)
  | [] => some read.reverse
  | [_] => none
  | a :: b :: rest =>
      match digit? a, digit? b with
      | some x, some y => ofDigitsOnto (UInt8.ofNat (16 * x + y) :: read) rest
      | _, _ => none

/-- The bytes that an even number of hex digits stands for. -/
def ofDigits? (cs : List Char) : Option (List UInt8) :=
  ofDigitsOnto [] cs

/-- Reads a text of hex digits.  An odd size is reported before any character is looked at. -/
def decode (text : String) : Except Error (List UInt8) :=
  if text.utf8ByteSize % 2 = 1 then .error (.oddLength text.utf8ByteSize)
  else
    match text.toList.find? (fun c => !isDigit c) with
    | some c => .error (.invalidByte ((String.utf8EncodeChar c).headD 0))
    | none => .ok ((ofDigits? text.toList).getD [])

/-- A written digit is read as its value. -/
theorem digit?_digitChar :
    ∀ n : Nat, n < 16 → digit? (Nat.digitChar n) = some n := by
  decide

theorem ofDigitsOnto_digits
    (read bytes : List UInt8) :
    ofDigitsOnto read (digits bytes) = some (read.reverse ++ bytes) := by
  induction bytes generalizing read with
  | nil => simp [digits, ofDigitsOnto]
  | cons b rest ih =>
    have high := digit?_digitChar (b.toNat / 16)
      (Nat.div_lt_of_lt_mul b.toNat_lt)
    have low := digit?_digitChar (b.toNat % 16) (Nat.mod_lt _ (by decide))
    have split : digits (b :: rest) =
        Nat.digitChar (b.toNat / 16) :: Nat.digitChar (b.toNat % 16) :: digits rest := rfl
    have joined : UInt8.ofNat (16 * (b.toNat / 16) + b.toNat % 16) = b := by
      rw [Nat.div_add_mod]
      exact UInt8.ofNat_toNat
    rw [split, ofDigitsOnto, high, low]
    simp only [joined]
    rw [ih]
    simp

theorem exists_digitChar_of_mem_digits
    {bytes : List UInt8}
    {c : Char}
    (mem : c ∈ digits bytes) :
    ∃ n, n < 16 ∧ c = Nat.digitChar n := by
  obtain ⟨b, _, digit⟩ := List.mem_flatMap.mp mem
  simp only [byteDigits, List.mem_cons, List.not_mem_nil, or_false] at digit
  rcases digit with rfl | rfl
  · exact ⟨_, Nat.div_lt_of_lt_mul b.toNat_lt, rfl⟩
  · exact ⟨_, Nat.mod_lt _ (by decide), rfl⟩

theorem isDigit_of_mem_digits
    {bytes : List UInt8}
    {c : Char}
    (mem : c ∈ digits bytes) :
    isDigit c = true := by
  obtain ⟨n, small, rfl⟩ := exists_digitChar_of_mem_digits mem
  simp [isDigit, digit?_digitChar n small]

@[simp] theorem length_digits
    (bytes : List UInt8) :
    (digits bytes).length = 2 * bytes.length := by
  induction bytes with
  | nil => rfl
  | cons b rest ih =>
    have split : digits (b :: rest) = byteDigits b ++ digits rest := rfl
    rw [split, List.length_append, ih, List.length_cons]
    simp only [byteDigits, List.length_cons, List.length_nil]
    omega

/-- The numeral of a byte is its two digits. -/
theorem numeral_eq
    (b : UInt8) :
    numeral b = byteDigits b := by
  have fits : b.toNat / 16 < 16 :=
    Nat.div_lt_of_lt_mul b.toNat_lt
  by_cases small : b.toNat < 16
  · have low : b.toNat % 16 = b.toNat := Nat.mod_eq_of_lt small
    have high : b.toNat / 16 = 0 := Nat.div_eq_of_lt small
    simp only [numeral, byteDigits, Nat.toDigits_of_lt_base small, low, high]
    rfl
  · have two : Nat.toDigits 16 b.toNat = byteDigits b := by
      rw [Nat.toDigits_of_base_le (by decide) (by omega), Nat.toDigits_of_lt_base fits]
      rfl
    simp only [numeral, two]
    rfl

/-- Showing bytes and writing them gives the same text. -/
theorem display_eq_encode
    (bytes : List UInt8) :
    display bytes = encode bytes := by
  have general : ∀ (bytes : List UInt8) (text : String),
      bytes.foldl (fun text b => text ++ String.ofList (numeral b)) text = text ++ encode bytes := by
    intro bytes
    induction bytes with
    | nil =>
      intro text
      simp [encode, digits]
    | cons b rest ih =>
      intro text
      have split : encode (b :: rest) = String.ofList (byteDigits b) ++ encode rest :=
        String.ofList_append
      rw [List.foldl_cons, ih, numeral_eq, String.append_assoc, split]
  rw [display, general, String.empty_append]

/-- Reading gives back what was written. -/
theorem ofDigits?_digits
    (bytes : List UInt8) :
    ofDigits? (digits bytes) = some bytes := by
  rw [ofDigits?, ofDigitsOnto_digits]
  rfl

/-- Every byte takes two digits. -/
theorem length_of_ofDigitsOnto
    {read bytes : List UInt8}
    {cs : List Char}
    (decoded : ofDigitsOnto read cs = some bytes) :
    2 * bytes.length = 2 * read.length + cs.length := by
  fun_induction ofDigitsOnto read cs with
  | case1 read =>
    simp only [Option.some.injEq] at decoded
    simp [← decoded]
  | case2 => cases decoded
  | case3 read a b rest x y high low ih =>
    have size := ih decoded
    simp only [List.length_cons] at size ⊢
    omega
  | case4 => cases decoded

end Hex
end ScriptCodec
