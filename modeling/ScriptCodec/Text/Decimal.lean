/-!
# Decimal numerals

Reading a run of ASCII digits as a number, with the limits of 64-bit words.  Leading zeros never
matter: only the value counts.  `word64?_toDigits` states that a number of 64 bits is read from its
own digits.
-/

namespace ScriptCodec
namespace Decimal

/-- The value of one digit character. -/
def digitValue (c : Char) : Nat :=
  c.toNat - 48

/-- The number that a run of digits denotes. -/
def value (digits : List Char) : Nat :=
  digits.foldl (fun n c => 10 * n + digitValue c) 0

/-- The number that a non-empty run of digits denotes, if it fits an unsigned 64-bit word. -/
def word64? (digits : List Char) : Option Nat :=
  if digits.isEmpty then none
  else
    let n := value digits
    if n < UInt64.size then some n else none

/-- Reads an optional sign and at least one digit as a signed 64-bit number. -/
def int64? (cs : List Char) : Option Int :=
  let negative := cs.head? == some '-'
  let digits := if negative || cs.head? == some '+' then cs.drop 1 else cs
  if digits.isEmpty || !digits.all Char.isDigit then none
  else
    let n : Int := if negative then -(value digits : Int) else (value digits : Int)
    if Int64.minValue.toInt ≤ n ∧ n ≤ Int64.maxValue.toInt then some n else none

theorem value_toDigits
    (n : Nat) :
    value (Nat.toDigits 10 n) = n :=
  Nat.ofDigitChars_ten_toDigits

/-- A number that fits is read from its digits. -/
theorem word64?_toDigits
    {n : Nat}
    (fits : n < UInt64.size) :
    word64? (Nat.toDigits 10 n) = some n := by
  have some_digit : (Nat.toDigits 10 n).isEmpty = false := by
    simp [Nat.toDigits_ne_nil]
  simp only [word64?, some_digit, value_toDigits]
  exact if_pos fits

end Decimal
end ScriptCodec
