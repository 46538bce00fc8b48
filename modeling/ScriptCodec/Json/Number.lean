import ScriptCodec.Json.Error
import ScriptCodec.Text.Decimal

/-!
# Numbers of JSON

A number without fraction and exponent that fits a signed or unsigned 64-bit word is an integer.
Every other number, negative zero included, is a double: its leading digits that fit an unsigned
64-bit word are scaled by a power of ten, and a result beyond the range of doubles is malformed.

`skipNumber` passes over a number whose value is not wanted and accepts any range.
-/

namespace ScriptCodec
namespace Json

/-- The value of a number. -/
inductive Number where
  | integer (value : Int)
  | double (value : Float)

/-- Takes digits into a word while the result fits 64 bits: the word and how many were taken. -/
def fillWord (word taken : Nat) : List Char → Nat × Nat
  | [] => (word, taken)
  | c :: rest =>
      let next := word * 10 + Decimal.digitValue c
      if next < UInt64.size then fillWord next (taken + 1) rest else (word, taken)

/-- The power of ten as a double. -/
def tenTo (n : Nat) : Float :=
  Float.ofScientific 1 false n

/-- Divides by a power of ten in steps that doubles can hold. -/
def shrinkBy (x : Float) (n : Nat) : Float :=
  if _h : n ≤ 308 then x / tenTo n
  else if x == 0 then x
  else shrinkBy (x / tenTo 308) (n - 308)
termination_by n
decreasing_by omega

/-- The double with the given word scaled by a power of ten. -/
def scaled (negative : Bool) (word : Nat) (exponent : Int) : Except Error Float :=
  let x := Float.ofNat word
  let signed (y : Float) : Float := if negative then -y else y
  if exponent < 0 then .ok (signed (shrinkBy x exponent.natAbs))
  else if 308 < exponent then
    if x == 0 then .ok (signed x) else .error .malformed
  else
    let y := x * tenTo exponent.natAbs
    if y.isInf then .error .malformed else .ok (signed y)

/-- The largest exponent that is counted; beyond it only the sign matters. -/
def maxExponent : Nat := Int32.maxValue.toNatClampNeg

/-- Reads an exponent, behind its mark, and scales the word by it. -/
def readExponent (negative : Bool) (word : Nat) (exponent : Int) : Read Number := fun cs =>
  let down := cs.head? == some '-'
  let cs := if down || cs.head? == some '+' then cs.drop 1 else cs
  let digits := cs.takeWhile Char.isDigit
  let rest := cs.dropWhile Char.isDigit
  if digits.isEmpty then .error (if cs.isEmpty then .endOfText else .malformed)
  else
    let n := Decimal.value digits
    if maxExponent < n then
      if word ≠ 0 ∧ !down then .error .malformed
      else .ok (.double (if negative then -0.0 else 0.0), rest)
    else
      match scaled negative word (if down then exponent - n else exponent + n) with
      | .error e => .error e
      | .ok x => .ok (.double x, rest)

/-- Reads what follows the digits of a number that has become a double. -/
def readDouble (negative : Bool) (word : Nat) (exponent : Int) : Read Number := fun cs =>
  match cs with
  | c :: rest =>
      if c = 'e' ∨ c = 'E' then readExponent negative word exponent rest
      else
        match scaled negative word exponent with
        | .error e => .error e
        | .ok x => .ok (.double x, cs)
  | [] =>
      match scaled negative word exponent with
      | .error e => .error e
      | .ok x => .ok (.double x, cs)

/-- Reads a fraction, behind its point. -/
def readFraction (negative : Bool) (word : Nat) (exponent : Int) : Read Number := fun cs =>
  let digits := cs.takeWhile Char.isDigit
  if digits.isEmpty then .error (if cs.isEmpty then .endOfText else .malformed)
  else
    let (word, taken) := fillWord word 0 digits
    readDouble negative word (exponent - taken) (cs.dropWhile Char.isDigit)

/-- The value of a word with its sign. -/
def wordNumber (negative : Bool) (word : Nat) : Number :=
  if !negative then .integer word
  else if word = 0 ∨ Int64.minValue.toInt.natAbs < word then .double (-(Float.ofNat word))
  else .integer (-(word : Int))

/-- Reads a number, behind its sign. -/
def readUnsigned (negative : Bool) : Read Number := fun cs =>
  let digits := cs.takeWhile Char.isDigit
  let rest := cs.dropWhile Char.isDigit
  if digits.isEmpty then .error (if cs.isEmpty then .endOfText else .malformed)
  else if digits.head? = some '0' ∧ 1 < digits.length then .error .malformed
  else
    let (word, taken) := fillWord 0 0 digits
    let exponent : Int := digits.length - taken
    match rest with
    | '.' :: rest => readFraction negative word exponent rest
    | c :: _ =>
        if c = 'e' ∨ c = 'E' ∨ exponent ≠ 0 then readDouble negative word exponent rest
        else .ok (wordNumber negative word, rest)
    | [] =>
        if exponent ≠ 0 then readDouble negative word exponent rest
        else .ok (wordNumber negative word, rest)

/-- Whether a number starts here. -/
def startsNumber (c : Char) : Bool :=
  c == '-' || c.isDigit

/-- Reads a number. -/
def readNumber : Read Number := fun cs =>
  match cs with
  | '-' :: rest => readUnsigned true rest
  | _ => readUnsigned false cs

/-- Passes over at least one digit. -/
def skipDigits (cs : List Char) : Except Error (List Char) :=
  match cs with
  | c :: rest => if c.isDigit then .ok (rest.dropWhile Char.isDigit) else .error .malformed
  | [] => .error .malformed

/-- Passes over an exponent, if there is one. -/
def skipExponent (cs : List Char) : Except Error (List Char) :=
  match cs with
  | c :: rest =>
      if c = 'e' ∨ c = 'E' then
        let signed := rest.head? == some '-' || rest.head? == some '+'
        skipDigits (if signed then rest.drop 1 else rest)
      else .ok cs
  | [] => .ok cs

/-- Passes over a fraction and an exponent, if there are any. -/
def skipFraction (cs : List Char) : Except Error (List Char) :=
  match cs with
  | '.' :: rest =>
      match skipDigits rest with
      | .error e => .error e
      | .ok rest => skipExponent rest
  | _ => skipExponent cs

/-- Passes over a number, behind its sign. -/
def skipUnsigned (cs : List Char) : Except Error (List Char) :=
  match cs with
  | '0' :: rest =>
      if (rest.head?.map Char.isDigit).getD false then .error .malformed else skipFraction rest
  | _ =>
      match skipDigits cs with
      | .error e => .error e
      | .ok rest => skipFraction rest

/-- Passes over a number. -/
def skipNumber (cs : List Char) : Except Error (List Char) :=
  match cs with
  | '-' :: rest => skipUnsigned rest
  | _ => skipUnsigned cs

end Json
end ScriptCodec
