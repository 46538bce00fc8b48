import ScriptCodec.Proofs.Text.LetterCase
import ScriptCodec.Text.Hex

/-!
# Reading hexadecimal text

A text is read exactly if its characters are digits of either case that come in pairs.  The form
that is written is such a text, so reading it gives the bytes back, and any other text that is read
as the same bytes differs from it in the case of letters only, which is `decode_eq_ok_iff`.
-/

namespace ScriptCodec
namespace Hex

/-! ## Digits of either case -/

/-- The digit of a value that a character was read as is that character in lower case. -/
theorem digitChar_of_digit?
    {c : Char}
    {n : Nat}
    (value : digit? c = some n) :
    n < 16 ∧ Nat.digitChar n = c.toLower := by
  have table : ∀ k < 103, ∀ n ∈ digit? (Char.ofNat k),
      n < 16 ∧ Nat.digitChar n = (Char.ofNat k).toLower := by
    decide
  have small : c.toNat < 103 := by
    by_contra large
    have outside : digit? c = none := by
      simp only [digit?]
      rw [if_neg (by omega), if_neg (by omega), if_neg (by omega)]
    rw [outside] at value
    cases value
  have found := table c.toNat small n
  rw [Char.ofNat_toNat] at found
  exact found value

theorem utf8Size_of_isDigit
    {c : Char}
    (digit : isDigit c = true) :
    c.utf8Size = 1 := by
  obtain ⟨n, value⟩ := Option.isSome_iff_exists.mp digit
  obtain ⟨small, lower⟩ := digitChar_of_digit? value
  have one : ∀ n < 16, (Nat.digitChar n).utf8Size = 1 := by
    decide
  rw [← utf8Size_toLower, ← lower, one n small]

/-- Digits have the same value in either case. -/
theorem digit?_toLower
    (c : Char) :
    digit? c.toLower = digit? c := by
  by_cases upper : c.isUpper
  · have letter := isUpper_iff.mp upper
    have lower := toNat_toLower c
    rw [if_pos upper] at lower
    simp only [digit?, lower]
    grind
  · rw [Char.toLower_eq_of_not_isUpper upper]

/-- The case of digits is not looked at. -/
theorem ofDigitsOnto_map_toLower
    (read : List UInt8)
    (cs : List Char) :
    ofDigitsOnto read (cs.map Char.toLower) = ofDigitsOnto read cs := by
  fun_induction ofDigitsOnto read cs with
  | case1 read =>
      rfl
  | case2 read c =>
      rfl
  | case3 read a b rest x y low high ih =>
      simp only [List.map_cons, ofDigitsOnto, digit?_toLower, high, low, ih]
  | case4 read a b rest unknown =>
      simp only [List.map_cons, ofDigitsOnto, digit?_toLower]

/-- The bytes that were read have the digits that were read, in lower case. -/
theorem digits_of_ofDigitsOnto
    {read bytes : List UInt8}
    {cs : List Char}
    (decoded : ofDigitsOnto read cs = some bytes) :
    digits bytes = digits read.reverse ++ cs.map Char.toLower := by
  fun_induction ofDigitsOnto read cs with
  | case1 read =>
      cases decoded
      simp
  | case2 =>
      cases decoded
  | case3 read a b rest x y low high ih =>
      obtain ⟨high_small, high_digit⟩ := digitChar_of_digit? high
      obtain ⟨low_small, low_digit⟩ := digitChar_of_digit? low
      have fits : (UInt8.ofNat (16 * x + y)).toNat = 16 * x + y :=
        UInt8.toNat_ofNat_of_lt' (by simp only [UInt8.size]; omega)
      have first : byteDigits (UInt8.ofNat (16 * x + y)) = [a.toLower, b.toLower] := by
        have quotient : (16 * x + y) / 16 = x := by
          omega
        have remainder : (16 * x + y) % 16 = y := by
          omega
        rw [byteDigits, fits, quotient, remainder, high_digit, low_digit]
      have reversed : digits (UInt8.ofNat (16 * x + y) :: read).reverse =
          digits read.reverse ++ [a.toLower, b.toLower] := by
        rw [List.reverse_cons, digits, List.flatMap_append, List.flatMap_singleton, first]
        rfl
      rw [ih decoded, reversed, List.append_assoc]
      rfl
  | case4 =>
      cases decoded

/-- Digits are read as bytes exactly if they are the written ones, up to their case. -/
theorem ofDigits?_eq_some_iff
    {cs : List Char}
    {bytes : List UInt8} :
    ofDigits? cs = some bytes ↔ digits bytes = cs.map Char.toLower := by
  constructor
  · exact digits_of_ofDigitsOnto
  · intro same
    rw [ofDigits?, ← ofDigitsOnto_map_toLower, ← same]
    exact ofDigits?_digits bytes

/-- Digits stand for bytes if their number is even. -/
theorem exists_ofDigitsOnto
    (read : List UInt8)
    {cs : List Char}
    (even : cs.length % 2 = 0)
    (known : ∀ c ∈ cs, isDigit c = true) :
    ∃ bytes, ofDigitsOnto read cs = some bytes := by
  fun_induction ofDigitsOnto read cs with
  | case1 read =>
      exact ⟨_, rfl⟩
  | case2 =>
      cases even
  | case3 read a b rest x y low high ih =>
      apply ih
      · simp only [List.length_cons] at even
        omega
      · intro c mem
        exact known c (by simp [mem])
  | case4 read a b rest unknown =>
      obtain ⟨x, high⟩ := Option.isSome_iff_exists.mp (known a (by simp))
      obtain ⟨y, low⟩ := Option.isSome_iff_exists.mp (known b (by simp))
      exact (unknown x y high low).elim

/-! ## Whole texts -/

/-- A text is read exactly if its characters are digits that stand for bytes. -/
theorem decode_eq_ok_iff_ofDigits?
    {text : String}
    {bytes : List UInt8} :
    decode text = .ok bytes ↔ ofDigits? text.toList = some bytes := by
  have size : (∀ c ∈ text.toList, isDigit c = true) → text.utf8ByteSize = text.toList.length := by
    intro known
    rw [← utf8ByteSize_ofList_ascii fun c mem => utf8Size_of_isDigit (known c mem),
      String.ofList_toList]
  constructor
  · intro read
    simp only [decode] at read
    split at read
    · cases read
    · next even =>
        split at read
        · cases read
        · next found =>
            have known : ∀ c ∈ text.toList, isDigit c = true := by
              simpa using List.find?_eq_none.mp found
            rw [size known] at even
            obtain ⟨bytes', digits_read⟩ := exists_ofDigitsOnto [] (by omega) known
            rw [ofDigits?, digits_read] at read
            cases read
            exact digits_read
  · intro read
    have known : ∀ c ∈ text.toList, isDigit c = true := by
      intro c mem
      have in_digits : c.toLower ∈ digits bytes := by
        rw [ofDigits?_eq_some_iff.mp read]
        exact List.mem_map_of_mem mem
      rw [isDigit, ← digit?_toLower]
      exact isDigit_of_mem_digits in_digits
    have found : text.toList.find? (fun c => !isDigit c) = none := by
      simpa using known
    have whole : 2 * bytes.length = 2 * 0 + text.toList.length :=
      length_of_ofDigitsOnto read
    have even : ¬ text.utf8ByteSize % 2 = 1 := by
      rw [size known]
      omega
    rw [decode, if_neg even, found, read]
    rfl

/-- A text is read as bytes exactly if it is their written form, up to the case of letters. -/
theorem decode_eq_ok_iff
    {text : String}
    {bytes : List UInt8} :
    decode text = .ok bytes ↔ encode bytes = text.toLower := by
  rw [decode_eq_ok_iff_ofDigits?, ofDigits?_eq_some_iff, ← toList_toLower, encode,
    ← String.toList_inj, String.toList_ofList]

/-- Reading gives back the bytes that were written. -/
theorem decode_encode
    (bytes : List UInt8) :
    decode (encode bytes) = .ok bytes := by
  rw [decode_eq_ok_iff_ofDigits?, encode, String.toList_ofList]
  exact ofDigits?_digits bytes

end Hex
end ScriptCodec
