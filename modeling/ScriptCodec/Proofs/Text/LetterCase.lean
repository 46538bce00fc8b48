import Mathlib
import ScriptCodec.Proofs.Text.Utf8

/-!
# Letter case

Only ASCII letters have a lower case here.  A text keeps its size when its letters are put in lower
case, and its characters are found one by one.  A character that is no letter is the lower case of
itself alone.
-/

namespace ScriptCodec

theorem isUpper_iff
    {c : Char} :
    c.isUpper = true ↔ 65 ≤ c.toNat ∧ c.toNat ≤ 90 := by
  simp only [Char.isUpper, ge_iff_le, decide_eq_true_eq, UInt32.le_iff_toNat_le]
  rfl

theorem toNat_toLower
    (c : Char) :
    c.toLower.toNat = if c.isUpper then c.toNat + 32 else c.toNat := by
  split
  · next upper =>
      have small := isUpper_iff.mp upper
      have valid : (c.toNat + 32).isValidChar := by
        left
        omega
      rw [Char.toLower_eq_of_isUpper upper, Char.toNat_ofNat, if_pos valid]
  · next lower =>
      rw [Char.toLower_eq_of_not_isUpper lower]

/-- A character that is no letter is the lower case of itself and of nothing else. -/
theorem toLower_eq_iff
    (mark : Char)
    (noLetter : mark.isAlpha = false)
    (c : Char) :
    c.toLower = mark ↔ c = mark := by
  by_cases upper : c.isUpper
  · have letter : c.isAlpha = true := by
      rw [Char.isAlpha, upper, Bool.true_or]
    constructor
    · rintro rfl
      rw [Char.isAlpha_toLower_eq_isAlpha, letter] at noLetter
      cases noLetter
    · rintro rfl
      rw [letter] at noLetter
      cases noLetter
  · rw [Char.toLower_eq_of_not_isUpper upper]

theorem utf8Size_of_ascii
    {c : Char}
    (ascii : c.toNat < 128) :
    c.utf8Size = 1 :=
  Char.utf8Size_eq_one_iff.mpr (UInt32.le_iff_toNat_le.mpr (Nat.le_of_lt_succ ascii))

/-- A letter has the same size in either case. -/
theorem utf8Size_toLower
    (c : Char) :
    c.toLower.utf8Size = c.utf8Size := by
  by_cases upper : c.isUpper
  · have small := isUpper_iff.mp upper
    have lower := toNat_toLower c
    rw [if_pos upper] at lower
    rw [utf8Size_of_ascii (by omega), utf8Size_of_ascii (by omega)]
  · rw [Char.toLower_eq_of_not_isUpper upper]

theorem toList_toLower
    (text : String) :
    text.toLower.toList = text.toList.map Char.toLower :=
  String.toList_map

end ScriptCodec
