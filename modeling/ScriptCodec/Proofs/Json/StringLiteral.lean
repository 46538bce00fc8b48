import ScriptCodec.Json.Value
import ScriptCodec.Json.Write

/-!
# Reading strings of JSON back

Every text can be written as a string of JSON.  `readStringOnto_escape` is one step of reading: an
escaped character is read as that character, whatever follows.  By `readWhole_writeText` whoever
wants a string gets the text that was written.
-/

namespace ScriptCodec
namespace Json

/-- The code point of a control character is read from its escape. -/
theorem readCodeUnit_byteDigits
    {n : Nat}
    (small : n < 256)
    (rest : List Char) :
    readCodeUnit ('0' :: '0' :: (Hex.byteDigits (UInt8.ofNat n) ++ rest)) = .ok (n, rest) := by
  have fits : (UInt8.ofNat n).toNat = n :=
    UInt8.toNat_ofNat_of_lt' small
  have zero : Hex.digit? '0' = some 0 := by
    decide
  have high := Hex.digit?_digitChar (n / 16) (by omega)
  have low := Hex.digit?_digitChar (n % 16) (by omega)
  have value : ((0 * 16 + 0) * 16 + n / 16) * 16 + n % 16 = n := by
    omega
  rw [Hex.byteDigits, fits, List.cons_append, List.cons_append, List.nil_append, readCodeUnit, zero,
    high, low]
  simp only [value]

/-- A character is read from its letter. -/
theorem readEscape_letter :
    ∀ entry ∈ letters, ∀ rest, readEscape (entry.2 :: rest) = .ok (entry.1, rest) := by
  intro entry mem rest
  simp only [letters, List.mem_cons, List.not_mem_nil, or_false] at mem
  rcases mem with rfl | rfl | rfl | rfl | rfl | rfl | rfl
  all_goals rfl

section

variable {read rest : List Char}

/-- Behind a backslash, reading goes on with the character of the escape. -/
theorem readStringOnto_backslash
    {cs : List Char}
    {c : Char}
    (escaped : readEscape cs = .ok (c, rest)) :
    readStringOnto read ('\\' :: cs) = readStringOnto (c :: read) rest := by
  rw [readStringOnto, if_neg (by decide), if_pos rfl]
  split
  · next failed =>
      rw [escaped] at failed
      cases failed
  · next found =>
      rw [escaped] at found
      cases found
      rfl

/-- A character is read from the way it is written. -/
theorem readStringOnto_escape
    (c : Char) :
    readStringOnto read (escape c ++ rest) = readStringOnto (c :: read) rest := by
  cases entry : letters.find? (fun entry => entry.1 == c) with
  | some entry' =>
      have same : entry'.1 = c := by
        simpa using List.find?_some entry
      have written : escape c = ['\\', entry'.2] := by
        simp only [escape, entry]
      rw [written, ← same]
      exact readStringOnto_backslash (readEscape_letter entry' (List.mem_of_find?_eq_some entry) _)
  | none =>
      have noLetter : ∀ entry ∈ letters, c ≠ entry.1 := by
        intro entry' mem same
        have other := List.find?_eq_none.mp entry entry' mem
        exact other (by simp [same])
      by_cases control : c < ' '
      · have small : c.toNat < 32 :=
          UInt32.lt_iff_toNat_lt.mp control
        have unit := readCodeUnit_byteDigits (Nat.lt_trans small (by decide)) rest
        have escaped : readEscape ('u' :: '0' :: '0' ::
            (Hex.byteDigits (UInt8.ofNat c.toNat) ++ rest)) = .ok (c, rest) := by
          have whole : ¬ (0xDC00 ≤ c.toNat ∧ c.toNat ≤ 0xDFFF) ∧
              ¬ (0xD800 ≤ c.toNat ∧ c.toNat ≤ 0xDBFF) := by
            omega
          simp [readEscape, unit, whole]
        simp only [escape, entry, if_pos control]
        exact readStringOnto_backslash escaped
      · have quote : c ≠ '"' := noLetter ('"', '"') (by decide)
        have backslash : c ≠ '\\' := noLetter ('\\', '\\') (by decide)
        simp only [escape, entry, if_neg control]
        rw [List.singleton_append, readStringOnto, if_neg quote, if_neg backslash, if_neg control]

/-- A written text is read up to the closing quote. -/
theorem readStringOnto_flatMap_escape
    (cs : List Char) :
    readStringOnto read (cs.flatMap escape ++ '"' :: rest) =
      .ok (String.ofList (read.reverse ++ cs), rest) := by
  induction cs generalizing read with
  | nil =>
      simp [readStringOnto]
  | cons c cs ih =>
      rw [List.flatMap_cons, List.append_assoc, readStringOnto_escape, ih]
      simp

end

/-- A reader of strings gets the text that was written. -/
theorem readWhole_writeText
    {α : Type}
    (wanted : Expectation)
    (parse : String → Except String α)
    (text : String) :
    readWhole (readParsed wanted parse) (writeText text) =
      (parse text).mapError fun reason => .misfit (.rejected reason) := by
  have found : readText wanted (writeText text).toList = .ok (text, []) := by
    rw [writeText, String.toList_ofList, readText]
    have start : skipSpace ('"' :: text.toList.flatMap escape ++ ['"']) =
        '"' :: (text.toList.flatMap escape ++ ['"']) := by
      rfl
    simp only [start, if_true]
    rw [readString, readStringOnto_flatMap_escape]
    simp
  simp only [readWhole, readParsed, found]
  cases parse text with
  | error reason =>
      rfl
  | ok a =>
      rfl

end Json
end ScriptCodec
