import ScriptCodec.Opcode.Standard
import ScriptCodec.Proofs.Opcode.Lookup
import ScriptCodec.Term
import ScriptCodec.Text.Hex

/-!
# The wording of tables

On a regular table every word is the mark and a body in capitals, the body is not marked again, and
exactly the opcodes that start a push may be without a word.  A word is then the normal form of
itself and of its body, with or without the mark the opcode is found again, and hex digits never
name an opcode that starts a push.

`regular_standard` shows that the standard table is regular.
-/

namespace ScriptCodec
namespace Opcode

/-- The characters of words in tables. -/
def isWordChar (c : Char) : Bool :=
  c.isUpper || c.isDigit || c == '_'

/-- A word of the table: the mark, and a body which is not marked and no literal. -/
structure IsWord
    (word : List Char) : Prop where
  marked : Term.mark.isPrefixOf word = true
  body_ne_nil : word.drop Term.mark.length ≠ []
  once : Term.mark.isPrefixOf (word.drop Term.mark.length) = false
  chars : ∀ c ∈ word, isWordChar c = true
  not_prefixed : (word.drop Term.mark.length).take 2 ≠ ['0', 'X']

instance
    (word : List Char) :
    Decidable (IsWord word) :=
  decidable_of_iff
    (Term.mark.isPrefixOf word = true ∧
      word.drop Term.mark.length ≠ [] ∧
      Term.mark.isPrefixOf (word.drop Term.mark.length) = false ∧
      word.all isWordChar = true ∧
      (word.drop Term.mark.length).take 2 ≠ ['0', 'X'])
    ⟨fun ⟨marked, body, once, chars, hex⟩ =>
        ⟨marked, body, once, List.all_eq_true.mp chars, hex⟩,
      fun ⟨marked, body, once, chars, hex⟩ =>
        ⟨marked, body, once, List.all_eq_true.mpr chars, hex⟩⟩

theorem toUpper_of_isWordChar
    {c : Char}
    (wordChar : isWordChar c = true) :
    c.toUpper = c := by
  have notLower : ¬ ('a'.val ≤ c.val ∧ c.val ≤ 'z'.val) := by
    rintro ⟨low, _⟩
    simp only [isWordChar, Bool.or_eq_true, beq_iff_eq] at wordChar
    rcases wordChar with (upper | digit) | rfl
    · have high : c.val ≤ 'Z'.val := (of_decide_eq_true upper).2
      exact absurd (UInt32.le_trans low high) (by decide)
    · have high : c.val ≤ '9'.val := of_decide_eq_true (Bool.and_eq_true_iff.mp digit).2
      exact absurd (UInt32.le_trans low high) (by decide)
    · exact absurd low (by decide)
  exact dif_neg notLower

namespace IsWord

variable {word : List Char}

/-- A word is its mark and its body. -/
theorem mark_append_body
    (isWord : IsWord word) :
    Term.mark ++ word.drop Term.mark.length = word :=
  List.prefix_iff_eq_append.mp (List.isPrefixOf_iff_prefix.mp isWord.marked)

theorem map_toUpper
    (isWord : IsWord word) :
    word.map Char.toUpper = word := by
  rw [List.map_congr_left fun c mem => toUpper_of_isWordChar (isWord.chars c mem)]
  exact List.map_id word

/-- A word is its own normal form. -/
theorem normalChars_eq
    (isWord : IsWord word) :
    Term.normalChars word = word := by
  simp [Term.normalChars, isWord.map_toUpper, isWord.marked]

/-- A word is the normal form of its body. -/
theorem normalChars_body
    (isWord : IsWord word) :
    Term.normalChars (word.drop Term.mark.length) = word := by
  have upper : (word.drop Term.mark.length).map Char.toUpper = word.drop Term.mark.length := by
    rw [List.map_drop, isWord.map_toUpper]
  simp only [Term.normalChars, upper, isWord.once]
  exact isWord.mark_append_body

end IsWord

/-! ## Hex digits as words -/

theorem isDigit_of_mem_map_toUpper
    {data : List UInt8}
    {c : Char}
    (mem : c ∈ (Hex.digits data).map Char.toUpper) :
    Hex.isDigit c = true := by
  have upper : ∀ n, n < 16 → Hex.isDigit (Nat.digitChar n).toUpper = true := by
    decide
  obtain ⟨digit, in_digits, rfl⟩ := List.mem_map.mp mem
  obtain ⟨n, small, rfl⟩ := Hex.exists_digitChar_of_mem_digits in_digits
  exact upper n small

theorem normalChars_digits
    (data : List UInt8) :
    Term.normalChars (Hex.digits data) = Term.mark ++ (Hex.digits data).map Char.toUpper := by
  have unmarked : Term.mark.isPrefixOf ((Hex.digits data).map Char.toUpper) = false := by
    apply eq_false_of_ne_true
    intro marked
    have mem : 'O' ∈ (Hex.digits data).map Char.toUpper :=
      (List.isPrefixOf_iff_prefix.mp marked).subset (by decide)
    exact absurd (isDigit_of_mem_map_toUpper mem) (by decide)
  simp [Term.normalChars, unmarked]

/-! ## Regular tables -/

namespace Table

/-- Consistent tables with the words of the network's script language or such as they. -/
structure Regular
    (table : Table) : Prop extends table.Consistent where
  isWord : ∀ row ∈ table.latestFirst, ∀ word ∈ row.words, IsWord word.toList
  /-- Only pushes are without a word -/
  wordless : ∀ row ∈ table.latestFirst, row.words = [] →
    ∀ code ∈ row.opcodes, isPush code = true
  /-- Pushes do not have a word of hex digits -/
  no_hex_push : ∀ row ∈ table.latestFirst, ∀ code ∈ row.opcodes, isPush code = true →
    ∀ word ∈ row.words, ∃ c ∈ word.toList.drop Term.mark.length, Hex.isDigit c = false
  zero : table.codeOfWord "OP_0" = .ok Opcode.zero

namespace Regular

variable {table : Table}

/-- An opcode that stands alone has a name, which is a word for it. -/
theorem exists_nameOfCode
    (regular : table.Regular)
    {code : UInt8}
    (alone : table.StandsAlone code) :
    ∃ word,
      table.nameOfCode code = .ok word ∧
      IsWord word.toList ∧
      table.codeOfWord word = .ok code := by
  obtain ⟨has, noPush⟩ := alone
  obtain ⟨row, found⟩ := Option.isSome_iff_exists.mp has
  obtain ⟨mem, has_code⟩ := rowOfCode?_cases found
  have some_word : row.words ≠ [] := by
    intro none
    simp [regular.wordless row mem none code has_code] at noPush
  obtain ⟨word, worded⟩ := Row.exists_wordOf? some_word code
  refine ⟨word, ?_, ?_, ?_⟩
  · simp [nameOfCode, wordOfCode, rowOfCode, found, worded]
  · exact regular.isWord row mem word (Row.mem_of_wordOf? worded)
  · exact regular.toConsistent.codeOfWord_of_wordOf? mem has_code worded

/-- The digits of a byte list, when they are a word, name an opcode that stands alone. -/
theorem exists_code_of_digits
    (regular : table.Regular)
    {data : List UInt8}
    (has_word : table.hasWord (Term.normalize (Hex.digits data)) = true) :
    ∃ code,
      table.codeOfWord (Term.normalize (Hex.digits data)) = .ok code ∧
      table.StandsAlone code := by
  obtain ⟨row, mem, in_row⟩ := hasWord_iff.mp has_word
  obtain ⟨code, has_code, named⟩ := regular.toConsistent.exists_codeOfWord mem in_row
  refine ⟨code, named, hasCode_of_codeOfWord named, ?_⟩
  apply eq_false_of_ne_true
  intro push
  obtain ⟨c, in_body, noDigit⟩ := regular.no_hex_push row mem code has_code push _ in_row
  rw [Term.normalize, String.toList_ofList, normalChars_digits, List.drop_left] at in_body
  rw [isDigit_of_mem_map_toUpper in_body] at noDigit
  exact Bool.noConfusion noDigit

end Regular

/-! ## The standard table -/

/-- The characters of a word as the digits of one number. -/
def wordNumber
    (word : String) :
    Nat :=
  word.toList.foldl (fun n c => 256 * n + c.toNat) 0

theorem words_nodup_standard :
    (standard.latestFirst.flatMap Row.words).Nodup := by
  -- Numbers are compared much faster than strings.
  have numbers : ((standard.latestFirst.flatMap Row.words).map wordNumber).Nodup := by
    decide +kernel
  exact numbers.of_map

theorem isWord_standard :
    ∀ row ∈ standard.latestFirst, ∀ word ∈ row.words, IsWord word.toList := by
  decide +kernel

theorem wordless_standard
    {row : Row}
    (mem : row ∈ standard.latestFirst)
    (wordless : row.words = []) :
    ∀ code ∈ row.opcodes, isPush code = true := by
  have checked : ∀ row ∈ standard.latestFirst, row.words = [] → row.opcodes.all isPush = true := by
    decide +kernel
  exact List.all_eq_true.mp (checked row mem wordless)

theorem no_hex_push_standard
    {row : Row}
    (mem : row ∈ standard.latestFirst)
    {code : UInt8}
    (in_row : code ∈ row.opcodes)
    (push : isPush code = true)
    {word : String}
    (worded : word ∈ row.words) :
    ∃ c ∈ word.toList.drop Term.mark.length, Hex.isDigit c = false := by
  have checked : ∀ row ∈ standard.latestFirst, row.opcodes.any isPush = true →
      ∀ word ∈ row.words,
        (word.toList.drop Term.mark.length).any (fun c => !Hex.isDigit c) = true := by
    decide +kernel
  have some_push : row.opcodes.any isPush = true :=
    List.any_eq_true.mpr ⟨code, in_row, push⟩
  simpa using checked row mem some_push word worded

/-- The standard table is regular. -/
theorem regular_standard :
    standard.Regular where
  words_nodup := words_nodup_standard
  paired := by decide +kernel
  isWord := isWord_standard
  wordless _ mem wordless := wordless_standard mem wordless
  no_hex_push _ mem _ in_row push _ worded := no_hex_push_standard mem in_row push worded
  zero := by decide +kernel

end Table
end Opcode
end ScriptCodec
